import Winx.Fs.Path

/-! # File system calls

The system calls on files and directories, run by the current process, and the
parts of `sys_fork` and `sys_exit` that deal with descriptors.
-/

namespace Winx

/-- `sys_open` -/
def sysOpen (pathname : List UInt8) (flags : UInt8) : FsM Int := do
  inBounds (pathname ≠ [])
  if pathname.getLast? = some slash then pure (-1)
  else if flags > 7 then pure (-1)
  else
    let pathnameDepth ← pathDepthCnt pathname
    let (inodeNo, record) ← searchFile pathname
    if record.fileType = ftDirectory then
      dirClose record.parentDir
      pure (-1)
    else
      let pathSearchedDepth ← pathDepthCnt record.searchedPath
      if pathnameDepth ≠ pathSearchedDepth then
        dirClose record.parentDir
        pure (-1)
      else
        let flag := flags.toUInt32
        if inodeNo = -1 ∧ flag &&& oCreat = 0 then
          dirClose record.parentDir
          pure (-1)
        else if inodeNo ≠ -1 ∧ flag &&& oCreat ≠ 0 then
          dirClose record.parentDir
          pure (-1)
        else if flag &&& oCreat ≠ 0 then
          let filename ← afterLastSlash pathname
          let fd ← fileCreate record.parentDir filename flag
          dirClose record.parentDir
          pure fd
        else fileOpen (UInt32.ofInt inodeNo) flag

/-- `fd_local2global` -/
def fdLocal2global (localFd : Int) : FsM ℕ := do
  let cur ← runningThread
  inBounds (0 ≤ localFd ∧ localFd < maxFilesOpenPerProc)
  let globalFd := cur.fdTable localFd.toNat
  assert (0 ≤ globalFd ∧ globalFd < maxFileOpen)
  pure globalFd.toNat

/-- `sys_close` -/
def sysClose (fd : Int) : FsM Int := do
  if fd > 2 then
    let globalFd ← fdLocal2global fd
    let ret ← fileClose globalFd
    modifyThread fun t => { t with fdTable := Function.update t.fdTable fd.toNat (-1) }
    pure ret
  else pure (-1)

/-- `sys_write`; what goes to the console is not modelled. -/
def sysWrite (fd : Int) (buf : Bytes) (count : UInt32) : FsM Int := do
  if fd < 0 then pure (-1)
  else if fd = 1 then
    inBounds (count ≤ 1024)
    pure (toI32 count)
  else
    let globalFd ← fdLocal2global fd
    let s ← get
    if wantsWrite (s.fileTable globalFd).fdFlag then fileWrite globalFd buf count
    else pure (-1)

/-- `sys_read`: its result and the buffer; `keys` are the characters `ioq_getchar` returns. -/
def sysRead (keys : Bytes) (fd : Int) (buf : Bytes) (count : UInt32) : FsM (Int × Bytes) := do
  if fd < 0 ∨ fd = 1 ∨ fd = 2 then pure (-1, buf)
  else if fd = 0 then
    pure (if count = 0 then -1 else toI32 count, buf.splice 0 count.toNat keys)
  else
    let globalFd ← fdLocal2global fd
    fileRead globalFd buf count

/-- `SEEK_SET`, `SEEK_CUR` and `SEEK_END`. -/
def seekSet : UInt8 := 1

def seekCur : UInt8 := 2

def seekEnd : UInt8 := 3

/-- The part of `sys_lseek` on an entry of the file table. -/
def lseekFile (offset : Int) (whence : UInt8) (globalFd : ℕ) : FsM Int := do
  let s ← get
  let pf := s.fileTable globalFd
  let p ← deref pf.fdInode
  let inode ← derefInode p
  let fileSize := toI32 inode.iSize
  let newPos :=
    if whence = seekSet then toI32 (UInt32.ofInt offset)
    else if whence = seekCur then toI32 (UInt32.ofInt (toI32 pf.fdPos + offset))
    else if whence = seekEnd then toI32 (UInt32.ofInt (fileSize + offset))
    else 0
  if newPos < 0 ∨ newPos > fileSize then pure (-1)
  else
    modify (·.setFile globalFd { pf with fdPos := UInt32.ofInt newPos })
    pure newPos

/-- `sys_lseek` -/
def sysLseek (fd : Int) (offset : Int) (whence : UInt8) : FsM Int := do
  if fd < 0 then pure (-1)
  else
    let globalFd ← fdLocal2global fd
    lseekFile offset whence globalFd

/-- `sys_unlink` -/
def sysUnlink (pathname : List UInt8) : FsM Int := do
  assert (pathname.length < 512)
  let (inodeNo, record) ← searchFile pathname
  assert (inodeNo ≠ 0)
  if inodeNo = -1 then
    dirClose record.parentDir
    pure (-1)
  else if record.fileType = ftDirectory then
    dirClose record.parentDir
    pure (-1)
  else
    let no := UInt32.ofInt inodeNo
    let s ← get
    let inUse := (List.range maxFileOpen).any fun fileIdx =>
      match (s.fileTable fileIdx).fdInode with
      | none => false
      | some p => (s.inodes p).any fun i => no == i.iNo
    if inUse then
      dirClose record.parentDir
      pure (-1)
    else
      let ok ← sysMalloc
      if ok then
        let _ ← deleteDirEntry record.parentDir no
        inodeRelease no
        dirClose record.parentDir
        pure 0
      else
        dirClose record.parentDir
        pure (-1)

/-- An inode on the stack, before it is initialised. -/
def junkInode (junk : ℕ → UInt32) : Inode where
  iNo := junk 2
  iSize := junk 3
  userId := junk 4
  ctime := Inode.join (junk 5) (junk 6)
  mtime := Inode.join (junk 7) (junk 8)
  atime := Inode.join (junk 9) (junk 10)
  privilege := junk 11
  iOpenCnts := 0
  writeDeny := false
  iSectors := fun _ => 0

/-- The part of `sys_mkdir` after the inode number is allocated: `false` where it goes on to
`rollback` with step 2. -/
def mkdirInode (parentDir : DirPtr) (dirname : List UInt8) (inodeNo : UInt32) : FsM Bool := do
  let s ← get
  let newDirInode := inodeInit inodeNo (junkInode s.junk)
  match ← blockBitmapAlloc with
  | none => pure false
  | some blockLba =>
    let blockBitmapIdx := blockLba - s.part.sb.dataStartLba
    assert (blockBitmapIdx ≠ 0)
    bitmapSync blockBitmapIdx .blockBitmap
    let dir ← derefDir parentDir
    let parentInode ← derefInode dir.inode
    ideWrite blockLba (dotEntries inodeNo parentInode.iNo) 1
    let newDirInode :=
      { newDirInode.setSector 0 blockLba with iSize := 2 * s.part.sb.dirEntrySize }
    let newDirEntry ← createDirEntry dirname inodeNo ftDirectory
    let ok ← syncDirEntry parentDir newDirEntry
    if ok then
      let parentInode ← derefInode dir.inode
      inodeSync parentInode
      inodeSync newDirInode
      bitmapSync inodeNo .inodeBitmap
      pure true
    else pure false

/-- `sys_mkdir` -/
def sysMkdir (pathname : List UInt8) : FsM Int := do
  let ok ← sysMalloc
  if ok then
    let (inodeNo, record) ← searchFile pathname
    if inodeNo ≠ -1 then
      dirClose record.parentDir
      pure (-1)
    else
      let pathnameDepth ← pathDepthCnt pathname
      let pathSearchedDepth ← pathDepthCnt record.searchedPath
      if pathnameDepth ≠ pathSearchedDepth then
        dirClose record.parentDir
        pure (-1)
      else
        let dirname ← afterLastSlash record.searchedPath
        match ← inodeBitmapAlloc with
        | none =>
          dirClose record.parentDir
          pure (-1)
        | some inodeNo =>
          let ok ← mkdirInode record.parentDir dirname inodeNo
          if ok then
            dirClose record.parentDir
            pure 0
          else
            clearInodeBit inodeNo
            dirClose record.parentDir
            pure (-1)
  else pure (-1)

/-- `sys_opendir`; `none` for a null result. -/
def sysOpendir (name : List UInt8) : FsM (Option DirPtr) := do
  assert (name.length < 512)
  if name = [slash] then pure (some .rootDir)
  else
    let (inodeNo, record) ← searchFile name
    if inodeNo ≠ -1 ∧ record.fileType = ftDirectory then
      let ret ← dirOpen (UInt32.ofInt inodeNo)
      dirClose record.parentDir
      pure (some ret)
    else
      dirClose record.parentDir
      pure none

/-- `sys_closedir` -/
def sysClosedir : Option DirPtr → FsM Int
  | none => pure (-1)
  | some dir => do
    dirClose dir
    pure 0

/-- `sys_rmdir` -/
def sysRmdir (pathname : List UInt8) : FsM Int := do
  let (inodeNo, record) ← searchFile pathname
  assert (inodeNo ≠ 0)
  let retval ←
    if inodeNo = -1 then pure (-1)
    else if record.fileType = ftRegular then pure (-1)
    else do
      let dir ← dirOpen (UInt32.ofInt inodeNo)
      let isEmpty ← dirIsEmpty dir
      let retval ←
        if isEmpty then do
          let ret ← dirRemove record.parentDir dir
          pure (if ret = 0 then 0 else -1)
        else pure (-1)
      dirClose dir
      pure retval
  dirClose record.parentDir
  pure retval

/-- `sys_chdir` -/
def sysChdir (path : List UInt8) : FsM Int := do
  let (inodeNo, record) ← searchFile path
  let ret ←
    if inodeNo ≠ -1 ∧ record.fileType = ftDirectory then do
      modifyThread fun t => { t with cwdInodeNr := UInt32.ofInt inodeNo }
      pure 0
    else pure (-1)
  dirClose record.parentDir
  pure ret

/-- `struct stat` -/
structure Stat where
  stIno : UInt32
  stSize : UInt32
  stFiletype : FileType

/-- `sys_stat`: its result and what it stores. -/
def sysStat (path : List UInt8) : FsM (Int × Option Stat) := do
  if path = [slash] ∨ path = [slash, 46] ∨ path = [slash, 46, 46] then
    let s ← get
    let inode ← derefInode s.rootDir.inode
    pure (0, some ⟨0, inode.iSize, ftDirectory⟩)
  else
    let (inodeNo, record) ← searchFile path
    let ret ←
      if inodeNo ≠ -1 then do
        let p ← inodeOpen (UInt32.ofInt inodeNo)
        let inode ← derefInode p
        inodeClose p
        pure (0, some ⟨UInt32.ofInt inodeNo, inode.iSize, record.fileType⟩)
      else pure (-1, none)
    dirClose record.parentDir
    pure ret

/-- `is_pipe` -/
def isPipe (localFd : ℕ) : FsM Bool := do
  let globalFd ← fdLocal2global localFd
  let s ← get
  pure ((s.fileTable globalFd).fdFlag == pipeFlag)

/-- The loop of `update_inode_open_cnts` over `n` descriptors of the child. -/
def updateInodeOpenCnts (child : Task) : ℕ → ℕ → FsM Unit
  | 0, _ => pure ()
  | n + 1, localFd => do
    let globalFd := child.fdTable localFd
    assert (globalFd < maxFileOpen)
    if globalFd ≠ -1 then
      let pipe ← isPipe localFd
      let s ← get
      let file := s.fileTable globalFd.toNat
      if pipe then modify (·.setFile globalFd.toNat { file with fdPos := file.fdPos + 1 })
      else
        let p ← deref file.fdInode
        let inode ← derefInode p
        storeInode p (inode.setOpenCnts (inode.iOpenCnts + 1))
    else pure ()
    updateInodeOpenCnts child n (localFd + 1)

/-- `sys_fork` with the number the child gets: the PCB and the heap are copied. -/
def sysFork (childPid : ℕ) : FsM Int := do
  let ok ← sysMalloc
  if ok then
    let parent ← runningThread
    let child := { parent with pid := childPid }
    updateInodeOpenCnts child (maxFilesOpenPerProc - 3) 3
    modify fun s => s.setTasks (s.tasks ++ [child])
    pure childPid
  else pure (-1)

/-- The loop of `release_prog_resource` over `n` descriptors. -/
def releaseFds : ℕ → ℕ → FsM Unit
  | 0, _ => pure ()
  | n + 1, localFd => do
    let cur ← runningThread
    if cur.fdTable localFd ≠ -1 then
      let pipe ← isPipe localFd
      if pipe then
        let globalFd ← fdLocal2global localFd
        let s ← get
        let file := s.fileTable globalFd
        let fdPos := file.fdPos - 1
        modify (·.setFile globalFd
          { file with fdPos := fdPos, fdInode := if fdPos = 0 then none else file.fdInode })
      else
        let _ ← sysClose localFd
        pure ()
    else pure ()
    releaseFds n (localFd + 1)

/-- `sys_exit`, as far as the file system goes: the descriptors are released, and the process is
no longer live. -/
def sysExit : FsM Unit := do
  releaseFds (maxFilesOpenPerProc - 3) 3
  modify fun s => s.setTasks (s.tasks.filter (·.pid ≠ s.cur))

end Winx
