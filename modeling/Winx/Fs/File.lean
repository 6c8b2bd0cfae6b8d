import Winx.Fs.Dir

/-! # Files

Descriptors index a table in the PCB whose entries index the global file
table. A write appends to the file: it first maps the blocks the new size
needs and then fills them block by block. A read clamps the count to the size
and copies block by block.
-/

namespace Winx

/-- `O_RDONLY`, `O_WRONLY`, `O_RDWR` and `O_CREAT`. -/
def oWronly : UInt32 := 1

def oRdwr : UInt32 := 2

def oCreat : UInt32 := 4

/-- `PIPE_FLAG` -/
def pipeFlag : UInt32 := 0xffff

/-- `get_free_slot_in_global`, with `none` for `-1`. -/
def getFreeSlotInGlobal : FsM (Option ℕ) := do
  let s ← get
  pure ((List.range' 3 (maxFileOpen - 3)).find? fun fdIdx => (s.fileTable fdIdx).fdInode.isNone)

/-- `pcb_fd_install` -/
def pcbFdInstall (globalFdIdx : ℕ) : FsM Int := do
  let cur ← runningThread
  match (List.range' 3 (maxFilesOpenPerProc - 3)).find? fun k => cur.fdTable k = -1 with
  | some localFdIdx =>
    modifyThread fun t => { t with fdTable := Function.update t.fdTable localFdIdx globalFdIdx }
    pure localFdIdx
  | none => pure (-1)

/-- The part of `file_create` after the directory entry is written. -/
def fileCreateFinish (parentDir : DirPtr) (inodeNo : UInt32) (p fdIdx : ℕ) : FsM Int := do
  let dir ← derefDir parentDir
  let parentInode ← derefInode dir.inode
  inodeSync parentInode
  let newFileInode ← derefInode p
  inodeSync newFileInode
  bitmapSync inodeNo .inodeBitmap
  pushOpenInode p
  storeInode p (newFileInode.setOpenCnts 1)
  pcbFdInstall fdIdx

/-- `file_create`. The labels of its rollback are the three failing branches. -/
def fileCreate (parentDir : DirPtr) (filename : List UInt8) (flag : UInt32) : FsM Int := do
  let ok ← sysMalloc
  if ok then
    match ← inodeBitmapAlloc with
    | none => pure (-1)
    | some inodeNo =>
      let ok ← sysMalloc
      if ok then
        let p ← newInode (inodeInit inodeNo zeroInode)
        match ← getFreeSlotInGlobal with
        | none =>
          modify (·.setInode p none)
          clearInodeBit inodeNo
          pure (-1)
        | some fdIdx =>
          modify (·.setFile fdIdx ⟨0, flag, some p⟩)
          let newDirEntry ← createDirEntry filename inodeNo ftRegular
          let ok ← syncDirEntry parentDir newDirEntry
          if ok then fileCreateFinish parentDir inodeNo p fdIdx
          else
            modify (·.setFile fdIdx ⟨0, 0, none⟩)
            modify (·.setInode p none)
            clearInodeBit inodeNo
            pure (-1)
      else
        clearInodeBit inodeNo
        pure (-1)
  else pure (-1)

/-- `flag & O_WRONLY || flag & O_RDWR` -/
def wantsWrite (flag : UInt32) : Bool := flag &&& oWronly != 0 || flag &&& oRdwr != 0

/-- `file_open` -/
def fileOpen (inodeNo : UInt32) (flag : UInt32) : FsM Int := do
  match ← getFreeSlotInGlobal with
  | none => pure (-1)
  | some fdIdx =>
    let p ← inodeOpen inodeNo
    modify (·.setFile fdIdx ⟨0, flag, some p⟩)
    if wantsWrite flag then
      let inode ← derefInode p
      if inode.writeDeny then pure (-1)
      else
        storeInode p { inode with writeDeny := true }
        pcbFdInstall fdIdx
    else pcbFdInstall fdIdx

/-- `file_close` of an entry of the file table. -/
def fileClose (fd : ℕ) : FsM Int := do
  let s ← get
  let p ← deref (s.fileTable fd).fdInode
  let inode ← derefInode p
  storeInode p { inode with writeDeny := false }
  inodeClose p
  modify fun s => s.setFile fd { s.fileTable fd with fdInode := none }
  pure 0

/-- `all_blocks[idx]` of the 140 entries. -/
def allBlocksAt (allBlocks : ℕ → UInt32) (idx : ℕ) : FsM UInt32 := do
  inBounds (idx < 140)
  pure (allBlocks idx)

/-- The block-mapping loops of `file_write`: allocate `n` blocks from index `blockIdx` on. A direct
block goes to `i_sectors` as well, an indirect one to `all_blocks` only. The result is `none` where
`file_write` returns `-1`. -/
def mapNewBlocks (p : ℕ) : ℕ → ℕ → (ℕ → UInt32) → FsM (Option (ℕ → UInt32))
  | 0, _, allBlocks => pure (some allBlocks)
  | n + 1, blockIdx, allBlocks => do
    let dataStartLba := (← get).part.sb.dataStartLba
    match ← blockBitmapAlloc with
    | none => pure none
    | some blockLba =>
      if blockIdx < 12 then
        let inode ← derefInode p
        assert (inode.sector blockIdx = 0)
        storeInode p (inode.setSector blockIdx blockLba)
      else pure ()
      bitmapSync (blockLba - dataStartLba) .blockBitmap
      mapNewBlocks p n (blockIdx + 1) (Function.update allBlocks blockIdx blockLba)

/-- The situations of `file_write` that add blocks. -/
def mapBlocks (p : ℕ) (used will : ℕ) : FsM (Option (ℕ → UInt32)) := do
  let inode ← derefInode p
  if will ≤ 12 then
    -- situation 1: the new blocks are direct
    let blockIdx := used - 1
    let last ← if blockIdx < 13 then pure (inode.sector blockIdx) else throw .outOfBounds
    mapNewBlocks p (will - used) used (Function.update (fun _ => 0) blockIdx last)
  else if used ≤ 12 then
    -- situation 2: the file gets its indirect table
    let allBlocks := Function.update (fun _ => 0) (used - 1) (inode.sector (used - 1))
    match ← blockBitmapAlloc with
    | none => pure none
    | some blockLba =>
      assert (inode.sector 12 = 0)
      storeInode p (inode.setSector 12 blockLba)
      match ← mapNewBlocks p (will - used) used allBlocks with
      | none => pure none
      | some allBlocks =>
        writeTable blockLba allBlocks
        pure (some allBlocks)
  else
    -- situation 3: the new blocks are indirect
    assert (inode.sector 12 ≠ 0)
    let allBlocks ← readTable (inode.sector 12) fun _ => 0
    match ← mapNewBlocks p (will - used) used allBlocks with
    | none => pure none
    | some allBlocks =>
      writeTable (inode.sector 12) allBlocks
      pure (some allBlocks)

/-- The branch of `file_write` that adds no block. -/
def mapLastBlock (p : ℕ) (used : ℕ) : FsM (ℕ → UInt32) := do
  let inode ← derefInode p
  if used ≤ 12 then pure (Function.update (fun _ => 0) (used - 1) (inode.sector (used - 1)))
  else readTable (inode.sector 12) fun _ => 0

/-- The local variables of the writing loop of `file_write`; `src` is the offset in the buffer. -/
structure WriteLoop where
  src : ℕ
  bytesWritten : UInt32
  sizeLeft : UInt32
  firstWriteBlock : Bool

/-- One turn of the writing loop of `file_write`. -/
def writeChunk (fd p : ℕ) (allBlocks : ℕ → UInt32) (buf : Bytes) (w : WriteLoop) :
    FsM WriteLoop := do
  let inode ← derefInode p
  let secIdx := inode.iSize / 512
  let secLba ← allBlocksAt allBlocks secIdx.toNat
  let secOffBytes := inode.iSize % 512
  let secLeftBytes := 512 - secOffBytes
  let chunkSize := if w.sizeLeft < secLeftBytes then w.sizeLeft else secLeftBytes
  let ioBuf ← if w.firstWriteBlock then ideRead secLba Bytes.zero 1 else pure Bytes.zero
  ideWrite secLba (ioBuf.splice secOffBytes.toNat chunkSize.toNat (buf.window w.src)) 1
  storeInode p { inode with iSize := inode.iSize + chunkSize }
  modify fun s => s.setFile fd
    { s.fileTable fd with fdPos := (s.fileTable fd).fdPos + chunkSize }
  pure ⟨w.src + chunkSize.toNat, w.bytesWritten + chunkSize, w.sizeLeft - chunkSize, false⟩

/-- The writing loop of `file_write`. -/
def writeLoop (fd p : ℕ) (allBlocks : ℕ → UInt32) (buf : Bytes) (count : UInt32) :
    ℕ → WriteLoop → FsM WriteLoop
  | 0, w => if w.bytesWritten < count then throw .diverged else pure w
  | fuel + 1, w =>
    if w.bytesWritten < count then do
      let w ← writeChunk fd p allBlocks buf w
      writeLoop fd p allBlocks buf count fuel w
    else pure w

/-- The part of `file_write` that gives a file without blocks its first one: `false` where it
returns `-1`. -/
def mapFirstBlock (p : ℕ) : FsM Bool := do
  let inode ← derefInode p
  if inode.sector 0 = 0 then
    let dataStartLba := (← get).part.sb.dataStartLba
    match ← blockBitmapAlloc with
    | none => pure false
    | some blockLba =>
      storeInode p (inode.setSector 0 blockLba)
      bitmapSync (blockLba - dataStartLba) .blockBitmap
      pure true
  else pure true

/-- The part of `file_write` that collects the blocks for `count` more bytes. -/
def mapForWrite (p : ℕ) (count : UInt32) : FsM (Option (ℕ → UInt32)) := do
  let inode ← derefInode p
  let fileHasUsedBlocks := inode.iSize / 512 + 1
  let fileWillUseBlocks := (inode.iSize + count) / 512 + 1
  if fileWillUseBlocks > 140 then pure none
  else if fileWillUseBlocks - fileHasUsedBlocks = 0 then
    some <$> mapLastBlock p fileHasUsedBlocks.toNat
  else mapBlocks p fileHasUsedBlocks.toNat fileWillUseBlocks.toNat

/-- The part of `file_write` before the writing loop: the mapped blocks, or `none` where it
returns `-1`. -/
def fileWritePrepare (p : ℕ) (count : UInt32) : FsM (Option (ℕ → UInt32)) := do
  let inode ← derefInode p
  if inode.iSize + count > 512 * 140 then pure none
  else
    let ok ← sysMalloc
    if ok then
      let ok ← sysMalloc
      if ok then
        let mapped ← mapFirstBlock p
        if mapped then mapForWrite p count else pure none
      else pure none
    else pure none

/-- `file_write` through the entry `fd` of the file table. -/
def fileWrite (fd : ℕ) (buf : Bytes) (count : UInt32) : FsM Int := do
  let s ← get
  let p ← deref (s.fileTable fd).fdInode
  match ← fileWritePrepare p count with
  | none => pure (-1)
  | some allBlocks =>
    let inode ← derefInode p
    modify fun s => s.setFile fd { s.fileTable fd with fdPos := inode.iSize - 1 }
    let w ← writeLoop fd p allBlocks buf count count.toNat ⟨0, 0, count, true⟩
    let inode ← derefInode p
    inodeSync inode
    pure (toI32 w.bytesWritten)

/-- The part of `file_read` that collects the blocks from `start` to `stop`. -/
def readBlocks (inode : Inode) (start stop : ℕ) : FsM (ℕ → UInt32) := do
  if start = stop then
    if stop < 12 then pure (Function.update (fun _ => 0) stop (inode.sector stop))
    else readTable (inode.sector 12) fun _ => 0
  else if stop < 12 then
    pure fun k => if start ≤ k ∧ k ≤ stop then inode.sector k else 0
  else
    assert (inode.sector 12 ≠ 0)
    readTable (inode.sector 12) fun k => if start ≤ k ∧ k < 12 then inode.sector k else 0

/-- The local variables of the reading loop of `file_read`; `dst` is the offset in the buffer. -/
structure ReadLoop where
  buf : Bytes
  dst : ℕ
  bytesRead : UInt32
  sizeLeft : UInt32

/-- One turn of the reading loop of `file_read`. -/
def readChunk (fd : ℕ) (allBlocks : ℕ → UInt32) (r : ReadLoop) : FsM ReadLoop := do
  let file := (← get).fileTable fd
  let secIdx := file.fdPos / 512
  let secLba ← allBlocksAt allBlocks secIdx.toNat
  let secOffBytes := file.fdPos % 512
  let secLeftBytes := 512 - secOffBytes
  let chunkSize := if r.sizeLeft < secLeftBytes then r.sizeLeft else secLeftBytes
  let ioBuf ← ideRead secLba Bytes.zero 1
  modify (·.setFile fd { file with fdPos := file.fdPos + chunkSize })
  pure ⟨r.buf.splice r.dst chunkSize.toNat (ioBuf.window secOffBytes.toNat),
    r.dst + chunkSize.toNat, r.bytesRead + chunkSize, r.sizeLeft - chunkSize⟩

/-- The reading loop of `file_read`. -/
def readLoop (fd : ℕ) (allBlocks : ℕ → UInt32) (size : UInt32) : ℕ → ReadLoop → FsM ReadLoop
  | 0, r => if r.bytesRead < size then throw .diverged else pure r
  | fuel + 1, r =>
    if r.bytesRead < size then do
      let r ← readChunk fd allBlocks r
      readLoop fd allBlocks size fuel r
    else pure r

/-- The part of `file_read` that reads `size` bytes after it has clamped the count. -/
def fileReadClamped (fd : ℕ) (inode : Inode) (buf : Bytes) (size : UInt32) :
    FsM (Int × Bytes) := do
  let file := (← get).fileTable fd
  let ioBufOk ← sysMalloc
  let ok ← sysMalloc
  if ok then
    let blockReadStartIdx := file.fdPos / 512
    let blockReadEndIdx := (file.fdPos + size) / 512
    assert (blockReadStartIdx < 139 ∧ blockReadEndIdx < 139)
    let allBlocks ← readBlocks inode blockReadStartIdx.toNat blockReadEndIdx.toNat
    -- a failed allocation of `io_buf` is only reported, and `memset` and `sys_free` assert on it
    assert (ioBufOk = true)
    let r ← readLoop fd allBlocks size size.toNat ⟨buf, 0, 0, size⟩
    pure (toI32 r.bytesRead, r.buf)
  else pure (-1, buf)

/-- `file_read` through the entry `fd` of the file table: its result and the buffer. -/
def fileRead (fd : ℕ) (buf : Bytes) (count : UInt32) : FsM (Int × Bytes) := do
  let s ← get
  let file := s.fileTable fd
  let p ← deref file.fdInode
  let inode ← derefInode p
  let size := if file.fdPos + count > inode.iSize then inode.iSize - file.fdPos else count
  if file.fdPos + count > inode.iSize ∧ size = 0 then pure (-1, buf)
  else fileReadClamped fd inode buf size

end Winx
