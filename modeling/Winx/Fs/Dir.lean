import Winx.Fs.Block

/-! # Directories

A directory is a file of 24-byte entries, 21 to a block, that no entry
straddles. An entry of type `FT_UNKNOWN` is free. Entries are looked up by
name, added in the first free place and deleted by inode number; a block left
without entries is freed unless it holds the entry for the directory itself.
-/

namespace Winx

/-- Whether the C string at an offset is the given one: `!strcmp(p, name)`. -/
def strEqAt (b : Bytes) : ℕ → List UInt8 → Bool
  | off, [] => b off == 0
  | off, c :: cs => b off == c && strEqAt b (off + 1) cs

/-- The entry stored at the start of an image. -/
def DirEntry.ofBytes (b : Bytes) : DirEntry where
  filename := ((List.range 16).map b).takeWhile (· != 0)
  iNo := b.word 16
  fType := b.word 20

/-- `(dir_e + k)->i_no` -/
def entryNo (buf : Bytes) (k : ℕ) : UInt32 := buf.word (sizeofDirEntry * k + 16)

/-- `(dir_e + k)->f_type` -/
def entryType (buf : Bytes) (k : ℕ) : FileType := buf.word (sizeofDirEntry * k + 20)

/-- `!strcmp((dir_e + k)->filename, name)` -/
def entryNamed (buf : Bytes) (k : ℕ) (name : List UInt8) : Bool :=
  strEqAt buf (sizeofDirEntry * k) name

/-- `"."` and `".."` -/
def dot : List UInt8 := [46]

def dotDot : List UInt8 := [46, 46]

/-- How many entries a block holds: `SECTOR_SIZE / dir_entry_size`. -/
def dirEntrysPerSec (s : Fs) : ℕ := (512 / s.part.sb.dirEntrySize).toNat

/-- A fresh `struct dir` in the heap of the running process. -/
def newDir (dir : Dir) : FsM DirPtr := do
  let s ← get
  set s.bumpDir
  modifyThread fun t => { t with dirs := (s.nextDir, dir) :: t.dirs }
  pure (.heap s.nextDir)

/-- `open_root_dir` -/
def openRootDir : FsM Unit := do
  let s ← get
  let p ← inodeOpen s.part.sb.rootInodeNo
  modify (·.setRootDir ⟨p, 0, Bytes.zero⟩)

/-- `dir_open` -/
def dirOpen (inodeNo : UInt32) : FsM DirPtr := do
  sysMallocUnchecked
  let p ← inodeOpen inodeNo
  newDir ⟨p, 0, Bytes.zero⟩

/-- `dir_close` -/
def dirClose : DirPtr → FsM Unit
  | .rootDir => pure ()
  | .heap a => do
    let dir ← derefDir (.heap a)
    inodeClose dir.inode
    modifyThread fun t => { t with dirs := t.dirs.filter (·.1 ≠ a) }

/-- The first of `n` entries from entry `k` on that has the given name. -/
def findNamed (buf : Bytes) (name : List UInt8) : ℕ → ℕ → Option ℕ
  | 0, _ => none
  | n + 1, k => if entryNamed buf k name then some k else findNamed buf name n (k + 1)

/-- The loop of `search_dir_entry` over the blocks. A missing block makes it step over the next
one too. -/
def searchBlocks (allBlocks : ℕ → UInt32) (name : List UInt8) :
    ℕ → ℕ → FsM (Option DirEntry)
  | 0, _ => pure none
  | fuel + 1, blockIdx => do
    let s ← get
    if 140 ≤ blockIdx then pure none
    else if allBlocks blockIdx = 0 then searchBlocks allBlocks name fuel (blockIdx + 2)
    else
      let buf ← ideRead (allBlocks blockIdx) Bytes.zero 1
      match findNamed buf name (dirEntrysPerSec s) 0 with
      | some k => pure (some (DirEntry.ofBytes (buf.window (sizeofDirEntry * k))))
      | none => searchBlocks allBlocks name fuel (blockIdx + 1)

/-- `search_dir_entry`; the entry it finds, or `none` where it returns `false`. -/
def searchDirEntry (pdir : DirPtr) (name : List UInt8) : FsM (Option DirEntry) := do
  let ok ← sysMalloc
  if ok then
    let dir ← derefDir pdir
    let inode ← derefInode dir.inode
    let allBlocks ← loadBlocks inode
    sysMallocUnchecked
    searchBlocks allBlocks name 140 0
  else pure none

/-- `create_dir_entry` on an entry that is zero. -/
def createDirEntry (filename : List UInt8) (inodeNo : UInt32) (fileType : FileType) :
    FsM DirEntry := do
  inBounds (filename.length < 16)
  pure ⟨filename, inodeNo, fileType⟩

/-- The first free one of `n` entries from entry `k` on. -/
def findFree (buf : Bytes) : ℕ → ℕ → Option ℕ
  | 0, _ => none
  | n + 1, k => if entryType buf k = ftUnknown then some k else findFree buf n (k + 1)

/-- `dir_inode->i_size += dir_entry_size` -/
def growDir (p : ℕ) : FsM Unit := do
  let s ← get
  let inode ← derefInode p
  storeInode p { inode with iSize := inode.iSize + s.part.sb.dirEntrySize }

/-- Write the first entry of a fresh block of a directory. -/
def writeFirstEntry (p : ℕ) (lba : UInt32) (pde : DirEntry) : FsM Bool := do
  let s ← get
  ideWrite lba (Bytes.zero.splice 0 s.part.sb.dirEntrySize.toNat pde.toBytes) 1
  growDir p
  pure true

/-- The branch of `sync_dir_entry` that extends the directory by a block. -/
def extendDir (p : ℕ) (pde : DirEntry) (blockIdx : ℕ) (allBlocks : ℕ → UInt32) : FsM Bool := do
  let dataStartLba := (← get).part.sb.dataStartLba
  match ← blockBitmapAlloc with
  | none => pure false
  | some blockLba =>
    bitmapSync (blockLba - dataStartLba) .blockBitmap
    let dirInode ← derefInode p
    if blockIdx < 12 then
      storeInode p (dirInode.setSector blockIdx blockLba)
      writeFirstEntry p blockLba pde
    else if blockIdx = 12 then
      storeInode p (dirInode.setSector 12 blockLba)
      match ← blockBitmapAlloc with
      | none =>
        clearBlockBit (blockLba - dataStartLba)
        storeInode p (dirInode.setSector 12 0)
        pure false
      | some firstLba =>
        bitmapSync (firstLba - dataStartLba) .blockBitmap
        writeTable blockLba (Function.update allBlocks 12 firstLba)
        writeFirstEntry p firstLba pde
    else
      writeTable (dirInode.sector 12) (Function.update allBlocks blockIdx blockLba)
      writeFirstEntry p blockLba pde

/-- The loop of `sync_dir_entry` over `n` blocks. -/
def syncBlocks (p : ℕ) (pde : DirEntry) (allBlocks : ℕ → UInt32) : ℕ → ℕ → FsM Bool
  | 0, _ => pure false
  | n + 1, blockIdx => do
    let s ← get
    if allBlocks blockIdx = 0 then extendDir p pde blockIdx allBlocks
    else
      let ioBuf ← ideRead (allBlocks blockIdx) Bytes.zero 1
      match findFree ioBuf (dirEntrysPerSec s) 0 with
      | some k =>
        ideWrite (allBlocks blockIdx)
          (ioBuf.splice (sizeofDirEntry * k) s.part.sb.dirEntrySize.toNat pde.toBytes) 1
        growDir p
        pure true
      | none => syncBlocks p pde allBlocks n (blockIdx + 1)

/-- `sync_dir_entry`. Its `all_blocks` is filled with the direct blocks only: the rest holds what
the stack held. -/
def syncDirEntry (parentDir : DirPtr) (pde : DirEntry) : FsM Bool := do
  let s ← get
  let dir ← derefDir parentDir
  let dirInode ← derefInode dir.inode
  assert (dirInode.iSize % s.part.sb.dirEntrySize = 0)
  let allBlocks := fun k => if k < 12 then dirInode.sector k else s.junk k
  syncBlocks dir.inode pde allBlocks 140 0

/-- What the scan of a block in `delete_dir_entry` has seen. -/
structure BlockScan where
  isDirFirstBlock : Bool
  dirEntryCnt : ℕ
  dirEntryFound : Option ℕ

/-- The scan of `n` entries from entry `k` on in `delete_dir_entry`. -/
def scanBlock (buf : Bytes) (inodeNo : UInt32) : ℕ → ℕ → BlockScan → FsM BlockScan
  | 0, _, r => pure r
  | n + 1, k, r =>
    if entryType buf k = ftUnknown then scanBlock buf inodeNo n (k + 1) r
    else if entryNamed buf k dot then
      scanBlock buf inodeNo n (k + 1) { r with isDirFirstBlock := true }
    else if entryNamed buf k dotDot then scanBlock buf inodeNo n (k + 1) r
    else if entryNo buf k = inodeNo then do
      assert (r.dirEntryFound = none)
      scanBlock buf inodeNo n (k + 1)
        { r with dirEntryCnt := r.dirEntryCnt + 1, dirEntryFound := some k }
    else scanBlock buf inodeNo n (k + 1) { r with dirEntryCnt := r.dirEntryCnt + 1 }

/-- Free the block of a directory whose only entry is deleted. -/
def freeDirBlock (p : ℕ) (allBlocks : ℕ → UInt32) (blockIdx : ℕ) : FsM Unit := do
  freeBlock (allBlocks blockIdx)
  let dirInode ← derefInode p
  if blockIdx < 12 then storeInode p (dirInode.setSector blockIdx 0)
  else
    let indirectBlocks := (List.range 128).countP fun k => allBlocks (12 + k) ≠ 0
    if indirectBlocks > 1 then
      writeTable (dirInode.sector 12) (Function.update allBlocks blockIdx 0)
    else
      freeBlock (dirInode.sector 12)
      storeInode p (dirInode.setSector 12 0)

/-- The end of `delete_dir_entry`: the directory shrinks by an entry. -/
def shrinkDir (p : ℕ) : FsM Unit := do
  let s ← get
  let dirInode ← derefInode p
  assert (dirInode.iSize ≥ s.part.sb.dirEntrySize)
  let dirInode := { dirInode with iSize := dirInode.iSize - s.part.sb.dirEntrySize }
  storeInode p dirInode
  inodeSync dirInode

/-- The loop of `delete_dir_entry` over `n` blocks. -/
def deleteBlocks (p : ℕ) (inodeNo : UInt32) (allBlocks : ℕ → UInt32) : ℕ → ℕ → FsM Bool
  | 0, _ => pure false
  | n + 1, blockIdx => do
    let s ← get
    if allBlocks blockIdx = 0 then deleteBlocks p inodeNo allBlocks n (blockIdx + 1)
    else
      let ioBuf ← ideRead (allBlocks blockIdx) Bytes.zero 1
      let r ← scanBlock ioBuf inodeNo (dirEntrysPerSec s) 0 ⟨false, 0, none⟩
      match r.dirEntryFound with
      | none => deleteBlocks p inodeNo allBlocks n (blockIdx + 1)
      | some k =>
        assert (r.dirEntryCnt ≥ 1)
        if r.dirEntryCnt = 1 ∧ r.isDirFirstBlock = false then
          freeDirBlock p allBlocks blockIdx
        else
          ideWrite (allBlocks blockIdx)
            (ioBuf.splice (sizeofDirEntry * k) s.part.sb.dirEntrySize.toNat Bytes.zero) 1
        shrinkDir p
        pure true

/-- `delete_dir_entry` -/
def deleteDirEntry (pdir : DirPtr) (inodeNo : UInt32) : FsM Bool := do
  let dir ← derefDir pdir
  let dirInode ← derefInode dir.inode
  let allBlocks ← loadBlocks dirInode
  deleteBlocks dir.inode inodeNo allBlocks 140 0

/-- `dir_is_empty` -/
def dirIsEmpty (dir : DirPtr) : FsM Bool := do
  let s ← get
  let dir ← derefDir dir
  let dirInode ← derefInode dir.inode
  pure (dirInode.iSize == s.part.sb.dirEntrySize * 2)

/-- `dir_remove` -/
def dirRemove (parentDir childDir : DirPtr) : FsM Int := do
  let dir ← derefDir childDir
  let childDirInode ← derefInode dir.inode
  assert ((List.range' 1 12).all (fun blockIdx => childDirInode.sector blockIdx == 0) = true)
  let ok ← sysMalloc
  if ok then
    let _ ← deleteDirEntry parentDir childDirInode.iNo
    inodeRelease childDirInode.iNo
    pure 0
  else pure (-1)

end Winx
