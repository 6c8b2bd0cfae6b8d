import Winx.Kernel.Bitmap
import Winx.Kernel.Fault

/-! # State of the file system

The mounted partition with its disk, the `struct inode` and `struct dir`
objects of the kernel, the global file table, and of each process the part of
its PCB that the file system reads. File system code is a computation over
this state.
-/

namespace Winx

/-- `struct super_block`, without its padding. -/
structure SuperBlock where
  magic : UInt32
  secCnt : UInt32
  inodeCnt : UInt32
  partLbaBase : UInt32
  blockBitmapLba : UInt32
  blockBitmapSects : UInt32
  inodeBitmapLba : UInt32
  inodeBitmapSects : UInt32
  inodeTableLba : UInt32
  inodeTableSects : UInt32
  dataStartLba : UInt32
  rootInodeNo : UInt32
  dirEntrySize : UInt32

/-- `struct partition`. The list `open_inodes` holds the addresses of its inodes, first one
first. -/
structure Partition where
  startLba : UInt32
  secCnt : UInt32
  sb : SuperBlock
  blockBitmap : Bitmap
  inodeBitmap : Bitmap
  openInodes : List ℕ

/-- `struct inode`. Its `inode_tag` is its place in `open_inodes`. -/
structure Inode where
  iNo : UInt32
  iSize : UInt32
  userId : UInt32
  ctime : UInt64
  mtime : UInt64
  atime : UInt64
  privilege : UInt32
  iOpenCnts : ℕ
  writeDeny : Bool
  iSectors : Fin 13 → UInt32

/-- `struct file`; `fd_inode` is the address of an inode. -/
structure File where
  fdPos : UInt32
  fdFlag : UInt32
  fdInode : Option ℕ

/-- `struct dir`; `inode` is the address of an inode. -/
structure Dir where
  inode : ℕ
  dirPos : UInt32
  dirBuf : Bytes

/-- A `struct dir *`: the global `root_dir`, or an address in the heap of the running process. -/
inductive DirPtr
  | rootDir
  | heap (addr : ℕ)
  deriving DecidableEq, Repr

/-- What the file system keeps for a process: the fields of its PCB, and the `struct dir`
objects in its heap. -/
structure Task where
  pid : ℕ
  fdTable : ℕ → Int
  cwdInodeNr : UInt32
  dirs : List (ℕ × Dir)

/-- The state of the file system. `mallocs` and `junk` are what the next calls of `sys_malloc`
answer and what uninitialised stack variables hold. -/
structure Fs where
  disk : Bytes
  part : Partition
  inodes : ℕ → Option Inode
  nextInode : ℕ
  fileTable : ℕ → File
  rootDir : Dir
  tasks : List Task
  cur : ℕ
  nextDir : ℕ
  mallocs : ℕ → Bool
  junk : ℕ → UInt32

/-- The state before a partition is mounted: nothing is open and one process runs. -/
def Fs.unmounted (disk : Bytes) : Fs where
  disk := disk
  part := ⟨0, 0, ⟨0, 0, 0, 0, 0, 0, 0, 0, 0, 0, 0, 0, 0⟩, ⟨0, Bytes.zero⟩, ⟨0, Bytes.zero⟩, []⟩
  inodes := fun _ => none
  nextInode := 0
  fileTable := fun _ => ⟨0, 0, none⟩
  rootDir := ⟨0, 0, Bytes.zero⟩
  tasks := [⟨1, fun k => if k < 3 then k else -1, 0, []⟩]
  cur := 1
  nextDir := 0
  mallocs := fun _ => true
  junk := fun _ => 0

namespace Partition

variable (part : Partition)

/-- Change the map of used blocks. -/
@[simps -fullyApplied] def setBlockBitmap (b : Bitmap) : Partition := { part with blockBitmap := b }

/-- Change the map of used inodes. -/
@[simps -fullyApplied] def setInodeBitmap (b : Bitmap) : Partition := { part with inodeBitmap := b }

/-- Change the list of open inodes. -/
@[simps -fullyApplied] def setOpenInodes (l : List ℕ) : Partition := { part with openInodes := l }

end Partition

namespace Fs

variable (s : Fs)

/-- Change the disk. -/
@[simps -fullyApplied] def setDisk (d : Bytes) : Fs := { s with disk := d }

/-- Change the partition. -/
@[simps -fullyApplied] def setPart (p : Partition) : Fs := { s with part := p }

/-- Change the object at the address of an inode. -/
@[simps -fullyApplied] def setInode (p : ℕ) (o : Option Inode) : Fs :=
  { s with inodes := Function.update s.inodes p o }

/-- Use up the address of a fresh inode. -/
@[simps -fullyApplied] def bumpInode : Fs := { s with nextInode := s.nextInode + 1 }

/-- Change an entry of the global file table. -/
@[simps -fullyApplied] def setFile (fd : ℕ) (f : File) : Fs :=
  { s with fileTable := Function.update s.fileTable fd f }

@[simp] theorem setFile_setFile (fd : ℕ) (f g : File) :
    (s.setFile fd f).setFile fd g = s.setFile fd g := by
  simp [setFile]

@[simp] theorem setInode_setInode (p : ℕ) (o o' : Option Inode) :
    (s.setInode p o).setInode p o' = s.setInode p o' := by
  simp [setInode]

/-- Change `root_dir`. -/
@[simps -fullyApplied] def setRootDir (d : Dir) : Fs := { s with rootDir := d }

/-- Change the processes. -/
@[simps -fullyApplied] def setTasks (ts : List Task) : Fs := { s with tasks := ts }

/-- Use up the address of a fresh `struct dir`. -/
@[simps -fullyApplied] def bumpDir : Fs := { s with nextDir := s.nextDir + 1 }

/-- Choose the answers of `sys_malloc` anew. -/
@[simps -fullyApplied] def withMallocs (f : ℕ → Bool) : Fs := { s with mallocs := f }

/-- Choose what uninitialised variables hold. -/
@[simps -fullyApplied] def withJunk (f : ℕ → UInt32) : Fs := { s with junk := f }

/-- Use up the answer to a call of `sys_malloc`. -/
@[simps -fullyApplied] def tick : Fs := { s with mallocs := fun n => s.mallocs (n + 1) }

end Fs

/-- File system code. -/
abbrev FsM (α : Type) := Exec Fs Fault α

/-- `MAX_FILE_OPEN` -/
def maxFileOpen : ℕ := 32

/-- `MAX_FILES_OPEN_PER_PROC` -/
def maxFilesOpenPerProc : ℕ := 8

/-- `max_lba` -/
def maxLba : UInt32 := 163839

/-- The value of a `uint32_t` converted to `int32_t`. -/
def toI32 (x : UInt32) : Int :=
  if x.toNat < 2 ^ 31 then x.toNat else (x.toNat : Int) - 2 ^ 32

/-- `sys_malloc`: whether the next call succeeds. The blocks it returns are zero. -/
def sysMalloc : FsM Bool := do
  let s ← get
  set s.tick
  pure (s.mallocs 0)

/-- A `sys_malloc` whose result is used without a test. -/
def sysMallocUnchecked : FsM Unit := do
  let ok ← sysMalloc
  if ok then pure () else throw .badPointer

/-- `ide_read` of `secCnt` sectors into the start of a buffer. -/
def ideRead (lba : UInt32) (buf : Bytes) (secCnt : ℕ) : FsM Bytes := do
  assert (lba ≤ maxLba ∧ 0 < secCnt)
  let s ← get
  pure (buf.splice 0 (secCnt * 512) (s.disk.window (lba.toNat * 512)))

/-- `ide_write` of `secCnt` sectors from the start of a buffer. -/
def ideWrite (lba : UInt32) (buf : Bytes) (secCnt : ℕ) : FsM Unit := do
  assert (lba ≤ maxLba ∧ 0 < secCnt)
  modify fun s => s.setDisk (s.disk.splice (lba.toNat * 512) (secCnt * 512) buf)

/-- The inode at an address. -/
def derefInode (p : ℕ) : FsM Inode := do
  let s ← get
  deref (s.inodes p)

/-- Store to the inode at an address. -/
def storeInode (p : ℕ) (inode : Inode) : FsM Unit :=
  modify fun s => s.setInode p (some inode)

/-- `running_thread` -/
def runningThread : FsM Task := do
  let s ← get
  deref (s.tasks.find? (·.pid = s.cur))

/-- Change the PCB of the running process. -/
def modifyThread (f : Task → Task) : FsM Unit :=
  modify fun s => s.setTasks (s.tasks.map fun t => if t.pid = s.cur then f t else t)

/-- The `struct dir` behind a pointer. -/
def derefDir : DirPtr → FsM Dir
  | .rootDir => do
    let s ← get
    pure s.rootDir
  | .heap a => do
    let t ← runningThread
    deref (t.dirs.lookup a)

namespace Inode

/-- `i_sectors[k]` -/
def sector (i : Inode) (k : ℕ) : UInt32 := if h : k < 13 then i.iSectors ⟨k, h⟩ else 0

/-- `i_sectors[k] = lba` -/
def setSector (i : Inode) (k : ℕ) (lba : UInt32) : Inode :=
  { i with iSectors := fun j => if j.val = k then lba else i.iSectors j }

/-- `i_open_cnts = cnt` -/
def setOpenCnts (i : Inode) (cnt : ℕ) : Inode := { i with iOpenCnts := cnt }

variable (i : Inode) (k j : ℕ) (lba : UInt32)

@[simp] theorem setSector_iNo : (i.setSector k lba).iNo = i.iNo := rfl
@[simp] theorem setSector_iSize : (i.setSector k lba).iSize = i.iSize := rfl
@[simp] theorem setSector_iOpenCnts : (i.setSector k lba).iOpenCnts = i.iOpenCnts := rfl

theorem sector_setSector :
    (i.setSector k lba).sector j = if j = k ∧ j < 13 then lba else i.sector j := by
  unfold sector setSector
  by_cases h : j < 13 <;> simp [h]

theorem sector_of_le {k : ℕ} (h : 13 ≤ k) : i.sector k = 0 := dif_neg (by omega)

end Inode

section Rules

variable {s : Fs} {E : Fault → Prop}

@[simp] theorem post_sysMalloc {Q : Bool → Fs → Prop} :
    Exec.Post sysMalloc s Q E ↔ Q (s.mallocs 0) s.tick := by
  simp [sysMalloc]

@[simp] theorem post_ideRead {lba : UInt32} {buf : Bytes} {n : ℕ} {Q : Bytes → Fs → Prop} :
    Exec.Post (ideRead lba buf n) s Q E ↔
      (lba ≤ maxLba ∧ 0 < n → Q (buf.splice 0 (n * 512) (s.disk.window (lba.toNat * 512))) s) ∧
        (¬ (lba ≤ maxLba ∧ 0 < n) → E .assertFailed) := by
  simp [ideRead]

@[simp] theorem post_ideWrite {lba : UInt32} {buf : Bytes} {n : ℕ} {Q : Unit → Fs → Prop} :
    Exec.Post (ideWrite lba buf n) s Q E ↔
      (lba ≤ maxLba ∧ 0 < n → Q () (s.setDisk (s.disk.splice (lba.toNat * 512) (n * 512) buf))) ∧
        (¬ (lba ≤ maxLba ∧ 0 < n) → E .assertFailed) := by
  simp [ideWrite]

end Rules

end Winx
