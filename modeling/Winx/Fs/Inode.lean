import Winx.Fs.State

/-! # Inodes

The inode table of a partition holds a record of 108 bytes for each inode
number, straddling sector boundaries. An open inode has one object in memory,
found through the list `open_inodes`; `inode_sync` writes it back.
-/

namespace Winx

/-- `sizeof(struct inode)` -/
def sizeofInode : ℕ := 108

namespace Inode

/-- The low and the high word of a `uint64_t`. -/
def low (x : UInt64) : UInt32 := UInt32.ofNat (x.toNat % 2 ^ 32)

def high (x : UInt64) : UInt32 := UInt32.ofNat (x.toNat / 2 ^ 32)

def join (lo hi : UInt32) : UInt64 := UInt64.ofNat (lo.toNat + 2 ^ 32 * hi.toNat)

/-- The record of an inode as 27 words, its `inode_tag` cleared. -/
def words (i : Inode) : ℕ → UInt32
  | 0 => i.iNo
  | 1 => i.iSize
  | 2 => i.userId
  | 3 => low i.ctime
  | 4 => high i.ctime
  | 5 => low i.mtime
  | 6 => high i.mtime
  | 7 => low i.atime
  | 8 => high i.atime
  | 9 => i.privilege
  | 10 => UInt32.ofNat i.iOpenCnts
  | 11 => if i.writeDeny then 1 else 0
  | k + 12 => i.sector k

/-- The bytes of an inode record. -/
def toBytes (i : Inode) : Bytes := Bytes.ofWords i.words

/-- The inode whose record starts the image. -/
def ofBytes (b : Bytes) : Inode where
  iNo := b.word 0
  iSize := b.word 4
  userId := b.word 8
  ctime := join (b.word 12) (b.word 16)
  mtime := join (b.word 20) (b.word 24)
  atime := join (b.word 28) (b.word 32)
  privilege := b.word 36
  iOpenCnts := (b.word 40).toNat
  writeDeny := b.word 44 != 0
  iSectors := fun k => b.word (48 + 4 * k.val)

/-- What `inode_sync` writes of an inode: its `pure_inode`. -/
def pureInode (i : Inode) : Inode := { i with iOpenCnts := 0, writeDeny := false }

theorem join_low_high (x : UInt64) : join (low x) (high x) = x := by
  apply UInt64.toNat.inj
  have := x.toNat_lt
  simp only [join, low, high, UInt64.toNat_ofNat', UInt32.toNat_ofNat']
  omega

theorem word_toBytes (i : Inode) (k : ℕ) : i.toBytes.word (4 * k) = i.words k :=
  Bytes.word_ofWords _ _

theorem ofBytes_congr {b c : Bytes} (h : ∀ j < sizeofInode, b j = c j) : ofBytes b = ofBytes c := by
  have hw (k : ℕ) (hk : k ≤ 104) : b.word k = c.word k :=
    Bytes.word_congr fun j _ => h _ (by simp only [sizeofInode]; omega)
  have hs : (fun k : Fin 13 => b.word (48 + 4 * k.val)) = fun k => c.word (48 + 4 * k.val) := by
    funext k
    exact hw _ (by omega)
  simp only [ofBytes, hw 0 (by omega), hw 4 (by omega), hw 8 (by omega), hw 12 (by omega),
    hw 16 (by omega), hw 20 (by omega), hw 24 (by omega), hw 28 (by omega), hw 32 (by omega),
    hw 36 (by omega), hw 40 (by omega), hw 44 (by omega), hs]

/-- Reading back the record of a `pure_inode`. -/
theorem ofBytes_toBytes_pureInode (i : Inode) : ofBytes i.pureInode.toBytes = i.pureInode := by
  have hw (k : ℕ) : i.pureInode.toBytes.word (4 * k) = i.pureInode.words k := word_toBytes _ k
  have hs : (fun k : Fin 13 => i.pureInode.toBytes.word (48 + 4 * k.val)) = i.pureInode.iSectors := by
    funext k
    rw [show 48 + 4 * k.val = 4 * (k.val + 12) by omega, hw]
    simp [words, sector]
  simp only [ofBytes, hs]
  rw [show (12 : ℕ) = 4 * 3 by rfl, show (16 : ℕ) = 4 * 4 by rfl, show (20 : ℕ) = 4 * 5 by rfl,
    show (24 : ℕ) = 4 * 6 by rfl, show (28 : ℕ) = 4 * 7 by rfl, show (32 : ℕ) = 4 * 8 by rfl,
    show (36 : ℕ) = 4 * 9 by rfl, show (40 : ℕ) = 4 * 10 by rfl, show (44 : ℕ) = 4 * 11 by rfl,
    show (8 : ℕ) = 4 * 2 by rfl]
  have h0 := hw 0
  have h1 := hw 1
  rw [Nat.mul_zero] at h0
  rw [Nat.mul_one] at h1
  simp only [h0, h1, hw, words, join_low_high]
  simp [pureInode]

end Inode

/-- `struct inode_position` -/
structure InodePosition where
  twoSec : Bool
  secLba : UInt32
  offSize : UInt32

/-- `inode_locate`; `none` where it returns with the position uninitialised. -/
def inodeLocate (part : Partition) (inodeNo : UInt32) : Option InodePosition :=
  if inodeNo > 4096 then none
  else
    let inodeTableLba := part.sb.inodeTableLba
    let inodeSize : UInt32 := 108
    let offSize := inodeNo * inodeSize
    let offSec := offSize / 512
    let offSizeInSec := offSize % 512
    let leftInSec := 512 - offSizeInSec
    some ⟨leftInSec < inodeSize, inodeTableLba + offSec, offSizeInSec⟩

/-- How many sectors a record at this position touches. -/
def InodePosition.secCnt (pos : InodePosition) : ℕ := if pos.twoSec then 2 else 1

/-- `inode_sync`. The number is narrowed to a `uint8_t` on entry. -/
def inodeSync (inode : Inode) : FsM Unit := do
  let inodeNo : UInt8 := inode.iNo.toUInt8
  let part := (← get).part
  let inodePos ← deref (inodeLocate part inodeNo.toUInt32)
  assert (inodePos.secLba ≤ part.startLba + part.secCnt)
  sysMallocUnchecked
  let inodeBuf ← ideRead inodePos.secLba Bytes.zero inodePos.secCnt
  let inodeBuf := inodeBuf.splice inodePos.offSize.toNat sizeofInode inode.pureInode.toBytes
  ideWrite inodePos.secLba inodeBuf inodePos.secCnt

/-- The first inode on `open_inodes` with the given number. -/
def findOpenInode (s : Fs) (inodeNo : UInt32) : Option ℕ :=
  s.part.openInodes.find? fun p => (s.inodes p).any fun i => i.iNo == inodeNo

/-- A fresh `struct inode` in the kernel heap. -/
def newInode (inode : Inode) : FsM ℕ := do
  let s ← get
  set (s.setInode s.nextInode (some inode)).bumpInode
  pure s.nextInode

/-- `list_push(&part->open_inodes, &inode->inode_tag)` -/
def pushOpenInode (p : ℕ) : FsM Unit :=
  modify fun s => s.setPart (s.part.setOpenInodes (p :: s.part.openInodes))

/-- The part of `inode_open` that loads an inode missing from `open_inodes`. -/
def inodeLoad (inodeNo : UInt32) : FsM ℕ := do
  let part := (← get).part
  let inodePos ← deref (inodeLocate part inodeNo)
  sysMallocUnchecked
  sysMallocUnchecked
  let inodeBuf ← ideRead inodePos.secLba Bytes.zero inodePos.secCnt
  let p ← newInode ((Inode.ofBytes (inodeBuf.window inodePos.offSize.toNat)).setOpenCnts 1)
  pushOpenInode p
  pure p

/-- `inode_open` -/
def inodeOpen (inodeNo : UInt32) : FsM ℕ := do
  let s ← get
  match findOpenInode s inodeNo with
  | some p =>
    let i ← derefInode p
    storeInode p (i.setOpenCnts (i.iOpenCnts + 1))
    pure p
  | none => inodeLoad inodeNo

/-- `inode_close`. The counter wraps around below zero. -/
def inodeClose (p : ℕ) : FsM Unit := do
  let i ← derefInode p
  let cnt := if i.iOpenCnts = 0 then 2 ^ 32 - 1 else i.iOpenCnts - 1
  storeInode p (i.setOpenCnts cnt)
  if cnt = 0 then
    modify fun s =>
      (s.setPart (s.part.setOpenInodes (s.part.openInodes.erase p))).setInode p none

/-- An inode as `sys_malloc` returns it. -/
def zeroInode : Inode where
  iNo := 0
  iSize := 0
  userId := 0
  ctime := 0
  mtime := 0
  atime := 0
  privilege := 0
  iOpenCnts := 0
  writeDeny := false
  iSectors := fun _ => 0

/-- `inode_init` of an object that holds `inode`. -/
def inodeInit (inodeNo : UInt32) (inode : Inode) : Inode :=
  { inode with iNo := inodeNo, iSize := 0, iOpenCnts := 0, writeDeny := false,
               iSectors := fun _ => 0 }

end Winx
