import Winx.Fs.FileMap

/-! # Slots and well-formed states

A slot is a place of an inode that holds a block number: a data block or the
indirect table. The inode of a number is the cached one if it is on
`open_inodes` and the stored one otherwise. In a well-formed state no block is
held by two slots of used inodes, and the blocks held are marked used.
-/

namespace Winx

/-- A place of an inode that holds a block number. -/
inductive Slot
  | table
  | block (k : ℕ)
  deriving DecidableEq, Repr

/-- The block number in a slot. -/
def slotLba (disk : Bytes) (i : Inode) : Slot → UInt32
  | .table => i.sector 12
  | .block k => blockLba disk i k

/-- The inode with number `n` as `inode_open` would hand it out. -/
def curInode (s : Fs) (n : ℕ) : Inode :=
  match findOpenInode s (UInt32.ofNat n) with
  | some p => (s.inodes p).getD zeroInode
  | none => diskInode s.disk s.part.sb n

/-- Number `n` is taken. -/
def UsedInode (s : Fs) (n : ℕ) : Prop := n < 4096 ∧ s.part.inodeBitmap.scanTest n = true

/-- The block number stands for bit `j` of the block bitmap. -/
def IsBlock (part : Partition) (lba : UInt32) (j : ℕ) : Prop :=
  j < 8 * part.blockBitmap.btmpBytesLen ∧ lba.toNat = part.sb.dataStartLba.toNat + j

/-- The list of open inodes holds one object for each of its inodes, which are used. -/
structure CacheOk (s : Fs) : Prop where
  obj : ∀ p ∈ s.part.openInodes, ∃ i, s.inodes p = some i
  used : ∀ p ∈ s.part.openInodes, ∀ i, s.inodes p = some i → UsedInode s i.iNo.toNat
  inj : ∀ p ∈ s.part.openInodes, ∀ q ∈ s.part.openInodes, ∀ i j,
    s.inodes p = some i → s.inodes q = some j → i.iNo = j.iNo → p = q

/-- The blocks of used inodes: no two slots hold the same one, and all are marked used. -/
structure BlocksOk (s : Fs) : Prop where
  inj : ∀ m n a b, UsedInode s m → UsedInode s n → slotLba s.disk (curInode s m) a ≠ 0 →
    slotLba s.disk (curInode s m) a = slotLba s.disk (curInode s n) b → m = n ∧ a = b
  used : ∀ n a, UsedInode s n → slotLba s.disk (curInode s n) a ≠ 0 →
    ∃ j, IsBlock s.part (slotLba s.disk (curInode s n) a) j ∧ s.part.blockBitmap.scanTest j = true

/-- A well-formed state of the file system. -/
structure FsOk (s : Fs) : Prop where
  layout : Layout s.part
  cache : CacheOk s
  blocks : BlocksOk s

variable {s : Fs} {p : ℕ} {i : Inode}

/-- The object on `open_inodes` with a number. -/
theorem CacheOk.findOpenInode_eq (h : CacheOk s) (hp : p ∈ s.part.openInodes)
    (hi : s.inodes p = some i) : findOpenInode s i.iNo = some p := by
  have hany : ((s.inodes p).any fun j => j.iNo == i.iNo) = true := by simp [hi]
  cases hq : findOpenInode s i.iNo with
  | none => simp [List.find?_eq_none.mp hq p hp] at hany
  | some q =>
    have hqmem := List.mem_of_find?_eq_some hq
    have hqno := List.find?_some hq
    obtain ⟨j, hj⟩ := h.obj q hqmem
    simp only [hj, Option.any_some, beq_iff_eq] at hqno
    rw [h.inj q hqmem p hp j i hj hi hqno]

theorem CacheOk.curInode_eq (h : CacheOk s) (hp : p ∈ s.part.openInodes)
    (hi : s.inodes p = some i) : curInode s i.iNo.toNat = i := by
  simp [curInode, h.findOpenInode_eq hp hi, hi]

/-- An inode that is not on `open_inodes` is the stored one. -/
theorem curInode_of_miss {n : ℕ} (h : findOpenInode s (UInt32.ofNat n) = none) :
    curInode s n = diskInode s.disk s.part.sb n := by
  simp [curInode, h]

/-- Block numbers do not wrap around. -/
theorem Layout.block_lt {part : Partition} (h : Layout part) {j : ℕ}
    (hj : j < 8 * part.blockBitmap.btmpBytesLen) :
    part.sb.dataStartLba.toNat + j < 2 ^ 32 := by
  have h₁ := h.blockBitmapLba
  have h₂ := h.inodeBitmapLba
  have h₃ := h.inodeTableLba
  have h₄ := h.dataStartLba
  have h₅ := h.data_le_end
  have h₆ := h.end_le
  have h₇ := h.blockBitmap_len
  rw [maxLba_toNat] at h₆
  omega

theorem IsBlock.unique {part : Partition} {lba : UInt32} {j k : ℕ} (h : IsBlock part lba j)
    (h' : IsBlock part lba k) : j = k := by
  have := h.2
  have := h'.2
  omega

end Winx
