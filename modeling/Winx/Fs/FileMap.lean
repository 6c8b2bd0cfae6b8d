import Winx.Fs.File
import Winx.Fs.InodeTable
import Winx.Lib.Word

/-! # The blocks of a file

The data blocks of a file are numbered from 0: its twelve direct blocks and
then the 128 entries of its indirect table. A file is mapped if its blocks up
to the one its size falls into are there.
-/

namespace Winx

/-- The sector of data block `k` of a file; 0 if it has none. -/
def blockLba (disk : Bytes) (i : Inode) (k : ℕ) : UInt32 :=
  if k < 12 then i.sector k
  else if i.sector 12 = 0 ∨ 140 ≤ k then 0
  else disk.word ((i.sector 12).toNat * 512 + 4 * (k - 12))

/-- The byte at an offset of a file. -/
def fileByte (disk : Bytes) (i : Inode) (off : ℕ) : UInt8 :=
  disk ((blockLba disk i (off / 512)).toNat * 512 + off % 512)

/-- Block `k` of the file is a sector of the disk, and so is the table if it takes one to find it. -/
structure Mapped (disk : Bytes) (i : Inode) (k : ℕ) : Prop where
  ne_zero : blockLba disk i k ≠ 0
  le_maxLba : blockLba disk i k ≤ maxLba
  table_le : 12 ≤ k → i.sector 12 ≤ maxLba

/-- What `file_write` makes of a file: its size stays below 140 blocks, and it has no block yet or
all of those up to its size. -/
structure FileShape (disk : Bytes) (i : Inode) : Prop where
  size_lt : i.iSize.toNat < 140 * 512
  mapped : (i.iSize = 0 ∧ i.sector 0 = 0) ∨ ∀ k ≤ i.iSize.toNat / 512, Mapped disk i k

variable {s : Fs} {E : Fault → Prop} {disk : Bytes} {i : Inode} {k : ℕ}

theorem toNat_div_512 (x : UInt32) : (x / 512).toNat = x.toNat / 512 := by
  rw [UInt32.toNat_div]; rfl

theorem blockLba_of_lt (h : k < 12) : blockLba disk i k = i.sector k := if_pos h

theorem blockLba_of_le (h : 12 ≤ k) (hk : k < 140) (ht : i.sector 12 ≠ 0) :
    blockLba disk i k = disk.word ((i.sector 12).toNat * 512 + 4 * (k - 12)) := by
  rw [blockLba, if_neg (by omega), if_neg (by rintro (h0 | h140); exacts [ht h0, by omega])]

/-- A block past the direct ones needs the table. -/
theorem Mapped.table_ne_zero (h : Mapped disk i k) (hk : 12 ≤ k) : i.sector 12 ≠ 0 := by
  intro h0
  apply h.ne_zero
  rw [blockLba, if_neg (by omega), if_pos (Or.inl h0)]

theorem fileByte_add {pos j : ℕ} (h : pos % 512 + j < 512) : fileByte disk i (pos + j) =
    disk ((blockLba disk i (pos / 512)).toNat * 512 + pos % 512 + j) := by
  rw [fileByte, show (pos + j) / 512 = pos / 512 by omega,
    show (pos + j) % 512 = pos % 512 + j by omega, Nat.add_assoc]

/-- Reading the table fills the entries from 12 on. -/
@[simp] theorem post_readTable {lba : UInt32} {allBlocks : ℕ → UInt32}
    {Q : (ℕ → UInt32) → Fs → Prop} : Exec.Post (readTable lba allBlocks) s Q E ↔
      (lba ≤ maxLba → Q (fun k => if 12 ≤ k ∧ k < 140 then
        s.disk.word (lba.toNat * 512 + 4 * (k - 12)) else allBlocks k) s) ∧
      (¬ lba ≤ maxLba → E .assertFailed) := by
  have hword : (fun k => if 12 ≤ k ∧ k < 140 then
        (Bytes.zero.splice 0 (1 * 512) (s.disk.window (lba.toNat * 512))).word (4 * (k - 12))
        else allBlocks k) =
      fun k => if 12 ≤ k ∧ k < 140 then
        s.disk.word (lba.toNat * 512 + 4 * (k - 12)) else allBlocks k := by
    funext k
    split
    · rw [Bytes.word_splice_of_mem (by omega), Bytes.word_window, Nat.sub_zero]
    · rfl
  simp only [readTable, Exec.post_bind, post_ideRead, Exec.post_pure, hword, Nat.lt_one_iff,
    and_true]

end Winx
