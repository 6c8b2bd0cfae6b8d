import Mathlib.Algebra.Order.BigOperators.Group.List
import Winx.Fs.Slots

/-! # The entries of a directory

A directory has 140 block slots, each with a block of 21 entry slots or none.
An entry slot is live if its type is known. The live slots, taken block by
block, hold the entries of the directory. What the code reads of a block is
what the block holds on the disk.
-/

namespace Winx

/-- How many entries a block of a formatted partition holds. -/
def entrysPerSec : ℕ := 21

/-- The entry in slot `m` of the block at a sector. -/
def slotEntry (disk : Bytes) (lba : UInt32) (m : ℕ) : DirEntry :=
  DirEntry.ofBytes (disk.window (lba.toNat * 512 + sizeofDirEntry * m))

/-- The live slots of a block. -/
def liveIn (disk : Bytes) (lba : UInt32) : List ℕ :=
  (List.range entrysPerSec).filter fun m => (slotEntry disk lba m).fType ≠ ftUnknown

/-- The live slots in block slot `k` of a directory. -/
def blockSlots (disk : Bytes) (i : Inode) (k : ℕ) : List (ℕ × ℕ) :=
  if blockLba disk i k = 0 then [] else (liveIn disk (blockLba disk i k)).map fun m => (k, m)

/-- The live slots of a directory, each with the index of its block. -/
def liveSlots (disk : Bytes) (i : Inode) : List (ℕ × ℕ) :=
  (List.range 140).flatMap (blockSlots disk i)

/-- The entry in a slot of a directory. -/
def entryAt (disk : Bytes) (i : Inode) (a : ℕ × ℕ) : DirEntry :=
  slotEntry disk (blockLba disk i a.1) a.2

/-- The live entries of a directory, in the order of its blocks and slots. -/
def liveEntries (disk : Bytes) (i : Inode) : List DirEntry := (liveSlots disk i).map (entryAt disk i)

/-- The blocks of a directory can be read. -/
structure DirReadable (disk : Bytes) (i : Inode) : Prop where
  block : ∀ k < 140, blockLba disk i k ≤ maxLba
  table : i.sector 12 ≤ maxLba

/-- The free slots of a directory hold no name. -/
def FreeSlotsBlank (disk : Bytes) (i : Inode) : Prop :=
  ∀ k < 140, blockLba disk i k ≠ 0 → ∀ m < entrysPerSec,
    (entryAt disk i (k, m)).fType = ftUnknown → (entryAt disk i (k, m)).filename = []

/-- The `struct dir` behind a pointer. -/
def Fs.dirOf (s : Fs) : DirPtr → Option Dir
  | .rootDir => some s.rootDir
  | .heap a => (s.tasks.find? (·.pid = s.cur)).bind fun t => t.dirs.lookup a

/-- What `ide_read` brings of the sector at `lba` into a zeroed buffer. -/
def sectorBuf (disk : Bytes) (lba : UInt32) : Bytes :=
  Bytes.zero.splice 0 (1 * 512) (disk.window (lba.toNat * 512))

variable {s : Fs} {disk : Bytes} {i : Inode} {lba : UInt32} {k m : ℕ} {a : ℕ × ℕ}

theorem mem_liveIn : m ∈ liveIn disk lba ↔
    m < entrysPerSec ∧ (slotEntry disk lba m).fType ≠ ftUnknown := by
  simp [liveIn]

theorem nodup_liveIn : (liveIn disk lba).Nodup := List.nodup_range.filter _

theorem mem_blockSlots : a ∈ blockSlots disk i k ↔ a.1 = k ∧ blockLba disk i k ≠ 0 ∧
    a.2 < entrysPerSec ∧ (entryAt disk i a).fType ≠ ftUnknown := by
  obtain ⟨l, m⟩ := a
  rw [blockSlots]
  split
  · rename_i h0
    simp [h0]
  · rename_i h0
    rw [List.mem_map]
    constructor
    · rintro ⟨n, hn, heq⟩
      obtain ⟨rfl, rfl⟩ := Prod.mk.inj heq
      exact ⟨rfl, h0, mem_liveIn.mp hn⟩
    · rintro ⟨rfl, -, hm⟩
      exact ⟨m, mem_liveIn.mpr hm, rfl⟩

theorem mem_liveSlots : a ∈ liveSlots disk i ↔ a.1 < 140 ∧ blockLba disk i a.1 ≠ 0 ∧
    a.2 < entrysPerSec ∧ (entryAt disk i a).fType ≠ ftUnknown := by
  rw [liveSlots, List.mem_flatMap]
  constructor
  · rintro ⟨k, hk, hmem⟩
    obtain ⟨rfl, h⟩ := mem_blockSlots.mp hmem
    exact ⟨List.mem_range.mp hk, h⟩
  · rintro ⟨hk, h⟩
    exact ⟨a.1, List.mem_range.mpr hk, mem_blockSlots.mpr ⟨rfl, h⟩⟩

theorem nodup_blockSlots : (blockSlots disk i k).Nodup := by
  rw [blockSlots]
  split
  · exact List.nodup_nil
  · exact nodup_liveIn.map fun _ _ h => (Prod.mk.inj h).2

theorem nodup_liveSlots : (liveSlots disk i).Nodup := by
  refine List.nodup_flatMap.mpr ⟨fun k _ => nodup_blockSlots, ?_⟩
  refine List.nodup_range.imp fun {k l} hne => ?_
  intro x hx hy
  exact hne ((mem_blockSlots.mp hx).1.symm.trans (mem_blockSlots.mp hy).1)

theorem length_liveIn_le : (liveIn disk lba).length ≤ entrysPerSec :=
  (List.length_filter_le ..).trans_eq List.length_range

theorem length_blockSlots_le : (blockSlots disk i k).length ≤ entrysPerSec := by
  rw [blockSlots]
  split
  · exact Nat.zero_le _
  · rw [List.length_map]
    exact length_liveIn_le

/-- A directory has at most 2940 entries. -/
theorem length_liveSlots_le : (liveSlots disk i).length ≤ 140 * entrysPerSec := by
  rw [liveSlots, List.length_flatMap]
  refine (List.sum_le_card_nsmul _ entrysPerSec ?_).trans_eq ?_
  · intro n hn
    obtain ⟨k, -, rfl⟩ := List.mem_map.mp hn
    exact length_blockSlots_le
  · rw [List.length_map, List.length_range, smul_eq_mul]

theorem mem_liveEntries {e : DirEntry} :
    e ∈ liveEntries disk i ↔ ∃ a ∈ liveSlots disk i, entryAt disk i a = e :=
  List.mem_map

section Buffer

theorem sectorBuf_apply {j : ℕ} (hj : j < 512) :
    sectorBuf disk lba j = disk (lba.toNat * 512 + j) := by
  rw [sectorBuf, Bytes.splice_apply_of_mem (by omega)]
  rfl

theorem word_sectorBuf {j : ℕ} (hj : j + 4 ≤ 512) :
    (sectorBuf disk lba).word j = disk.word (lba.toNat * 512 + j) :=
  Bytes.word_congr fun n hn => by rw [sectorBuf_apply (by omega), Nat.add_assoc]

/-- An entry is its 24 bytes. -/
theorem DirEntry.ofBytes_congr {b c : Bytes} (h : ∀ j < sizeofDirEntry, b j = c j) :
    DirEntry.ofBytes b = DirEntry.ofBytes c := by
  simp only [sizeofDirEntry] at h
  have hname : (List.range 16).map b = (List.range 16).map c :=
    List.map_congr_left fun j hj => h j (by have := List.mem_range.mp hj; omega)
  have hno : b.word 16 = c.word 16 := Bytes.word_congr fun j hj => h _ (by omega)
  have htype : b.word 20 = c.word 20 := Bytes.word_congr fun j hj => h _ (by omega)
  rw [DirEntry.ofBytes, DirEntry.ofBytes, hname, hno, htype]

/-- Reading an entry from the buffer. -/
theorem ofBytes_sectorBuf (hm : m < entrysPerSec) :
    DirEntry.ofBytes ((sectorBuf disk lba).window (sizeofDirEntry * m)) = slotEntry disk lba m := by
  refine DirEntry.ofBytes_congr fun j hj => ?_
  simp only [entrysPerSec, sizeofDirEntry] at hm hj ⊢
  change sectorBuf disk lba (24 * m + j) = disk (lba.toNat * 512 + 24 * m + j)
  rw [sectorBuf_apply (by omega), Nat.add_assoc]

theorem entryType_sectorBuf (hm : m < entrysPerSec) :
    entryType (sectorBuf disk lba) m = (slotEntry disk lba m).fType := by
  simp only [entrysPerSec] at hm
  simp only [entryType, slotEntry, DirEntry.ofBytes, sizeofDirEntry]
  rw [word_sectorBuf (by omega), Bytes.word_window, Nat.add_assoc]

theorem entryNo_sectorBuf (hm : m < entrysPerSec) :
    entryNo (sectorBuf disk lba) m = (slotEntry disk lba m).iNo := by
  simp only [entrysPerSec] at hm
  simp only [entryNo, slotEntry, DirEntry.ofBytes, sizeofDirEntry]
  rw [word_sectorBuf (by omega), Bytes.word_window, Nat.add_assoc]

/-- The string at an offset is the given one exactly if it is what precedes the first zero. -/
theorem strEqAt_iff {b : Bytes} {n : ℕ} : ∀ {name : List UInt8} {off : ℕ}, 0 ∉ name →
    name.length < n → (strEqAt b off name = true ↔
      (((List.range n).map fun j => b (off + j)).takeWhile (· != 0)) = name) := by
  induction n with
  | zero => intro name off _ hlen; omega
  | succ n ih =>
    intro name off h0 hlen
    have hmap : (List.range (n + 1)).map (fun j => b (off + j)) =
        b off :: (List.range n).map fun j => b (off + 1 + j) := by
      rw [List.range_succ_eq_map, List.map_cons, List.map_map]
      refine congrArg₂ _ rfl (List.map_congr_left fun j _ => ?_)
      rw [Function.comp_apply, Nat.add_assoc, Nat.add_comm 1 j]
    rw [hmap, List.takeWhile_cons]
    cases name with
    | nil =>
      rw [strEqAt, beq_iff_eq]
      by_cases hb : b off = 0
      · simp [hb]
      · simp [hb]
    | cons c cs =>
      obtain ⟨hc, hcs⟩ := not_or.mp (List.mem_cons.not.mp h0)
      rw [strEqAt, Bool.and_eq_true, beq_iff_eq,
        ih hcs (by simpa using hlen)]
      by_cases hb : b off = 0
      · simp [hb, hc]
      · simp [hb]

theorem entryNamed_sectorBuf {name : List UInt8} (hm : m < entrysPerSec) (h0 : 0 ∉ name)
    (hlen : name.length < 16) :
    entryNamed (sectorBuf disk lba) m name = true ↔ (slotEntry disk lba m).filename = name := by
  rw [entryNamed, strEqAt_iff h0 hlen, ← ofBytes_sectorBuf hm]
  rfl

end Buffer

section Access

variable {E : Fault → Prop} {p : ℕ}

@[simp] theorem post_derefInode {Q : Inode → Fs → Prop} : Exec.Post (derefInode p) s Q E ↔
    (∀ j, s.inodes p = some j → Q j s) ∧ (s.inodes p = none → E .badPointer) := by
  simp [derefInode]

@[simp] theorem post_storeInode {Q : Unit → Fs → Prop} :
    Exec.Post (storeInode p i) s Q E ↔ Q () (s.setInode p (some i)) := by
  simp [storeInode]

@[simp] theorem post_derefDir {dir : DirPtr} {Q : Dir → Fs → Prop} :
    Exec.Post (derefDir dir) s Q E ↔
      (∀ d, s.dirOf dir = some d → Q d s) ∧ (s.dirOf dir = none → E .badPointer) := by
  cases dir with
  | rootDir => simp [derefDir, Fs.dirOf]
  | heap a =>
    simp only [derefDir, runningThread, Exec.post_bind, Exec.post_get, post_deref, Fs.dirOf]
    cases s.tasks.find? (·.pid = s.cur) <;> simp

@[simp] theorem post_sysMallocUnchecked {Q : Unit → Fs → Prop} :
    Exec.Post sysMallocUnchecked s Q E ↔
      (s.mallocs 0 = true → Q () s.tick) ∧ (s.mallocs 0 = false → E .badPointer) := by
  cases hm : s.mallocs 0 <;> simp [sysMallocUnchecked, hm]

/-- The blocks of an inode whose table can be read. -/
theorem post_loadBlocks_table (htable : i.sector 12 ≤ maxLba) {Q : (ℕ → UInt32) → Fs → Prop} :
    Exec.Post (loadBlocks i) s Q E ↔ Q (blockLba s.disk i) s := by
  rw [loadBlocks]
  split
  · rename_i h0
    have hall : (fun k => if 12 ≤ k ∧ k < 140 then
        s.disk.word ((i.sector 12).toNat * 512 + 4 * (k - 12)) else directBlocks i k) =
        blockLba s.disk i := by
      funext k
      by_cases hk : k < 12
      · rw [if_neg (by omega), directBlocks, if_pos hk, blockLba_of_lt hk]
      · by_cases hk' : k < 140
        · rw [if_pos ⟨by omega, hk'⟩, blockLba_of_le (by omega) hk' h0]
        · rw [if_neg (by omega), directBlocks, if_neg hk, blockLba, if_neg hk,
            if_pos (Or.inr (by omega))]
    rw [post_readTable, hall]
    exact ⟨fun h => h.1 htable, fun h => ⟨fun _ => h, fun hn => absurd htable hn⟩⟩
  · rename_i h0
    have hall : directBlocks i = blockLba s.disk i := by
      funext k
      rw [directBlocks, blockLba]
      split
      · rfl
      · rw [if_pos (Or.inl (not_not.mp h0))]
    rw [Exec.post_pure, hall]

/-- The blocks of a directory that can be read. -/
theorem post_loadBlocks (hread : DirReadable s.disk i) {Q : (ℕ → UInt32) → Fs → Prop} :
    Exec.Post (loadBlocks i) s Q E ↔ Q (blockLba s.disk i) s :=
  post_loadBlocks_table hread.table

/-- Reading a block of a directory. -/
theorem post_readBlock (hlba : lba ≤ maxLba) {Q : Bytes → Fs → Prop} :
    Exec.Post (ideRead lba Bytes.zero 1) s Q E ↔ Q (sectorBuf s.disk lba) s := by
  rw [post_ideRead]
  exact ⟨fun h => h.1 ⟨hlba, by omega⟩, fun h => ⟨fun _ => h, fun hn => absurd ⟨hlba, by omega⟩ hn⟩⟩

end Access

theorem dirEntrysPerSec_eq (hl : Layout s.part) : dirEntrysPerSec s = entrysPerSec := by
  rw [dirEntrysPerSec, hl.dirEntrySize]
  rfl

end Winx
