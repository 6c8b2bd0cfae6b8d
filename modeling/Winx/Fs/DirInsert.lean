import Winx.Fs.DirShape

/-! # Adding a directory entry

`sync_dir_entry` puts a new entry into the first free place of the blocks of a
directory, or into a fresh block at the first empty slot. It fills its array of
block numbers with the direct blocks only, so what it does past them depends on
what the stack held.
-/

namespace Winx

/-- The block in slot `k` is there and has no free place. -/
def FullBlock (disk : Bytes) (i : Inode) (k : ℕ) : Prop :=
  blockLba disk i k ≠ 0 ∧ ∀ m < entrysPerSec, (entryAt disk i (k, m)).fType ≠ ftUnknown

/-- The bytes of an entry slot of the block at a sector. -/
def entryArea (lba : UInt32) (m : ℕ) : Set ℕ :=
  {x | lba.toNat * 512 + sizeofDirEntry * m ≤ x ∧
    x < lba.toNat * 512 + sizeofDirEntry * m + sizeofDirEntry}

/-- What of the disk is written for a new entry in slot `a`, besides the block bitmap: a fresh block,
or a free place of a block. -/
def storedArea (disk : Bytes) (i : Inode) (a : ℕ × ℕ) (lba : UInt32) : Set ℕ :=
  {x | blockLba disk i a.1 = 0 ∧ x ∈ sectorArea lba ∨
    blockLba disk i a.1 ≠ 0 ∧ x ∈ entryArea lba a.2}

/-- What a new entry in slot `a` leaves: the disk, the block bitmap and the inode. -/
structure EntryStored (s : Fs) (i : Inode) (a : ℕ × ℕ) (e : DirEntry) (d : Bytes) (b : Bitmap)
    (i' : Inode) : Prop where
  lt : a.1 < 12 ∧ a.2 < entrysPerSec
  same : ∃ sectors, i' = { i with iSize := i.iSize + 24, iSectors := sectors }
  kept : ∀ c, slotLba s.disk i c ≠ 0 → slotLba d i' c = slotLba s.disk i c
  empty : ∀ c, slotLba s.disk i c = 0 → c ≠ .block a.1 → slotLba d i' c = 0
  block : blockLba d i' a.1 ≠ 0 ∧ blockLba d i' a.1 ≤ maxLba
  free : blockLba s.disk i a.1 ≠ 0 → (entryAt s.disk i a).fType = ftUnknown
  fresh : blockLba s.disk i a.1 = 0 → ∀ m < entrysPerSec, m ≠ a.2 →
    slotEntry d (blockLba d i' a.1) m = DirEntry.ofBytes Bytes.zero
  entry : slotEntry d (blockLba d i' a.1) a.2 = DirEntry.ofBytes e.toBytes
  others : ∀ k < 140, blockLba s.disk i k ≠ 0 → ∀ m < entrysPerSec, (k, m) ≠ a →
    slotEntry d (blockLba s.disk i k) m = slotEntry s.disk (blockLba s.disk i k) m
  alloc : Allocated s.part s.part.blockBitmap b
    {c | c = .block a.1 ∧ slotLba s.disk i c = 0} (slotLba d i')
  disk : Bytes.EqOutside (bitmapArea s.part ∪ storedArea s.disk i a (blockLba d i' a.1)) s.disk d

variable {s : Fs} {disk d : Bytes} {i i' : Inode} {b : Bitmap} {lba : UInt32} {p k m : ℕ} {a : ℕ × ℕ}
  {e : DirEntry} {f : ℕ → UInt32}

section Entry

/-- An entry with the name of a file: at most 15 characters, none of them zero. -/
structure DirEntry.Proper (e : DirEntry) : Prop where
  short : e.filename.length < 16
  nonzero : 0 ∉ e.filename
  live : e.fType ≠ ftUnknown

theorem word_byteOf {b : Bytes} {off : ℕ} {w : UInt32} (h : ∀ j < 4, b (off + j) = Bytes.byteOf w j) :
    b.word off = w := by
  have heq : b.word off = (Bytes.ofWords fun _ => w).word (4 * 0) := by
    refine Bytes.word_congr fun j hj => ?_
    rw [h j hj, Bytes.ofWords, Nat.mul_zero, Nat.zero_add, Nat.mod_eq_of_lt hj]
  rw [heq, Bytes.word_ofWords]

/-- Reading back an entry. -/
theorem DirEntry.Proper.ofBytes_toBytes (h : e.Proper) : DirEntry.ofBytes e.toBytes = e := by
  have hno : e.toBytes.word 16 = e.iNo := word_byteOf fun j hj => by
    rw [toBytes, if_neg (by omega), if_pos (by omega), Nat.add_sub_cancel_left]
  have htype : e.toBytes.word 20 = e.fType := word_byteOf fun j hj => by
    rw [toBytes, if_neg (by omega), if_neg (by omega), Nat.add_sub_cancel_left]
  have hname : (List.range 16).map e.toBytes = e.filename ++
      List.replicate (16 - e.filename.length) 0 := by
    have hshort := h.short
    refine List.ext_getElem (by simp; omega) fun n hn hn' => ?_
    have hlt : n < 16 := by simpa using hn
    rw [List.getElem_map, List.getElem_range, toBytes, if_pos hlt, List.getD_eq_getElem?_getD]
    by_cases hlen : n < e.filename.length
    · rw [List.getElem_append_left hlen, List.getElem?_eq_getElem hlen, Option.getD_some]
    · rw [List.getElem_append_right (by omega), List.getElem?_eq_none (by omega), Option.getD_none,
        List.getElem_replicate]
  have htake : (e.filename ++ List.replicate (16 - e.filename.length) 0).takeWhile (· != 0) =
      e.filename := by
    have hall : ∀ c ∈ e.filename, (c != 0) = true := by
      intro c hc
      rw [bne_iff_ne]
      rintro rfl
      exact h.nonzero hc
    rw [List.takeWhile_append_of_pos hall]
    have hrest : (List.replicate (16 - e.filename.length) (0 : UInt8)).takeWhile (· != 0) = [] := by
      cases 16 - e.filename.length <;> simp [List.replicate_succ]
    rw [hrest, List.append_nil]
  rw [ofBytes, hname, htake, hno, htype]

end Entry

section Place

theorem findFree_eq (buf : Bytes) (n k : ℕ) :
    findFree buf n k = (List.range' k n).find? fun j => decide (entryType buf j = ftUnknown) := by
  induction n generalizing k with
  | zero => rfl
  | succ n ih =>
    rw [findFree, List.range'_succ, List.find?_cons]
    by_cases h : entryType buf k = ftUnknown
    · rw [if_pos h, decide_eq_true h]
    · rw [if_neg h, decide_eq_false h]
      exact ih (k + 1)

/-- A block that is there has a free place unless it is full. -/
theorem findFree_eq_none_iff (h0 : blockLba disk i k ≠ 0) :
    findFree (sectorBuf disk (blockLba disk i k)) entrysPerSec 0 = none ↔ FullBlock disk i k := by
  rw [findFree_eq, List.find?_eq_none, FullBlock, and_iff_right h0]
  constructor
  · intro h m hm htype
    have := h m (List.mem_range'_1.mpr ⟨Nat.zero_le m, by omega⟩)
    rw [entryType_sectorBuf hm] at this
    exact this (decide_eq_true htype)
  · intro h m hm htype
    have hlt : m < entrysPerSec := by
      have := List.mem_range'_1.mp hm
      omega
    rw [entryType_sectorBuf hlt] at htype
    exact h m hlt (of_decide_eq_true htype)

theorem findFree_eq_some
    (h : findFree (sectorBuf disk (blockLba disk i k)) entrysPerSec 0 = some m) :
    m < entrysPerSec ∧ (entryAt disk i (k, m)).fType = ftUnknown := by
  rw [findFree_eq] at h
  have hlt : m < entrysPerSec := by
    have := List.mem_range'_1.mp (List.mem_of_find?_eq_some h)
    omega
  have htype := List.find?_some h
  rw [entryType_sectorBuf hlt] at htype
  exact ⟨hlt, of_decide_eq_true htype⟩

variable {E : Fault → Prop} {Q : Bool → Fs → Prop}

/-- The search goes on after a full block. -/
theorem post_syncBlocks_full (hl : Layout s.part) (hread : DirReadable s.disk i)
    (hf : f k = blockLba s.disk i k) (hk : k < 140) (hfull : FullBlock s.disk i k) (n : ℕ) :
    Exec.Post (syncBlocks p e f (n + 1) k) s Q E ↔
      Exec.Post (syncBlocks p e f n (k + 1)) s Q E := by
  rw [syncBlocks, Exec.post_bind, Exec.post_get, hf, if_neg hfull.1, Exec.post_bind,
    post_readBlock (hread.block k hk), dirEntrysPerSec_eq hl, (findFree_eq_none_iff hfull.1).mpr hfull]

/-- The search goes through the full direct blocks. -/
theorem post_syncBlocks_direct (hl : Layout s.part) (hread : DirReadable s.disk i)
    (hf : ∀ l < 12, f l = blockLba s.disk i l) (hk : k ≤ 12)
    (hfull : ∀ l < k, FullBlock s.disk i l) :
    Exec.Post (syncBlocks p e f 140 0) s Q E ↔
      Exec.Post (syncBlocks p e f (140 - k) k) s Q E := by
  induction k with
  | zero => rfl
  | succ k ih =>
    rw [ih (by omega) fun l hl => hfull l (by omega), show 140 - k = 140 - (k + 1) + 1 by omega]
    exact post_syncBlocks_full hl hread (hf k (by omega)) (by omega) (hfull k (by omega)) _

/-- A free place in a direct block. -/
theorem post_syncBlocks_place (hl : Layout s.part) (hread : DirReadable s.disk i)
    (hi : s.inodes p = some i) (hf : f k = blockLba s.disk i k) (hk : k < 140)
    (h0 : blockLba s.disk i k ≠ 0)
    (hm : findFree (sectorBuf s.disk (blockLba s.disk i k)) entrysPerSec 0 = some m) (n : ℕ) :
    Exec.Post (syncBlocks p e f (n + 1) k) s Q E ↔
      Q true (s.grow p (storeEntry s.disk (blockLba s.disk i k) m e.toBytes) s.part.blockBitmap
        { i with iSize := i.iSize + 24 }) := by
  rw [syncBlocks, Exec.post_bind, Exec.post_get, hf, if_neg h0, Exec.post_bind,
    post_readBlock (hread.block k hk), dirEntrysPerSec_eq hl, hm, hl.dirEntrySize]
  refine Exec.post_bind.trans ?_
  refine (post_writeEntry _ (hread.block k hk) (findFree_eq_some hm).1).trans ?_
  simp only [growDir, Exec.post_bind, Exec.post_get, post_derefInode, Fs.setDisk_inodes, hi,
    Option.some.injEq, forall_eq', reduceCtorEq, false_implies, and_true, post_storeInode,
    Fs.setDisk_part, hl.dirEntrySize, Exec.post_pure]
  rfl

end Place

section Store

theorem storeEntry_eqOutside_entryArea (src : Bytes) :
    Bytes.EqOutside (entryArea lba m) d (storeEntry d lba m src) :=
  Bytes.eqOutside_splice fun _ hle hlt => ⟨hle, hlt⟩

/-- The entry goes to a free place of a direct block. -/
theorem EntryStored.of_place (h : DirBlocks s i) (hk : k < 12) (h0 : blockLba s.disk i k ≠ 0)
    (hm : m < entrysPerSec) (hfree : (entryAt s.disk i (k, m)).fType = ftUnknown) :
    EntryStored s i (k, m) e (storeEntry s.disk (blockLba s.disk i k) m e.toBytes)
      s.part.blockBitmap { i with iSize := i.iSize + 24 } := by
  have hd : Bytes.EqOutside (sectorArea (blockLba s.disk i k)) s.disk
      (storeEntry s.disk (blockLba s.disk i k) m e.toBytes) := storeEntry_eqOutside _ hm
  have hslot (c : Slot) : slotLba (storeEntry s.disk (blockLba s.disk i k) m e.toBytes)
      { i with iSize := i.iSize + 24 } c = slotLba s.disk i c := by
    have hne : Slot.table ≠ .block k := nofun
    have htable (h12 : i.sector 12 ≠ 0) : ∀ x ∈ sectorArea (i.sector 12),
        x ∉ sectorArea (blockLba s.disk i k) := by
      have hdisjoint := h.disjoint (c := .table) h12 hne
      exact hdisjoint
    rw [← slotLba_eq hd htable c]
    cases c <;> rfl
  have hblock := hslot (.block k)
  change blockLba _ _ k = blockLba s.disk i k at hblock
  refine ⟨⟨hk, hm⟩, ⟨i.iSectors, rfl⟩, fun c _ => hslot c, fun c hc _ => (hslot c).trans hc,
    ⟨?_, ?_⟩, fun _ => hfree, fun hz => absurd hz h0, ?_, fun l hl hl0 n hn hne => ?_, ?_, ?_⟩
  · rw [hblock]
    exact h0
  · rw [hblock]
    exact h.readable.block k (by omega)
  · rw [hblock]
    exact slotEntry_storeEntry_self _
  · refine slotEntry_storeEntry_of_ne _ hm hn fun heq hnm => hne ?_
    have := h.inj (.block l) (.block k) hl0 heq
    rw [Slot.block.injEq] at this
    rw [this, hnm]
  · have hnone : {c | c = Slot.block k ∧ slotLba s.disk i c = 0} = ∅ := by
      ext c
      refine iff_of_false ?_ id
      rintro ⟨rfl, hz⟩
      exact h0 hz
    rw [hnone]
    exact Allocated.empty ..
  · rw [hblock]
    exact (storeEntry_eqOutside_entryArea _).mono fun x hx => Or.inr (Or.inr ⟨h0, hx⟩)

/-- A block just made holds the one entry it was written with. -/
theorem slotEntry_firstEntry (src : Bytes) (hm : m < entrysPerSec) :
    slotEntry (d.splice (lba.toNat * 512) (1 * 512) (Bytes.zero.splice 0 24 src)) lba m =
      if m = 0 then DirEntry.ofBytes src else DirEntry.ofBytes Bytes.zero := by
  simp only [entrysPerSec] at hm
  have happly {n : ℕ} (hn : n < sizeofDirEntry) :
      (d.splice (lba.toNat * 512) (1 * 512) (Bytes.zero.splice 0 24 src)).window
        (lba.toNat * 512 + sizeofDirEntry * m) n = Bytes.zero.splice 0 24 src (24 * m + n) := by
    simp only [sizeofDirEntry] at hn ⊢
    rw [Bytes.window_apply, Bytes.splice_apply_of_mem (by omega)]
    exact congrArg _ (by omega)
  split
  · rename_i hm0
    subst hm0
    refine DirEntry.ofBytes_congr fun n hn => ?_
    rw [happly hn, Nat.mul_zero, Nat.zero_add]
    exact Bytes.splice_apply_of_mem (by simp only [sizeofDirEntry] at hn; omega)
  · refine DirEntry.ofBytes_congr fun n hn => ?_
    rw [happly hn]
    exact Bytes.splice_apply_of_not_mem (by omega)

/-- The entry goes to a fresh block. -/
theorem EntryStored.of_fresh {j : ℕ} {d₁ : Bytes} (h : DirBlocks s i) (hk : k < 12)
    (h0 : blockLba s.disk i k = 0) (hj : IsBlock s.part lba j)
    (hclear : s.part.blockBitmap.scanTest j = false) (hmax : lba ≤ maxLba)
    (hd₁ : Bytes.EqOutside (bitmapArea s.part) s.disk d₁) :
    EntryStored s i (k, 0) e
      (d₁.splice (lba.toNat * 512) (1 * 512) (Bytes.zero.splice 0 24 e.toBytes))
      (s.part.blockBitmap.set j true)
      { i.setSector k lba with iSize := i.iSize + 24 } := by
  set d₂ := d₁.splice (lba.toNat * 512) (1 * 512) (Bytes.zero.splice 0 24 e.toBytes) with hd₂def
  set i' : Inode := { i.setSector k lba with iSize := i.iSize + 24 }
  have hne : lba ≠ 0 := h.layout.block_ne_zero hj
  have hd₂ : Bytes.EqOutside (bitmapArea s.part ∪ sectorArea lba) s.disk d₂ :=
    (hd₁.mono Set.subset_union_left).trans (eqOutside_writeTable.mono Set.subset_union_right)
  -- the blocks there are were not free
  have hother {c : Slot} (hc : slotLba s.disk i c ≠ 0) : slotLba s.disk i c ≠ lba := by
    intro heq
    obtain ⟨j', hj', hset⟩ := h.used c hc
    rw [heq] at hj'
    rw [hj'.unique hj, hclear] at hset
    cases hset
  have hsector (l : ℕ) (hl : l < 13) (hlk : l ≠ k) : i'.sector l = i.sector l := by
    change (i.setSector k lba).sector l = _
    rw [Inode.sector_setSector, if_neg fun hc => hlk hc.1]
  have h12 : i'.sector 12 = i.sector 12 := hsector 12 (by omega) (by omega)
  have hblock : blockLba d₂ i' k = lba := by
    rw [blockLba_of_lt hk]
    change (i.setSector k lba).sector k = lba
    rw [Inode.sector_setSector, if_pos ⟨rfl, by omega⟩]
  have htable : i.sector 12 ≠ 0 → ∀ x ∈ sectorArea (i.sector 12),
      x ∉ bitmapArea s.part ∪ sectorArea lba := by
    rintro ht x hx (hx' | hx')
    · exact h.not_mem_bitmapArea (c := .table) ht x hx hx'
    · exact sectorArea_disjoint (hother (c := .table) ht) x hx hx'
  have hslot (c : Slot) (hc : c ≠ .block k) : slotLba d₂ i' c = slotLba s.disk i c := by
    rw [← slotLba_eq hd₂ htable c]
    cases c with
    | table => exact h12
    | block l =>
      have hlk : l ≠ k := fun heq => hc (heq ▸ rfl)
      rw [slotLba, slotLba, blockLba, blockLba, h12]
      split
      · exact hsector l (by omega) hlk
      · rfl
  have hpos : 0 < entrysPerSec := by decide
  refine ⟨⟨hk, hpos⟩, ⟨(i.setSector k lba).iSectors, rfl⟩, fun c hc => hslot c ?_,
    fun c hc hck => (hslot c hck).trans hc, ⟨?_, ?_⟩, fun hz => absurd h0 hz, fun _ m hm hm0 => ?_,
    ?_, fun l hl hl0 n hn _ => ?_, ?_, ?_⟩
  · rintro rfl
    exact hc h0
  · rw [hblock]
    exact hne
  · rw [hblock]
    exact hmax
  · rw [hblock, hd₂def, slotEntry_firstEntry _ hm, if_neg hm0]
  · rw [hblock, hd₂def, slotEntry_firstEntry _ hpos, if_pos rfl]
  · refine slotEntry_eq hd₂ ?_ hn
    rintro x hx (hx' | hx')
    · exact h.not_mem_bitmapArea (c := .block l) hl0 x hx hx'
    · exact sectorArea_disjoint (hother (c := .block l) hl0) x hx hx'
  · have hone : {c | c = Slot.block k ∧ slotLba s.disk i c = 0} = {.block k} := by
      ext c
      refine ⟨fun hc => hc.1, ?_⟩
      rintro rfl
      exact ⟨rfl, h0⟩
    rw [hone]
    refine Allocated.single ?_ hclear
    rw [slotLba, hblock]
    exact hj
  · rw [hblock]
    refine hd₂.mono ?_
    rintro x (hx | hx)
    · exact Or.inl hx
    · exact Or.inr (Or.inl ⟨h0, hx⟩)

end Store

section Extend

/-- The first free block, if there is one, is a sector of the disk. -/
def FirstFreeOnDisk (part : Partition) : Prop :=
  ∀ j, part.blockBitmap.scan 1 = some j → part.sb.dataStartLba.toNat + j ≤ maxLba.toNat

/-- The directory gets a fresh block at an empty direct slot, if the block is on the disk. -/
theorem extendDir_spec (h : DirBlocks s i) (hi : s.inodes p = some i) (hk : k < 12)
    (h0 : blockLba s.disk i k = 0) :
    Exec.Post (extendDir p e k f) s
      (fun r s' => (s.part.blockBitmap.scan 1 = none ∧ r = false ∧ s' = s) ∨
        (r = true ∧ FirstFreeOnDisk s.part ∧
          ∃ d b i', EntryStored s i (k, 0) e d b i' ∧ s' = s.grow p d b i'))
      fun _ => ¬ FirstFreeOnDisk s.part := by
  simp only [extendDir, Exec.post_bind, Exec.post_get, post_blockBitmapAlloc, Exec.post_pure]
  refine ⟨fun hnone => Or.inl ⟨hnone, trivial, trivial⟩, fun j hj => ?_⟩
  obtain ⟨hlt, hclear, -⟩ := Bitmap.scan_one_eq_some_iff.mp hj
  have hblock := h.layout.isBlock hlt
  generalize s.part.sb.dataStartLba + UInt32.ofNat j = lba at hblock ⊢
  have hstart : s.setPart (s.part.setBlockBitmap (s.part.blockBitmap.set j true)) =
      s.grow p s.disk (s.part.blockBitmap.set j true) i := by
    rw [← Fs.grow_setBlockBitmap s p s.disk s.part.blockBitmap, Fs.grow_self s p i hi]
    rfl
  rw [hstart]
  refine Exec.Returns.post (bitmapSync_block_spec
    (s := s.grow p s.disk (s.part.blockBitmap.set j true) i) (h.layout.setBlockBitmap rfl)
    ((isBlock_setBlockBitmap rfl).mpr hblock)) ?_
  rintro _ _ ⟨d₁, rfl, hd₁⟩
  have hd₁ : Bytes.EqOutside (bitmapArea s.part) s.disk d₁ := hd₁
  simp only [Fs.grow_setDisk, post_derefInode, Fs.grow_inodes, Function.update_self,
    Option.some.injEq, forall_eq', reduceCtorEq, false_implies, and_true, hk, if_true,
    Exec.post_bind, post_storeInode, Fs.grow_setInode, writeFirstEntry, Exec.post_get, post_ideWrite,
    Nat.zero_lt_one, Fs.grow_part, Partition.setBlockBitmap_sb, h.layout.dirEntrySize, growDir,
    Exec.post_pure, Fs.grow_disk]
  have hdisk : lba ≤ maxLba ↔ FirstFreeOnDisk s.part := by
    rw [UInt32.le_iff_toNat_le, hblock.2]
    constructor
    · intro hle j' hj'
      rwa [← Option.some.inj (hj.symm.trans hj')]
    · exact fun hfirst => hfirst j hj
  refine ⟨fun hmax => ?_, mt hdisk.mpr⟩
  exact Or.inr ⟨trivial, hdisk.mp hmax, _, _, _,
    EntryStored.of_fresh h hk h0 hblock hclear hmax hd₁, rfl⟩

end Extend

section Live

variable (he : EntryStored s i a e d b i')

include he

/-- The slots of the directory hold their old blocks, but for the one with a fresh block. -/
theorem EntryStored.slot_cases {c : Slot} (h0 : slotLba d i' c ≠ 0) :
    (slotLba s.disk i c ≠ 0 ∧ slotLba d i' c = slotLba s.disk i c) ∨
      (slotLba s.disk i c = 0 ∧ c = .block a.1) := by
  by_cases hc : slotLba s.disk i c = 0
  · refine Or.inr ⟨hc, ?_⟩
    by_contra hne
    exact h0 (he.empty c hc hne)
  · exact Or.inl ⟨hc, he.kept c hc⟩

/-- A fresh block was free before. -/
theorem EntryStored.not_old (h : DirBlocks s i) {c c' : Slot} (hc : slotLba s.disk i c ≠ 0)
    (hc' : slotLba s.disk i c' = 0 ∧ c' = .block a.1) : slotLba d i' c ≠ slotLba d i' c' := by
  intro heq
  obtain ⟨j, hj, hset⟩ := h.used c hc
  obtain ⟨j', hj', hclear⟩ := he.alloc.fresh c' ⟨hc'.2, hc'.1⟩
  rw [← heq, he.kept c hc] at hj'
  rw [hj'.unique hj, hset] at hclear
  cases hclear

/-- The blocks of the directory with the new entry. -/
theorem EntryStored.dirBlocks (h : DirBlocks s i) (hproper : e.Proper) :
    DirBlocks (s.grow p d b i') i' := by
  refine ⟨h.layout.setBlockBitmap he.alloc.len, ⟨fun k hk => ?_, ?_⟩, fun c h0 => ?_,
    fun c c' h0 heq => ?_, fun k hk h0 m hm hfree => ?_⟩
  · change blockLba d i' k ≤ maxLba
    by_cases h0 : blockLba d i' k = 0
    · exact h0 ▸ UInt32.zero_le
    rcases he.slot_cases (c := .block k) h0 with ⟨-, hold⟩ | ⟨-, hka⟩
    · exact hold.trans_le (h.readable.block k hk)
    · rw [Slot.block.inj hka]
      exact he.block.2
  · by_cases h0 : i'.sector 12 = 0
    · exact h0 ▸ UInt32.zero_le
    rcases he.slot_cases (c := .table) h0 with ⟨-, hold⟩ | ⟨-, hka⟩
    · exact hold.trans_le h.readable.table
    · cases hka
  · simp only [Fs.grow_disk, Fs.grow_part, isBlock_setBlockBitmap he.alloc.len,
      Partition.setBlockBitmap_blockBitmap]
    rcases he.slot_cases h0 with ⟨hc, hold⟩ | ⟨hc, hca⟩
    · rw [hold]
      obtain ⟨j, hj, hset⟩ := h.used c hc
      exact ⟨j, hj, (he.alloc.bits j).mpr (Or.inl hset)⟩
    · obtain ⟨j, hj, -⟩ := he.alloc.fresh c ⟨hca, hc⟩
      exact ⟨j, hj, (he.alloc.bits j).mpr (Or.inr ⟨c, ⟨hca, hc⟩, hj⟩)⟩
  · have h0' : slotLba d i' c' ≠ 0 := fun hz => h0 (heq.trans hz)
    rcases he.slot_cases h0 with ⟨hc, hold⟩ | hc
    · rcases he.slot_cases h0' with ⟨-, hold'⟩ | hc'
      · exact h.inj c c' hc (hold.symm.trans (heq.trans hold'))
      · exact absurd heq (he.not_old h hc hc')
    · rcases he.slot_cases h0' with ⟨hc', -⟩ | hc'
      · exact absurd heq.symm (he.not_old h hc' hc)
      · rw [hc.2, hc'.2]
  · change (slotEntry d (blockLba d i' k) m).fType = ftUnknown at hfree
    change (slotEntry d (blockLba d i' k) m).filename = []
    by_cases hne : (k, m) = a
    · have hentry := he.entry
      rw [← hne] at hentry
      rw [hentry, hproper.ofBytes_toBytes] at hfree
      exact absurd hfree hproper.live
    rcases he.slot_cases (c := .block k) h0 with ⟨hk0, hold⟩ | ⟨hk0, hka⟩
    · change blockLba d i' k = blockLba s.disk i k at hold
      rw [hold, he.others k hk hk0 m hm hne] at hfree ⊢
      exact h.blank k hk hk0 m hm hfree
    · have hka := Slot.block.inj hka
      subst hka
      rw [he.fresh hk0 m hm fun hma => hne (Prod.ext rfl hma)]
      rfl

theorem EntryStored.not_mem : a ∉ liveSlots s.disk i := by
  intro ha
  obtain ⟨-, h0, -, hlive⟩ := mem_liveSlots.mp ha
  exact hlive (he.free h0)

theorem EntryStored.entryAt_eq {c : ℕ × ℕ} (hc : c ∈ liveSlots s.disk i) :
    blockLba d i' c.1 = blockLba s.disk i c.1 ∧ entryAt d i' c = entryAt s.disk i c := by
  obtain ⟨hlt, h0, hm, -⟩ := mem_liveSlots.mp hc
  have hblock : blockLba d i' c.1 = blockLba s.disk i c.1 := he.kept (.block c.1) h0
  refine ⟨hblock, ?_⟩
  rw [entryAt, hblock]
  refine he.others c.1 hlt h0 c.2 hm ?_
  rintro rfl
  exact he.not_mem hc

variable (hproper : e.Proper)

include hproper

theorem EntryStored.entryAt_self : entryAt d i' a = e :=
  he.entry.trans hproper.ofBytes_toBytes

/-- The live slots with the new entry. -/
theorem EntryStored.mem_liveSlots_iff (c : ℕ × ℕ) :
    c ∈ liveSlots d i' ↔ c ∈ liveSlots s.disk i ∨ c = a := by
  constructor
  · intro hc
    obtain ⟨hlt, h0, hm, hlive⟩ := mem_liveSlots.mp hc
    by_cases hca : c = a
    · exact Or.inr hca
    rcases he.slot_cases (c := .block c.1) h0 with ⟨hc0, hold⟩ | ⟨hc0, hc1⟩
    · change blockLba d i' c.1 = blockLba s.disk i c.1 at hold
      refine Or.inl (mem_liveSlots.mpr ⟨hlt, hc0, hm, ?_⟩)
      rw [entryAt, hold, he.others c.1 hlt hc0 c.2 hm hca] at hlive
      exact hlive
    · have hc1 := Slot.block.inj hc1
      change blockLba s.disk i c.1 = 0 at hc0
      rw [hc1] at hc0
      rw [entryAt, hc1, he.fresh hc0 c.2 hm fun hc2 => hca (Prod.ext hc1 hc2)] at hlive
      exact absurd rfl hlive
  · rintro (hc | rfl)
    · obtain ⟨hlt, h0, hm, hlive⟩ := mem_liveSlots.mp hc
      obtain ⟨hblock, hentry⟩ := he.entryAt_eq hc
      exact mem_liveSlots.mpr ⟨hlt, hblock ▸ h0, hm, hentry ▸ hlive⟩
    · refine mem_liveSlots.mpr ⟨by have := he.lt.1; omega, he.block.1, he.lt.2, ?_⟩
      rw [he.entryAt_self hproper]
      exact hproper.live

/-- The live entries are the old ones and the new one. -/
theorem EntryStored.perm : (liveEntries d i').Perm (e :: liveEntries s.disk i) := by
  have ha : a ∈ liveSlots d i' := (he.mem_liveSlots_iff hproper a).mpr (Or.inr rfl)
  have hmem (c : ℕ × ℕ) : c ∈ liveSlots s.disk i ↔ c ∈ liveSlots d i' ∧ c ≠ a := by
    rw [he.mem_liveSlots_iff hproper]
    constructor
    · intro hc
      refine ⟨Or.inl hc, ?_⟩
      rintro rfl
      exact he.not_mem hc
    · rintro ⟨hc | hca, hne⟩
      · exact hc
      · exact absurd hca hne
  have hperm : (liveEntries d i').Perm (entryAt d i' a :: liveEntries s.disk i) :=
    liveEntries_perm ha hmem fun c hc => (he.entryAt_eq hc).2.symm
  rwa [he.entryAt_self hproper] at hperm

end Live

section Insert

variable {dir : DirPtr} {o : Dir}

/-- What `sync_dir_entry` takes for the blocks of a directory. -/
def knownBlocks (s : Fs) (i : Inode) : ℕ → UInt32 := fun l => if l < 12 then i.sector l else s.junk l

theorem knownBlocks_of_lt (hk : k < 12) : knownBlocks s i k = blockLba s.disk i k := by
  rw [blockLba_of_lt hk]
  exact if_pos hk

/-- `sync_dir_entry` goes through the full direct blocks. -/
theorem post_syncDirEntry (h : DirBlocks s i) (hdir : s.dirOf dir = some o)
    (hi : s.inodes o.inode = some i) (hk : k ≤ 12) (hfull : ∀ l < k, FullBlock s.disk i l)
    {Q : Bool → Fs → Prop} {E : Fault → Prop} : Exec.Post (syncDirEntry dir e) s Q E ↔
      (i.iSize % 24 = 0 →
        Exec.Post (syncBlocks o.inode e (knownBlocks s i) (140 - k) k) s Q E) ∧
      (i.iSize % 24 ≠ 0 → E .assertFailed) := by
  simp only [syncDirEntry, Exec.post_bind, Exec.post_get, post_derefDir, hdir, Option.some.injEq,
    forall_eq', reduceCtorEq, false_implies, and_true, post_derefInode, hi, post_assert,
    h.layout.dirEntrySize]
  refine and_congr_left fun _ => forall_congr' fun _ => ?_
  exact post_syncBlocks_direct h.layout h.readable (fun _ => knownBlocks_of_lt) hk hfull

/-- `sync_dir_entry` finds a place for the entry at a direct block slot. -/
theorem syncDirEntry_spec (h : DirBlocks s i) (hdir : s.dirOf dir = some o)
    (hi : s.inodes o.inode = some i) (hk : k < 12) (hfull : ∀ l < k, FullBlock s.disk i l)
    (hnot : ¬ FullBlock s.disk i k) :
    Exec.Post (syncDirEntry dir e) s
      (fun r s' => (r = false ∧ s' = s) ∨ (r = true ∧ ∃ m d b i',
        EntryStored s i (k, m) e d b i' ∧ s' = s.grow o.inode d b i'))
      fun _ => i.iSize % 24 ≠ 0 ∨ (blockLba s.disk i k = 0 ∧ ¬ FirstFreeOnDisk s.part) := by
  rw [post_syncDirEntry h hdir hi hk.le hfull, show 140 - k = 139 - k + 1 by omega]
  refine ⟨fun _ => ?_, Or.inl⟩
  by_cases h0 : blockLba s.disk i k = 0
  · rw [syncBlocks, Exec.post_bind, Exec.post_get, knownBlocks_of_lt hk, if_pos h0]
    refine (extendDir_spec h hi hk h0).mono ?_ fun _ hn => Or.inr ⟨h0, hn⟩
    rintro r s' (⟨-, hr⟩ | ⟨hr, -, d, b, i', he, hs'⟩)
    · exact Or.inl hr
    · exact Or.inr ⟨hr, 0, d, b, i', he, hs'⟩
  · cases hm : findFree (sectorBuf s.disk (blockLba s.disk i k)) entrysPerSec 0 with
    | none => exact absurd ((findFree_eq_none_iff h0).mp hm) hnot
    | some m =>
      obtain ⟨hlt, hfree⟩ := findFree_eq_some hm
      rw [post_syncBlocks_place h.layout h.readable hi (knownBlocks_of_lt hk) (by omega) h0 hm]
      exact Or.inr ⟨rfl, m, _, _, _, EntryStored.of_place h hk h0 hlt hfree, rfl⟩

/-- It finds one if there is an empty direct slot or a direct block with a free place. -/
theorem syncDirEntry_direct (h : DirBlocks s i) (hdir : s.dirOf dir = some o)
    (hi : s.inodes o.inode = some i) (hplace : ∃ k < 12, ¬ FullBlock s.disk i k) :
    Exec.Ensures (syncDirEntry dir e) s fun r s' => (r = false ∧ s' = s) ∨
      (r = true ∧ ∃ a d b i', EntryStored s i a e d b i' ∧ s' = s.grow o.inode d b i') := by
  classical
  have hfull (l : ℕ) (hl : l < Nat.find hplace) : FullBlock s.disk i l := by
    by_contra hn
    exact Nat.find_min hplace hl ⟨hl.trans (Nat.find_spec hplace).1, hn⟩
  obtain ⟨hk, hnot⟩ := Nat.find_spec hplace
  refine (syncDirEntry_spec h hdir hi hk hfull hnot).ensures.mono ?_
  rintro r s' (hr | ⟨hr, m, d, b, i', he, hs'⟩)
  · exact Or.inl hr
  · exact Or.inr ⟨hr, _, d, b, i', he, hs'⟩

/-- A directory with a new entry. -/
structure EntryAdded (s s' : Fs) (p : ℕ) (i : Inode) (e : DirEntry) (i' : Inode) : Prop where
  inode : s'.inodes p = some i'
  entries : (liveEntries s'.disk i').Perm (e :: liveEntries s.disk i)
  size : i'.iSize.toNat = i.iSize.toNat + sizeofDirEntry
  reachable : ∀ c, slotLba s.disk i c ≠ 0 → slotLba s'.disk i' c = slotLba s.disk i c
  allocated : ∀ j, s'.part.blockBitmap.scanTest j = true ↔ s.part.blockBitmap.scanTest j = true ∨
    ∃ c, slotLba s.disk i c = 0 ∧ IsBlock s.part (slotLba s'.disk i' c) j
  contents : ∀ x, s'.disk x ≠ s.disk x → x ∈ bitmapArea s.part ∨
    (∃ c j, slotLba s.disk i c = 0 ∧ IsBlock s.part (slotLba s'.disk i' c) j ∧
      s.part.blockBitmap.scanTest j = false ∧ x ∈ sectorArea (slotLba s'.disk i' c)) ∨
    ∃ a, blockLba s.disk i a.1 ≠ 0 ∧ (entryAt s.disk i a).fType = ftUnknown ∧
      x ∈ entryArea (blockLba s.disk i a.1) a.2

/-- `sync_dir_entry` returns, and whatever its uninitialised variables hold, it adds the entry or
leaves the inode, the entries and the map of used blocks as they are. -/
def AddsEntry (s : Fs) (dir : DirPtr) (p : ℕ) (i : Inode) (e : DirEntry) : Prop :=
  ∀ junk, Exec.Returns (syncDirEntry dir e) (s.withJunk junk) fun r s' =>
    (r = true → ∃ i', EntryAdded s s' p i e i') ∧
    (r = false → s'.inodes p = some i ∧ liveEntries s'.disk i = liveEntries s.disk i ∧
      s'.part.blockBitmap = s.part.blockBitmap)

/-- The first direct block slot that is empty or whose block has a free place; if it is empty, the
block that is free for it is on the disk. -/
structure InsertsAt (s : Fs) (i : Inode) (k : ℕ) : Prop where
  direct : k < 12
  before : ∀ l < k, FullBlock s.disk i l
  place : ¬ FullBlock s.disk i k
  block : blockLba s.disk i k = 0 → FirstFreeOnDisk s.part

theorem EntryStored.added (h : DirOk s i) (hproper : e.Proper) (he : EntryStored s i a e d b i') :
    EntryAdded s (s.grow p d b i') p i e i' := by
  have hlen := (he.perm hproper).length_eq
  have hsize := h.size
  have hmax : (liveEntries s.disk i).length ≤ 140 * entrysPerSec :=
    (List.length_map _).trans_le length_liveSlots_le
  simp only [sizeofDirEntry, entrysPerSec] at hsize hmax
  obtain ⟨sectors, hsame⟩ := id he.same
  refine ⟨Function.update_self .., he.perm hproper, ?_, he.kept, fun j => ?_, fun x hx => ?_⟩
  · rw [hsame, sizeofDirEntry]
    exact Word.toNat_add (a := i.iSize) (b := 24) (by simp only [UInt32.reduceToNat]; omega)
  · change b.scanTest j = true ↔ _
    rw [he.alloc.bits]
    refine or_congr_right ⟨?_, ?_⟩
    · rintro ⟨c, ⟨-, hc0⟩, hj⟩
      exact ⟨c, hc0, hj⟩
    · rintro ⟨c, hc0, hj⟩
      refine ⟨c, ⟨?_, hc0⟩, hj⟩
      by_contra hne
      have hzero : slotLba d i' c = 0 := he.empty c hc0 hne
      exact h.layout.block_ne_zero hj hzero
  · by_contra hn
    refine hx (he.disk x ?_)
    rintro (hx' | ⟨h0, hx'⟩ | ⟨h0, hx'⟩)
    · exact hn (Or.inl hx')
    · obtain ⟨j, hj, hclear⟩ := he.alloc.fresh (.block a.1) ⟨rfl, h0⟩
      exact hn (Or.inr (Or.inl ⟨.block a.1, j, h0, hj, hclear, hx'⟩))
    · have hkept : blockLba d i' a.1 = blockLba s.disk i a.1 := he.kept (.block a.1) h0
      rw [hkept] at hx'
      exact hn (Or.inr (Or.inr ⟨a, h0, he.free h0, hx'⟩))

theorem DirBlocks.withJunk (h : DirBlocks s i) (junk : ℕ → UInt32) : DirBlocks (s.withJunk junk) i :=
  ⟨h.layout, h.readable, h.used, h.inj, h.blank⟩

/-- Past full direct blocks the search comes to what the stack held. -/
theorem not_returns_of_full (h : DirBlocks s i) (hdir : s.dirOf dir = some o)
    (hi : s.inodes o.inode = some i) (hfull : ∀ l < 12, FullBlock s.disk i l)
    (hjunk : maxLba < s.junk 12) : Exec.Ensures (syncDirEntry dir e) s fun _ _ => False := by
  have hne : s.junk 12 ≠ 0 := by
    intro h0
    rw [h0] at hjunk
    exact absurd hjunk (by decide)
  have h12 : knownBlocks s i 12 = s.junk 12 := if_neg (Nat.lt_irrefl 12)
  refine (post_syncDirEntry h hdir hi le_rfl hfull).mpr ⟨fun _ => ?_, fun _ => trivial⟩
  rw [show 140 - 12 = 127 + 1 from rfl, syncBlocks, Exec.post_bind, Exec.post_get, h12, if_neg hne,
    Exec.post_bind, post_ideRead]
  exact ⟨fun hle => absurd hle.1 (UInt32.not_le.mpr hjunk), fun _ => trivial⟩

/-- The block beyond the disk that an empty slot would get cannot be written. -/
theorem not_returns_of_firstFree (h : DirBlocks s i) (hdir : s.dirOf dir = some o)
    (hi : s.inodes o.inode = some i) (hk : k < 12) (hfull : ∀ l < k, FullBlock s.disk i l)
    (h0 : blockLba s.disk i k = 0) (hfirst : ¬ FirstFreeOnDisk s.part) :
    Exec.Ensures (syncDirEntry dir e) s fun _ _ => False := by
  refine (post_syncDirEntry h hdir hi hk.le hfull).mpr ⟨fun _ => ?_, fun _ => trivial⟩
  rw [show 140 - k = 139 - k + 1 by omega, syncBlocks, Exec.post_bind, Exec.post_get,
    knownBlocks_of_lt hk, if_pos h0]
  refine (extendDir_spec h hi hk h0).mono ?_ fun _ _ => trivial
  rintro r s' (⟨hnone, -⟩ | ⟨-, hdisk, -⟩)
  · exact hfirst fun j hj => (by rw [hnone] at hj; cases hj)
  · exact hfirst hdisk

/-- `sync_dir_entry` does what it is for exactly if its search ends at a direct block slot. -/
theorem addsEntry_iff (h : DirOk s i) (hdir : s.dirOf dir = some o) (hi : s.inodes o.inode = some i)
    (hproper : e.Proper) : AddsEntry s dir o.inode i e ↔ ∃ k, InsertsAt s i k := by
  have hdir' (junk : ℕ → UInt32) : (s.withJunk junk).dirOf dir = some o := by
    rw [← hdir]
    cases dir <;> rfl
  constructor
  · intro hadds
    by_cases hex : ∃ k, k < 12 ∧ ¬ FullBlock s.disk i k
    · classical
      have hfull (l : ℕ) (hl : l < Nat.find hex) : FullBlock s.disk i l := by
        have hmin := Nat.find_min hex hl
        by_contra hn
        exact hmin ⟨hl.trans (Nat.find_spec hex).1, hn⟩
      obtain ⟨hk, hplace⟩ := Nat.find_spec hex
      refine ⟨Nat.find hex, hk, hfull, hplace, fun h0 => ?_⟩
      by_contra hfirst
      exact (hadds s.junk).elim (not_returns_of_firstFree h.toDirBlocks hdir hi hk hfull h0 hfirst)
    · have hfull (l : ℕ) (hl : l < 12) : FullBlock s.disk i l := by
        by_contra hn
        exact hex ⟨l, hl, hn⟩
      exact ((hadds fun _ => maxLba + 1).elim (not_returns_of_full (h.withJunk _) (hdir' _) hi hfull
        (by decide : maxLba < maxLba + 1))).elim
  · rintro ⟨k, hk, hfull, hplace, hfirst⟩ junk
    refine (syncDirEntry_spec (h.withJunk junk) (hdir' junk) hi hk hfull hplace).mono ?_ ?_
    · rintro r s' (⟨rfl, rfl⟩ | ⟨rfl, m, d, b, i', he, rfl⟩)
      · exact ⟨fun hr => (by cases hr), fun _ => ⟨hi, rfl, rfl⟩⟩
      · have he' : EntryStored s i (k, m) e d b i' :=
          ⟨he.lt, he.same, he.kept, he.empty, he.block, he.free, he.fresh, he.entry, he.others,
            he.alloc, he.disk⟩
        have hadded := he'.added (p := o.inode) h hproper
        exact ⟨fun _ => ⟨i', hadded.inode, hadded.entries, hadded.size, hadded.reachable,
          hadded.allocated, hadded.contents⟩, fun hr => (by cases hr)⟩
    · rintro _ (hmod | ⟨h0, hn⟩)
      · refine hmod (UInt32.toNat_inj.mp ?_)
        rw [UInt32.toNat_mod, h.size, sizeofDirEntry]
        exact Nat.mul_mod_right 24 _
      · exact hn (hfirst h0)

theorem not_fullBlock_rootFs : ¬ FullBlock rootFs.disk rootInode 0 := fun hfull =>
  hfull.2 2 (by decide) (by decide +kernel)

/-- A file can be added to the root directory of a fresh partition. -/
theorem addsEntry_rootFs : AddsEntry rootFs .rootDir 0 rootInode ⟨[97], 1, ftRegular⟩ := by
  refine (addsEntry_iff (o := rootFs.rootDir) dirOk_rootFs rfl rfl
    ⟨by decide, by decide, by decide⟩).mpr ⟨0, by decide, fun l hl => absurd hl (Nat.not_lt_zero l),
      not_fullBlock_rootFs, fun h0 => absurd h0 (by decide +kernel)⟩

section Full

/-- The bytes of twelve full blocks of a directory, the first one with its first two entries. -/
def fullBlocks : Bytes :=
  Bytes.splice (fun x => if x % 512 < 504 then DirEntry.toBytes ⟨[97], 2, ftRegular⟩ (x % 512 % 24)
    else 0) 0 48 (dotEntries 0 0)

/-- The root directory with twelve direct blocks, all full. -/
def fullRoot : Inode :=
  { rootInode with
    iSize := 6048
    iSectors := fun k => if k.val < 12 then rootInode.sector 0 + UInt32.ofNat k.val else 0 }

/-- A small partition whose root directory is full up to the table. -/
def fullFs : Fs :=
  ((rootFs.setDisk (rootFs.disk.splice ((rootInode.sector 0).toNat * 512) (12 * 512)
    fullBlocks)).setPart (rootFs.part.setBlockBitmap (rootFs.part.blockBitmap.setRun 0 true 12))).setInode
      0 (some fullRoot)

theorem dirOk_fullFs : DirOk fullFs fullRoot :=
  .of_direct (layout_rootFs.setBlockBitmap (Bitmap.setRun_btmpBytesLen _ 12)) (by decide +kernel)
    (by decide +kernel) (by decide +kernel) (by decide +kernel) (by decide +kernel)

/-- With twelve full blocks and a block number in the uninitialised part of `all_blocks` that
belongs to nothing, the entry is written there and lost. -/
theorem not_addsEntry : ∃ s dir o i e, DirOk s i ∧ s.dirOf dir = some o ∧ s.inodes o.inode = some i ∧
    e.Proper ∧ ¬ AddsEntry s dir o.inode i e := by
  refine ⟨fullFs, .rootDir, fullFs.rootDir, fullRoot, ⟨[98], 3, ftRegular⟩, dirOk_fullFs, rfl, rfl,
    ⟨by decide, by decide, by decide⟩, fun hadds => ?_⟩
  have hrun : Exec.returnsWith
      (syncDirEntry .rootDir ⟨[98], 3, ftRegular⟩ (fullFs.withJunk fun _ => 900)) (fun r s' =>
        r && (s'.inodes 0).all fun i' => (liveSlots s'.disk i').length == 252) = true := by
    decide +kernel
  obtain ⟨r, s', hret, hadded, -⟩ := Exec.returns_iff.mp (hadds fun _ => 900)
  rw [hret] at hrun
  obtain ⟨hr, hlen⟩ := Bool.and_eq_true_iff.mp hrun
  obtain ⟨i', h⟩ := hadded hr
  have hperm := h.entries.length_eq
  have hinode : s'.inodes 0 = some i' := h.inode
  rw [hinode, Option.all_some, beq_iff_eq] at hlen
  have hold : (liveSlots fullFs.disk fullRoot).length = 252 := by decide +kernel
  rw [List.length_cons, liveEntries, liveEntries, List.length_map, List.length_map, hlen, hold] at hperm
  omega

end Full

end Insert

end Winx
