import Winx.Fs.DirScan

/-! # Deleting a directory entry

`delete_dir_entry` looks for the entry with an inode number among the entries
other than `.` and `..`. If the entry was alone in its block, the block is
freed, and the indirect table with its last block; otherwise the entry is
cleared. The directory is then written back by `inode_sync`, which uses its
buffer without a test.
-/

namespace Winx

/-- An entry is the only one in its block, but for `..`. -/
def AloneInBlock (disk : Bytes) (i : Inode) (a : ℕ × ℕ) : Prop :=
  ∀ b ∈ liveSlots disk i, b.1 = a.1 → b = a ∨ (entryAt disk i b).filename = dotDot

/-- The slots of a directory that are emptied when the block in slot `k` is freed. -/
def freedSlots (disk : Bytes) (i : Inode) (k : ℕ) : Set Slot :=
  {c | c = .block k ∨ c = .table ∧ 12 ≤ k ∧
    ∀ l, 12 ≤ l → l < 140 → blockLba disk i l ≠ 0 → l = k}

variable {s : Fs} {disk : Bytes} {i : Inode} {no : UInt32} {p k : ℕ} {a : ℕ × ℕ}

section Free

/-- What freeing the block in slot `k` of a directory leaves: the disk, the block bitmap and the
inode. -/
structure BlockFreed (s : Fs) (i : Inode) (k : ℕ) (d : Bytes) (b : Bitmap) (i' : Inode) : Prop where
  same : ∃ sectors, i' = { i with iSectors := sectors }
  freed : ∀ c ∈ freedSlots s.disk i k, slotLba d i' c = 0
  kept : ∀ c, c ∉ freedSlots s.disk i k → slotLba d i' c = slotLba s.disk i c
  bits : Released s.part s.part.blockBitmap b (freedSlots s.disk i k) (slotLba s.disk i)
  disk : Bytes.EqOutside (bitmapArea s.part ∪
    {x | 12 ≤ k ∧ Slot.table ∉ freedSlots s.disk i k ∧ x ∈ sectorArea (i.sector 12)}) s.disk d

theorem freedSlots_of_table (h : Slot.table ∈ freedSlots disk i k) :
    freedSlots disk i k = {.block k} ∪ {.table} := by
  ext c
  simp only [freedSlots, Set.mem_ofPred_eq, Set.mem_union, Set.mem_singleton_iff, reduceCtorEq,
    false_or, true_and] at h ⊢
  exact or_congr_right ⟨fun hc => hc.1, fun hc => ⟨hc, h⟩⟩

theorem freedSlots_of_not_table (h : Slot.table ∉ freedSlots disk i k) :
    freedSlots disk i k = {.block k} := by
  ext c
  simp only [freedSlots, Set.mem_ofPred_eq, Set.mem_singleton_iff, reduceCtorEq, false_or,
    true_and] at h ⊢
  exact ⟨fun hc => hc.resolve_right fun hc => h hc.2, Or.inl⟩

theorem block_mem_freedSlots {l : ℕ} : Slot.block l ∈ freedSlots disk i k ↔ l = k := by
  simp [freedSlots]

/-- There are several blocks in the table unless this is the last one. -/
theorem one_lt_indirectBlocks (hk : 12 ≤ k) (hk' : k < 140) (h0 : blockLba disk i k ≠ 0) :
    (1 < (List.range 128).countP fun n => decide (blockLba disk i (12 + n) ≠ 0)) ↔
      Slot.table ∉ freedSlots disk i k := by
  rw [← not_le, countP_le_one_iff List.nodup_range]
  refine not_congr ?_
  simp only [freedSlots, Set.mem_ofPred_eq, reduceCtorEq, false_or, true_and]
  constructor
  · refine fun h => ⟨hk, fun l hl hl' hne => ?_⟩
    have heq := h (l - 12) (List.mem_range.mpr (by omega)) (k - 12) (List.mem_range.mpr (by omega))
    rw [Nat.add_sub_cancel' hl, Nat.add_sub_cancel' hk] at heq
    have := heq (decide_eq_true hne) (decide_eq_true h0)
    omega
  · rintro ⟨-, h⟩ x hx y hy hx0 hy0
    have hx' := List.mem_range.mp hx
    have hy' := List.mem_range.mp hy
    have hxk := h (12 + x) (by omega) (by omega) (of_decide_eq_true hx0)
    have hyk := h (12 + y) (by omega) (by omega) (of_decide_eq_true hy0)
    omega

/-- Freeing a block of a directory, and its table with the last block there. -/
theorem freeDirBlock_spec (h : DirBlocks s i) (hi : s.inodes p = some i) (hk : k < 140)
    (h0 : blockLba s.disk i k ≠ 0) :
    Exec.Returns (freeDirBlock p (blockLba s.disk i) k) s fun _ s' =>
      ∃ d b i', s' = s.grow p d b i' ∧ BlockFreed s i k d b i' := by
  have hstart := Fs.grow_self s p i hi
  have hreg : i.sector 12 ≠ 0 → s.part.sb.dataStartLba.toNat ≤ (i.sector 12).toNat :=
    fun htable => h.data_le (c := .table) htable
  obtain ⟨j, hj, -⟩ := h.used (.block k) h0
  have hfree := freeBlock_spec (p := p) (d := s.disk) (i := i) h.layout rfl hj
  rw [hstart] at hfree
  rw [freeDirBlock]
  refine hfree.bind ?_
  rintro _ _ ⟨d₁, rfl, hd₁⟩
  simp only [Exec.post_bind, post_derefInode, Fs.grow_inodes, Function.update_self,
    Option.some.injEq, forall_eq', reduceCtorEq, false_implies, and_true]
  have hsingle := Released.single (b := s.part.blockBitmap) (f := slotLba s.disk i)
    (c := .block k) hj
  -- the table has kept its words
  have hword (i' : Inode) (l : ℕ) (hl : 12 ≤ l) (h12 : i'.sector 12 = i.sector 12) :
      blockLba d₁ i' l = blockLba s.disk i l :=
    blockLba_eq_of_table h.layout hd₁ hl h12 hreg
  by_cases hdirect : k < 12
  · rw [if_pos hdirect, post_storeInode, Fs.grow_setInode]
    have htable : Slot.table ∉ freedSlots s.disk i k := by
      simp [freedSlots, hdirect]
    have h12 : (i.setSector k 0).sector 12 = i.sector 12 := by
      rw [Inode.sector_setSector, if_neg (by omega)]
    refine ⟨d₁, _, _, rfl, ⟨_, rfl⟩, ?_, ?_, ?_, hd₁.mono Set.subset_union_left⟩
    · rw [freedSlots_of_not_table htable]
      rintro _ rfl
      rw [slotLba, blockLba_of_lt hdirect, Inode.sector_setSector, if_pos ⟨rfl, by omega⟩]
    · rintro (_ | l) hl
      · exact h12
      · have hne : l ≠ k := fun heq => hl (block_mem_freedSlots.mpr heq)
        rw [slotLba, slotLba]
        by_cases hl12 : l < 12
        · rw [blockLba_of_lt hl12, blockLba_of_lt hl12, Inode.sector_setSector,
            if_neg fun hlk => hne hlk.1]
        · exact hword _ l (by omega) h12
    · rw [freedSlots_of_not_table htable]
      exact hsingle
  rw [if_neg hdirect]
  have h12 : i.sector 12 ≠ 0 := by
    intro hzero
    rw [blockLba, if_neg hdirect, if_pos (Or.inl hzero)] at h0
    exact h0 rfl
  by_cases htable : Slot.table ∈ freedSlots s.disk i k
  · rw [if_neg fun hlt => (one_lt_indirectBlocks (by omega) hk h0).mp hlt htable]
    obtain ⟨jt, hjt, -⟩ := h.used .table h12
    have htableFree : Exec.Returns (freeBlock (i.sector 12))
        (s.grow p d₁ (s.part.blockBitmap.set j false) i) fun _ s' => ∃ d',
          s' = s.grow p d' ((s.part.blockBitmap.set j false).set jt false) i ∧
            Bytes.EqOutside (bitmapArea s.part) d₁ d' := freeBlock_spec h.layout rfl hjt
    refine htableFree.bind ?_
    rintro _ _ ⟨d₂, rfl, hd₂⟩
    rw [post_storeInode, Fs.grow_setInode]
    have hzero : (i.setSector 12 0).sector 12 = 0 := by
      rw [Inode.sector_setSector, if_pos ⟨rfl, by omega⟩]
    refine ⟨d₂, _, _, rfl, ⟨_, rfl⟩, ?_, ?_, ?_, (hd₁.trans hd₂).mono Set.subset_union_left⟩
    · rw [freedSlots_of_table htable]
      rintro _ (rfl | rfl)
      · rw [slotLba, blockLba, if_neg hdirect, if_pos (Or.inl hzero)]
      · exact hzero
    · rintro (_ | l) hl
      · exact absurd htable hl
      · have hne : l ≠ k := fun heq => hl (block_mem_freedSlots.mpr heq)
        rw [slotLba, slotLba]
        by_cases hl12 : l < 12
        · rw [blockLba_of_lt hl12, blockLba_of_lt hl12, Inode.sector_setSector,
            if_neg (by omega)]
        · rw [blockLba, if_neg hl12, if_pos (Or.inl hzero)]
          by_contra hne0
          have hl140 : l < 140 := by
            by_contra hge
            rw [blockLba, if_neg hl12, if_pos (Or.inr (by omega))] at hne0
            exact hne0 rfl
          obtain ⟨-, -, hlast⟩ := htable.resolve_left (by simp)
          exact hne (hlast l (by omega) hl140 (Ne.symm hne0))
    · rw [freedSlots_of_table htable]
      exact hsingle.union (Released.single hjt)
  · rw [if_pos ((one_lt_indirectBlocks (by omega) hk h0).mpr htable), writeTable, post_ideWrite]
    refine ⟨fun _ => ?_, fun hn => hn ⟨h.readable.table, by omega⟩⟩
    rw [Fs.grow_setDisk, Fs.grow_disk]
    have hentry (l : ℕ) (hl : 12 ≤ l) (hl' : l < 140) :=
      blockLba_of_writeTable (d := d₁) (f := Function.update (blockLba s.disk i) k 0) h12 hl hl'
    refine ⟨_, _, _, rfl, ⟨_, rfl⟩, ?_, ?_, ?_, ?_⟩
    · rw [freedSlots_of_not_table htable]
      rintro _ rfl
      rw [slotLba, hentry k (by omega) hk, Function.update_self]
    · rintro (_ | l) hl
      · rfl
      · have hne : l ≠ k := fun heq => hl (block_mem_freedSlots.mpr heq)
        rw [slotLba, slotLba]
        by_cases hl12 : l < 12
        · rw [blockLba_of_lt hl12, blockLba_of_lt hl12]
        by_cases hl140 : l < 140
        · rw [hentry l (by omega) hl140, Function.update_of_ne hne]
        · rw [blockLba, blockLba, if_neg hl12, if_neg hl12, if_pos (Or.inr (by omega)),
            if_pos (Or.inr (by omega))]
    · rw [freedSlots_of_not_table htable]
      exact hsingle
    · refine (hd₁.mono Set.subset_union_left).trans (eqOutside_writeTable.mono fun x hx => ?_)
      exact Or.inr ⟨by omega, htable, hx⟩

end Free

section Erase

/-- The slots that are emptied when the entry in slot `a` is deleted. -/
def erasedSlots (disk : Bytes) (i : Inode) (a : ℕ × ℕ) : Set Slot :=
  {c | AloneInBlock disk i a ∧ c ∈ freedSlots disk i a.1}

/-- What of the blocks and the table of a directory is written when the entry in slot `a` is
deleted. -/
def erasedArea (disk : Bytes) (i : Inode) (a : ℕ × ℕ) : Set ℕ :=
  {x | ¬ AloneInBlock disk i a ∧ x ∈ sectorArea (blockLba disk i a.1) ∨
    12 ≤ a.1 ∧ AloneInBlock disk i a ∧ Slot.table ∉ freedSlots disk i a.1 ∧
      x ∈ sectorArea (i.sector 12)}

/-- What deleting the entry in slot `a` leaves: the disk, the block bitmap and the inode. -/
structure EntryErased (s : Fs) (i : Inode) (a : ℕ × ℕ) (size : UInt32) (d : Bytes) (b : Bitmap)
    (i' : Inode) : Prop where
  same : ∃ sectors, i' = { i with iSize := size, iSectors := sectors }
  freed : ∀ c ∈ erasedSlots s.disk i a, slotLba d i' c = 0
  kept : ∀ c, c ∉ erasedSlots s.disk i a → slotLba d i' c = slotLba s.disk i c
  bits : Released s.part s.part.blockBitmap b (erasedSlots s.disk i a) (slotLba s.disk i)
  disk : Bytes.EqOutside (bitmapArea s.part ∪ inodeTableArea s.part ∪ erasedArea s.disk i a) s.disk d
  others : ∀ k < 140, blockLba s.disk i k ≠ 0 → ∀ m < entrysPerSec, (k, m) ≠ a →
    slotEntry d (blockLba s.disk i k) m = slotEntry s.disk (blockLba s.disk i k) m
  cleared : ¬ AloneInBlock s.disk i a →
    slotEntry d (blockLba s.disk i a.1) a.2 = DirEntry.ofBytes Bytes.zero

variable {d d' : Bytes} {b : Bitmap} {i' : Inode} {size : UInt32}

/-- An entry alone in its block is deleted with the block. -/
theorem BlockFreed.erased (h : DirBlocks s i) (halone : AloneInBlock s.disk i a)
    (hfreed : BlockFreed s i a.1 d b i') : EntryErased s i a i.iSize d b i' := by
  have hslots : erasedSlots s.disk i a = freedSlots s.disk i a.1 := by
    ext c
    exact and_iff_right halone
  obtain ⟨sectors, rfl⟩ := hfreed.same
  refine ⟨⟨sectors, rfl⟩, ?_, ?_, ?_, hfreed.disk.mono ?_, fun k hk h0 m hm _ => ?_,
    fun hn => absurd halone hn⟩
  · rw [hslots]
    exact hfreed.freed
  · rw [hslots]
    exact hfreed.kept
  · rw [hslots]
    exact hfreed.bits
  · rintro x (hx | ⟨hle, htable, hx⟩)
    · exact Or.inl (Or.inl hx)
    · exact Or.inr (Or.inr ⟨hle, halone, htable, hx⟩)
  · refine slotEntry_eq hfreed.disk (fun x hx => ?_) hm
    rintro (hx' | ⟨-, -, hx'⟩)
    · exact h.not_mem_bitmapArea (c := .block k) h0 x hx hx'
    · have hne : Slot.block k ≠ .table := nofun
      have hdisjoint := h.disjoint (c := .block k) h0 hne
      exact hdisjoint x hx hx'

/-- An entry with others in its block is cleared. -/
theorem erased_of_not_alone (h : DirBlocks s i) (ha : a ∈ liveSlots s.disk i)
    (halone : ¬ AloneInBlock s.disk i a) :
    EntryErased s i a i.iSize (storeEntry s.disk (blockLba s.disk i a.1) a.2 Bytes.zero)
      s.part.blockBitmap i := by
  obtain ⟨hlt, h0, hm, -⟩ := mem_liveSlots.mp ha
  have hslots : erasedSlots s.disk i a = ∅ := by
    ext c
    exact iff_of_false (fun hc => halone hc.1) id
  have hd : Bytes.EqOutside (sectorArea (blockLba s.disk i a.1)) s.disk
      (storeEntry s.disk (blockLba s.disk i a.1) a.2 Bytes.zero) := storeEntry_eqOutside _ hm
  refine ⟨⟨i.iSectors, rfl⟩, ?_, fun c _ => ?_, ?_, hd.mono ?_, fun k hk hk0 m hm' hne => ?_,
    fun _ => slotEntry_storeEntry_self Bytes.zero⟩
  · rw [hslots]
    exact fun c hc => hc.elim
  · refine slotLba_eq hd (fun h12 => ?_) c
    have hne : Slot.table ≠ .block a.1 := nofun
    have hdisjoint := h.disjoint (c := .table) h12 hne
    exact hdisjoint
  · rw [hslots]
    exact Released.empty ..
  · exact fun x hx => Or.inr (Or.inl ⟨halone, hx⟩)
  · refine slotEntry_storeEntry_of_ne _ hm hm' fun heq hma => hne ?_
    have := h.inj (.block k) (.block a.1) hk0 heq
    rw [Slot.block.injEq] at this
    exact Prod.ext this hma

/-- Writing the inode back does not change what is left. -/
theorem EntryErased.shrink (h : DirBlocks s i) (he : EntryErased s i a i.iSize d b i')
    (hd : Bytes.EqOutside (inodeTableArea s.part) d d') (ha : a ∈ liveSlots s.disk i) :
    EntryErased s i a size d' b { i' with iSize := size } := by
  have htable : i'.sector 12 ≠ 0 → ∀ x ∈ sectorArea (i'.sector 12), x ∉ inodeTableArea s.part := by
    intro h0
    by_cases hc : Slot.table ∈ erasedSlots s.disk i a
    · exact absurd (he.freed .table hc) h0
    · have heq : i'.sector 12 = i.sector 12 := he.kept .table hc
      rw [heq] at h0 ⊢
      exact h.not_mem_inodeTableArea (c := .table) h0
  have hslot (c : Slot) : slotLba d' { i' with iSize := size } c = slotLba d i' c := by
    rw [← slotLba_eq hd htable c]
    cases c <;> rfl
  obtain ⟨hlt, h0, hm, -⟩ := mem_liveSlots.mp ha
  have hentry {k m : ℕ} (hk0 : blockLba s.disk i k ≠ 0) (hm : m < entrysPerSec) :
      slotEntry d' (blockLba s.disk i k) m = slotEntry d (blockLba s.disk i k) m :=
    slotEntry_eq hd (h.not_mem_inodeTableArea (c := .block k) hk0) hm
  obtain ⟨sectors, rfl⟩ := he.same
  refine ⟨⟨sectors, rfl⟩, fun c hc => (hslot c).trans (he.freed c hc),
    fun c hc => (hslot c).trans (he.kept c hc), he.bits,
    he.disk.trans (hd.mono fun x hx => Or.inl (Or.inr hx)), fun k hk hk0 m hm hne => ?_, fun hn => ?_⟩
  · exact (hentry hk0 hm).trans (he.others k hk hk0 m hm hne)
  · exact (hentry h0 hm).trans (he.cleared hn)

/-- The directory shrinks by an entry and is written back. -/
theorem post_shrinkDir {t : Fs} {E : Fault → Prop} {Q : Unit → Fs → Prop} (hl : Layout t.part)
    (hi : t.inodes p = some i) :
    Exec.Post (shrinkDir p) t Q E ↔
      (sizeofDirEntry ≤ i.iSize.toNat →
        (t.mallocs 0 = true → Q ()
          ((t.setInode p (some { i with iSize := i.iSize - 24 })).tick.setDisk (storeRecord t.disk
            t.part.sb (i.iNo.toNat % 256) { i with iSize := i.iSize - 24 }))) ∧
        (t.mallocs 0 = false → E .badPointer)) ∧
      (¬ sizeofDirEntry ≤ i.iSize.toNat → E .assertFailed) := by
  have hge : i.iSize ≥ 24 ↔ sizeofDirEntry ≤ i.iSize.toNat := by
    rw [ge_iff_le, UInt32.le_iff_toNat_le]
    rfl
  simp only [shrinkDir, Exec.post_bind, Exec.post_get, post_derefInode, hi, Option.some.injEq,
    forall_eq', reduceCtorEq, false_implies, and_true, hl.dirEntrySize, post_assert, hge,
    post_storeInode]
  exact and_congr_left fun _ => forall_congr' fun _ => post_inodeSync (s := t.setInode p _) hl

/-- In a well-formed directory the entry is really alone. -/
theorem DirOk.aloneInBlock_iff (h : DirOk s i) (hcounted : (entryAt s.disk i a).Counted) :
    AloneInBlock s.disk i a ↔ ∀ b ∈ liveSlots s.disk i, b.1 = a.1 → b = a := by
  constructor
  · intro halone c hc hca
    refine (halone c hc hca).resolve_right fun hdd => ?_
    obtain ⟨e, he, hec, hdot⟩ := h.dots c hc hdd
    rcases halone e he (hec.trans hca) with rfl | hdd'
    · exact hcounted.2.1 hdot
    · rw [hdot] at hdd'
      exact absurd hdd' (by decide)
  · exact fun halone c hc hca => Or.inl (halone c hc hca)

section Live

variable (he : EntryErased s i a size d b i')

include he

/-- A slot of the directory that is left has the block it had. -/
theorem EntryErased.slotLba_eq {c : Slot} (h0 : slotLba d i' c ≠ 0) :
    slotLba d i' c = slotLba s.disk i c := by
  by_cases hc : c ∈ erasedSlots s.disk i a
  · exact absurd (he.freed c hc) h0
  · exact he.kept c hc

/-- A slot of the directory that is left has a block that was not given back. -/
theorem EntryErased.used (h : DirBlocks s i) {c : Slot} (h0 : slotLba d i' c ≠ 0) :
    ∃ j, IsBlock s.part (slotLba d i' c) j ∧ b.scanTest j = true := by
  have hold := he.slotLba_eq h0
  rw [hold] at h0 ⊢
  obtain ⟨j, hj, hset⟩ := h.used c h0
  refine ⟨j, hj, (he.bits.bits j).mpr ⟨hset, ?_⟩⟩
  rintro ⟨c', hc', hj'⟩
  have hlba : slotLba s.disk i c = slotLba s.disk i c' :=
    UInt32.toNat_inj.mp (hj.2.trans hj'.2.symm)
  have := he.freed c (h.inj c c' h0 hlba ▸ hc')
  rw [hold] at this
  exact h0 this

/-- The blocks that are left are those of a directory. -/
theorem EntryErased.dirBlocks (h : DirBlocks s i) : DirBlocks (s.tick.grow p d b i') i' := by
  refine ⟨h.layout.setBlockBitmap he.bits.len, ⟨fun k hk => ?_, ?_⟩, fun c h0 => ?_,
    fun c c' h0 heq => ?_, fun k hk h0 m hm hfree => ?_⟩
  · by_cases h0 : blockLba d i' k = 0
    · exact h0 ▸ UInt32.zero_le
    · exact (he.slotLba_eq (c := .block k) h0).trans_le (h.readable.block k hk)
  · by_cases h0 : i'.sector 12 = 0
    · exact h0 ▸ UInt32.zero_le
    · exact (he.slotLba_eq (c := .table) h0).trans_le h.readable.table
  · obtain ⟨j, hj, hset⟩ := he.used h h0
    exact ⟨j, (isBlock_setBlockBitmap he.bits.len).mpr hj, hset⟩
  · have hold := he.slotLba_eq h0
    have hold' := he.slotLba_eq (c := c') (fun hz => h0 (heq.trans hz))
    exact h.inj c c' (hold ▸ h0) (hold.symm.trans (heq.trans hold'))
  · have hblock : blockLba d i' k = blockLba s.disk i k := he.slotLba_eq (c := .block k) h0
    change (slotEntry d (blockLba d i' k) m).fType = ftUnknown at hfree
    change (slotEntry d (blockLba d i' k) m).filename = []
    change blockLba d i' k ≠ 0 at h0
    rw [hblock] at h0 hfree ⊢
    by_cases hne : (k, m) = a
    · subst hne
      by_cases halone : AloneInBlock s.disk i (k, m)
      · have := he.freed (.block k) ⟨halone, block_mem_freedSlots.mpr rfl⟩
        exact absurd (hblock.symm.trans this) h0
      · rw [he.cleared halone]
        rfl
    · rw [he.others k hk h0 m hm hne] at hfree ⊢
      exact h.blank k hk h0 m hm hfree

variable (h : DirOk s i) (hcounted : (entryAt s.disk i a).Counted)

include h hcounted

/-- The other live slots have the entries they had. -/
theorem EntryErased.entryAt_eq {c : ℕ × ℕ} (hc : c ∈ liveSlots s.disk i) (hne : c ≠ a) :
    blockLba d i' c.1 = blockLba s.disk i c.1 ∧ entryAt d i' c = entryAt s.disk i c := by
  obtain ⟨hlt, h0, hm, -⟩ := mem_liveSlots.mp hc
  have hblock : blockLba d i' c.1 = blockLba s.disk i c.1 := by
    refine he.kept (.block c.1) fun hcs => hne ?_
    exact (h.aloneInBlock_iff hcounted).mp hcs.1 c hc (block_mem_freedSlots.mp hcs.2)
  refine ⟨hblock, ?_⟩
  rw [entryAt, hblock]
  exact he.others c.1 hlt h0 c.2 hm hne

/-- The live slots that are left. -/
theorem EntryErased.mem_liveSlots_iff (c : ℕ × ℕ) :
    c ∈ liveSlots d i' ↔ c ∈ liveSlots s.disk i ∧ c ≠ a := by
  constructor
  · intro hc
    obtain ⟨hlt, h0, hm, hlive⟩ := mem_liveSlots.mp hc
    have hblock : blockLba d i' c.1 = blockLba s.disk i c.1 := he.slotLba_eq (c := .block c.1) h0
    have hne : c ≠ a := by
      rintro rfl
      by_cases halone : AloneInBlock s.disk i c
      · exact h0 (he.freed (.block c.1) ⟨halone, block_mem_freedSlots.mpr rfl⟩)
      · rw [entryAt, hblock, he.cleared halone] at hlive
        exact hlive rfl
    refine ⟨mem_liveSlots.mpr ⟨hlt, hblock ▸ h0, hm, ?_⟩, hne⟩
    rw [entryAt, hblock] at hlive
    rw [entryAt, ← he.others c.1 hlt (hblock ▸ h0) c.2 hm hne]
    exact hlive
  · rintro ⟨hc, hne⟩
    obtain ⟨hlt, h0, hm, hlive⟩ := mem_liveSlots.mp hc
    obtain ⟨hblock, hentry⟩ := he.entryAt_eq h hcounted hc hne
    exact mem_liveSlots.mpr ⟨hlt, hblock ▸ h0, hm, hentry ▸ hlive⟩

/-- The live entries are the old ones without the deleted one. -/
theorem EntryErased.perm (ha : a ∈ liveSlots s.disk i) :
    (liveEntries s.disk i).Perm (entryAt s.disk i a :: liveEntries d i') := by
  refine liveEntries_perm ha (he.mem_liveSlots_iff h hcounted) fun c hc => ?_
  obtain ⟨hc, hne⟩ := (he.mem_liveSlots_iff h hcounted c).mp hc
  exact (he.entryAt_eq h hcounted hc hne).2

/-- The directory that is left is well formed. -/
theorem EntryErased.dirOk (hsize : i'.iSize.toNat = sizeofDirEntry * (liveEntries d i').length) :
    DirOk (s.tick.grow p d b i') i' := by
  refine ⟨he.dirBlocks h.toDirBlocks, hsize, fun c hc hdd => ?_⟩
  obtain ⟨hc, hne⟩ := (he.mem_liveSlots_iff h hcounted c).mp hc
  obtain ⟨-, hentry⟩ := he.entryAt_eq h hcounted hc hne
  change (entryAt d i' c).filename = dotDot at hdd
  rw [hentry] at hdd
  obtain ⟨e, hemem, he1, hdot⟩ := h.dots c hc hdd
  have hea : e ≠ a := by
    rintro rfl
    exact hcounted.2.1 hdot
  refine ⟨e, (he.mem_liveSlots_iff h hcounted e).mpr ⟨hemem, hea⟩, he1, ?_⟩
  change (entryAt d i' e).filename = dot
  rw [(he.entryAt_eq h hcounted hemem hea).2, hdot]

end Live

/-- The record of an inode is written back under its number modulo 256, and no other record. -/
def RecordStored (s : Fs) (p : ℕ) (i : Inode) (s' : Fs) : Prop := ∃ i', s'.inodes p = some i' ∧
  ∀ m < 4096, diskInode s'.disk s.part.sb m =
    if m = i.iNo.toNat % 256 then i'.pureInode else diskInode s.disk s.part.sb m

/-- Deleting an entry leaves the inode table alone until the directory is written back. -/
theorem EntryErased.diskInode_eq (h : DirBlocks s i) (ha : a ∈ liveSlots s.disk i)
    (hd : Bytes.EqOutside (bitmapArea s.part ∪ erasedArea s.disk i a) s.disk d) {m : ℕ}
    (hm : m < 4096) : diskInode d s.part.sb m = diskInode s.disk s.part.sb m := by
  refine Winx.diskInode_eq h.layout hd ?_ hm
  obtain ⟨-, h0, -, -⟩ := mem_liveSlots.mp ha
  rintro x (hx | ⟨-, hx⟩ | ⟨hle, -, -, hx⟩)
  · exact bitmapArea_inodeTable h.layout x hx
  · exact h.not_mem_inodeTableArea (c := .block a.1) h0 x hx
  · have h12 : i.sector 12 ≠ 0 := by
      intro hzero
      rw [blockLba, if_neg (by omega), if_pos (Or.inl hzero)] at h0
      exact h0 rfl
    exact h.not_mem_inodeTableArea (c := .table) h12 x hx

/-- Deleting the entry that was found. -/
theorem eraseEntry_spec (h : DirBlocks s i) (hi : s.inodes p = some i) (ha : a ∈ liveSlots s.disk i)
    {c : Prop} [Decidable c] (hc : c ↔ AloneInBlock s.disk i a) :
    Exec.Post (do
        if c then freeDirBlock p (blockLba s.disk i) a.1
        else
          ideWrite (blockLba s.disk i a.1) ((sectorBuf s.disk (blockLba s.disk i a.1)).splice
            (sizeofDirEntry * a.2) s.part.sb.dirEntrySize.toNat Bytes.zero) 1
        shrinkDir p
        pure true) s
      (fun r s' => r = true ∧ s.mallocs 0 = true ∧ RecordStored s p i s' ∧ ∃ d b i',
        EntryErased s i a (i.iSize - 24) d b i' ∧ s' = s.tick.grow p d b i')
      fun e => (s.mallocs 0 = false ∧ e = .badPointer) ∨ i.iSize.toNat < sizeofDirEntry := by
  obtain ⟨hlt, h0, hm, -⟩ := mem_liveSlots.mp ha
  have hrest {d : Bytes} {b : Bitmap} {i' : Inode} (he : EntryErased s i a i.iSize d b i')
      (hold : Bytes.EqOutside (bitmapArea s.part ∪ erasedArea s.disk i a) s.disk d) :
      Exec.Post (do shrinkDir p; pure true) (s.grow p d b i')
        (fun r s' => r = true ∧ s.mallocs 0 = true ∧ RecordStored s p i s' ∧ ∃ d b i',
          EntryErased s i a (i.iSize - 24) d b i' ∧ s' = s.tick.grow p d b i')
        fun e => (s.mallocs 0 = false ∧ e = .badPointer) ∨ i.iSize.toNat < sizeofDirEntry := by
    obtain ⟨sectors, hsame⟩ := id he.same
    have hl := h.layout.setBlockBitmap he.bits.len
    have hi'size : i'.iSize = i.iSize := by rw [hsame]
    have hi'no : i'.iNo = i.iNo := by rw [hsame]
    rw [Exec.post_bind, post_shrinkDir (i := i') hl (Function.update_self ..), hi'size]
    refine ⟨fun _ => ⟨fun hmalloc => ?_, fun hno => Or.inl ⟨hno, rfl⟩⟩,
      fun hn => Or.inr (Nat.lt_of_not_le hn)⟩
    let i₂ : Inode := { i' with iSize := i.iSize - 24 }
    have hd := eqOutside_storeRecord (d := d) (i := i₂) h.layout
      (show i'.iNo.toNat % 256 < 4096 by omega)
    refine ⟨rfl, hmalloc, ⟨i₂, Function.update_self .., fun m hm => ?_⟩, _, b, i₂,
      he.shrink h hd ha, ?_⟩
    · change diskInode (storeRecord d s.part.sb (i'.iNo.toNat % 256) i₂) s.part.sb m = _
      rw [hi'no]
      split
      · rename_i hmn
        rw [hmn, diskInode_storeRecord_self]
      · rename_i hmn
        rw [diskInode_storeRecord_of_ne _ _ _ hmn, EntryErased.diskInode_eq h ha hold hm]
    · rw [Fs.grow_setInode]
      rfl
  by_cases halone : AloneInBlock s.disk i a
  · rw [if_pos (hc.mpr halone)]
    refine (freeDirBlock_spec h hi hlt h0).bind ?_
    rintro _ _ ⟨d, b, i', rfl, hfreed⟩
    refine hrest (hfreed.erased h halone) (hfreed.disk.mono ?_)
    rintro x (hx | ⟨hle, htable, hx⟩)
    · exact Or.inl hx
    · exact Or.inr (Or.inr ⟨hle, halone, htable, hx⟩)
  · rw [if_neg (mt hc.mp halone), h.layout.dirEntrySize, Exec.post_bind]
    refine (post_writeEntry _ (h.readable.block a.1 hlt) hm).mpr ?_
    have hstart : s.setDisk (storeEntry s.disk (blockLba s.disk i a.1) a.2 Bytes.zero) =
        s.grow p (storeEntry s.disk (blockLba s.disk i a.1) a.2 Bytes.zero)
          s.part.blockBitmap i := by
      rw [← Fs.grow_setDisk s p s.disk, Fs.grow_self s p i hi]
    rw [hstart]
    refine hrest (erased_of_not_alone h ha halone) ((storeEntry_eqOutside _ hm).mono ?_)
    exact fun x hx => Or.inr (Or.inl ⟨halone, hx⟩)

end Erase

section Delete

/-- What `delete_dir_entry` does from the block at `idx` on. -/
def DeleteResult (s : Fs) (p : ℕ) (i : Inode) (no : UInt32) (idx : ℕ) (r : Bool) (s' : Fs) : Prop :=
  (r = false ∧ s' = s ∧ ∀ a ∈ liveSlots s.disk i, idx ≤ a.1 → ¬ (entryAt s.disk i a).Names no) ∨
  (r = true ∧ s.mallocs 0 = true ∧ ∃ a ∈ liveSlots s.disk i, (entryAt s.disk i a).Names no ∧
    ∃ d b i', EntryErased s i a (i.iSize - 24) d b i' ∧ s' = s.tick.grow p d b i')

/-- Why `delete_dir_entry` may fail at an entry: there is no memory, the size of the directory is too
small, or there is another one. -/
def DeleteFault (s : Fs) (i : Inode) (no : UInt32) : Prop :=
  ∃ a ∈ liveSlots s.disk i, (entryAt s.disk i a).Names no ∧
    (s.mallocs 0 = false ∨ i.iSize.toNat < sizeofDirEntry ∨
      ∃ b ∈ liveSlots s.disk i, b ≠ a ∧ (entryAt s.disk i b).Names no)

/-- Where `delete_dir_entry` stops at an entry. -/
def DeleteStop (s : Fs) (i : Inode) (no : UInt32) (e : Fault) : Prop :=
  ∃ a ∈ liveSlots s.disk i, (entryAt s.disk i a).Names no ∧
    ((s.mallocs 0 = false ∧ e = .badPointer) ∨ i.iSize.toNat < sizeofDirEntry ∨
      ∃ b ∈ liveSlots s.disk i, b ≠ a ∧ (entryAt s.disk i b).Names no)

theorem DeleteStop.fault {e : Fault} (h : DeleteStop s i no e) : DeleteFault s i no := by
  obtain ⟨a, ha, hnames, hwhy⟩ := h
  exact ⟨a, ha, hnames, hwhy.imp_left And.left⟩

theorem DirOk.size_ge (h : DirOk s i) (ha : a ∈ liveSlots s.disk i) : 24 ≤ i.iSize.toNat := by
  have hpos : 0 < (liveEntries s.disk i).length :=
    List.length_pos_of_mem (mem_liveEntries.mpr ⟨a, ha, rfl⟩)
  have hsize := h.size
  rw [sizeofDirEntry] at hsize
  omega

theorem deleteBlocks_spec (h : DirBlocks s i) (hi : s.inodes p = some i) (n idx : ℕ)
    (hn : idx + n = 140) :
    Exec.Post (deleteBlocks p no (blockLba s.disk i) n idx) s
      (fun r s' => DeleteResult s p i no idx r s' ∧ (r = true → RecordStored s p i s'))
      (DeleteStop s i no) := by
  induction n generalizing idx with
  | zero =>
    refine ⟨Or.inl ⟨rfl, rfl, fun a ha hle => ?_⟩, nofun⟩
    have := (mem_liveSlots.mp ha).1
    omega
  | succ n ih =>
    -- nothing is found in this block
    have hskip (hnone : ∀ m, (idx, m) ∈ liveSlots s.disk i →
        ¬ (entryAt s.disk i (idx, m)).Names no) :
        Exec.Post (deleteBlocks p no (blockLba s.disk i) n (idx + 1)) s
          (fun r s' => DeleteResult s p i no idx r s' ∧ (r = true → RecordStored s p i s'))
          (DeleteStop s i no) := by
      refine (ih (idx + 1) (by omega)).mono (fun r s' hr => ⟨?_, hr.2⟩) fun _ => id
      refine hr.1.imp_left fun hr => ⟨hr.1, hr.2.1, fun a ha hle hnames => ?_⟩
      obtain ⟨k, m⟩ := a
      rcases hle.eq_or_lt with rfl | hlt
      · exact hnone m ha hnames
      · exact hr.2.2 (k, m) ha hlt hnames
    have hlt : idx < 140 := by omega
    simp only [deleteBlocks, Exec.post_bind, Exec.post_get]
    by_cases h0 : blockLba s.disk i idx = 0
    · rw [if_pos h0]
      exact hskip fun m hm => absurd h0 (mem_liveSlots.mp hm).2.1
    have hlive {m : ℕ} (hm : m < entrysPerSec)
        (hnames : (slotEntry s.disk (blockLba s.disk i idx) m).Names no) :
        (idx, m) ∈ liveSlots s.disk i := mem_liveSlots.mpr ⟨hlt, h0, hm, hnames.1.1⟩
    rw [if_neg h0, Exec.post_bind, post_readBlock (h.readable.block idx hlt), Exec.post_bind,
      dirEntrysPerSec_eq h.layout]
    refine (scanBlock_spec entrysPerSec 0 ⟨false, 0, none⟩ (by omega)).mono ?_ ?_
    · rintro r s₁ ⟨hr, hs₁⟩
      rw [hs₁]
      cases hfound : r.dirEntryFound with
      | none =>
        exact hskip fun m hm => scanned_none hr hfound m (mem_liveSlots.mp hm).2.2.1
      | some m =>
        obtain ⟨hm, hnames⟩ := scanned_found hr hfound
        have ha := hlive hm hnames
        obtain ⟨hpos, halone⟩ := scanned_alone_iff hr hm hnames.1
        have hiff : r.dirEntryCnt = 1 ∧ r.isDirFirstBlock = false ↔
            AloneInBlock s.disk i (idx, m) := by
          rw [halone]
          constructor
          · rintro hall ⟨k, l⟩ hb rfl
            obtain ⟨-, -, hl, hllive⟩ := mem_liveSlots.mp hb
            refine (hall l hl hllive).imp_left fun hlm => ?_
            rw [hlm]
          · intro hall l hl hllive
            refine (hall (idx, l) (mem_liveSlots.mpr ⟨hlt, h0, hl, hllive⟩) rfl).imp_left ?_
            exact fun heq => (Prod.mk.inj heq).2
        rw [Exec.post_bind, post_assert]
        refine ⟨fun _ => ?_, fun hn => absurd hpos hn⟩
        refine (eraseEntry_spec h hi ha hiff).mono ?_ fun _ hn =>
          ⟨(idx, m), ha, hnames, hn.imp_right Or.inl⟩
        rintro r' s' ⟨hr', hmalloc, hrecord, hrest⟩
        exact ⟨Or.inr ⟨hr', hmalloc, (idx, m), ha, hnames, hrest⟩, fun _ => hrecord⟩
    · rintro _ ⟨m, -, hm, hnames, htwice⟩
      obtain ⟨m', -, hm', hnames'⟩ := htwice.resolve_left fun hn => hn rfl
      have hne : (idx, m') ≠ (idx, m) := fun heq => by
        have := (Prod.mk.inj heq).2
        omega
      exact ⟨_, hlive (by omega) hnames, hnames,
        Or.inr (Or.inr ⟨_, hlive (by omega) hnames', hne, hnames'⟩)⟩

theorem deleteDirEntry_stored {dir : DirPtr} {e : Dir} (h : DirBlocks s i)
    (hdir : s.dirOf dir = some e) (hi : s.inodes e.inode = some i) :
    Exec.Post (deleteDirEntry dir no) s
      (fun r s' => DeleteResult s e.inode i no 0 r s' ∧ (r = true → RecordStored s e.inode i s'))
      (DeleteStop s i no) := by
  simp only [deleteDirEntry, Exec.post_bind, post_derefDir, hdir, Option.some.injEq, forall_eq',
    reduceCtorEq, false_implies, and_true, post_derefInode, hi, post_loadBlocks h.readable]
  exact deleteBlocks_spec h hi 140 0 rfl

theorem deleteDirEntry_spec {dir : DirPtr} {e : Dir} (h : DirBlocks s i)
    (hdir : s.dirOf dir = some e) (hi : s.inodes e.inode = some i) :
    Exec.Post (deleteDirEntry dir no) s (DeleteResult s e.inode i no 0)
      fun _ => DeleteFault s i no :=
  (deleteDirEntry_stored h hdir hi).mono (fun _ _ hr => hr.1) fun _ he => he.fault

/-- The entry in slot `a` of a directory is gone, its block if it held no other entry, and the table
with its last block; the rest is there as before. -/
structure EntryRemoved (s s' : Fs) (p : ℕ) (i : Inode) (a : ℕ × ℕ) (i' : Inode) : Prop where
  inode : s'.inodes p = some i'
  ok : DirOk s' i'
  entries : (liveEntries s.disk i).Perm (entryAt s.disk i a :: liveEntries s'.disk i')
  size : i'.iSize.toNat + sizeofDirEntry = i.iSize.toNat
  block : ∀ j, IsBlock s.part (blockLba s.disk i a.1) j →
    (s'.part.blockBitmap.scanTest j = false ↔ ∀ b ∈ liveSlots s.disk i, b.1 = a.1 → b = a)
  table : ∀ j, i.sector 12 ≠ 0 → IsBlock s.part (i.sector 12) j →
    (s'.part.blockBitmap.scanTest j = false ↔ (∀ b ∈ liveSlots s.disk i, b.1 = a.1 → b = a) ∧
      12 ≤ a.1 ∧ ∀ l, 12 ≤ l → l < 140 → blockLba s.disk i l ≠ 0 → l = a.1)
  bits : ∀ j, ¬ IsBlock s.part (blockLba s.disk i a.1) j → ¬ IsBlock s.part (i.sector 12) j →
    s'.part.blockBitmap.scanTest j = s.part.blockBitmap.scanTest j
  contents : ∀ lba : UInt32, s.part.sb.dataStartLba.toNat ≤ lba.toNat →
    lba ≠ blockLba s.disk i a.1 → (12 ≤ a.1 → lba ≠ i.sector 12) →
      ∀ x ∈ sectorArea lba, s'.disk x = s.disk x

/-- A block is given back exactly if one of its slots is emptied. -/
theorem Released.scanTest_eq_false_iff {part : Partition} {bm bm' : Bitmap} {S : Set Slot}
    {f : Slot → UInt32} {j : ℕ} (h : Released part bm bm' S f) (hset : bm.scanTest j = true) :
    bm'.scanTest j = false ↔ ∃ c ∈ S, IsBlock part (f c) j := by
  rw [← Bool.not_eq_true, h.bits, not_and_not_right]
  exact ⟨fun hn => hn hset, fun hn _ => hn⟩

theorem EntryErased.removed (h : DirOk s i) (ha : a ∈ liveSlots s.disk i)
    (hcounted : (entryAt s.disk i a).Counted) {d : Bytes} {b : Bitmap} {i' : Inode}
    (he : EntryErased s i a (i.iSize - 24) d b i') :
    EntryRemoved s (s.tick.grow p d b i') p i a i' := by
  obtain ⟨hlt, h0, -, -⟩ := mem_liveSlots.mp ha
  obtain ⟨sectors, hsame⟩ := id he.same
  have hperm := he.perm h hcounted ha
  have hlen := hperm.length_eq
  have hiSize : i'.iSize.toNat = i.iSize.toNat - 24 := by
    have hge := h.size_ge ha
    rw [hsame]
    exact Word.toNat_sub hge
  have hsize := h.size
  rw [List.length_cons] at hlen
  simp only [sizeofDirEntry] at hsize
  have halone := h.aloneInBlock_iff hcounted
  -- which slots hold the block of a bit
  have hholds {c c' : Slot} {j : ℕ} (hc0 : slotLba s.disk i c ≠ 0)
      (hj : IsBlock s.part (slotLba s.disk i c) j) (hj' : IsBlock s.part (slotLba s.disk i c') j) :
      c' = c :=
    (h.inj c c' hc0 (UInt32.toNat_inj.mp (hj.2.trans hj'.2.symm))).symm
  have hfreed {c : Slot} {j : ℕ} (hc0 : slotLba s.disk i c ≠ 0)
      (hj : IsBlock s.part (slotLba s.disk i c) j) :
      b.scanTest j = false ↔ c ∈ erasedSlots s.disk i a := by
    obtain ⟨j', hj', hset⟩ := h.used c hc0
    rw [hj'.unique hj] at hset
    rw [he.bits.scanTest_eq_false_iff hset]
    constructor
    · rintro ⟨c', hc', hcj⟩
      rwa [← hholds hc0 hj hcj]
    · exact fun hc => ⟨c, hc, hj⟩
  refine ⟨Function.update_self .., he.dirOk h hcounted ?_, hperm, ?_, fun j hj => ?_,
    fun j htable hj => ?_, fun j hj hjt => ?_, fun lba hlba hne hnet x hx => ?_⟩
  · rw [hiSize, sizeofDirEntry]
    omega
  · rw [hiSize, sizeofDirEntry]
    omega
  · refine (hfreed (c := .block a.1) h0 hj).trans ?_
    rw [← halone]
    exact and_iff_left (block_mem_freedSlots.mpr rfl)
  · refine (hfreed (c := .table) htable hj).trans ?_
    rw [← halone]
    simp [erasedSlots, freedSlots]
  · change b.scanTest j = _
    rw [Bool.eq_iff_iff, he.bits.bits]
    refine and_iff_left ?_
    rintro ⟨c, ⟨-, rfl | ⟨rfl, -⟩⟩, hcj⟩
    · exact hj hcj
    · exact hjt hcj
  · refine he.disk x ?_
    rintro ((hx' | hx') | ⟨-, hx'⟩ | ⟨hle, -, -, hx'⟩)
    · rw [sectorArea, Set.mem_ofPred_eq] at hx
      exact h.layout.not_mem_bitmapArea (by omega) hx'
    · exact sectorArea_inodeTable hlba x hx hx'
    · exact sectorArea_disjoint hne x hx hx'
    · exact sectorArea_disjoint (hnet hle) x hx hx'

/-- `delete_dir_entry` returns; it removes the entry for inode `no`, or there is none and it changes
nothing. -/
def DeletesExactly (s : Fs) (dir : DirPtr) (p : ℕ) (i : Inode) (no : UInt32) : Prop :=
  Exec.Returns (deleteDirEntry dir no) s fun r s' =>
    (∀ a ∈ liveSlots s.disk i, (entryAt s.disk i a).Names no →
      r = true ∧ ∃ i', EntryRemoved s s' p i a i') ∧
    ((∀ a ∈ liveSlots s.disk i, ¬ (entryAt s.disk i a).Names no) → r = false ∧ s' = s)

/-- Deleting an entry takes memory. -/
theorem DeletesExactly.malloc {dir : DirPtr} {e : Dir} (hret : DeletesExactly s dir e.inode i no)
    (h : DirOk s i) (hdir : s.dirOf dir = some e) (hi : s.inodes e.inode = some i)
    (ha : a ∈ liveSlots s.disk i) (hnames : (entryAt s.disk i a).Names no) : s.mallocs 0 = true := by
  obtain ⟨r, s', hrun, hr, -⟩ := Exec.returns_iff.mp hret
  rcases (deleteDirEntry_spec h.toDirBlocks hdir hi).ensures.of_ok hrun with
    ⟨rfl, -, hnone⟩ | ⟨-, hmalloc, -⟩
  · exact absurd hnames (hnone a ha (Nat.zero_le _))
  · exact hmalloc

/-- `delete_dir_entry` does what it is for exactly if there is no entry for the inode or
`inode_sync` gets its buffer. -/
theorem deletesExactly_iff {dir : DirPtr} {e : Dir} (h : DirOk s i) (hdir : s.dirOf dir = some e)
    (hi : s.inodes e.inode = some i)
    (huniq : ∀ a ∈ liveSlots s.disk i, ∀ b ∈ liveSlots s.disk i, (entryAt s.disk i a).Names no →
      (entryAt s.disk i b).Names no → a = b) :
    DeletesExactly s dir e.inode i no ↔
      ((∃ a ∈ liveSlots s.disk i, (entryAt s.disk i a).Names no) → s.mallocs 0 = true) := by
  constructor
  · rintro hret ⟨a, ha, hnames⟩
    exact hret.malloc h hdir hi ha hnames
  · intro hmalloc
    refine (deleteDirEntry_spec h.toDirBlocks hdir hi).mono ?_ ?_
    · rintro r s' (⟨rfl, rfl, hnone⟩ | ⟨rfl, -, a, ha, hnames, d, b, i', he, rfl⟩)
      · refine ⟨fun a ha hnames => ?_, fun _ => ⟨rfl, rfl⟩⟩
        exact absurd hnames (hnone a ha (Nat.zero_le _))
      · refine ⟨fun c hc hcn => ⟨rfl, i', ?_⟩, fun hnone => absurd hnames (hnone a ha)⟩
        rw [huniq c hc a ha hcn hnames]
        exact he.removed h ha hnames.1
    · rintro _ ⟨a, ha, hnames, hno | hsmall | ⟨c, hc, hne, hcn⟩⟩
      · rw [hmalloc ⟨a, ha, hnames⟩] at hno
        cases hno
      · exact absurd (h.size_ge ha) (Nat.not_le_of_lt hsmall)
      · exact hne (huniq c hc a ha hcn hnames)

theorem fileFs_entry : (0, 2) ∈ liveSlots fileFs.disk fileRoot ∧
    (entryAt fileFs.disk fileRoot (0, 2)).Names 1 := by
  rw [liveSlots_fileFs]
  decide +kernel

/-- The only entry for inode 1. -/
theorem fileFs_entry_unique (ha : a ∈ liveSlots fileFs.disk fileRoot)
    (hnames : (entryAt fileFs.disk fileRoot a).Names 1) : a = (0, 2) := by
  rw [liveSlots_fileFs] at ha
  have hall : ∀ c ∈ blockSlots fileFs.disk fileRoot 0,
      (entryAt fileFs.disk fileRoot c).Names 1 → c = (0, 2) := by
    decide +kernel
  exact hall a ha hnames

/-- The file in the root directory can be deleted. -/
theorem deletesExactly_fileFs : DeletesExactly fileFs .rootDir 0 fileRoot 1 :=
  (deletesExactly_iff (e := fileFs.rootDir) dirOk_fileFs rfl rfl fun _ ha _ hc hn hn' =>
    (fileFs_entry_unique ha hn).trans (fileFs_entry_unique hc hn').symm).mpr fun _ => rfl

/-- Without memory for the buffer of `inode_sync` deleting the file fails. -/
theorem not_deletesExactly : ∃ s dir e i no, DirOk s i ∧ s.dirOf dir = some e ∧
    s.inodes e.inode = some i ∧ (∃! a, a ∈ liveSlots s.disk i ∧ (entryAt s.disk i a).Names no) ∧
    ¬ DeletesExactly s dir e.inode i no := by
  have hok : DirOk (fileFs.withMallocs fun _ => false) fileRoot := dirOk_fileFs.withMallocs _
  have hdisk : (fileFs.withMallocs fun _ => false).disk = fileFs.disk := by
    rw [Fs.withMallocs_disk]
  have hentry : (0, 2) ∈ liveSlots (fileFs.withMallocs fun _ => false).disk fileRoot ∧
      (entryAt (fileFs.withMallocs fun _ => false).disk fileRoot (0, 2)).Names 1 := by
    rw [hdisk]
    exact fileFs_entry
  refine ⟨_, .rootDir, fileFs.rootDir, fileRoot, 1, hok, rfl, rfl, ?_, ?_⟩
  · rw [hdisk]
    exact ⟨(0, 2), fileFs_entry, fun c hc => fileFs_entry_unique hc.1 hc.2⟩
  · intro hret
    have hmalloc := hret.malloc hok rfl rfl hentry.1 hentry.2
    cases hmalloc

end Delete

end Winx
