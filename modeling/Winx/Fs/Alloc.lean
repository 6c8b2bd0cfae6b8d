import Winx.Fs.Slots

/-! # Mapping new blocks

`file_write` first maps the blocks the new size needs. It changes the disk, the
block bitmap and the inode of the file only; the blocks it takes were free and
are distinct, and the slots it does not fill keep their blocks.
-/

namespace Winx

/-- The state with another disk, block bitmap and inode at `p`. -/
def Fs.grow (s : Fs) (p : ℕ) (d : Bytes) (b : Bitmap) (i : Inode) : Fs :=
  ((s.setDisk d).setPart (s.part.setBlockBitmap b)).setInode p (some i)

namespace Fs

variable (s : Fs) (p : ℕ) (d d' : Bytes) (b b' : Bitmap) (i i' : Inode)

@[simp] theorem grow_disk : (s.grow p d b i).disk = d := rfl
@[simp] theorem grow_part : (s.grow p d b i).part = s.part.setBlockBitmap b := rfl
@[simp] theorem grow_inodes : (s.grow p d b i).inodes = Function.update s.inodes p (some i) := rfl
@[simp] theorem grow_fileTable : (s.grow p d b i).fileTable = s.fileTable := rfl
@[simp] theorem grow_mallocs : (s.grow p d b i).mallocs = s.mallocs := rfl

@[simp] theorem grow_setDisk : (s.grow p d b i).setDisk d' = s.grow p d' b i := rfl

@[simp] theorem grow_setBlockBitmap :
    (s.grow p d b i).setPart ((s.part.setBlockBitmap b).setBlockBitmap b') = s.grow p d b' i := rfl

@[simp] theorem grow_setInode : (s.grow p d b i).setInode p (some i') = s.grow p d b i' := by
  simp [grow]

theorem grow_self (hi : s.inodes p = some i) : s.grow p s.disk s.part.blockBitmap i = s := by
  have : Function.update s.inodes p (some i) = s.inodes := by
    rw [← hi, Function.update_eq_self]
  cases s
  simp_all [grow, setDisk, setPart, setInode, Partition.setBlockBitmap]

end Fs

/-- The bytes of the disk that hold the block bitmap. -/
def bitmapArea (part : Partition) : Set ℕ :=
  {x | part.sb.blockBitmapLba.toNat * 512 ≤ x ∧ x < part.sb.inodeBitmapLba.toNat * 512}

/-- The bytes of a sector. -/
def sectorArea (lba : UInt32) : Set ℕ := {x | lba.toNat * 512 ≤ x ∧ x < lba.toNat * 512 + 512}

/-- The slots of the data blocks from `lo` up to `hi`. -/
def blockRange (lo hi : ℕ) : Set Slot := {a | ∃ k, a = .block k ∧ lo ≤ k ∧ k < hi}

/-- The block numbers of the data blocks as block numbers of slots. -/
def dataLba (f : ℕ → UInt32) : Slot → UInt32
  | .table => 0
  | .block k => f k

/-- The inode with its direct blocks from `lo` up to `hi` set. -/
def Inode.withBlocks (i : Inode) (f : ℕ → UInt32) (lo hi : ℕ) : Inode :=
  { i with iSectors := fun j => if lo ≤ j.val ∧ j.val < hi ∧ j.val < 12 then f j.val
                                else i.iSectors j }

/-- From the map `b` to the map `b'` the distinct blocks `f a` for the slots `a` in `S` are
taken. -/
structure Allocated (part : Partition) (b b' : Bitmap) (S : Set Slot) (f : Slot → UInt32) :
    Prop where
  len : b'.btmpBytesLen = b.btmpBytesLen
  fresh : ∀ a ∈ S, ∃ j, IsBlock part (f a) j ∧ b.scanTest j = false
  inj : ∀ a ∈ S, ∀ c ∈ S, f a = f c → a = c
  bits : ∀ j, b'.scanTest j = true ↔ b.scanTest j = true ∨ ∃ a ∈ S, IsBlock part (f a) j

namespace Allocated

variable {part : Partition} {b b' b'' : Bitmap} {S T : Set Slot} {f g : Slot → UInt32}

theorem empty (part : Partition) (b : Bitmap) (f : Slot → UInt32) : Allocated part b b ∅ f :=
  ⟨rfl, by simp, by simp, by simp⟩

theorem congr (h : Allocated part b b' S f) (hfg : ∀ a ∈ S, f a = g a) :
    Allocated part b b' S g := by
  refine ⟨h.len, fun a ha => ?_, fun a ha c hc heq => ?_, fun j => ?_⟩
  · rw [← hfg a ha]
    exact h.fresh a ha
  · rw [← hfg a ha, ← hfg c hc] at heq
    exact h.inj a ha c hc heq
  · rw [h.bits]
    refine or_congr_right (exists_congr fun a => and_congr_right fun ha => ?_)
    rw [hfg a ha]

/-- Taking blocks twice. -/
theorem union (h : Allocated part b b' S f) (h' : Allocated part b' b'' T f) :
    Allocated part b b'' (S ∪ T) f := by
  have hdisj : ∀ a ∈ S, ∀ c ∈ T, f a ≠ f c := by
    intro a ha c hc heq
    obtain ⟨j, hj, -⟩ := h.fresh a ha
    obtain ⟨k, hk, hclear⟩ := h'.fresh c hc
    rw [heq] at hj
    rw [hk.unique hj] at hclear
    have := (h.bits j).mpr (Or.inr ⟨a, ha, heq ▸ hj⟩)
    rw [hclear] at this
    cases this
  refine ⟨h'.len.trans h.len, ?_, ?_, fun j => ?_⟩
  · rintro a (ha | ha)
    · exact h.fresh a ha
    · obtain ⟨j, hj, hclear⟩ := h'.fresh a ha
      refine ⟨j, hj, ?_⟩
      by_contra hset
      have := (h.bits j).mpr (Or.inl (by simpa using hset))
      rw [hclear] at this
      cases this
  · rintro a (ha | ha) c (hc | hc) heq
    · exact h.inj a ha c hc heq
    · exact absurd heq (hdisj a ha c hc)
    · exact absurd heq.symm (hdisj c hc a ha)
    · exact h'.inj a ha c hc heq
  · rw [h'.bits, h.bits, or_assoc]
    refine or_congr_right ?_
    constructor
    · rintro (⟨a, ha, hj⟩ | ⟨a, ha, hj⟩)
      · exact ⟨a, Or.inl ha, hj⟩
      · exact ⟨a, Or.inr ha, hj⟩
    · rintro ⟨a, ha | ha, hj⟩
      · exact Or.inl ⟨a, ha, hj⟩
      · exact Or.inr ⟨a, ha, hj⟩

/-- Taking the block of the first clear bit. -/
theorem single {a : Slot} {j : ℕ} (hj : IsBlock part (f a) j) (hclear : b.scanTest j = false) :
    Allocated part b (b.set j true) {a} f := by
  refine ⟨rfl, ?_, ?_, fun k => ?_⟩
  · rintro _ rfl
    exact ⟨j, hj, hclear⟩
  · rintro _ rfl _ rfl _
    rfl
  · rw [Bitmap.scanTest_set]
    simp only [Set.mem_singleton_iff, exists_eq_left]
    constructor
    · intro h
      split at h
      · rename_i hkj
        exact Or.inr (hkj ▸ hj)
      · exact Or.inl h
    · rintro (h | h)
      · split
        · rfl
        · exact h
      · rw [if_pos (h.unique hj)]

end Allocated

section Rules

variable {s : Fs} {E : Fault → Prop} {part : Partition}

/-- `block_bitmap_alloc` takes the first free block. -/
theorem post_blockBitmapAlloc {Q : Option UInt32 → Fs → Prop} :
    Exec.Post blockBitmapAlloc s Q E ↔
      (s.part.blockBitmap.scan 1 = none → Q none s) ∧
      ∀ j, s.part.blockBitmap.scan 1 = some j → Q (some (s.part.sb.dataStartLba + UInt32.ofNat j))
        (s.setPart (s.part.setBlockBitmap (s.part.blockBitmap.set j true))) := by
  cases h : s.part.blockBitmap.scan 1 <;> simp [blockBitmapAlloc, h]

/-- The block number of a bit. -/
theorem Layout.isBlock (hl : Layout part) {j : ℕ} (hj : j < 8 * part.blockBitmap.btmpBytesLen) :
    IsBlock part (part.sb.dataStartLba + UInt32.ofNat j) j := by
  have hlt := hl.block_lt hj
  refine ⟨hj, ?_⟩
  rw [Word.toNat_add] <;> rw [Word.toNat_ofNat (by omega)]
  exact hlt

/-- The geometry does not depend on which blocks are used. -/
theorem Layout.setBlockBitmap (hl : Layout part) {b : Bitmap}
    (hb : b.btmpBytesLen = part.blockBitmap.btmpBytesLen) : Layout (part.setBlockBitmap b) :=
  ⟨hl.1, hl.2, hl.3, hl.4, hl.5, hl.6, hl.7, hl.8, hb.trans hl.9, hl.10⟩

theorem Layout.block_ne_zero (hl : Layout part) {lba : UInt32} {j : ℕ} (h : IsBlock part lba j) :
    lba ≠ 0 := by
  have := hl.dataStartLba
  have := h.2
  rw [Word.ne_zero_iff]
  omega

theorem isBlock_setBlockBitmap {b : Bitmap} (hb : b.btmpBytesLen = part.blockBitmap.btmpBytesLen)
    {lba : UInt32} {j : ℕ} : IsBlock (part.setBlockBitmap b) lba j ↔ IsBlock part lba j := by
  simp only [IsBlock, Partition.setBlockBitmap_blockBitmap, Partition.setBlockBitmap_sb, hb]

theorem bitmapSync_part (bitIdx : UInt32) (btmpType : BitmapType) :
    Exec.Ensures (bitmapSync bitIdx btmpType) s fun _ s' =>
      s'.part = s.part ∧ s'.inodes = s.inodes := by
  cases btmpType <;> simp [bitmapSync]

/-- Writing the sector of a bit of the block bitmap. -/
theorem bitmapSync_block_spec (hl : Layout s.part) {lba : UInt32} {j : ℕ}
    (hj : IsBlock s.part lba j) :
    Exec.Returns (bitmapSync (lba - s.part.sb.dataStartLba) .blockBitmap) s fun _ s' =>
      ∃ d, s' = s.setDisk d ∧ Bytes.EqOutside (bitmapArea s.part) s.disk d := by
  obtain ⟨hj, hlba⟩ := hj
  have h₁ := hl.blockBitmapLba
  have h₂ := hl.inodeBitmapLba
  have h₃ := hl.inodeTableLba
  have h₄ := hl.dataStartLba
  have h₅ := hl.data_le_end
  have h₆ := hl.end_le
  have h₇ := hl.blockBitmap_len
  have hidx : (lba - s.part.sb.dataStartLba).toNat = j := by
    rw [Word.toNat_sub (by omega)]
    omega
  have hsec : ((lba - s.part.sb.dataStartLba) / 4096).toNat = j / 4096 := by
    rw [UInt32.toNat_div, hidx]
    rfl
  rw [maxLba_toNat] at h₆
  have hto : (s.part.sb.blockBitmapLba + (lba - s.part.sb.dataStartLba) / 4096).toNat =
      s.part.sb.blockBitmapLba.toNat + j / 4096 := by
    rw [Word.toNat_add (by omega), hsec]
  simp only [bitmapSync, Exec.post_bind, Exec.post_get, post_ideWrite, Nat.zero_lt_one, and_true]
  refine ⟨fun _ => ⟨_, rfl, Bytes.eqOutside_splice fun x hx hx' => ?_⟩, fun h => h ?_⟩
  · rw [hto] at hx hx'
    rw [bitmapArea, Set.mem_ofPred_eq]
    omega
  · rw [UInt32.le_iff_toNat_le, hto, maxLba_toNat]
    omega

end Rules

section MapNewBlocks

variable {s : Fs} {p lo hi k : ℕ} {d : Bytes} {b : Bitmap} {i : Inode} {f g : ℕ → UInt32}

theorem Inode.sector_withBlocks : (i.withBlocks f lo hi).sector k =
    if lo ≤ k ∧ k < hi ∧ k < 12 then f k else i.sector k := by
  unfold Inode.sector Inode.withBlocks
  by_cases h : k < 13
  · simp [h]
  · simp only [h, dif_neg, not_false_eq_true]
    rw [if_neg (by omega)]

/-- Without a direct block in the range the inode stays as it is. -/
theorem Inode.withBlocks_eq_self (h : hi ≤ lo ∨ 12 ≤ lo) : i.withBlocks f lo hi = i := by
  have : (fun j : Fin 13 => if lo ≤ j.val ∧ j.val < hi ∧ j.val < 12 then f j.val
      else i.iSectors j) = i.iSectors := by
    funext j
    rw [if_neg (by omega)]
  rw [Inode.withBlocks, this]

/-- Setting the first block of a range and then the others. -/
theorem Inode.setSector_withBlocks {lba : UInt32} (hlt : lo < hi) (h12 : lo < 12)
    (hf : f lo = lba) : (i.setSector lo lba).withBlocks f (lo + 1) hi = i.withBlocks f lo hi := by
  have : (fun j : Fin 13 => if lo + 1 ≤ j.val ∧ j.val < hi ∧ j.val < 12 then f j.val
      else if j.val = lo then lba else i.iSectors j) =
        fun j : Fin 13 => if lo ≤ j.val ∧ j.val < hi ∧ j.val < 12 then f j.val
          else i.iSectors j := by
    funext j
    by_cases hj : j.val = lo
    · rw [if_neg (by omega), if_pos hj, if_pos (by omega), hj, hf]
    · rw [if_neg hj]
      exact if_congr (by omega) rfl rfl
  simp only [Inode.withBlocks, Inode.setSector, this]

theorem blockRange_succ (h : lo < hi) : blockRange lo hi = {.block lo} ∪ blockRange (lo + 1) hi := by
  ext a
  constructor
  · rintro ⟨k, rfl, hlo, hhi⟩
    rcases Nat.eq_or_lt_of_le hlo with rfl | hlt
    · exact Or.inl rfl
    · exact Or.inr ⟨k, rfl, hlt, hhi⟩
  · rintro (rfl | ⟨k, rfl, hlo, hhi⟩)
    · exact ⟨lo, rfl, le_rfl, h⟩
    · exact ⟨k, rfl, by omega, hhi⟩

theorem blockRange_empty (h : hi ≤ lo) : blockRange lo hi = ∅ := by
  ext a
  constructor
  · rintro ⟨k, -, hlo, hhi⟩
    omega
  · exact False.elim

/-- What the block-mapping loop leaves when all allocations succeed: the blocks `lo` to `hi` are
taken and recorded in `g`. -/
structure BlocksMapped (part : Partition) (b b' : Bitmap) (d d' : Bytes) (i : Inode)
    (f g : ℕ → UInt32) (lo hi : ℕ) : Prop where
  alloc : Allocated part b b' (blockRange lo hi) (dataLba g)
  disk : Bytes.EqOutside (bitmapArea part) d d'
  kept : ∀ k, ¬ (lo ≤ k ∧ k < hi) → g k = f k
  empty : ∀ k, lo ≤ k → k < hi → k < 12 → i.sector k = 0

/-- The block-mapping loop takes `n` blocks from index `lo` on, or returns without a result when
there are fewer; it trips its assertion only on a direct block that is mapped already. -/
theorem mapNewBlocks_spec (hl : Layout s.part) (n lo : ℕ) (f : ℕ → UInt32)
    (hb : b.btmpBytesLen = s.part.blockBitmap.btmpBytesLen) :
    Exec.Post (mapNewBlocks p n lo f) (s.grow p d b i)
      (fun r s' =>
        (∀ g, r = some g → ∃ d' b', s' = s.grow p d' b' (i.withBlocks g lo (lo + n)) ∧
          BlocksMapped s.part b b' d d' i f g lo (lo + n)) ∧
        (r = none → b.freeCnt < n ∧ ∃ d' b' i', s' = s.grow p d' b' i' ∧ i'.iSize = i.iSize ∧
          (b.freeCnt = 0 → s' = s.grow p d b i)))
      fun _ => ∃ k, lo ≤ k ∧ k < lo + n ∧ k < 12 ∧ i.sector k ≠ 0 := by
  induction n generalizing lo f d b i with
  | zero =>
    refine ⟨?_, fun h => by cases h⟩
    rintro g ⟨⟩
    refine ⟨d, b, by rw [Nat.add_zero, Inode.withBlocks_eq_self (Or.inl le_rfl)], ?_⟩
    rw [Nat.add_zero]
    exact ⟨by rw [blockRange_empty le_rfl]; exact .empty .., .refl _ _, fun _ _ => rfl,
      fun k h h' => absurd h (by omega)⟩
  | succ n ih =>
    rw [mapNewBlocks, Exec.post_bind, Exec.post_get, Exec.post_bind, post_blockBitmapAlloc]
    simp only [Fs.grow_part, Partition.setBlockBitmap_blockBitmap, Partition.setBlockBitmap_sb,
      Fs.grow_setBlockBitmap]
    refine ⟨fun hnone => ?_, fun j hj => ?_⟩
    · have hzero := Bitmap.scan_one_eq_none_iff_freeCnt.mp hnone
      rw [Exec.post_pure]
      exact ⟨fun g h => (by cases h), fun _ => ⟨by omega, d, b, i, rfl, rfl, fun _ => rfl⟩⟩
    · obtain ⟨hjlt, hclear, -⟩ := Bitmap.scan_one_eq_some_iff.mp hj
      have hcnt := Bitmap.freeCnt_set hjlt hclear
      have hblock := hl.isBlock (hb ▸ hjlt)
      generalize s.part.sb.dataStartLba + UInt32.ofNat j = lba at hblock
      have htail : ∀ i₁ : Inode,
          (∀ g, g lo = lba → i₁.withBlocks g (lo + 1) (lo + 1 + n) = i.withBlocks g lo (lo + 1 + n)) →
          (∀ k, lo < k → i₁.sector k = i.sector k) → i₁.iSize = i.iSize →
          (lo < 12 → i.sector lo = 0) →
          Exec.Post (do
            bitmapSync (lba - s.part.sb.dataStartLba) .blockBitmap
            mapNewBlocks p n (lo + 1) (Function.update f lo lba)) (s.grow p d (b.set j true) i₁)
          (fun r s' =>
            (∀ g, r = some g → ∃ d' b', s' = s.grow p d' b' (i.withBlocks g lo (lo + (n + 1))) ∧
              BlocksMapped s.part b b' d d' i f g lo (lo + (n + 1))) ∧
            (r = none → b.freeCnt < n + 1 ∧ ∃ d' b' i', s' = s.grow p d' b' i' ∧
              i'.iSize = i.iSize ∧ (b.freeCnt = 0 → s' = s.grow p d b i)))
          fun _ => ∃ k, lo ≤ k ∧ k < lo + (n + 1) ∧ k < 12 ∧ i.sector k ≠ 0 := by
        intro i₁ hwith hsame hsize hempty
        have hsync := bitmapSync_block_spec (s := s.grow p d (b.set j true) i₁)
          (hl.setBlockBitmap hb) ((isBlock_setBlockBitmap hb).mpr hblock)
        refine hsync.bind ?_
        rintro _ s' ⟨d₁, rfl, hd₁⟩
        rw [Fs.grow_setDisk]
        refine (ih (i := i₁) (lo + 1) (Function.update f lo lba) (b := b.set j true) hb).mono ?_ ?_
        · rintro r s' ⟨hsome, hnone⟩
          refine ⟨fun g hg => ?_, fun hr => ?_⟩
          · obtain ⟨d', b', rfl, hmapped⟩ := hsome g hg
            have hglo : g lo = lba := by
              rw [hmapped.kept lo (by omega), Function.update_self]
            rw [hwith g hglo, show lo + 1 + n = lo + (n + 1) by omega]
            refine ⟨d', b', rfl, ?_, hd₁.trans hmapped.disk, fun k hk => ?_, fun k hk hk' hk12 => ?_⟩
            · rw [blockRange_succ (by omega)]
              refine (Allocated.single (a := .block lo) ?_ hclear).union ?_
              · rw [dataLba, hglo]
                exact hblock
              · rw [show lo + (n + 1) = lo + 1 + n by omega]
                exact hmapped.alloc
            · rw [hmapped.kept k (by omega), Function.update_of_ne (by omega)]
            · rcases Nat.eq_or_lt_of_le hk with rfl | hlt
              · exact hempty hk12
              · rw [← hsame k hlt]
                exact hmapped.empty k (by omega) (by omega) hk12
          · obtain ⟨hlt, d', b', i', rfl, hi', -⟩ := hnone hr
            exact ⟨by omega, d', b', i', rfl, hi'.trans hsize, fun h => by omega⟩
        · rintro _ ⟨k, hk, hk', hk12, hne⟩
          refine ⟨k, by omega, by omega, hk12, ?_⟩
          rwa [← hsame k (by omega)]
      simp only [derefInode, storeInode, Exec.post_bind, Exec.post_get, Exec.post_ite, post_deref,
        post_assert, Exec.post_modify, Fs.grow_inodes, Function.update_self, Fs.grow_setInode,
        Option.some.injEq, forall_eq', reduceCtorEq, false_imp_iff, and_true] at htail ⊢
      refine ⟨fun h12 => ⟨fun hzero => ?_, fun hne => ⟨lo, le_rfl, by omega, h12, hne⟩⟩,
        fun hge => ?_⟩
      · refine htail (i.setSector lo lba) (fun g hg => ?_) (fun k hk => ?_) rfl fun _ => hzero
        · exact Inode.setSector_withBlocks (by omega) h12 hg
        · rw [Inode.sector_setSector, if_neg (by omega)]
      · refine htail i (fun g _ => ?_) (fun _ _ => rfl) rfl fun h => absurd h hge
        rw [Inode.withBlocks_eq_self (Or.inr (by omega)),
          Inode.withBlocks_eq_self (Or.inr (by omega))]

end MapNewBlocks

section MapBlocks

variable {s : Fs} {p used will k : ℕ} {d d' : Bytes} {b b' : Bitmap} {i i' : Inode}
  {f g : ℕ → UInt32} {part : Partition}

/-- The slots `file_write` fills when the file grows from `used` to `will` blocks. -/
def grownSlots (used will : ℕ) : Set Slot :=
  blockRange used will ∪ {a | a = .table ∧ used ≤ 12 ∧ 12 < will}

/-- How many blocks that takes. -/
def grownCnt (used will : ℕ) : ℕ := will - used + if used ≤ 12 ∧ 12 < will then 1 else 0

/-- An inode gets blocks for the slots in `S`, of which those in the inode were empty; `f` knows its
blocks from `lo` up to `hi`. -/
structure Extends (part : Partition) (b b' : Bitmap) (d d' : Bytes) (i i' : Inode) (S : Set Slot)
    (f : ℕ → UInt32) (lo hi : ℕ) : Prop where
  same : ∃ sectors, i' = { i with iSectors := sectors }
  alloc : Allocated part b b' S (slotLba d' i')
  kept : ∀ a, a ∉ S → slotLba d' i' a = slotLba d i a
  disk : Bytes.EqOutside (bitmapArea part ∪ {x | i'.sector 12 ≠ 0 ∧ x ∈ sectorArea (i'.sector 12)}) d d'
  known : ∀ k, lo ≤ k → k < hi → f k = blockLba d' i' k
  empty : ∀ a ∈ S, (∀ k, a = .block k → k < 12) → slotLba d i a = 0

/-- Why mapping blocks may stop on an assertion: a slot to fill is not empty, or a block lies past
the end of the disk. -/
def MapFault (part : Partition) (b : Bitmap) (i : Inode) (used will : ℕ) : Prop :=
  (∃ k, used ≤ k ∧ k < will ∧ k < 12 ∧ i.sector k ≠ 0) ∨
    (used ≤ 12 ∧ 12 < will ∧ i.sector 12 ≠ 0) ∨
    (∃ j, j < 8 * part.blockBitmap.btmpBytesLen ∧ b.scanTest j = false ∧
      maxLba.toNat < part.sb.dataStartLba.toNat + j) ∨
    (12 < used ∧ maxLba < i.sector 12)

/-- What mapping blocks leaves: the blocks, or no result when there are too few. -/
def MapResult (s : Fs) (p : ℕ) (d : Bytes) (b : Bitmap) (i : Inode) (used will : ℕ)
    (r : Option (ℕ → UInt32)) (s' : Fs) : Prop :=
  (∀ f, r = some f → ∃ d' b' i', s' = s.grow p d' b' i' ∧
    Extends s.part b b' d d' i i' (grownSlots used will) f (used - 1) will) ∧
  (r = none → b.freeCnt < grownCnt used will ∧ ∃ d' b' i', s' = s.grow p d' b' i' ∧
    i'.iSize = i.iSize ∧ (b.freeCnt = 0 → s' = s.grow p d b i))

/-- The block bitmap ends before the data. -/
theorem Layout.not_mem_bitmapArea (hl : Layout part) {x : ℕ}
    (hx : part.sb.dataStartLba.toNat * 512 ≤ x) : x ∉ bitmapArea part := by
  have := hl.inodeTableLba
  have := hl.dataStartLba
  rw [bitmapArea, Set.mem_ofPred_eq]
  omega

/-- Writing to the block bitmap does not change an indirect table. -/
theorem table_word_eq (hl : Layout part) (hd : Bytes.EqOutside (bitmapArea part) d d')
    {lba : UInt32} (hlba : part.sb.dataStartLba.toNat ≤ lba.toNat) (m : ℕ) :
    d'.word (lba.toNat * 512 + m) = d.word (lba.toNat * 512 + m) :=
  hd.word_eq fun j _ => hl.not_mem_bitmapArea (by omega)

theorem mem_blockRange {lo hi : ℕ} : Slot.block k ∈ blockRange lo hi ↔ lo ≤ k ∧ k < hi := by
  constructor
  · rintro ⟨_, heq, h⟩
    obtain rfl := Slot.block.inj heq
    exact h
  · exact fun h => ⟨k, rfl, h⟩

theorem table_not_mem_blockRange {lo hi : ℕ} : Slot.table ∉ blockRange lo hi := by
  rintro ⟨_, h, -⟩
  cases h

theorem sector_12_withBlocks {lo hi : ℕ} : (i.withBlocks f lo hi).sector 12 = i.sector 12 := by
  rw [Inode.sector_withBlocks, if_neg (by omega)]

theorem withBlocks_same {lo hi : ℕ} :
    ∃ sectors, i.withBlocks f lo hi = { i with iSectors := sectors } := ⟨_, rfl⟩

/-- Blocks found through a table that is not written to stay where they are. -/
theorem blockLba_eq_of_table (hl : Layout part) (hd : Bytes.EqOutside (bitmapArea part) d d')
    (hk : 12 ≤ k) (htable : i'.sector 12 = i.sector 12)
    (hreg : i.sector 12 ≠ 0 → part.sb.dataStartLba.toNat ≤ (i.sector 12).toNat) :
    blockLba d' i' k = blockLba d i k := by
  simp only [blockLba, htable, show ¬ k < 12 by omega, if_false]
  split
  · rfl
  · rename_i h
    rw [not_or] at h
    exact table_word_eq hl hd (hreg h.1) _

/-- Situation 1: the file stays within its direct blocks. -/
theorem mapBlocks_direct (hl : Layout s.part)
    (hb : b.btmpBytesLen = s.part.blockBitmap.btmpBytesLen) (hused : 0 < used) (hlt : used < will)
    (hwill : will ≤ 12)
    (hreg : i.sector 12 ≠ 0 → s.part.sb.dataStartLba.toNat ≤ (i.sector 12).toNat) :
    Exec.Post (mapBlocks p used will) (s.grow p d b i) (MapResult s p d b i used will)
      fun _ => MapFault s.part b i used will := by
  have hcnt : grownCnt used will = will - used := by rw [grownCnt, if_neg (by omega), Nat.add_zero]
  have hslots : grownSlots used will = blockRange used will := by
    rw [grownSlots]
    refine Set.union_eq_left.mpr ?_
    rintro a ⟨-, -, h⟩
    omega
  have hloop := mapNewBlocks_spec (p := p) (d := d) (i := i) hl (will - used) used
    (Function.update (fun _ => 0) (used - 1) (i.sector (used - 1))) hb
  rw [show used + (will - used) = will by omega] at hloop
  simp only [mapBlocks, derefInode, hwill, show used - 1 < 13 by omega, Exec.post_bind,
    Exec.post_get, post_deref, Exec.post_pure, Fs.grow_inodes, Function.update_self, if_true,
    Option.some.injEq, forall_eq', reduceCtorEq, false_imp_iff, and_true]
  refine hloop.mono ?_ fun _ h => Or.inl h
  rintro r s' ⟨hsome, hnone⟩
  refine ⟨fun g hg => ?_, fun hr => ?_⟩
  · obtain ⟨d', b', rfl, hmapped⟩ := hsome g hg
    have hdirect (k : ℕ) (hk : k < 12) : blockLba d' (i.withBlocks g used will) k =
        if used ≤ k ∧ k < will then g k else i.sector k := by
      rw [blockLba_of_lt hk, Inode.sector_withBlocks]
      exact if_congr (by omega) rfl rfl
    refine ⟨d', b', _, rfl, withBlocks_same, ?_, fun a ha => ?_, ?_, fun k hk hk' => ?_, ?_⟩
    · rw [hslots]
      refine hmapped.alloc.congr ?_
      rintro _ ⟨k, rfl, hk, hk'⟩
      rw [dataLba, slotLba, hdirect k (by omega), if_pos ⟨hk, hk'⟩]
    · rw [hslots] at ha
      cases a with
      | table => exact sector_12_withBlocks
      | block k =>
        rw [mem_blockRange] at ha
        rcases Nat.lt_or_ge k 12 with hk | hk
        · rw [slotLba, slotLba, hdirect k hk, if_neg ha, blockLba_of_lt hk]
        · exact blockLba_eq_of_table hl hmapped.disk hk sector_12_withBlocks hreg
    · exact hmapped.disk.mono Set.subset_union_left
    · rw [hdirect k (by omega)]
      split
      · rfl
      · rw [hmapped.kept k (by omega), show k = used - 1 by omega, Function.update_self]
    · rw [hslots]
      rintro _ ⟨k, rfl, hk, hk'⟩ -
      rw [slotLba, blockLba_of_lt (by omega)]
      exact hmapped.empty k hk hk' (by omega)
  · obtain ⟨hcnt', d', b', i', rfl, hsize, hfull⟩ := hnone hr
    exact ⟨by omega, d', b', i', rfl, hsize, hfull⟩

/-- Block numbers in a table that was just written. -/
theorem blockLba_of_writeTable (htable : i.sector 12 ≠ 0) (hk : 12 ≤ k) (hk' : k < 140) :
    blockLba (d.splice ((i.sector 12).toNat * 512) (1 * 512) (Bytes.ofWords fun k => f (12 + k)))
      i k = f k := by
  rw [blockLba_of_le hk hk' htable, Bytes.word_splice_of_mem (by omega), Nat.add_sub_cancel_left,
    Bytes.word_ofWords, Nat.add_sub_cancel' hk]

/-- Writing a table changes its sector. -/
theorem eqOutside_writeTable {lba : UInt32} {src : Bytes} :
    Bytes.EqOutside (sectorArea lba) d (d.splice (lba.toNat * 512) (1 * 512) src) :=
  Bytes.eqOutside_splice fun x hx hx' => by
    rw [sectorArea, Set.mem_ofPred_eq]
    omega

/-- Situation 3: the new blocks go to the indirect table. -/
theorem mapBlocks_indirect (hl : Layout s.part)
    (hb : b.btmpBytesLen = s.part.blockBitmap.btmpBytesLen) (hused : 12 < used) (hlt : used < will)
    (hwill : will ≤ 140) (htable : i.sector 12 ≠ 0) :
    Exec.Post (mapBlocks p used will) (s.grow p d b i) (MapResult s p d b i used will)
      fun _ => MapFault s.part b i used will := by
  have hcnt : grownCnt used will = will - used := by rw [grownCnt, if_neg (by omega), Nat.add_zero]
  have hslots : grownSlots used will = blockRange used will := by
    rw [grownSlots]
    refine Set.union_eq_left.mpr ?_
    rintro a ⟨-, h, -⟩
    omega
  simp only [mapBlocks, derefInode, show ¬ will ≤ 12 by omega, show ¬ used ≤ 12 by omega,
    Exec.post_bind, Exec.post_get, post_deref, post_assert, Fs.grow_inodes,
    Function.update_self, if_false, Option.some.injEq, forall_eq', reduceCtorEq, false_imp_iff,
    and_true, htable, ne_eq, not_false_eq_true, forall_const, not_true_eq_false, post_readTable]
  refine ⟨fun _ => ?_, fun h => Or.inr (Or.inr (Or.inr ⟨hused, UInt32.not_le.mp h⟩))⟩
  set f : ℕ → UInt32 := fun k => if 12 ≤ k ∧ k < 140 then
    (s.grow p d b i).disk.word ((i.sector 12).toNat * 512 + 4 * (k - 12)) else 0 with hf
  have hold (k : ℕ) (hk : 12 ≤ k) (hk' : k < 140) : f k = blockLba d i k := by
    rw [hf, blockLba_of_le hk hk' htable]
    exact if_pos ⟨hk, hk'⟩
  have hloop := mapNewBlocks_spec (p := p) (d := d) (i := i) hl (will - used) used f hb
  rw [show used + (will - used) = will by omega] at hloop
  refine hloop.mono ?_ fun _ h => Or.inl h
  rintro r s' ⟨hsome, hnone⟩
  cases r with
  | none =>
    obtain ⟨hcnt', d', b', i', rfl, hsize, hfull⟩ := hnone rfl
    exact ⟨fun g hg => (by cases hg), fun _ => ⟨by omega, d', b', i', rfl, hsize, hfull⟩⟩
  | some g =>
    obtain ⟨d', b', rfl, hmapped⟩ := hsome g rfl
    rw [Inode.withBlocks_eq_self (Or.inr (by omega))]
    simp only [writeTable, Exec.post_bind, post_ideWrite, Exec.post_pure, Nat.zero_lt_one, and_true,
      Fs.grow_disk, Fs.grow_setDisk]
    refine ⟨fun _ => ⟨?_, fun h => (by cases h)⟩,
      fun h => Or.inr (Or.inr (Or.inr ⟨hused, UInt32.not_le.mp h⟩))⟩
    rintro _ ⟨⟩
    have hnew (k : ℕ) (hk : 12 ≤ k) (hk' : k < 140) := blockLba_of_writeTable (d := d') (f := g)
      htable hk hk'
    refine ⟨_, b', i, rfl, ⟨i.iSectors, rfl⟩, ?_, fun a ha => ?_, ?_, fun k hk hk' => ?_, ?_⟩
    · rw [hslots]
      refine hmapped.alloc.congr ?_
      rintro _ ⟨k, rfl, hk, hk'⟩
      rw [dataLba, slotLba, hnew k (by omega) (by omega)]
    · rw [hslots] at ha
      cases a with
      | table => rfl
      | block k =>
        rw [mem_blockRange] at ha
        rcases Nat.lt_or_ge k 12 with hk | hk
        · rw [slotLba, slotLba, blockLba_of_lt hk, blockLba_of_lt hk]
        · rcases Nat.lt_or_ge k 140 with hk' | hk'
          · rw [slotLba, slotLba, hnew k hk hk', hmapped.kept k ha, hold k hk hk']
          · simp only [slotLba, blockLba, show ¬ k < 12 by omega, hk', or_true, if_true]
    · refine (hmapped.disk.mono Set.subset_union_left).trans (eqOutside_writeTable.mono ?_)
      exact fun x hx => Or.inr ⟨htable, hx⟩
    · rw [hnew k (by omega) (by omega)]
    · rw [hslots]
      rintro _ ⟨k, rfl, hk, -⟩ hdirect
      have := hdirect k rfl
      omega

/-- The blocks of a file that got its indirect table. -/
theorem extends_newTable {j : ℕ} {lba : UInt32} (hl : Layout s.part) (hused : 0 < used)
    (hle : used ≤ 12) (hgt : 12 < will) (hwill : will ≤ 140) (htable : i.sector 12 = 0)
    (hblock : IsBlock s.part lba j) (hclear : b.scanTest j = false)
    (hmapped : BlocksMapped s.part (b.set j true) b' d d' (i.setSector 12 lba)
      (Function.update (fun _ => 0) (used - 1) (i.sector (used - 1))) g used will) :
    ∃ d'' b'' i', s.grow p (d'.splice (lba.toNat * 512) (1 * 512)
        (Bytes.ofWords fun k => g (12 + k))) b' ((i.setSector 12 lba).withBlocks g used will) =
          s.grow p d'' b'' i' ∧
      Extends s.part b b'' d d'' i i' (grownSlots used will) g (used - 1) will := by
  set i' := (i.setSector 12 lba).withBlocks g used will with hi'
  have hne : lba ≠ 0 := hl.block_ne_zero hblock
  have htable' : i'.sector 12 = lba := by
    rw [hi', sector_12_withBlocks, Inode.sector_setSector, if_pos (by omega)]
  have hdirect (d : Bytes) (k : ℕ) (hk : k < 12) : blockLba d i' k =
      if used ≤ k ∧ k < will then g k else i.sector k := by
    rw [blockLba_of_lt hk, hi', Inode.sector_withBlocks, Inode.sector_setSector,
      if_neg (show ¬ (k = 12 ∧ k < 13) by omega)]
    exact if_congr (by omega) rfl rfl
  have hnew (k : ℕ) (hk : 12 ≤ k) (hk' : k < 140) : blockLba (d'.splice (lba.toNat * 512) (1 * 512)
      (Bytes.ofWords fun k => g (12 + k))) i' k = g k := by
    rw [← htable']
    exact blockLba_of_writeTable (by rwa [htable']) hk hk'
  have hslots : grownSlots used will = {.table} ∪ blockRange used will := by
    rw [grownSlots, Set.union_comm]
    congr 1
    ext a
    simp [hle, hgt]
  refine ⟨_, _, _, rfl, ⟨_, rfl⟩, ?_, fun a ha => ?_, ?_, fun k hk hk' => ?_, ?_⟩
  · rw [hslots]
    refine (Allocated.single ?_ hclear).union (hmapped.alloc.congr ?_)
    · rw [slotLba, htable']
      exact hblock
    · rintro _ ⟨k, rfl, hk, hk'⟩
      rcases Nat.lt_or_ge k 12 with hk12 | hk12
      · rw [dataLba, slotLba, hdirect _ k hk12, if_pos ⟨hk, hk'⟩]
      · rw [dataLba, slotLba, hnew k hk12 (by omega)]
  · rw [hslots] at ha
    cases a with
    | table => exact absurd (Or.inl rfl) ha
    | block k =>
      have hk : ¬ (used ≤ k ∧ k < will) := fun h => ha (Or.inr (mem_blockRange.mpr h))
      rcases Nat.lt_or_ge k 12 with hk12 | hk12
      · rw [slotLba, slotLba, hdirect _ k hk12, if_neg hk, blockLba_of_lt hk12]
      · have hold : blockLba d i k = 0 := by simp [blockLba, htable, show ¬ k < 12 by omega]
        rw [slotLba, slotLba, hold]
        rcases Nat.lt_or_ge k 140 with hk' | hk'
        · rw [hnew k hk12 hk', hmapped.kept k hk, Function.update_of_ne (by omega)]
        · simp [blockLba, show ¬ k < 12 by omega, hk']
  · refine (hmapped.disk.mono Set.subset_union_left).trans (eqOutside_writeTable.mono fun x hx => ?_)
    refine Or.inr ⟨by rwa [htable'], ?_⟩
    rwa [htable']
  · rcases Nat.lt_or_ge k 12 with hk12 | hk12
    · rw [hdirect _ k hk12]
      split
      · rfl
      · rw [hmapped.kept k (by omega), show k = used - 1 by omega, Function.update_self]
    · rw [hnew k hk12 (by omega)]
  · rw [hslots]
    rintro a (rfl | ⟨k, rfl, hk, hk'⟩) hlt
    · exact htable
    · have hk12 := hlt k rfl
      have hempty := hmapped.empty k hk hk' hk12
      rw [Inode.sector_setSector, if_neg (by omega)] at hempty
      rw [slotLba, blockLba_of_lt hk12, hempty]

/-- Situation 2: the file gets its indirect table. -/
theorem mapBlocks_newTable (hl : Layout s.part)
    (hb : b.btmpBytesLen = s.part.blockBitmap.btmpBytesLen) (hused : 0 < used) (hle : used ≤ 12)
    (hgt : 12 < will) (hwill : will ≤ 140) :
    Exec.Post (mapBlocks p used will) (s.grow p d b i) (MapResult s p d b i used will)
      fun _ => MapFault s.part b i used will := by
  have hcnt : grownCnt used will = will - used + 1 := by rw [grownCnt, if_pos ⟨hle, hgt⟩]
  simp only [mapBlocks, derefInode, storeInode, show ¬ will ≤ 12 by omega, hle, Exec.post_bind,
    Exec.post_get, post_deref, Fs.grow_inodes, Function.update_self, if_false, if_true,
    Option.some.injEq, forall_eq', reduceCtorEq, false_imp_iff, and_true, post_blockBitmapAlloc,
    Fs.grow_part, Partition.setBlockBitmap_blockBitmap, Partition.setBlockBitmap_sb,
    Fs.grow_setBlockBitmap]
  refine ⟨fun hnone => ?_, fun j hj => ?_⟩
  · have hzero := Bitmap.scan_one_eq_none_iff_freeCnt.mp hnone
    rw [Exec.post_pure]
    exact ⟨fun g h => (by cases h), fun _ => ⟨by omega, d, b, i, rfl, rfl, fun _ => rfl⟩⟩
  · obtain ⟨hjlt, hclear, -⟩ := Bitmap.scan_one_eq_some_iff.mp hj
    have hcntj := Bitmap.freeCnt_set hjlt hclear
    have hblock := hl.isBlock (hb ▸ hjlt)
    generalize s.part.sb.dataStartLba + UInt32.ofNat j = lba at hblock ⊢
    simp only [post_assert, Exec.post_modify, Fs.grow_setInode]
    refine ⟨fun htable => ?_, fun h => Or.inr (Or.inl ⟨hle, hgt, h⟩)⟩
    have hloop := mapNewBlocks_spec (p := p) (d := d) (b := b.set j true)
      (i := i.setSector 12 lba) hl (will - used) used
      (Function.update (fun _ => 0) (used - 1) (i.sector (used - 1))) hb
    rw [show used + (will - used) = will by omega] at hloop
    refine hloop.mono ?_ ?_
    · rintro r s' ⟨hsome, hnone⟩
      cases r with
      | none =>
        obtain ⟨hcnt', d', b', i', rfl, hsize, -⟩ := hnone rfl
        exact ⟨fun g hg => (by cases hg), fun _ => ⟨by omega, d', b', i', rfl, hsize,
          fun h => absurd h (by omega)⟩⟩
      | some g =>
        obtain ⟨d', b', rfl, hmapped⟩ := hsome g rfl
        simp only [writeTable, Exec.post_bind, post_ideWrite, Exec.post_pure, Nat.zero_lt_one,
          and_true, Fs.grow_disk, Fs.grow_setDisk]
        refine ⟨fun _ => ⟨?_, fun h => (by cases h)⟩, fun h => ?_⟩
        · rintro _ ⟨⟩
          exact extends_newTable hl hused hle hgt hwill htable hblock hclear hmapped
        · refine Or.inr (Or.inr (Or.inl ⟨j, hblock.1, hclear, ?_⟩))
          rw [UInt32.not_le, UInt32.lt_iff_toNat_lt, hblock.2] at h
          exact h
    · rintro _ ⟨k, hk, hk', hk12, hne⟩
      rw [Inode.sector_setSector, if_neg (by omega)] at hne
      exact Or.inl ⟨k, hk, hk', hk12, hne⟩

/-- The situations in which blocks are added. -/
theorem mapBlocks_spec (hl : Layout s.part)
    (hb : b.btmpBytesLen = s.part.blockBitmap.btmpBytesLen) (hused : 0 < used) (hlt : used < will)
    (hwill : will ≤ 140) (htable : 12 < used → i.sector 12 ≠ 0)
    (hreg : i.sector 12 ≠ 0 → s.part.sb.dataStartLba.toNat ≤ (i.sector 12).toNat) :
    Exec.Post (mapBlocks p used will) (s.grow p d b i) (MapResult s p d b i used will)
      fun _ => MapFault s.part b i used will := by
  rcases Nat.lt_or_ge 12 will with h12 | h12
  · rcases Nat.lt_or_ge 12 used with h12' | h12'
    · exact mapBlocks_indirect hl hb h12' hlt hwill (htable h12')
    · exact mapBlocks_newTable hl hb hused h12' h12 hwill
  · exact mapBlocks_direct hl hb hused hlt h12 hreg

theorem grownSlots_self (used : ℕ) : grownSlots used used = ∅ := by
  rw [grownSlots, blockRange_empty le_rfl, Set.empty_union, Set.eq_empty_iff_forall_notMem]
  rintro a ⟨-, h, h'⟩
  omega

/-- The branch that adds no block. -/
theorem mapLastBlock_spec (hused : 0 < used) (h140 : used ≤ 140)
    (htable : 12 < used → i.sector 12 ≠ 0) :
    Exec.Post (some <$> mapLastBlock p used) (s.grow p d b i) (MapResult s p d b i used used)
      fun _ => MapFault s.part b i used used := by
  have hextends : ∀ f : ℕ → UInt32, f (used - 1) = blockLba d i (used - 1) →
      MapResult s p d b i used used (some f) (s.grow p d b i) := by
    intro f hf
    refine ⟨?_, fun h => (by cases h)⟩
    rintro _ ⟨⟩
    refine ⟨d, b, i, rfl, ⟨i.iSectors, rfl⟩, ?_, fun _ _ => rfl, .refl _ _, fun k hk hk' => ?_, ?_⟩
    · rw [grownSlots_self]
      exact .empty ..
    · rw [show k = used - 1 by omega, hf]
    · rw [grownSlots_self]
      exact fun a ha => ha.elim
  simp only [mapLastBlock, derefInode, Exec.post_map, Exec.post_bind, Exec.post_get, post_deref,
    Fs.grow_inodes, Function.update_self, Option.some.injEq, forall_eq', reduceCtorEq,
    false_imp_iff, and_true, Exec.post_ite, Exec.post_pure, post_readTable]
  refine ⟨fun hle => hextends _ ?_, fun hgt => ⟨fun _ => hextends _ ?_, fun h => ?_⟩⟩
  · rw [Function.update_self, blockLba_of_lt (by omega)]
  · rw [blockLba_of_le (by omega) (by omega) (htable (by omega))]
    exact if_pos (by omega)
  · exact Or.inr (Or.inr (Or.inr ⟨by omega, UInt32.not_le.mp h⟩))

/-- How many blocks a size takes. -/
theorem toNat_blockCnt {x : UInt32} {n : ℕ} (h : x.toNat = n) : (x / 512 + 1).toNat = n / 512 + 1 := by
  have := x.toNat_lt
  rw [Word.toNat_add (by rw [toNat_div_512]; simp only [UInt32.reduceToNat]; omega), toNat_div_512, h]
  rfl

/-- Collecting the blocks without adding one, or with the situations above. -/
theorem mapForWrite_spec {count : UInt32} (hl : Layout s.part)
    (hb : b.btmpBytesLen = s.part.blockBitmap.btmpBytesLen) (hsize : i.iSize.toNat < 140 * 512)
    (hfit : i.iSize.toNat + count.toNat < 2 ^ 32)
    (htable : 12 ≤ i.iSize.toNat / 512 → i.sector 12 ≠ 0)
    (hreg : i.sector 12 ≠ 0 → s.part.sb.dataStartLba.toNat ≤ (i.sector 12).toNat) :
    Exec.Post (mapForWrite p count) (s.grow p d b i)
      (fun r s' =>
        (140 ≤ (i.iSize.toNat + count.toNat) / 512 ∧ r = none ∧ s' = s.grow p d b i) ∨
        (i.iSize.toNat + count.toNat < 140 * 512 ∧
          MapResult s p d b i (i.iSize.toNat / 512 + 1) ((i.iSize.toNat + count.toNat) / 512 + 1) r s'))
      fun _ => MapFault s.part b i (i.iSize.toNat / 512 + 1)
        ((i.iSize.toNat + count.toNat) / 512 + 1) := by
  have hused := toNat_blockCnt (x := i.iSize) rfl
  have hwill := toNat_blockCnt (x := i.iSize + count) (Word.toNat_add hfit)
  have hgt : i.iSize / 512 + 1 ≤ (i.iSize + count) / 512 + 1 := by
    rw [UInt32.le_iff_toNat_le, hused, hwill]
    omega
  have hsub : (i.iSize + count) / 512 + 1 - (i.iSize / 512 + 1) = 0 ↔
      (i.iSize.toNat + count.toNat) / 512 = i.iSize.toNat / 512 := by
    rw [← UInt32.toNat_inj, Word.toNat_sub (UInt32.le_iff_toNat_le.mp hgt), hused, hwill,
      UInt32.toNat_zero]
    rw [UInt32.le_iff_toNat_le, hused, hwill] at hgt
    omega
  have hlimit : (i.iSize + count) / 512 + 1 > 140 ↔
      140 ≤ (i.iSize.toNat + count.toNat) / 512 := by
    rw [gt_iff_lt, UInt32.lt_iff_toNat_lt, hwill]
    exact Nat.lt_succ_iff
  simp only [mapForWrite, derefInode, Exec.post_bind, Exec.post_get, post_deref, Fs.grow_inodes,
    Function.update_self, Option.some.injEq, forall_eq', reduceCtorEq, false_imp_iff, and_true,
    Exec.post_ite, hlimit, hsub, hused, hwill]
  refine ⟨fun h => Or.inl ⟨h, rfl, rfl⟩, fun h => ⟨fun heq => ?_, fun hne => ?_⟩⟩
  · rw [heq]
    refine (mapLastBlock_spec (by omega) (by omega) fun h => htable (by omega)).mono ?_ fun _ => id
    exact fun r s' hr => Or.inr ⟨by omega, hr⟩
  · refine (mapBlocks_spec hl hb (by omega) (by omega) (by omega) (fun h => htable (by omega))
      hreg).mono ?_ fun _ => id
    exact fun r s' hr => Or.inr ⟨by omega, hr⟩

end MapBlocks

section Prepare

variable {s s' : Fs} {p used will : ℕ} {d : Bytes} {b : Bitmap} {i : Inode} {count : UInt32}

/-- What giving a file its first block leaves: the file has one, there is none, or it is new. -/
def FirstBlockResult (s : Fs) (p : ℕ) (d : Bytes) (b : Bitmap) (i : Inode) (r : Bool) (s' : Fs) :
    Prop :=
  (i.sector 0 ≠ 0 ∧ r = true ∧ s' = s.grow p d b i) ∨
  (i.sector 0 = 0 ∧ r = false ∧ b.freeCnt = 0 ∧ s' = s.grow p d b i) ∨
  (i.sector 0 = 0 ∧ r = true ∧ ∃ d' lba j, IsBlock s.part lba j ∧ b.scanTest j = false ∧
    j < 8 * b.btmpBytesLen ∧ Bytes.EqOutside (bitmapArea s.part) d d' ∧
    s' = s.grow p d' (b.set j true) (i.setSector 0 lba))

theorem mapFirstBlock_spec (hl : Layout s.part)
    (hb : b.btmpBytesLen = s.part.blockBitmap.btmpBytesLen) :
    Exec.Returns (mapFirstBlock p) (s.grow p d b i) (FirstBlockResult s p d b i) := by
  simp only [mapFirstBlock, derefInode, storeInode, Exec.post_bind, Exec.post_get, post_deref,
    Fs.grow_inodes, Function.update_self, Option.some.injEq, forall_eq', reduceCtorEq,
    false_imp_iff, and_true, Exec.post_ite, Exec.post_pure, post_blockBitmapAlloc, Fs.grow_part,
    Partition.setBlockBitmap_blockBitmap, Partition.setBlockBitmap_sb, Fs.grow_setBlockBitmap]
  refine ⟨fun hzero => ⟨fun hnone => ?_, fun j hj => ?_⟩, fun hne => Or.inl ⟨hne, rfl, rfl⟩⟩
  · exact Or.inr (Or.inl ⟨hzero, rfl, Bitmap.scan_one_eq_none_iff_freeCnt.mp hnone, rfl⟩)
  · obtain ⟨hjlt, hclear, -⟩ := Bitmap.scan_one_eq_some_iff.mp hj
    have hblock := hl.isBlock (hb ▸ hjlt)
    generalize s.part.sb.dataStartLba + UInt32.ofNat j = lba at hblock ⊢
    simp only [Exec.post_modify, Fs.grow_setInode]
    have hsync := bitmapSync_block_spec (s := s.grow p d (b.set j true) (i.setSector 0 lba))
      (hl.setBlockBitmap hb) ((isBlock_setBlockBitmap hb).mpr hblock)
    refine hsync.mono ?_
    rintro _ s' ⟨d', rfl, hd'⟩
    exact Or.inr (Or.inr ⟨hzero, rfl, d', lba, j, hblock, hclear, hjlt, hd', rfl⟩)

/-- The slots that writing fills: also the first one, of a file without blocks. -/
def writtenSlots (i : Inode) (used will : ℕ) : Set Slot :=
  {a | a = .block 0 ∧ i.sector 0 = 0} ∪ grownSlots used will

/-- How many blocks that takes. -/
def writtenCnt (i : Inode) (used will : ℕ) : ℕ :=
  (if i.sector 0 = 0 then 1 else 0) + grownCnt used will

/-- Mapping the first block and then the others. -/
theorem Extends.firstBlock {part : Partition} {b' : Bitmap} {d₁ d' : Bytes} {i' : Inode}
    {lba : UInt32} {j : ℕ} {f : ℕ → UInt32} (hl : Layout part) (hused : 0 < used)
    (hzero : i.sector 0 = 0) (hblock : IsBlock part lba j) (hclear : b.scanTest j = false)
    (hd₁ : Bytes.EqOutside (bitmapArea part) d d₁)
    (hreg : i.sector 12 ≠ 0 → part.sb.dataStartLba.toNat ≤ (i.sector 12).toNat)
    (h : Extends part (b.set j true) b' d₁ d' (i.setSector 0 lba) i' (grownSlots used will) f
      (used - 1) will) :
    Extends part b b' d d' i i' (writtenSlots i used will) f (used - 1) will := by
  have hslots : writtenSlots i used will = {.block 0} ∪ grownSlots used will := by
    rw [writtenSlots]
    congr 1
    ext a
    simp [hzero]
  have h0 : Slot.block 0 ∉ grownSlots used will := by
    rintro (h0 | ⟨h0, -⟩)
    · have := (mem_blockRange.mp h0).1
      omega
    · cases h0
  have hsame (a : Slot) (ha : a ≠ .block 0) :
      slotLba d₁ (i.setSector 0 lba) a = slotLba d i a := by
    have h12 : (i.setSector 0 lba).sector 12 = i.sector 12 := by
      rw [Inode.sector_setSector, if_neg (by omega)]
    cases a with
    | table => exact h12
    | block k =>
      rcases Nat.lt_or_ge k 12 with hk | hk
      · have hk0 : k ≠ 0 := fun h => ha (by rw [h])
        rw [slotLba, slotLba, blockLba_of_lt hk, blockLba_of_lt hk, Inode.sector_setSector,
          if_neg (by omega)]
      · exact blockLba_eq_of_table hl hd₁ hk h12 hreg
  obtain ⟨⟨sectors, hsectors⟩, halloc, hkept, hdisk, hknown, hempty⟩ := h
  refine ⟨⟨sectors, by rw [hsectors, Inode.setSector]⟩, ?_, fun a ha => ?_, ?_, hknown,
    fun a ha hdirect => ?_⟩
  · rw [hslots]
    refine (Allocated.single ?_ hclear).union halloc
    rw [hkept _ h0, slotLba, blockLba_of_lt (by omega), Inode.sector_setSector,
      if_pos ⟨rfl, by omega⟩]
    exact hblock
  · rw [hslots] at ha
    rw [hkept a fun h => ha (Or.inr h), hsame a fun h => ha (Or.inl h)]
  · exact (hd₁.mono Set.subset_union_left).trans hdisk
  · rw [hslots] at ha
    by_cases ha0 : a = .block 0
    · rw [ha0, slotLba, blockLba_of_lt (by omega), hzero]
    · rw [← hsame a ha0]
      exact hempty a (ha.resolve_left ha0) hdirect

/-- What the part of `file_write` before the writing loop leaves when nothing wraps around. -/
structure PrepareResult (s : Fs) (p : ℕ) (i : Inode) (count : UInt32)
    (r : Option (ℕ → UInt32)) (s' : Fs) : Prop where
  some : ∀ f, r = some f → i.iSize.toNat + count.toNat < 140 * 512 ∧
    (s.mallocs 0 = true ∧ s.mallocs 1 = true) ∧ ∃ d' b' i', s' = s.tick.tick.grow p d' b' i' ∧
      Extends s.part s.part.blockBitmap b' s.disk d' i i'
        (writtenSlots i (i.iSize.toNat / 512 + 1) ((i.iSize.toNat + count.toNat) / 512 + 1)) f
        (i.iSize.toNat / 512) ((i.iSize.toNat + count.toNat) / 512 + 1)
  size : r = none → ∃ i', s'.inodes p = Option.some i' ∧ i'.iSize = i.iSize
  reason : r = none → 140 * 512 ≤ i.iSize.toNat + count.toNat ∨
    ¬ (s.mallocs 0 = true ∧ s.mallocs 1 = true) ∨
    s.part.blockBitmap.freeCnt <
      writtenCnt i (i.iSize.toNat / 512 + 1) ((i.iSize.toNat + count.toNat) / 512 + 1)
  unchanged : r = none → (∃ m, s' = s.withMallocs m) ∨
    0 < s.part.blockBitmap.freeCnt ∧
      (i.sector 0 = 0 ∧ 140 * 512 ≤ i.iSize.toNat + count.toNat ∨
        s.part.blockBitmap.freeCnt <
          writtenCnt i (i.iSize.toNat / 512 + 1) ((i.iSize.toNat + count.toNat) / 512 + 1))

/-- A fault of the other situations after the first block was mapped. -/
theorem MapFault.of_firstBlock {part : Partition} {lba : UInt32} {j : ℕ} (hused : 0 < used)
    (h : MapFault part (b.set j true) (i.setSector 0 lba) used will) :
    MapFault part b i used will := by
  have h12 : (i.setSector 0 lba).sector 12 = i.sector 12 := by
    rw [Inode.sector_setSector, if_neg (by omega)]
  rcases h with ⟨k, hk, hk', hk12, hne⟩ | ⟨h, h', hne⟩ | ⟨l, hl, hclear, hmax⟩ | ⟨h, hmax⟩
  · rw [Inode.sector_setSector, if_neg (by omega)] at hne
    exact Or.inl ⟨k, hk, hk', hk12, hne⟩
  · exact Or.inr (Or.inl ⟨h, h', h12 ▸ hne⟩)
  · rw [Bitmap.scanTest_set] at hclear
    split at hclear
    · cases hclear
    · exact Or.inr (Or.inr (Or.inl ⟨l, hl, hclear, hmax⟩))
  · exact Or.inr (Or.inr (Or.inr ⟨h, h12 ▸ hmax⟩))

theorem fileWritePrepare_spec (hl : Layout s.part) (hi : s.inodes p = some i)
    (hshape : FileShape s.disk i) (hfit : i.iSize.toNat + count.toNat < 2 ^ 32)
    (hreg : i.sector 12 ≠ 0 → s.part.sb.dataStartLba.toNat ≤ (i.sector 12).toNat) :
    Exec.Post (fileWritePrepare p count) s (PrepareResult s p i count)
      fun _ => MapFault s.part s.part.blockBitmap i (i.iSize.toNat / 512 + 1)
        ((i.iSize.toNat + count.toNat) / 512 + 1) := by
  have hguard : i.iSize + count > 512 * 140 ↔ 140 * 512 < i.iSize.toNat + count.toNat := by
    rw [gt_iff_lt, UInt32.lt_iff_toNat_lt, Word.toNat_add hfit]
    rfl
  have hsize := hshape.size_lt
  have hearly : ∀ m, (140 * 512 ≤ i.iSize.toNat + count.toNat ∨
      ¬ (s.mallocs 0 = true ∧ s.mallocs 1 = true)) →
      PrepareResult s p i count none (s.withMallocs m) := fun m h =>
    ⟨fun _ h => (by cases h), fun _ => ⟨i, hi, rfl⟩, fun _ => by tauto, fun _ => Or.inl ⟨m, rfl⟩⟩
  simp only [fileWritePrepare, derefInode, Exec.post_bind, Exec.post_get, post_deref, hi,
    Option.some.injEq, forall_eq', reduceCtorEq, false_imp_iff, and_true, Exec.post_ite,
    Exec.post_pure, post_sysMalloc, Fs.tick_mallocs, hguard]
  refine ⟨fun h => hearly s.mallocs (Or.inl h.le), fun hle => ⟨fun hm₀ => ⟨fun hm₁ => ?_,
    fun hm₁ => hearly s.tick.tick.mallocs (Or.inr fun h => hm₁ h.2)⟩,
    fun hm₀ => hearly s.tick.mallocs (Or.inr fun h => hm₀ h.1)⟩⟩
  have hstart : s.tick.tick.grow p s.disk s.tick.tick.part.blockBitmap i = s.tick.tick :=
    Fs.grow_self s.tick.tick p i hi
  rw [← hstart]
  refine (mapFirstBlock_spec (s := s.tick.tick) hl rfl).post ?_
  have htable : 12 ≤ i.iSize.toNat / 512 → i.sector 12 ≠ 0 := by
    intro h
    rcases hshape.mapped with ⟨hzero, -⟩ | hmapped
    · rw [hzero, UInt32.toNat_zero] at h
      omega
    · exact (hmapped _ le_rfl).table_ne_zero h
  rintro r s₁ (⟨hne, rfl, rfl⟩ | ⟨hzero, rfl, hfull, rfl⟩ |
    ⟨hzero, rfl, d₁, lba, j, hblock, hclear, hj, hd₁, rfl⟩)
  · refine ⟨fun _ => ?_, fun h => absurd rfl h⟩
    have hslots (used will : ℕ) : writtenSlots i used will = grownSlots used will := by
      simp [writtenSlots, hne]
    have hcnt (used will : ℕ) : writtenCnt i used will = grownCnt used will := by
      simp [writtenCnt, hne]
    refine (mapForWrite_spec (s := s.tick.tick) hl rfl hsize hfit htable hreg).mono ?_ fun _ => id
    rintro r s' (⟨hlimit, rfl, rfl⟩ | ⟨hlt, hsome, hnone⟩)
    · rw [hstart]
      exact hearly s.tick.tick.mallocs (Or.inl (by omega))
    · refine ⟨fun f hf => ⟨hlt, ⟨hm₀, hm₁⟩, ?_⟩, fun hr => ?_, fun hr => ?_, fun hr => ?_⟩
      · obtain ⟨d', b', i', rfl, hext⟩ := hsome f hf
        rw [hslots]
        exact ⟨d', b', i', rfl, hext⟩
      · obtain ⟨-, d', b', i', rfl, hsize', -⟩ := hnone hr
        exact ⟨i', Function.update_self .., hsize'⟩
      · rw [hcnt]
        exact Or.inr (Or.inr (hnone hr).1)
      · obtain ⟨hfew, d', b', i', -, -, hsame⟩ := hnone hr
        rcases Nat.eq_zero_or_pos s.part.blockBitmap.freeCnt with h0 | hpos
        · refine Or.inl ⟨s.tick.tick.mallocs, ?_⟩
          rw [hsame h0, hstart]
          rfl
        · rw [hcnt]
          exact Or.inr ⟨hpos, Or.inr hfew⟩
  · refine ⟨fun h => (by cases h), fun _ => ?_⟩
    rw [hstart]
    refine ⟨fun _ h => (by cases h), fun _ => ⟨i, hi, rfl⟩, fun _ => Or.inr (Or.inr ?_),
      fun _ => Or.inl ⟨s.tick.tick.mallocs, rfl⟩⟩
    rw [writtenCnt, if_pos hzero]
    exact lt_of_eq_of_lt hfull (by omega)
  · refine ⟨fun _ => ?_, fun h => absurd rfl h⟩
    have hcnt := Bitmap.freeCnt_set hj hclear
    change _ + 1 = s.part.blockBitmap.freeCnt at hcnt
    have h12 : (i.setSector 0 lba).sector 12 = i.sector 12 := by
      rw [Inode.sector_setSector, if_neg (by omega)]
    have hwritten (used will : ℕ) : writtenCnt i used will = grownCnt used will + 1 := by
      rw [writtenCnt, if_pos hzero, Nat.add_comm]
    have hspec := mapForWrite_spec (s := s.tick.tick) (p := p) (d := d₁)
      (b := s.tick.tick.part.blockBitmap.set j true) (i := i.setSector 0 lba) hl rfl hsize hfit
      (by rwa [h12]) (by rwa [h12])
    rw [Inode.setSector_iSize] at hspec
    refine hspec.mono ?_ fun _ h => h.of_firstBlock (Nat.succ_pos _)
    rintro r s' (⟨hlimit, rfl, rfl⟩ | ⟨hlt, hsome, hnone⟩)
    · refine ⟨fun _ h => (by cases h), fun _ => ⟨_, Function.update_self .., rfl⟩,
        fun _ => Or.inl (by omega), fun _ => Or.inr ⟨by omega, Or.inl ⟨hzero, by omega⟩⟩⟩
    · refine ⟨fun f hf => ⟨hlt, ⟨hm₀, hm₁⟩, ?_⟩, fun hr => ?_, fun hr => ?_, fun hr => ?_⟩
      · obtain ⟨d', b', i', rfl, hext⟩ := hsome f hf
        exact ⟨d', b', i', rfl, Extends.firstBlock hl (Nat.succ_pos _) hzero hblock hclear hd₁ hreg hext⟩
      · obtain ⟨-, d', b', i', rfl, hsize', -⟩ := hnone hr
        exact ⟨i', Function.update_self .., hsize'⟩
      · have hfew := (hnone hr).1
        refine Or.inr (Or.inr ?_)
        rw [hwritten]
        omega
      · have hfew := (hnone hr).1
        refine Or.inr ⟨by omega, Or.inr ?_⟩
        rw [hwritten]
        omega

end Prepare

end Winx
