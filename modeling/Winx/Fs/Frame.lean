import Winx.Fs.Alloc

/-! # What a growing file leaves alone

Mapping blocks for one file changes neither the inodes with other numbers nor
the blocks in their slots, and the state stays well formed.
-/

namespace Winx

/-- The bytes of the disk that hold the inode table. -/
def inodeTableArea (part : Partition) : Set ℕ :=
  {x | part.sb.inodeTableLba.toNat * 512 ≤ x ∧ x < part.sb.dataStartLba.toNat * 512}

variable {s : Fs} {part : Partition} {p m n : ℕ} {S : Set ℕ} {d d' : Bytes} {b b' : Bitmap}
  {i i' : Inode} {a c : Slot}

/-- A stored inode is as it was if the inode table is. -/
theorem diskInode_eq (hl : Layout part) (hd : Bytes.EqOutside S d d')
    (hS : ∀ x ∈ S, x ∉ inodeTableArea part) (hm : m < 4096) :
    diskInode d' part.sb m = diskInode d part.sb m := by
  refine Inode.ofBytes_congr fun j hj => hd _ fun hx => hS _ hx ?_
  have := hl.dataStartLba
  rw [inodeTableArea, Set.mem_ofPred_eq, recordOff]
  simp only [sizeofInode] at *
  omega

/-- Storing a record writes to the inode table. -/
theorem eqOutside_storeRecord {part : Partition} (hl : Layout part) (hn : n < 4096) :
    Bytes.EqOutside (inodeTableArea part) d (storeRecord d part.sb n i) := by
  have := hl.dataStartLba
  refine Bytes.eqOutside_splice fun x hx hx' => ?_
  rw [recordOff] at hx hx'
  rw [inodeTableArea, Set.mem_ofPred_eq]
  simp only [sizeofInode] at *
  omega

theorem bitmapArea_inodeTable (hl : Layout part) :
    ∀ x ∈ bitmapArea part, x ∉ inodeTableArea part := by
  intro x hx hx'
  have := hl.inodeTableLba
  rw [bitmapArea, Set.mem_ofPred_eq] at hx
  rw [inodeTableArea, Set.mem_ofPred_eq] at hx'
  omega

/-- A data block is not part of the inode table. -/
theorem sectorArea_inodeTable {lba : UInt32} (h : part.sb.dataStartLba.toNat ≤ lba.toNat) :
    ∀ x ∈ sectorArea lba, x ∉ inodeTableArea part := by
  intro x hx hx'
  rw [sectorArea, Set.mem_ofPred_eq] at hx
  rw [inodeTableArea, Set.mem_ofPred_eq] at hx'
  omega

theorem IsBlock.le {lba : UInt32} {j : ℕ} (h : IsBlock part lba j) :
    part.sb.dataStartLba.toNat ≤ lba.toNat := by
  have := h.2
  omega

/-- Different sectors have no byte in common. -/
theorem sectorArea_disjoint {k l : UInt32} (h : k ≠ l) : ∀ x ∈ sectorArea k, x ∉ sectorArea l := by
  intro x hx hx'
  rw [sectorArea, Set.mem_ofPred_eq] at hx hx'
  exact h (UInt32.toNat_inj.mp (by omega))

/-- The slots of an inode are as they were if its table is. -/
theorem slotLba_eq (hd : Bytes.EqOutside S d d')
    (htable : i.sector 12 ≠ 0 → ∀ x ∈ sectorArea (i.sector 12), x ∉ S) (a : Slot) :
    slotLba d' i a = slotLba d i a := by
  cases a with
  | table => rfl
  | block k =>
    rw [slotLba, slotLba]
    by_cases hk : k < 12
    · rw [blockLba_of_lt hk, blockLba_of_lt hk]
    · by_cases h : i.sector 12 = 0 ∨ 140 ≤ k
      · simp [blockLba, hk, h]
      · rw [not_or] at h
        rw [blockLba_of_le (by omega) (by omega) h.1, blockLba_of_le (by omega) (by omega) h.1]
        refine hd.word_eq fun j hj => htable h.1 _ ?_
        rw [sectorArea, Set.mem_ofPred_eq]
        omega

section Grow

/-- Changing an open inode does not move it. -/
theorem findOpenInode_grow (hi : s.inodes p = some i) (hno : i'.iNo = i.iNo) (no : UInt32) :
    findOpenInode (s.grow p d b i') no = findOpenInode s no := by
  unfold findOpenInode
  simp only [Fs.grow_part, Partition.setBlockBitmap_openInodes, Fs.grow_inodes]
  congr 1
  funext q
  by_cases hq : q = p
  · rw [hq, Function.update_self, hi]
    simp [hno]
  · rw [Function.update_of_ne hq]

theorem CacheOk.curInode_grow_self (hc : CacheOk s) (hp : p ∈ s.part.openInodes)
    (hi : s.inodes p = some i) (hno : i'.iNo = i.iNo) :
    curInode (s.grow p d b i') i.iNo.toNat = i' := by
  simp [curInode, findOpenInode_grow hi hno, hc.findOpenInode_eq hp hi]

/-- The other inodes are as they were if the inode table is. -/
theorem curInode_grow_of_ne (hl : Layout s.part) (hi : s.inodes p = some i) (hno : i'.iNo = i.iNo)
    (hd : Bytes.EqOutside S s.disk d) (hS : ∀ x ∈ S, x ∉ inodeTableArea s.part) (hm : m < 4096)
    (hne : m ≠ i.iNo.toNat) : curInode (s.grow p d b i') m = curInode s m := by
  unfold curInode
  rw [findOpenInode_grow hi hno]
  cases hq : findOpenInode s (UInt32.ofNat m) with
  | none =>
    change diskInode d s.part.sb m = diskInode s.disk s.part.sb m
    exact diskInode_eq hl hd hS hm
  | some q =>
    have hqno := List.find?_some hq
    have hqp : q ≠ p := by
      rintro rfl
      simp only [hi, Option.any_some, beq_iff_eq] at hqno
      apply hne
      rw [hqno, Word.toNat_ofNat (by omega)]
    simp only [Fs.grow_inodes, Function.update_of_ne hqp]

theorem usedInode_grow : UsedInode (s.grow p d b i') m ↔ UsedInode s m := Iff.rfl

theorem CacheOk.grow (hc : CacheOk s) (hi : s.inodes p = some i)
    (hno : i'.iNo = i.iNo) : CacheOk (s.grow p d b i') := by
  have hobj (q : ℕ) (j : Inode) (hj : (s.grow p d b i').inodes q = some j) :
      ∃ j₀, s.inodes q = some j₀ ∧ j₀.iNo = j.iNo := by
    rw [Fs.grow_inodes, Function.update_apply] at hj
    split at hj
    · rename_i hq
      obtain rfl := Option.some.inj hj
      exact ⟨i, hq ▸ hi, hno.symm⟩
    · exact ⟨j, hj, rfl⟩
  refine ⟨fun q hq => ?_, fun q hq j hj => ?_, fun q hq r hr j k hj hk heq => ?_⟩
  · rw [Fs.grow_inodes, Function.update_apply]
    split
    · exact ⟨i', rfl⟩
    · exact hc.obj q hq
  · obtain ⟨j₀, hj₀, hsame⟩ := hobj q j hj
    rw [← hsame]
    exact hc.used q hq j₀ hj₀
  · obtain ⟨j₀, hj₀, hj⟩ := hobj q j hj
    obtain ⟨k₀, hk₀, hk⟩ := hobj r k hk
    exact hc.inj q hq r hr j₀ k₀ hj₀ hk₀ (by rw [hj, hk, heq])

end Grow

/-- The bytes of the sectors in the slots of an inode. -/
def ownArea (disk : Bytes) (i : Inode) : Set ℕ :=
  {x | ∃ a, slotLba disk i a ≠ 0 ∧ x ∈ sectorArea (slotLba disk i a)}

/-- The inode `i` takes blocks for the slots in `T` and becomes `i'`. Besides the block bitmap only
sectors it then holds are written. -/
structure Grows (part : Partition) (b b' : Bitmap) (d d' : Bytes) (i i' : Inode) (T : Set Slot) :
    Prop where
  iNo : i'.iNo = i.iNo
  alloc : Allocated part b b' T (slotLba d' i')
  kept : ∀ a, a ∉ T → slotLba d' i' a = slotLba d i a
  disk : Bytes.EqOutside (bitmapArea part ∪ ownArea d' i') d d'

variable {T : Set Slot}

theorem Extends.grows {f : ℕ → UInt32} {lo hi : ℕ} (h : Extends part b b' d d' i i' T f lo hi) :
    Grows part b b' d d' i i' T := by
  obtain ⟨sectors, hsame⟩ := h.same
  refine ⟨by rw [hsame], h.alloc, h.kept, h.disk.mono ?_⟩
  rintro x (hx | ⟨hne, hx⟩)
  · exact Or.inl hx
  · exact Or.inr ⟨.table, hne, hx⟩

namespace Grows

/-- A slot of a file that grew holds what it held, or a block that was free. -/
theorem old_or_fresh (h : Grows part b b' d d' i i' T) (a : Slot) :
    slotLba d' i' a = slotLba d i a ∨
      (a ∈ T ∧ ∃ j, IsBlock part (slotLba d' i' a) j ∧ b.scanTest j = false) := by
  by_cases ha : a ∈ T
  · exact Or.inr ⟨ha, h.alloc.fresh a ha⟩
  · exact Or.inl (h.kept a ha)

section

variable (hs : FsOk s) (hp : p ∈ s.part.openInodes) (hi : s.inodes p = some i)
  (h : Grows s.part s.part.blockBitmap b s.disk d i i' T)

include hs hp hi h

/-- No slot of another inode holds a block of the file. -/
theorem slot_ne (hm : UsedInode s m) (hne : m ≠ i.iNo.toNat)
    (h0 : slotLba s.disk (curInode s m) c ≠ 0) :
    slotLba d i' a ≠ slotLba s.disk (curInode s m) c := by
  intro heq
  rcases h.old_or_fresh a with hold | ⟨-, j, hj, hclear⟩
  · have hcur := hs.cache.curInode_eq hp hi
    have hused := hs.cache.used p hp i hi
    rw [hold, ← hcur] at heq
    exact hne (hs.blocks.inj m _ c a hm (hcur ▸ hused) h0 heq.symm).1
  · obtain ⟨k, hk, hset⟩ := hs.blocks.used m c hm h0
    rw [heq] at hj
    rw [hj.unique hk, hset] at hclear
    cases hclear

/-- The blocks of the file are in the data area, and marked used. -/
theorem isBlock (h0 : slotLba d i' a ≠ 0) :
    ∃ j, IsBlock s.part (slotLba d i' a) j ∧ b.scanTest j = true := by
  by_cases ha : a ∈ T
  · obtain ⟨j, hj, -⟩ := h.alloc.fresh a ha
    exact ⟨j, hj, (h.alloc.bits j).mpr (Or.inr ⟨a, ha, hj⟩)⟩
  · have hcur := hs.cache.curInode_eq hp hi
    have hused := hs.cache.used p hp i hi
    rw [h.kept a ha] at h0 ⊢
    obtain ⟨j, hj, hset⟩ := hs.blocks.used i.iNo.toNat a hused (by rwa [hcur])
    rw [hcur] at hj
    exact ⟨j, hj, (h.alloc.bits j).mpr (Or.inl hset)⟩

/-- No two slots of the file hold the same block. -/
theorem slot_inj (h0 : slotLba d i' a ≠ 0) (heq : slotLba d i' a = slotLba d i' c) : a = c := by
  have hcur := hs.cache.curInode_eq hp hi
  have hused := hs.cache.used p hp i hi
  have hclash : ∀ a c, a ∈ T → c ∉ T → slotLba d i' a ≠ 0 → slotLba d i' a ≠ slotLba d i' c := by
    intro a c ha hc h0 heq
    obtain ⟨j, hj, hclear⟩ := h.alloc.fresh a ha
    rw [heq, h.kept c hc] at h0 hj
    obtain ⟨k, hk, hset⟩ := hs.blocks.used i.iNo.toNat c hused (by rwa [hcur])
    rw [hcur] at hk
    rw [hj.unique hk, hset] at hclear
    cases hclear
  by_cases ha : a ∈ T
  · by_cases hc : c ∈ T
    · exact h.alloc.inj a ha c hc heq
    · exact absurd heq (hclash a c ha hc h0)
  · by_cases hc : c ∈ T
    · exact absurd heq.symm (hclash c a hc ha (heq ▸ h0))
    · rw [h.kept a ha] at h0 heq
      rw [h.kept c hc] at heq
      exact (hs.blocks.inj _ _ a c hused hused (by rwa [hcur]) (by rwa [hcur])).2

theorem not_mem_inodeTableArea :
    ∀ x ∈ bitmapArea s.part ∪ ownArea d i', x ∉ inodeTableArea s.part := by
  rintro x (hx | ⟨a, h0, hx⟩)
  · exact bitmapArea_inodeTable hs.layout x hx
  · obtain ⟨j, hj, -⟩ := h.isBlock hs hp hi h0
    exact sectorArea_inodeTable hj.le x hx

/-- The other inodes are as they were. -/
theorem curInode_of_ne (hm : m < 4096) (hne : m ≠ i.iNo.toNat) :
    curInode (s.grow p d b i') m = curInode s m :=
  curInode_grow_of_ne hs.layout hi h.iNo h.disk (h.not_mem_inodeTableArea hs hp hi) hm hne

theorem curInode_self : curInode (s.grow p d b i') i.iNo.toNat = i' :=
  hs.cache.curInode_grow_self hp hi h.iNo

/-- The sectors of the other inodes are not written. -/
theorem not_mem_sectorArea (hm : UsedInode s m) (hne : m ≠ i.iNo.toNat)
    (h0 : slotLba s.disk (curInode s m) c ≠ 0) :
    ∀ x ∈ sectorArea (slotLba s.disk (curInode s m) c), x ∉ bitmapArea s.part ∪ ownArea d i' := by
  rintro x hx (hx' | ⟨a, -, hx'⟩)
  · obtain ⟨j, hj, -⟩ := hs.blocks.used m c hm h0
    have := hj.le
    rw [sectorArea, Set.mem_ofPred_eq] at hx
    exact hs.layout.not_mem_bitmapArea (by omega) hx'
  · exact sectorArea_disjoint (h.slot_ne hs hp hi hm hne h0) x hx' hx

/-- The slots of the other inodes are as they were. -/
theorem slotLba_of_ne (hm : UsedInode s m) (hne : m ≠ i.iNo.toNat) (c : Slot) :
    slotLba d (curInode s m) c = slotLba s.disk (curInode s m) c :=
  slotLba_eq h.disk (fun h0 => h.not_mem_sectorArea (c := .table) hs hp hi hm hne h0) c

/-- Growing a file keeps the state well formed. -/
theorem fsOk : FsOk (s.grow p d b i') := by
  have hself := h.curInode_self hs hp hi
  have hother : ∀ m, UsedInode s m → m ≠ i.iNo.toNat → ∀ c,
      slotLba d (curInode (s.grow p d b i') m) c = slotLba s.disk (curInode s m) c := by
    intro m hm hne c
    rw [h.curInode_of_ne hs hp hi hm.1 hne, h.slotLba_of_ne hs hp hi hm hne]
  refine ⟨hs.layout.setBlockBitmap h.alloc.len, hs.cache.grow hi h.iNo, ?_, ?_⟩
  · intro m n a c hm hn h0 heq
    simp only [Fs.grow_disk] at h0 heq
    rw [usedInode_grow] at hm hn
    by_cases hm' : m = i.iNo.toNat
    · rw [hm', hself] at h0 heq
      by_cases hn' : n = i.iNo.toNat
      · rw [hn', hself] at heq
        exact ⟨hm'.trans hn'.symm, h.slot_inj hs hp hi h0 heq⟩
      · rw [hother n hn hn'] at heq
        exact absurd heq (h.slot_ne hs hp hi hn hn' (heq ▸ h0))
    · rw [hother m hm hm'] at h0 heq
      by_cases hn' : n = i.iNo.toNat
      · rw [hn', hself] at heq
        exact absurd heq.symm (h.slot_ne hs hp hi hm hm' h0)
      · rw [hother n hn hn'] at heq
        exact hs.blocks.inj m n a c hm hn h0 heq
  · intro m a hm h0
    simp only [Fs.grow_disk, Fs.grow_part, Partition.setBlockBitmap_blockBitmap] at h0 ⊢
    rw [usedInode_grow] at hm
    simp only [isBlock_setBlockBitmap h.alloc.len]
    by_cases hm' : m = i.iNo.toNat
    · rw [hm', hself] at h0 ⊢
      exact h.isBlock hs hp hi h0
    · rw [hother m hm hm'] at h0 ⊢
      obtain ⟨j, hj, hset⟩ := hs.blocks.used m a hm h0
      exact ⟨j, hj, (h.alloc.bits j).mpr (Or.inl hset)⟩

/-- Writing to the blocks of the file, but not to its table, and changing its size. -/
theorem write {d₂ : Bytes} {size : UInt32}
    (hd₂ : Bytes.EqOutside {x | ∃ k, blockLba d i' k ≠ 0 ∧ x ∈ sectorArea (blockLba d i' k)} d d₂) :
    Grows s.part s.part.blockBitmap b s.disk d₂ i { i' with iSize := size } T ∧
      ∀ a, slotLba d₂ { i' with iSize := size } a = slotLba d i' a := by
  have hslot : ∀ a, slotLba d₂ { i' with iSize := size } a = slotLba d i' a := by
    refine slotLba_eq hd₂ fun h12 x hx => ?_
    rintro ⟨k, h0, hx'⟩
    refine sectorArea_disjoint (fun heq => ?_) x hx hx'
    cases h.slot_inj (a := .table) (c := .block k) hs hp hi h12 heq
  have hown : ownArea d₂ { i' with iSize := size } = ownArea d i' := by
    unfold ownArea
    simp only [hslot]
  refine ⟨⟨h.iNo, h.alloc.congr fun a _ => (hslot a).symm, fun a ha => ?_, ?_⟩, hslot⟩
  · rw [hslot, h.kept a ha]
  · rw [hown]
    refine h.disk.trans (hd₂.mono ?_)
    rintro x ⟨k, h0, hx⟩
    exact Or.inr ⟨.block k, h0, hx⟩

end

end Grows

end Winx
