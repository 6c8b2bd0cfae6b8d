import Winx.Fs.WriteLoop

/-! # Appending to a file

`file_write` maps the blocks the new size needs, fills them and writes the
inode back. When the new end of the file stays below 140 blocks, it appends the
buffer; when the sum of size and count wraps around, it never comes back.
-/

namespace Winx

variable {s : Fs} {i : Inode} {buf : Bytes} {fd p : ℕ} {count : UInt32}

/-- The state `file_write` leaves: the disk was `d` before the inode was written back. -/
def writtenState (s : Fs) (fd p : ℕ) (d : Bytes) (b : Bitmap) (i : Inode) (pos : UInt32) : Fs :=
  (((s.tick.tick.grow p d b i).setFile fd { s.fileTable fd with fdPos := pos }).tick).setDisk
    (storeRecord d s.part.sb (i.iNo.toNat % 256) i)

@[simp] theorem writtenState_inodes {d : Bytes} {b : Bitmap} {pos : UInt32} :
    (writtenState s fd p d b i pos).inodes = Function.update s.inodes p (some i) := rfl

@[simp] theorem writtenState_fdPos {d : Bytes} {b : Bitmap} {pos : UInt32} :
    ((writtenState s fd p d b i pos).fileTable fd).fdPos = pos := by
  simp [writtenState]

/-- The slots a write of `count` bytes fills. -/
abbrev slotsFor (i : Inode) (count : UInt32) : Set Slot :=
  writtenSlots i (i.iSize.toNat / 512 + 1) ((i.iSize.toNat + count.toNat) / 512 + 1)

/-- How many blocks that takes. -/
abbrev blocksFor (i : Inode) (count : UInt32) : ℕ :=
  writtenCnt i (i.iSize.toNat / 512 + 1) ((i.iSize.toNat + count.toNat) / 512 + 1)

/-- The slots of the inode that a write of `count` bytes fills are empty. -/
def EmptySlots (i : Inode) (count : UInt32) : Prop :=
  ∀ k ≤ 12, i.iSize.toNat / 512 < k → k ≤ (i.iSize.toNat + count.toNat) / 512 → i.sector k = 0

/-- Every free block is a sector of the disk. -/
def FreeOnDisk (part : Partition) : Prop :=
  ∀ j < 8 * part.blockBitmap.btmpBytesLen, part.blockBitmap.scanTest j = false →
    part.sb.dataStartLba.toNat + j ≤ maxLba.toNat

/-- In the last sector of the block bitmap the bits past the length are set, save the next one. -/
theorem scanTest_formatBlockBitmap {bitLen : UInt32} {len j : ℕ} (hj : bitLen.toNat < j)
    (hlast : j / 8 < bitLen.toNat / 8 + (512 - bitLen.toNat / 8 % 512)) :
    Bitmap.scanTest ⟨len, formatBlockBitmap bitLen⟩ j = true := by
  have hbyte : (bitLen / 8).toNat = bitLen.toNat / 8 := by rw [UInt32.toNat_div]; rfl
  have hbit : (bitLen % 8).toNat = bitLen.toNat % 8 := by rw [UInt32.toNat_mod]; rfl
  have hclear : ∀ n < 8, ∀ k < 8, n < k → ((List.range (n + 1)).foldl
      (fun b bitIdx => b &&& ~~~Bitmap.mask bitIdx) (0xff : UInt8) &&& Bitmap.mask k != 0) = true := by
    decide
  have hfull : ∀ k < 8, ((0xff : UInt8) &&& Bitmap.mask k != 0) = true := by decide
  have hmask : Bitmap.mask j = Bitmap.mask (j % 8) := by simp [Bitmap.mask]
  have hbuf : (((Bytes.zero.splice 0 1 fun _ => 1).splice (bitLen.toNat / 8)
      (512 - bitLen.toNat / 8 % 512) fun _ => 0xff) (j / 8)) = 0xff :=
    Bytes.splice_apply_of_mem (by omega)
  simp only [Bitmap.scanTest, formatBlockBitmap, hbyte, hbit, hbuf, hmask]
  split
  · exact hclear _ (by omega) _ (by omega) (by omega)
  · exact hfull _ (by omega)

/-- Taking blocks frees none. -/
theorem Allocated.freeOnDisk {part : Partition} {b : Bitmap} {T : Set Slot} {f : Slot → UInt32}
    (h : Allocated part part.blockBitmap b T f) (hfree : FreeOnDisk part) :
    FreeOnDisk (part.setBlockBitmap b) := by
  intro j hj hclear
  rw [Partition.setBlockBitmap_blockBitmap] at hj hclear
  refine hfree j (by rwa [← h.len]) ?_
  by_contra hset
  rw [(h.bits j).mpr (Or.inl (by simpa using hset))] at hclear
  cases hclear

/-- The inode `i` becomes `i'` and the disk `d` by appending `count` bytes. -/
structure Appended (s : Fs) (i : Inode) (buf : Bytes) (count : UInt32) (d : Bytes) (b : Bitmap)
    (i' : Inode) : Prop where
  grows : Grows s.part s.part.blockBitmap b s.disk d i i' (slotsFor i count)
  size : i'.iSize.toNat = i.iSize.toNat + count.toNat
  old : ∀ off < i.iSize.toNat, fileByte d i' off = fileByte s.disk i off
  new : ∀ j < count.toNat, fileByte d i' (i.iSize.toNat + j) = buf j
  covered : ∀ k ≤ i'.iSize.toNat / 512, blockLba d i' k ≠ 0
  shape : FreeOnDisk s.part → FileShape d i'

theorem mem_writtenSlots {used will k : ℕ} :
    Slot.block k ∈ writtenSlots i used will ↔ (k = 0 ∧ i.sector 0 = 0) ∨ (used ≤ k ∧ k < will) := by
  simp only [writtenSlots, grownSlots, Set.mem_union, Set.mem_ofPred_eq, mem_blockRange,
    Slot.block.injEq, reduceCtorEq, false_and, or_false]

theorem table_mem_writtenSlots {used will : ℕ} :
    Slot.table ∈ writtenSlots i used will ↔ used ≤ 12 ∧ 12 < will := by
  simp only [writtenSlots, grownSlots, Set.mem_union, Set.mem_ofPred_eq, reduceCtorEq, false_and,
    false_or, table_not_mem_blockRange, true_and]

theorem FileShape.sector_zero (h : FileShape s.disk i) (h0 : i.sector 0 = 0) : i.iSize = 0 := by
  rcases h.mapped with ⟨hsize, -⟩ | hmapped
  · exact hsize
  · refine absurd ?_ (hmapped 0 (Nat.zero_le _)).ne_zero
    rw [blockLba_of_lt (by omega), h0]

/-- Of the slots a write fills, those in the inode were empty. -/
theorem emptySlots_of_forall
    (h : ∀ a ∈ slotsFor i count, (∀ k, a = .block k → k < 12) → slotLba s.disk i a = 0) :
    EmptySlots i count := by
  intro k hk hlt hle
  rcases Nat.lt_or_ge k 12 with hk12 | hk12
  · have := h (.block k) (mem_writtenSlots.mpr (Or.inr ⟨hlt, by omega⟩)) (by rintro _ ⟨⟩; exact hk12)
    rwa [slotLba, blockLba_of_lt hk12] at this
  · obtain rfl : k = 12 := by omega
    exact h .table (table_mem_writtenSlots.mpr ⟨by omega, by omega⟩) (by rintro _ ⟨⟩)

/-- Up to the new end of the file a block is to be filled or was there. -/
theorem FileShape.mem_or_mapped (hshape : FileShape s.disk i) {k : ℕ}
    (hk : k ≤ (i.iSize.toNat + count.toNat) / 512) :
    Slot.block k ∈ slotsFor i count ∨ Mapped s.disk i k := by
  rw [mem_writtenSlots]
  rcases hshape.mapped with ⟨hsize, hzero⟩ | hmapped
  · rcases Nat.eq_zero_or_pos k with rfl | hpos
    · exact Or.inl (Or.inl ⟨rfl, hzero⟩)
    · rw [hsize, UInt32.toNat_zero] at hk ⊢
      exact Or.inl (Or.inr ⟨hpos, by omega⟩)
  · rcases Nat.lt_or_ge (i.iSize.toNat / 512) k with hlt | hle
    · exact Or.inl (Or.inr ⟨hlt, by omega⟩)
    · exact Or.inr (hmapped k hle)

theorem FileShape.table_mem_or_le (hshape : FileShape s.disk i)
    (hk : 12 ≤ (i.iSize.toNat + count.toNat) / 512) :
    Slot.table ∈ slotsFor i count ∨ i.sector 12 ≤ maxLba := by
  rw [table_mem_writtenSlots]
  rcases Nat.lt_or_ge 12 (i.iSize.toNat / 512 + 1) with hlt | hge
  · rcases hshape.mapped with ⟨hsize, -⟩ | hmapped
    · rw [hsize, UInt32.toNat_zero] at hlt
      omega
    · exact Or.inr ((hmapped _ le_rfl).table_le (by omega))
  · exact Or.inl ⟨hge, by omega⟩

/-- None of the reasons for an assertion is there if the slots to fill are empty and the free blocks
are sectors of the disk. -/
theorem not_mapFault (hshape : FileShape s.disk i) (hfree : FreeOnDisk s.part)
    (hempty : EmptySlots i count) : ¬ MapFault s.part s.part.blockBitmap i (i.iSize.toNat / 512 + 1)
      ((i.iSize.toNat + count.toNat) / 512 + 1) := by
  rintro (⟨k, hk, hk', hk12, hne⟩ | ⟨hused, hwill, hne⟩ | ⟨j, hj, hclear, hlt⟩ | ⟨hused, hlt⟩)
  · exact hne (hempty k hk12.le hk (by omega))
  · exact hne (hempty 12 le_rfl (by omega) (by omega))
  · exact absurd (hfree j hj hclear) (not_le.mpr hlt)
  · rcases hshape.mapped with ⟨hsize, -⟩ | hmapped
    · rw [hsize, UInt32.toNat_zero] at hused
      omega
    · exact UInt32.not_lt.mpr ((hmapped _ le_rfl).table_le (by omega)) hlt

section Grows

variable {d : Bytes} {b : Bitmap} {i' : Inode} {T : Set Slot}

/-- A slot of a file that grew is a sector of the disk, or not every free block is one. -/
theorem Grows.slot_le {a : Slot} (h : Grows s.part s.part.blockBitmap b s.disk d i i' T)
    (ha : a ∈ T ∨ slotLba s.disk i a ≤ maxLba) :
    slotLba d i' a ≤ maxLba ∨ ∃ j < 8 * s.part.blockBitmap.btmpBytesLen,
      s.part.blockBitmap.scanTest j = false ∧ maxLba.toNat < s.part.sb.dataStartLba.toNat + j := by
  by_cases hmem : a ∈ T
  · obtain ⟨j, hj, hclear⟩ := h.alloc.fresh a hmem
    rcases Nat.lt_or_ge maxLba.toNat (s.part.sb.dataStartLba.toNat + j) with hlt | hge
    · exact Or.inr ⟨j, hj.1, hclear, hlt⟩
    · rw [UInt32.le_iff_toNat_le, hj.2]
      exact Or.inl hge
  · rw [h.kept a hmem]
    exact Or.inl (ha.resolve_left hmem)

variable (hshape : FileShape s.disk i)
  (h : Grows s.part s.part.blockBitmap b s.disk d i i' (slotsFor i count))
include hshape h

/-- No slot up to the new end of the file is empty. -/
theorem Grows.covered (hl : Layout s.part) {k : ℕ}
    (hk : k ≤ (i.iSize.toNat + count.toNat) / 512) : blockLba d i' k ≠ 0 := by
  by_cases hmem : Slot.block k ∈ slotsFor i count
  · obtain ⟨j, hj, -⟩ := h.alloc.fresh _ hmem
    exact hl.block_ne_zero hj
  · have hkept : blockLba d i' k = blockLba s.disk i k := h.kept _ hmem
    rw [hkept]
    exact (hshape.mem_or_mapped hk |>.resolve_left hmem).ne_zero

theorem Grows.block_le {k : ℕ} (hk : k ≤ (i.iSize.toNat + count.toNat) / 512) :
    blockLba d i' k ≤ maxLba ∨ ∃ j < 8 * s.part.blockBitmap.btmpBytesLen,
      s.part.blockBitmap.scanTest j = false ∧ maxLba.toNat < s.part.sb.dataStartLba.toNat + j :=
  h.slot_le (a := .block k) ((hshape.mem_or_mapped hk).imp_right Mapped.le_maxLba)

/-- The blocks up to the new end of the file are sectors of the disk. -/
theorem Grows.mapped (hl : Layout s.part) (hfree : FreeOnDisk s.part) {k : ℕ}
    (hk : k ≤ (i.iSize.toNat + count.toNat) / 512) : Mapped d i' k := by
  have hdisk : ¬ ∃ j < 8 * s.part.blockBitmap.btmpBytesLen,
      s.part.blockBitmap.scanTest j = false ∧
        maxLba.toNat < s.part.sb.dataStartLba.toNat + j := by
    rintro ⟨j, hj, hclear, hlt⟩
    exact absurd (hfree j hj hclear) (not_le.mpr hlt)
  refine ⟨h.covered hshape hl hk, (h.block_le hshape hk).resolve_right hdisk, fun hk12 => ?_⟩
  exact (h.slot_le (a := .table) (hshape.table_mem_or_le (by omega))).resolve_right hdisk

end Grows

section Fill

variable {d d₂ : Bytes} {b : Bitmap} {i' : Inode} {f : ℕ → UInt32} {T : Set Slot} {lo hi' : ℕ}

theorem mem_sectorArea {lba : UInt32} {k : ℕ} (hk : k < 512) : lba.toNat * 512 + k ∈ sectorArea lba := by
  rw [sectorArea, Set.mem_ofPred_eq]
  omega

variable (hs : FsOk s) (hp : p ∈ s.part.openInodes) (hi : s.inodes p = some i)

include hs hp hi

/-- Mapping blocks does not change the bytes of the blocks that were there. -/
theorem Extends.fileByte_eq (h : Extends s.part s.part.blockBitmap b s.disk d i i' T f lo hi')
    {off : ℕ} (hoff : Slot.block (off / 512) ∉ T) (h0 : blockLba s.disk i (off / 512) ≠ 0) :
    fileByte d i' off = fileByte s.disk i off := by
  have hkept : blockLba d i' (off / 512) = blockLba s.disk i (off / 512) := h.kept _ hoff
  have hmem : (blockLba s.disk i (off / 512)).toNat * 512 + off % 512 ∈
      sectorArea (blockLba s.disk i (off / 512)) := mem_sectorArea (Nat.mod_lt off (by omega))
  rw [fileByte, fileByte, hkept]
  refine h.disk _ ?_
  rintro (hx | ⟨h12, hx⟩)
  · obtain ⟨j, hj, -⟩ := h.grows.isBlock (a := .block (off / 512)) hs hp hi (by rwa [slotLba, hkept])
    have := hj.le
    rw [slotLba, hkept] at this
    exact hs.layout.not_mem_bitmapArea (by omega) hx
  · refine sectorArea_disjoint (fun heq => ?_) _ hmem hx
    rw [← hkept] at heq h0
    cases h.grows.slot_inj (a := .block (off / 512)) (c := .table) hs hp hi h0 heq

/-- The blocks the loop fills are distinct. -/
theorem Extends.distinct (hshape : FileShape s.disk i)
    (h : Extends s.part s.part.blockBitmap b s.disk d i i' (slotsFor i count) f
      (i.iSize.toNat / 512) ((i.iSize.toNat + count.toNat) / 512 + 1)) :
    Distinct f i.iSize.toNat (i.iSize.toNat + count.toNat) := by
  intro k l hk hk' hl hl' heq
  rw [h.known k hk (by omega), h.known l hl (by omega)] at heq
  have h0 := h.grows.covered hshape hs.layout hk'
  exact Slot.block.inj (h.grows.slot_inj (a := .block k) (c := .block l) hs hp hi h0 heq)

/-- Filling mapped blocks is part of growing, and leaves the slots as they are. -/
theorem Extends.filled (size : UInt32) {n : ℕ} (hshape : FileShape s.disk i) (hn : n ≤ count.toNat)
    (h : Extends s.part s.part.blockBitmap b s.disk d i i' (slotsFor i count) f
      (i.iSize.toNat / 512) ((i.iSize.toNat + count.toNat) / 512 + 1))
    (hfilled : Filled f buf i.iSize.toNat n d d₂) :
    Grows s.part s.part.blockBitmap b s.disk d₂ i { i' with iSize := size } (slotsFor i count) ∧
      ∀ a, slotLba d₂ { i' with iSize := size } a = slotLba d i' a := by
  refine h.grows.write hs hp hi (hfilled.outside.mono ?_)
  rintro x ⟨k, hk, hk', hx⟩
  rw [h.known k hk (by omega)] at hx
  exact ⟨k, h.grows.covered hshape hs.layout (by omega), hx⟩

/-- Filling the mapped blocks appends the buffer. -/
theorem Extends.appended (hshape : FileShape s.disk i)
    (hfit : i.iSize.toNat + count.toNat < 140 * 512)
    (h : Extends s.part s.part.blockBitmap b s.disk d i i' (slotsFor i count) f
      (i.iSize.toNat / 512) ((i.iSize.toNat + count.toNat) / 512 + 1))
    (hfilled : Filled f buf i.iSize.toNat count.toNat d d₂) :
    Appended s i buf count d₂ b { i' with iSize := i.iSize + count } := by
  have hsize : (i.iSize + count).toNat = i.iSize.toNat + count.toNat := Word.toNat_add (by omega)
  have hne {k : ℕ} (hk : k ≤ (i.iSize.toNat + count.toNat) / 512) : blockLba d i' k ≠ 0 :=
    h.grows.covered hshape hs.layout hk
  obtain ⟨hgrows, hslot⟩ := h.filled hs hp hi (i.iSize + count) hshape le_rfl hfilled
  have hblock (k : ℕ) : blockLba d₂ { i' with iSize := i.iSize + count } k = blockLba d i' k :=
    hslot (.block k)
  refine ⟨hgrows, hsize, fun off hoff => ?_, fun j hj => ?_, fun k hk => ?_, fun hfree => ?_⟩
  · have hold : fileByte d₂ { i' with iSize := i.iSize + count } off = fileByte d i' off := by
      rw [fileByte, fileByte, hblock]
      rcases Nat.lt_or_ge (off / 512) (i.iSize.toNat / 512) with hlt | hge
      · refine hfilled.outside _ ?_
        rintro ⟨k, hk, hk', hx⟩
        rw [h.known k hk (by omega)] at hx
        refine sectorArea_disjoint (fun heq => ?_) _ (mem_sectorArea (Nat.mod_lt off (by omega))) hx
        have := h.grows.slot_inj (a := .block (off / 512)) (c := .block k) hs hp hi
          (hne (by omega)) heq
        have := Slot.block.inj this
        omega
      · have hkept := hfilled.kept off (by omega) hoff
        rwa [fileAddr, h.known _ hge (by omega)] at hkept
    have hmapped := hshape.mapped_of_lt hoff
    rw [hold]
    refine h.fileByte_eq hs hp hi ?_ hmapped.ne_zero
    rw [mem_writtenSlots]
    rintro (⟨-, h0⟩ | ⟨hle, -⟩)
    · rw [hshape.sector_zero h0] at hoff
      exact absurd hoff (Nat.not_lt_zero _)
    · omega
  · rw [fileByte, hblock, ← h.known _ (by omega) (by omega)]
    have hnew := hfilled.data (i.iSize.toNat + j) (by omega) (by omega)
    rwa [fileAddr, Nat.add_sub_cancel_left] at hnew
  · rw [hblock]
    exact hne (by rwa [hsize] at hk)
  · refine ⟨by rw [hsize]; exact hfit, Or.inr fun k hk => ?_⟩
    exact hgrows.mapped hshape hs.layout hfree (by rwa [hsize] at hk)

/-- The slots of an open inode hold blocks that are marked used. -/
theorem FsOk.isBlock {a : Slot} (h0 : slotLba s.disk i a ≠ 0) :
    ∃ j, IsBlock s.part (slotLba s.disk i a) j ∧ s.part.blockBitmap.scanTest j = true := by
  have hused := hs.blocks.used i.iNo.toNat a (hs.cache.used p hp i hi)
  rw [hs.cache.curInode_eq hp hi] at hused
  exact hused h0

/-- What the loop starts from after the blocks are mapped, and where it ends. -/
theorem fillBlocks_spec (hshape : FileShape s.disk i) (hfit : i.iSize.toNat + count.toNat < 140 * 512)
    (hm : s.mallocs 2 = true)
    (h : Extends s.part s.part.blockBitmap b s.disk d i i' (slotsFor i count) f
      (i.iSize.toNat / 512) ((i.iSize.toNat + count.toNat) / 512 + 1)) :
    Exec.Post (do
        let inode ← derefInode p
        modify fun s => s.setFile fd { s.fileTable fd with fdPos := inode.iSize - 1 }
        let w ← writeLoop fd p f buf count count.toNat ⟨0, 0, count, true⟩
        let inode ← derefInode p
        inodeSync inode
        pure (toI32 w.bytesWritten)) (s.tick.tick.grow p d b i')
      (fun r s' => r = (count.toNat : Int) ∧ ∃ d b i',
        s' = writtenState s fd p d b i' (i.iSize - 1 + count) ∧ Appended s i buf count d b i')
      fun _ => ∃ off, i.iSize.toNat ≤ off ∧ off < i.iSize.toNat + count.toNat ∧
        maxLba < blockLba d i' (off / 512) := by
  obtain ⟨sectors, hsame⟩ := h.same
  have hsize : i'.iSize = i.iSize := by rw [hsame]
  simp only [derefInode, Exec.post_bind, Exec.post_get, post_deref, Exec.post_modify, Fs.grow_inodes,
    Fs.grow_fileTable, Function.update_self, Option.some.injEq, forall_eq', reduceCtorEq,
    false_imp_iff, and_true]
  set t := (s.tick.tick.grow p d b i').setFile fd
    { s.tick.tick.fileTable fd with fdPos := i'.iSize - 1 } with ht
  have hstart : WriteInv t fd p i' f buf count.toNat 0 ⟨0, 0, UInt32.ofNat count.toNat, true⟩ t :=
    .start (by rw [ht]; exact Function.update_self ..) _
  have hloop := writeLoop_spec (by rw [hsize]; omega)
    (by rw [hsize]; exact h.distinct hs hp hi hshape) count.toNat hstart le_rfl
  rw [UInt32.ofNat_toNat] at hloop
  refine hloop.mono ?_ ?_
  · rintro w s' ⟨-, -, rfl, d₂, rfl, hfilled⟩
    rw [hsize] at hfilled
    have happended := h.appended hs hp hi hshape hfit hfilled
    have hl : Layout (writeState t fd p i' d₂ count.toNat).part :=
      hs.layout.setBlockBitmap h.alloc.len
    have hinode : (writeState t fd p i' d₂ count.toNat).inodes p =
        some { i' with iSize := i.iSize + count } := by
      rw [← hsize]
      simp [writeState]
    have hmallocs : (writeState t fd p i' d₂ count.toNat).mallocs 0 = true := hm
    simp only [hinode, Option.some.injEq, forall_eq', reduceCtorEq, false_imp_iff, and_true,
      post_inodeSync hl, hmallocs, forall_const, Exec.post_pure, Bool.true_eq_false]
    refine ⟨?_, d₂, b, { i' with iSize := i.iSize + count }, ?_, happended⟩
    · simp only [writeVars, UInt32.ofNat_toNat]
      exact toI32_of_lt (by omega)
    · rw [writtenState, ← hsize]
      simp [writeState, ht, Fs.setFile, Fs.setInode, Fs.setDisk, Fs.grow, Fs.setPart, Fs.tick]
  · rintro _ ⟨off, hle, hlt, hgt⟩
    rw [hsize] at hle hlt
    rw [h.known _ (by omega) (by omega)] at hgt
    exact ⟨off, hle, hlt, hgt⟩

/-- When memory and blocks do not run out, `file_write` appends the buffer. It may stop on an
assertion for the reasons `MapFault` lists, and only if a slot it fills is not empty. -/
theorem fileWrite_spec (hfd : (s.fileTable fd).fdInode = some p) (hshape : FileShape s.disk i)
    (hfit : i.iSize.toNat + count.toNat < 140 * 512) (hm : ∀ n, s.mallocs n = true)
    (hcnt : blocksFor i count ≤ s.part.blockBitmap.freeCnt) :
    Exec.Post (fileWrite fd buf count) s
      (fun r s' => EmptySlots i count ∧ r = (count.toNat : Int) ∧ ∃ d b i',
        s' = writtenState s fd p d b i' (i.iSize - 1 + count) ∧ Appended s i buf count d b i')
      fun _ => MapFault s.part s.part.blockBitmap i (i.iSize.toNat / 512 + 1)
        ((i.iSize.toNat + count.toNat) / 512 + 1) := by
  rw [fileWrite]
  simp only [Exec.post_bind, Exec.post_get, post_deref, hfd, Option.some.injEq, forall_eq',
    reduceCtorEq, false_imp_iff, and_true]
  have hreg : i.sector 12 ≠ 0 → s.part.sb.dataStartLba.toNat ≤ (i.sector 12).toNat := fun h12 => by
    obtain ⟨j, hj, -⟩ := hs.isBlock (a := .table) hp hi h12
    exact hj.le
  have hprepare : Exec.Post (fileWritePrepare p count) s _ _ :=
    fileWritePrepare_spec hs.layout hi hshape (by omega) hreg
  refine hprepare.mono ?_ fun _ => id
  intro r s' hprepare
  cases r with
  | none =>
    rcases hprepare.reason rfl with h | h | h
    · omega
    · exact absurd ⟨hm 0, hm 1⟩ h
    · exact absurd hcnt (not_le.mpr h)
  | some f =>
    obtain ⟨-, -, d, b, i', rfl, hext⟩ := hprepare.some f rfl
    refine (fillBlocks_spec hs hp hi hshape hfit (hm 2) hext).mono ?_ ?_
    · rintro r s' ⟨hr, hwritten⟩
      exact ⟨emptySlots_of_forall hext.empty, hr, hwritten⟩
    · rintro _ ⟨off, hle, hlt, hgt⟩
      refine Or.inr (Or.inr (Or.inl ?_))
      exact (hext.grows.block_le hshape (by omega)).resolve_left (UInt32.not_le.mpr hgt)

/-- If the slots to fill are empty and the free blocks are sectors of the disk, `file_write` appends
the buffer. -/
theorem fileWrite_returns (hfd : (s.fileTable fd).fdInode = some p) (hshape : FileShape s.disk i)
    (hfit : i.iSize.toNat + count.toNat < 140 * 512) (hm : ∀ n, s.mallocs n = true)
    (hcnt : blocksFor i count ≤ s.part.blockBitmap.freeCnt) (hfree : FreeOnDisk s.part)
    (hempty : EmptySlots i count) :
    Exec.Returns (fileWrite fd buf count) s fun r s' => r = (count.toNat : Int) ∧ ∃ d b i',
      s' = writtenState s fd p d b i' (i.iSize - 1 + count) ∧ Appended s i buf count d b i' := by
  exact (fileWrite_spec hs hp hi hfd hshape hfit hm hcnt).mono (fun _ _ => And.right)
    fun _ => not_mapFault hshape hfree hempty

end Fill

/-- A partition with two used blocks and the used inodes 0, 1 and that of `file`, of which the root
directory and `file` are open, the file through entry 3 of the file table. -/
def openFileFs (file : Inode) : Fs :=
  let part := formattedPartition 63 2000
  let root := { emptyInode 0 with iSize := 48 }.setSector 0 part.sb.dataStartLba
  let part := ((part.setBlockBitmap (part.blockBitmap.set 1 true)).setInodeBitmap
    ((part.inodeBitmap.set 1 true).set file.iNo.toNat true)).setOpenInodes [0, 1]
  ((((Fs.unmounted Bytes.zero).setPart part).setInode 0 (some file)).setInode 1 (some root)).setFile
    3 ⟨0, oRdwr, some 0⟩

/-- A file with a number that is not that of the root directory and at most one block, the second of
the partition. -/
structure SmallFile (file : Inode) : Prop where
  pos : 0 < file.iNo.toNat
  lt : file.iNo.toNat < 4096
  sector : ∀ k, file.sector k = 0 ∨ k = 0 ∧ file.sector 0 = 932

section OpenFile

variable {file : Inode} {m : ℕ} {a : Slot}

/-- A fresh partition has one inode in use. -/
theorem scanTest_formattedPartition {startLba secCnt : UInt32} :
    (formattedPartition startLba secCnt).inodeBitmap.scanTest m = true ↔ m = 0 := by
  have hbits (k : ℕ) : (formattedPartition startLba secCnt).inodeBitmap.bits k =
      (Bytes.zero.splice 0 1 fun _ => 1) k := rfl
  rw [Bitmap.scanTest, hbits]
  rcases Nat.lt_or_ge m 8 with hlt | hge
  · interval_cases m <;> decide
  · rw [Bytes.splice_apply_of_not_mem (by omega), Bytes.zero_apply]
    simp
    omega

theorem usedInode_openFileFs (h : SmallFile file) :
    UsedInode (openFileFs file) m ↔ m = file.iNo.toNat ∨ m = 1 ∨ m = 0 := by
  have hset : (openFileFs file).part.inodeBitmap.scanTest m =
      if m = file.iNo.toNat then true else if m = 1 then true
        else (formattedPartition 63 2000).inodeBitmap.scanTest m := by
    rw [← Bitmap.scanTest_set, ← Bitmap.scanTest_set]
    rfl
  have := h.lt
  rw [UsedInode, hset]
  split_ifs with h1 h2
  · simp only [h1, true_or, and_true, iff_true]
    omega
  · simp [h2]
  · rw [scanTest_formattedPartition]
    omega

theorem cacheOk_openFileFs (h : SmallFile file) : CacheOk (openFileFs file) := by
  have h0 : (openFileFs file).inodes 0 = some file := rfl
  have hpos := h.pos
  have hmem : ∀ p ∈ (openFileFs file).part.openInodes, p = 0 ∨ p = 1 := by
    intro p hp
    simpa [openFileFs] using hp
  refine ⟨fun p hp => ?_, fun p hp i hi => ?_, fun p hp q hq i j hi hj heq => ?_⟩
  · rcases hmem p hp with rfl | rfl
    · exact ⟨_, rfl⟩
    · exact ⟨_, rfl⟩
  · rw [usedInode_openFileFs h]
    rcases hmem p hp with rfl | rfl
    · obtain rfl := Option.some.inj (h0.symm.trans hi)
      exact Or.inl rfl
    · obtain rfl := Option.some.inj hi
      exact Or.inr (Or.inr rfl)
  · rcases hmem p hp with rfl | rfl <;> rcases hmem q hq with rfl | rfl
    · rfl
    · obtain rfl := Option.some.inj (h0.symm.trans hi)
      obtain rfl := Option.some.inj hj
      rw [heq] at hpos
      exact absurd hpos (by decide)
    · obtain rfl := Option.some.inj hi
      obtain rfl := Option.some.inj (h0.symm.trans hj)
      rw [← heq] at hpos
      exact absurd hpos (by decide)
    · rfl

theorem sector_emptyInode {no : UInt32} {size : UInt32} (k : ℕ) :
    ({ emptyInode no with iSize := size } : Inode).sector k = 0 := by
  unfold Inode.sector
  split <;> rfl

theorem sector_diskInode_zero {sb : SuperBlock} (k : ℕ) :
    (diskInode Bytes.zero sb m).sector k = 0 := by
  unfold Inode.sector
  split <;> rfl

/-- Its used blocks: the one of the root directory and the one of the file. -/
theorem slotLba_openFileFs (h : SmallFile file) (hm : UsedInode (openFileFs file) m)
    (h0 : slotLba (openFileFs file).disk (curInode (openFileFs file) m) a ≠ 0) :
    a = .block 0 ∧ ((m = 0 ∧ slotLba (openFileFs file).disk (curInode (openFileFs file) m) a = 931) ∨
      (m = file.iNo.toNat ∧
        slotLba (openFileFs file).disk (curInode (openFileFs file) m) a = 932)) := by
  have hsmall (i : Inode) (lba : UInt32) (hi : ∀ k, i.sector k = 0 ∨ k = 0 ∧ i.sector 0 = lba)
      (hne : slotLba (openFileFs file).disk i a ≠ 0) :
      a = .block 0 ∧ slotLba (openFileFs file).disk i a = lba := by
    have h12 : i.sector 12 = 0 := (hi 12).resolve_right (by omega)
    cases a with
    | table => exact absurd h12 hne
    | block k =>
      rcases Nat.lt_or_ge k 12 with hk | hk
      · rw [slotLba, blockLba_of_lt hk] at hne ⊢
        obtain ⟨rfl, hlba⟩ := (hi k).resolve_left hne
        exact ⟨rfl, hlba⟩
      · simp [slotLba, blockLba, h12, show ¬ k < 12 by omega] at hne
  have hc := cacheOk_openFileFs h
  by_cases hfile : m = file.iNo.toNat
  · have hcur : curInode (openFileFs file) m = file := by
      rw [hfile]
      exact hc.curInode_eq (p := 0) (by simp [openFileFs]) rfl
    rw [hcur] at h0 ⊢
    obtain ⟨ha, hlba⟩ := hsmall file 932 h.sector h0
    exact ⟨ha, Or.inr ⟨hfile, hlba⟩⟩
  · rcases (usedInode_openFileFs h).mp hm with hm | rfl | rfl
    · exact absurd hm hfile
    · exfalso
      have hmiss : findOpenInode (openFileFs file) (UInt32.ofNat 1) = none := by
        have hne : file.iNo ≠ 1 := fun h1 => hfile (by rw [h1]; rfl)
        simp [findOpenInode, openFileFs, hne, emptyInode, inodeInit]
      rw [curInode_of_miss hmiss] at h0
      obtain ⟨ha, hlba⟩ := hsmall _ 0 (fun k => Or.inl (sector_diskInode_zero k)) h0
      exact h0 hlba
    · have hcur : curInode (openFileFs file) 0 = { emptyInode 0 with iSize := 48 }.setSector 0 931 :=
        hc.curInode_eq (p := 1) (by simp [openFileFs]) rfl
      rw [hcur] at h0 ⊢
      have hroot (k : ℕ) : ({ emptyInode 0 with iSize := 48 }.setSector 0 931).sector k = 0 ∨
          k = 0 ∧ ({ emptyInode 0 with iSize := 48 }.setSector 0 931).sector 0 = 931 := by
        rw [Inode.sector_setSector]
        split
        · rename_i hk
          exact Or.inr ⟨hk.1, rfl⟩
        · exact Or.inl (sector_emptyInode k)
      obtain ⟨ha, hlba⟩ := hsmall _ 931 hroot h0
      exact ⟨ha, Or.inl ⟨rfl, hlba⟩⟩

theorem layout_openFileFs (file : Inode) : Layout (openFileFs file).part := by
  have h : Layout (formattedPartition 63 2000) := layout_formattedPartition (by decide) (by decide)
  exact ⟨h.1, h.2, h.3, h.4, h.5, h.6, h.7, h.8, h.9, h.10⟩

theorem usedBlock_openFileFs (file : Inode) : ∀ j < 2,
    (openFileFs file).part.blockBitmap.scanTest j = true := by
  change ∀ j < 2, ((formattedPartition 63 2000).blockBitmap.set 1 true).scanTest j = true
  decide

theorem fsOk_openFileFs (h : SmallFile file) : FsOk (openFileFs file) := by
  have hpos := h.pos
  refine ⟨layout_openFileFs file, cacheOk_openFileFs h, fun m n a c hm hn h0 heq => ?_,
    fun m a hm h0 => ?_⟩
  · obtain ⟨rfl, hlba⟩ := slotLba_openFileFs h hm h0
    obtain ⟨rfl, hlba'⟩ := slotLba_openFileFs h hn (heq ▸ h0)
    rw [heq] at hlba
    refine ⟨?_, rfl⟩
    rcases hlba with ⟨rfl, hlba⟩ | ⟨rfl, hlba⟩ <;> rcases hlba' with ⟨rfl, hlba'⟩ | ⟨rfl, hlba'⟩
    · rfl
    · exact absurd (hlba.symm.trans hlba') (by decide)
    · exact absurd (hlba.symm.trans hlba') (by decide)
    · rfl
  · obtain ⟨rfl, ⟨rfl, hlba⟩ | ⟨rfl, hlba⟩⟩ := slotLba_openFileFs h hm h0
    · rw [hlba]
      exact ⟨0, ⟨Nat.zero_lt_succ _, rfl⟩, usedBlock_openFileFs file 0 (by decide)⟩
    · rw [hlba]
      exact ⟨1, ⟨Nat.one_lt_succ_succ _, rfl⟩, usedBlock_openFileFs file 1 (by decide)⟩

/-- Most of its blocks are free. -/
theorem freeCnt_openFileFs (file : Inode) : 200 ≤ (openFileFs file).part.blockBitmap.freeCnt := by
  change 200 ≤ ((formattedPartition 63 2000).blockBitmap.set 1 true).freeCnt
  decide +kernel

theorem freeOnDisk_openFileFs (file : Inode) : FreeOnDisk (openFileFs file).part := by
  intro j hj _
  change j < 4096 at hj
  change 931 + j ≤ 163839
  omega

/-- An empty file with the given number. -/
theorem smallFile_emptyInode (no : UInt32) (hpos : 0 < no.toNat) (hlt : no.toNat < 4096) :
    SmallFile (emptyInode no) :=
  ⟨hpos, hlt, fun k => Or.inl (sector_emptyInode k)⟩

theorem fileShape_emptyInode {disk : Bytes} {no : UInt32} : FileShape disk (emptyInode no) :=
  ⟨Nat.zero_lt_succ _, Or.inl ⟨rfl, sector_emptyInode 0⟩⟩

/-- A file with number 5 and one block. -/
def blockFile (size : UInt32) : Inode := { emptyInode 5 with iSize := size }.setSector 0 932

theorem sector_blockFile {size : UInt32} (k : ℕ) :
    (blockFile size).sector k = if k = 0 then 932 else 0 := by
  rw [blockFile, Inode.sector_setSector, sector_emptyInode]
  exact if_congr (by omega) rfl rfl

theorem smallFile_blockFile (size : UInt32) : SmallFile (blockFile size) := by
  have hno : (blockFile size).iNo.toNat = 5 := rfl
  refine ⟨by omega, by omega, fun k => ?_⟩
  rw [sector_blockFile, sector_blockFile, if_pos rfl]
  split
  · rename_i hk
    exact Or.inr ⟨hk, rfl⟩
  · exact Or.inl rfl

theorem fileShape_blockFile {disk : Bytes} {size : UInt32} (h : size.toNat < 512) :
    FileShape disk (blockFile size) := by
  have hsize : (blockFile size).iSize.toNat = size.toNat := rfl
  refine ⟨by omega, Or.inr fun k hk => ?_⟩
  obtain rfl : k = 0 := by omega
  have hblock : blockLba disk (blockFile size) 0 = 932 := by
    rw [blockLba_of_lt (by omega), sector_blockFile, if_pos rfl]
  exact ⟨by rw [hblock]; decide, by rw [hblock]; decide, fun h => absurd h (by omega)⟩

end OpenFile

end Winx
