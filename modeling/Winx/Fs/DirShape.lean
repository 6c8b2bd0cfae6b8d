import Winx.Fs.DirView
import Winx.Fs.Frame

/-! # Well-formed directories

The blocks of a well-formed directory are distinct data blocks marked used,
its free slots are blank, and its size counts its live entries. What such a
directory holds depends on its own blocks and table only.
-/

namespace Winx

/-- An entry other than `.` and `..`. -/
def DirEntry.Counted (e : DirEntry) : Prop :=
  e.fType ≠ ftUnknown ∧ e.filename ≠ dot ∧ e.filename ≠ dotDot

instance DirEntry.decidableCounted (e : DirEntry) : Decidable e.Counted :=
  inferInstanceAs (Decidable (_ ∧ _ ∧ _))

/-- The blocks of a directory: they are distinct data blocks marked used, and can be read. -/
structure DirBlocks (s : Fs) (i : Inode) : Prop where
  layout : Layout s.part
  readable : DirReadable s.disk i
  used : ∀ c, slotLba s.disk i c ≠ 0 →
    ∃ j, IsBlock s.part (slotLba s.disk i c) j ∧ s.part.blockBitmap.scanTest j = true
  inj : ∀ c c', slotLba s.disk i c ≠ 0 → slotLba s.disk i c = slotLba s.disk i c' → c = c'
  blank : FreeSlotsBlank s.disk i

/-- A well-formed directory. Its size counts its entries, and `..` is in the block of `.`. -/
structure DirOk (s : Fs) (i : Inode) : Prop extends DirBlocks s i where
  size : i.iSize.toNat = sizeofDirEntry * (liveEntries s.disk i).length
  dots : ∀ a ∈ liveSlots s.disk i, (entryAt s.disk i a).filename = dotDot →
    ∃ b ∈ liveSlots s.disk i, b.1 = a.1 ∧ (entryAt s.disk i b).filename = dot

variable {s : Fs} {d d' : Bytes} {i i' : Inode} {lba : UInt32} {k m j : ℕ} {a b : ℕ × ℕ} {S : Set ℕ}

/-- A block that is not written keeps its entries. -/
theorem slotEntry_eq (hd : Bytes.EqOutside S d d') (hS : ∀ x ∈ sectorArea lba, x ∉ S)
    (hm : m < entrysPerSec) : slotEntry d' lba m = slotEntry d lba m := by
  refine DirEntry.ofBytes_congr fun n hn => hd _ (hS _ ?_)
  simp only [entrysPerSec, sizeofDirEntry] at hm hn ⊢
  rw [sectorArea, Set.mem_ofPred_eq]
  omega

/-- An entry is stored in slot `m` of the block at a sector. -/
def storeEntry (d : Bytes) (lba : UInt32) (m : ℕ) (e : Bytes) : Bytes :=
  d.splice (lba.toNat * 512 + sizeofDirEntry * m) sizeofDirEntry e

theorem slotEntry_storeEntry_self (e : Bytes) :
    slotEntry (storeEntry d lba m e) lba m = DirEntry.ofBytes e := by
  refine DirEntry.ofBytes_congr fun n hn => ?_
  rw [Bytes.window_apply, storeEntry, Bytes.splice_apply_of_mem (by omega)]
  exact congrArg e (by omega)

theorem storeEntry_apply_of_ne {lba' : UInt32} {m' n : ℕ} (e : Bytes) (hm : m < entrysPerSec)
    (hm' : m' < entrysPerSec) (h : lba' = lba → m' ≠ m) (hn : n < sizeofDirEntry) :
    storeEntry d lba m e (lba'.toNat * 512 + sizeofDirEntry * m' + n) =
      d (lba'.toNat * 512 + sizeofDirEntry * m' + n) := by
  refine Bytes.splice_apply_of_not_mem fun hmem => ?_
  simp only [entrysPerSec, sizeofDirEntry] at hm hm' hn hmem
  have hlba : lba' = lba := UInt32.toNat_inj.mp (by omega)
  have := h hlba
  rw [hlba] at hmem
  omega

/-- The other slots keep their entries. -/
theorem slotEntry_storeEntry_of_ne {lba' : UInt32} {m' : ℕ} (e : Bytes) (hm : m < entrysPerSec)
    (hm' : m' < entrysPerSec) (h : lba' = lba → m' ≠ m) :
    slotEntry (storeEntry d lba m e) lba' m' = slotEntry d lba' m' :=
  DirEntry.ofBytes_congr fun _ hn => storeEntry_apply_of_ne e hm hm' h hn

theorem storeEntry_eqOutside (e : Bytes) (hm : m < entrysPerSec) :
    Bytes.EqOutside (sectorArea lba) d (storeEntry d lba m e) := by
  simp only [entrysPerSec] at hm
  refine Bytes.eqOutside_splice fun x hle hlt => ?_
  rw [sectorArea, Set.mem_ofPred_eq]
  simp only [sizeofDirEntry] at hle hlt
  omega

/-- Writing back a block with one of its entries changed. -/
theorem post_writeEntry {E : Fault → Prop} {Q : Unit → Fs → Prop} (e : Bytes) (hlba : lba ≤ maxLba)
    (hm : m < entrysPerSec) :
    Exec.Post (ideWrite lba ((sectorBuf s.disk lba).splice (sizeofDirEntry * m) sizeofDirEntry e) 1)
      s Q E ↔ Q () (s.setDisk (storeEntry s.disk lba m e)) := by
  have hfit : sizeofDirEntry * m + sizeofDirEntry ≤ 1 * 512 := by
    simp only [entrysPerSec, sizeofDirEntry] at hm ⊢
    omega
  rw [post_ideWrite, sectorBuf, Bytes.splice_window_splice hfit]
  exact ⟨fun h => h.1 ⟨hlba, by omega⟩, fun h => ⟨fun _ => h, fun hn => absurd ⟨hlba, by omega⟩ hn⟩⟩

/-- The entries of a directory after one of them is gone. -/
theorem liveEntries_perm (ha : a ∈ liveSlots d i)
    (hmem : ∀ b, b ∈ liveSlots d' i' ↔ b ∈ liveSlots d i ∧ b ≠ a)
    (hsame : ∀ b ∈ liveSlots d' i', entryAt d' i' b = entryAt d i b) :
    (liveEntries d i).Perm (entryAt d i a :: liveEntries d' i') := by
  have hnodup : (a :: liveSlots d' i').Nodup :=
    List.nodup_cons.mpr ⟨fun h => ((hmem a).mp h).2 rfl, nodup_liveSlots⟩
  have hperm : (liveSlots d i).Perm (a :: liveSlots d' i') := by
    refine (List.perm_ext_iff_of_nodup nodup_liveSlots hnodup).mpr fun b => ?_
    rw [List.mem_cons, hmem]
    constructor
    · intro hb
      by_cases hba : b = a
      · exact Or.inl hba
      · exact Or.inr ⟨hb, hba⟩
    · rintro (rfl | hb)
      · exact ha
      · exact hb.1
  have hmap : liveEntries d' i' = (liveSlots d' i').map (entryAt d i) :=
    List.map_congr_left hsame
  rw [hmap]
  exact hperm.map (entryAt d i)

namespace DirBlocks

variable (h : DirBlocks s i)

include h

/-- The blocks and the table of a directory are in the data area. -/
theorem data_le {c : Slot} (h0 : slotLba s.disk i c ≠ 0) :
    s.part.sb.dataStartLba.toNat ≤ (slotLba s.disk i c).toNat := by
  obtain ⟨j, hj, -⟩ := h.used c h0
  exact hj.le

/-- A block of a directory is outside of the block bitmap. -/
theorem not_mem_bitmapArea {c : Slot} (h0 : slotLba s.disk i c ≠ 0) :
    ∀ x ∈ sectorArea (slotLba s.disk i c), x ∉ bitmapArea s.part := by
  intro x hx
  rw [sectorArea, Set.mem_ofPred_eq] at hx
  have := h.data_le h0
  exact h.layout.not_mem_bitmapArea (by omega)

/-- A block of a directory is outside of the inode table. -/
theorem not_mem_inodeTableArea {c : Slot} (h0 : slotLba s.disk i c ≠ 0) :
    ∀ x ∈ sectorArea (slotLba s.disk i c), x ∉ inodeTableArea s.part :=
  sectorArea_inodeTable (h.data_le h0)

/-- Two slots of a directory have different sectors. -/
theorem disjoint {c c' : Slot} (h0 : slotLba s.disk i c ≠ 0) (hne : c ≠ c') :
    ∀ x ∈ sectorArea (slotLba s.disk i c), x ∉ sectorArea (slotLba s.disk i c') :=
  sectorArea_disjoint fun heq => hne (h.inj c c' h0 heq)

theorem blockLba_le (hk : k < 140) : blockLba s.disk i k ≤ maxLba := h.readable.block k hk

end DirBlocks

/-- A directory does not depend on the memory there is. -/
theorem DirOk.withMallocs (h : DirOk s i) (f : ℕ → Bool) : DirOk (s.withMallocs f) i :=
  ⟨⟨h.layout, h.readable, h.used, h.inj, h.blank⟩, h.size, h.dots⟩

/-- Freeing a block clears its bit and writes the block bitmap. -/
theorem freeBlock_spec {p : ℕ} {bm : Bitmap} (hl : Layout s.part)
    (hb : bm.btmpBytesLen = s.part.blockBitmap.btmpBytesLen) (hj : IsBlock s.part lba j) :
    Exec.Returns (freeBlock lba) (s.grow p d bm i) fun _ s' => ∃ d',
      s' = s.grow p d' (bm.set j false) i ∧ Bytes.EqOutside (bitmapArea s.part) d d' := by
  have hidx : (lba - s.part.sb.dataStartLba).toNat = j := by
    have := hj.2
    rw [Word.toNat_sub (by omega)]
    omega
  simp only [freeBlock, clearBlockBit, Exec.Returns, Exec.post_bind, Exec.post_get, post_inBounds,
    Exec.post_set, Fs.grow_part, Partition.setBlockBitmap_sb, Partition.setBlockBitmap_blockBitmap,
    hidx, Fs.grow_setBlockBitmap]
  refine ⟨fun _ => ?_, fun hn => hn (hb.symm ▸ hj.1)⟩
  refine (bitmapSync_block_spec (s := s.grow p d (bm.set j false) i) (hl.setBlockBitmap hb)
    ((isBlock_setBlockBitmap hb).mpr hj)).post ?_
  rintro _ s' ⟨d', rfl, hd'⟩
  exact ⟨d', rfl, hd'⟩

/-- From the map `b` to the map `b'` the blocks `f c` for the slots `c` in `S` are given back. -/
structure Released (part : Partition) (b b' : Bitmap) (S : Set Slot) (f : Slot → UInt32) :
    Prop where
  len : b'.btmpBytesLen = b.btmpBytesLen
  bits : ∀ j, b'.scanTest j = true ↔ b.scanTest j = true ∧ ¬ ∃ c ∈ S, IsBlock part (f c) j

namespace Released

variable {part : Partition} {b b' b'' : Bitmap} {S T : Set Slot} {f : Slot → UInt32}

theorem empty (part : Partition) (b : Bitmap) (f : Slot → UInt32) : Released part b b ∅ f :=
  ⟨rfl, by simp⟩

theorem single {c : Slot} (hj : IsBlock part (f c) j) :
    Released part b (b.set j false) {c} f := by
  refine ⟨rfl, fun k => ?_⟩
  rw [Bitmap.scanTest_set]
  simp only [Set.mem_singleton_iff, exists_eq_left]
  constructor
  · intro h
    split at h
    · cases h
    · rename_i hne
      exact ⟨h, fun hk => hne (hk.unique hj)⟩
  · rintro ⟨h, hk⟩
    rw [if_neg]
    · exact h
    · rintro rfl
      exact hk hj

/-- Giving back blocks twice. -/
theorem union (h : Released part b b' S f) (h' : Released part b' b'' T f) :
    Released part b b'' (S ∪ T) f := by
  refine ⟨h'.len.trans h.len, fun j => ?_⟩
  rw [h'.bits, h.bits, and_assoc, ← not_or]
  refine and_congr_right fun _ => not_congr ?_
  constructor
  · rintro (⟨c, hc, hj⟩ | ⟨c, hc, hj⟩)
    · exact ⟨c, Or.inl hc, hj⟩
    · exact ⟨c, Or.inr hc, hj⟩
  · rintro ⟨c, hc | hc, hj⟩
    · exact Or.inl ⟨c, hc, hj⟩
    · exact Or.inr ⟨c, hc, hj⟩

end Released

section OneBlock

variable (hone : ∀ k, 0 < k → k < 13 → i.sector k = 0)

include hone

theorem blockLba_of_oneBlock (hk : 0 < k) : blockLba d i k = 0 := by
  rw [blockLba]
  split
  · exact hone k hk (by omega)
  · rw [if_pos (Or.inl (hone 12 (by omega) (by omega)))]

/-- The slots of a directory with one block. -/
theorem liveSlots_of_oneBlock : liveSlots d i = blockSlots d i 0 := by
  have hrest : (List.range' 1 139).flatMap (blockSlots d i) = [] := by
    refine List.flatMap_eq_nil_iff.mpr fun k hk => ?_
    rw [blockSlots, if_pos (blockLba_of_oneBlock hone (List.mem_range'_1.mp hk).1)]
  rw [liveSlots, List.range_eq_range', List.range'_succ, List.flatMap_cons, hrest, List.append_nil]

end OneBlock

section Direct

/-- Whether a slot holds the live entry `.`. -/
def isDotSlot (disk : Bytes) (lba : UInt32) (m : ℕ) : Bool :=
  decide ((slotEntry disk lba m).fType ≠ ftUnknown ∧ (slotEntry disk lba m).filename = dot)

/-- The slots of a directory without a table. -/
theorem slotLba_of_direct (h12 : i.sector 12 = 0) {c : Slot} (h0 : slotLba d i c ≠ 0) :
    ∃ k < 12, c = .block k ∧ slotLba d i c = i.sector k := by
  cases c with
  | table => exact absurd h12 h0
  | block k =>
    rw [slotLba, blockLba] at h0 ⊢
    split at h0
    · rename_i hk
      exact ⟨k, hk, rfl, if_pos hk⟩
    · rw [if_pos (Or.inl h12)] at h0
      exact absurd rfl h0

/-- A directory without a table whose blocks are the first ones of the data area is well formed. -/
theorem DirOk.of_direct (hl : Layout s.part) (h12 : i.sector 12 = 0)
    (hlba : ∀ k < 12, i.sector k ≠ 0 → (i.sector k).toNat = s.part.sb.dataStartLba.toNat + k ∧
      k < 8 * s.part.blockBitmap.btmpBytesLen ∧ s.part.blockBitmap.scanTest k = true ∧
      i.sector k ≤ maxLba)
    (hblank : ∀ k < 12, i.sector k ≠ 0 → ∀ m < entrysPerSec,
      (slotEntry s.disk (i.sector k) m).fType = ftUnknown →
        (slotEntry s.disk (i.sector k) m).filename = [])
    (hsize : i.iSize.toNat = sizeofDirEntry * (liveSlots s.disk i).length)
    (hdots : ∀ k < 12, i.sector k ≠ 0 → ∀ m < entrysPerSec,
      (slotEntry s.disk (i.sector k) m).filename = dotDot →
        (List.range entrysPerSec).any (isDotSlot s.disk (i.sector k)) = true) : DirOk s i := by
  have hblock {k : ℕ} (h0 : blockLba s.disk i k ≠ 0) :
      k < 12 ∧ blockLba s.disk i k = i.sector k ∧ i.sector k ≠ 0 := by
    obtain ⟨l, hl, hkl, heq⟩ := slotLba_of_direct (c := .block k) h12 h0
    obtain rfl : k = l := Slot.block.inj hkl
    exact ⟨hl, heq, heq ▸ h0⟩
  refine ⟨⟨hl, ⟨fun k _ => ?_, ?_⟩, fun c hc => ?_, fun c c' hc heq => ?_, fun k _ hk m hm hfree => ?_⟩,
    ?_, fun a ha hdd => ?_⟩
  · by_cases h0 : blockLba s.disk i k = 0
    · exact h0 ▸ UInt32.zero_le
    · obtain ⟨hk, heq, hne⟩ := hblock h0
      exact heq.trans_le (hlba k hk hne).2.2.2
  · exact h12 ▸ UInt32.zero_le
  · obtain ⟨k, hk, -, heq⟩ := slotLba_of_direct h12 hc
    rw [heq] at hc ⊢
    obtain ⟨hno, hlt, hset, -⟩ := hlba k hk hc
    exact ⟨k, ⟨hlt, hno⟩, hset⟩
  · obtain ⟨k, hk, rfl, heq₁⟩ := slotLba_of_direct h12 hc
    have hc' : slotLba s.disk i c' ≠ 0 := heq ▸ hc
    obtain ⟨k', hk', rfl, heq₂⟩ := slotLba_of_direct h12 hc'
    have hno : (i.sector k).toNat = (i.sector k').toNat :=
      congrArg _ (heq₁.symm.trans (heq.trans heq₂))
    have := (hlba k hk (heq₁ ▸ hc)).1
    have := (hlba k' hk' (heq₂ ▸ hc')).1
    rw [show k = k' by omega]
  · obtain ⟨hk12, heq, hne⟩ := hblock hk
    rw [entryAt, heq] at hfree ⊢
    exact hblank k hk12 hne m hm hfree
  · rw [liveEntries, List.length_map]
    exact hsize
  · obtain ⟨hlt, h0, hm, -⟩ := mem_liveSlots.mp ha
    obtain ⟨hk12, heq, hne⟩ := hblock h0
    rw [entryAt, heq] at hdd
    obtain ⟨n, hn, hlive⟩ := List.any_eq_true.mp (hdots a.1 hk12 hne a.2 hm hdd)
    obtain ⟨hlive, hdot⟩ := of_decide_eq_true hlive
    rw [← heq] at hlive hdot
    exact ⟨(a.1, n), mem_liveSlots.mpr ⟨hlt, h0, List.mem_range.mp hn, hlive⟩, rfl, hdot⟩

end Direct

/-- The root directory of a fresh partition. -/
def rootInode : Inode := (formatRootInode (formatSuperBlock 0 1000) fun _ => 0).setOpenCnts 1

theorem rootInode_one (k : ℕ) (hk : 0 < k) (hk' : k < 13) : rootInode.sector k = 0 := by
  have h : ∀ k < 13, 0 < k → rootInode.sector k = 0 := by decide +kernel
  exact h k hk' hk

theorem dirOk_rootFs : DirOk rootFs rootInode :=
  .of_direct layout_rootFs (by decide +kernel) (by decide +kernel) (by decide +kernel)
    (by decide +kernel) (by decide +kernel)

/-- The root directory with an entry for inode 1 after the first two. -/
def fileRoot : Inode := { rootInode with iSize := 72 }

/-- A small partition whose root directory holds a file. -/
def fileFs : Fs :=
  (rootFs.setDisk (storeEntry rootFs.disk (rootInode.sector 0) 2
    (DirEntry.toBytes ⟨[97], 1, ftRegular⟩))).setInode 0 (some fileRoot)

theorem dirOk_fileFs : DirOk fileFs fileRoot :=
  .of_direct layout_rootFs (by decide +kernel) (by decide +kernel) (by decide +kernel)
    (by decide +kernel) (by decide +kernel)

theorem liveSlots_fileFs : liveSlots fileFs.disk fileRoot = blockSlots fileFs.disk fileRoot 0 :=
  liveSlots_of_oneBlock rootInode_one

end Winx
