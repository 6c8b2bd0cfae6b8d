import Winx.Fs.Format
import Winx.Lib.Word

/-! # The inode table

On a partition laid out as `partition_format` does, the record of inode `n`
lies in the inode table at byte `108 * n`. Writing an inode back changes one
record and nothing else on the disk; because `inode_sync` narrows the number to
eight bits, that record is the one of the number modulo 256.
-/

namespace Winx

/-- The geometry of a formatted and mounted partition. -/
structure Layout (part : Partition) : Prop where
  blockBitmapLba : part.sb.blockBitmapLba.toNat = part.startLba.toNat + 2
  inodeBitmapLba : part.sb.inodeBitmapLba.toNat =
    part.sb.blockBitmapLba.toNat + part.sb.blockBitmapSects.toNat
  inodeTableLba : part.sb.inodeTableLba.toNat = part.sb.inodeBitmapLba.toNat + 1
  dataStartLba : part.sb.dataStartLba.toNat = part.sb.inodeTableLba.toNat + 864
  data_le_end : part.sb.dataStartLba.toNat ≤ part.startLba.toNat + part.secCnt.toNat
  end_le : part.startLba.toNat + part.secCnt.toNat ≤ maxLba.toNat + 1
  dirEntrySize : part.sb.dirEntrySize = 24
  rootInodeNo : part.sb.rootInodeNo = 0
  blockBitmap_len : part.blockBitmap.btmpBytesLen = 512 * part.sb.blockBitmapSects.toNat
  inodeBitmap_len : part.inodeBitmap.btmpBytesLen = 512

theorem Layout.setOpenInodes {part : Partition} (h : Layout part) (l : List ℕ) :
    Layout (part.setOpenInodes l) :=
  ⟨h.1, h.2, h.3, h.4, h.5, h.6, h.7, h.8, h.9, h.10⟩

theorem maxLba_toNat : maxLba.toNat = 163839 := rfl

theorem divRoundUp_toNat {x step : UInt32} (h₀ : 0 < step.toNat)
    (h : x.toNat + step.toNat < 2 ^ 32) :
    (divRoundUp x step).toNat = (x.toNat + step.toNat - 1) / step.toNat := by
  have hadd : (x + step).toNat = x.toNat + step.toNat := by
    rw [UInt32.toNat_add]
    exact Nat.mod_eq_of_lt h
  have hsub : (x + step - 1).toNat = x.toNat + step.toNat - 1 := by
    rw [UInt32.toNat_sub_of_le _ _ (by rw [UInt32.le_iff_toNat_le, hadd]; exact Nat.le_add_left_of_le h₀),
      hadd]
    rfl
  rw [divRoundUp, UInt32.toNat_div, hsub]

/-- The size of the block bitmap in sectors and in bits. -/
theorem blockBitmapSize_toNat {secCnt : UInt32} (hmin : 867 ≤ secCnt.toNat)
    (hmax : secCnt.toNat - 867 + 4096 < 2 ^ 32) :
    (blockBitmapSize secCnt).2.toNat =
        secCnt.toNat - 867 - (secCnt.toNat - 867 + 4095) / 4096 ∧
      (blockBitmapSize secCnt).1.toNat = ((blockBitmapSize secCnt).2.toNat + 4095) / 4096 := by
  have hused : (1 + 1 + divRoundUp 4096 4096 + divRoundUp (108 * 4096) 512 : UInt32) = 867 := by
    decide
  have hfree : (secCnt - 867).toNat = secCnt.toNat - 867 := by
    rw [UInt32.toNat_sub_of_le _ _ (by rw [UInt32.le_iff_toNat_le]; exact hmin)]
    rfl
  have hsects : (divRoundUp (secCnt - 867) 4096).toNat = (secCnt.toNat - 867 + 4095) / 4096 := by
    rw [divRoundUp_toNat (by decide) (by rw [hfree]; simp only [UInt32.reduceToNat]; omega), hfree]
    rfl
  have hlen : (blockBitmapSize secCnt).2.toNat =
      secCnt.toNat - 867 - (secCnt.toNat - 867 + 4095) / 4096 := by
    simp only [blockBitmapSize, hused]
    rw [UInt32.toNat_sub_of_le _ _ (by rw [UInt32.le_iff_toNat_le, hsects, hfree]; omega), hfree,
      hsects]
  refine ⟨hlen, ?_⟩
  rw [show (blockBitmapSize secCnt).1 = divRoundUp (blockBitmapSize secCnt).2 4096 from rfl,
    divRoundUp_toNat (by decide) (by rw [hlen]; simp only [UInt32.reduceToNat]; omega)]
  rfl

/-- The regions of a formatted partition follow each other. -/
theorem formatSuperBlock_regions (startLba : UInt32) {secCnt : UInt32} (hmin : 867 ≤ secCnt.toNat)
    (hmax : secCnt.toNat - 867 + 4096 < 2 ^ 32)
    (hfit : startLba.toNat + secCnt.toNat < 2 ^ 32) :
    (formatSuperBlock startLba secCnt).blockBitmapLba.toNat = startLba.toNat + 2 ∧
    (formatSuperBlock startLba secCnt).inodeBitmapLba.toNat =
      (formatSuperBlock startLba secCnt).blockBitmapLba.toNat +
        (formatSuperBlock startLba secCnt).blockBitmapSects.toNat ∧
    (formatSuperBlock startLba secCnt).inodeTableLba.toNat =
      (formatSuperBlock startLba secCnt).inodeBitmapLba.toNat + 1 ∧
    (formatSuperBlock startLba secCnt).dataStartLba.toNat =
      (formatSuperBlock startLba secCnt).inodeTableLba.toNat + 864 ∧
    (formatSuperBlock startLba secCnt).dataStartLba.toNat ≤ startLba.toNat + secCnt.toNat := by
  obtain ⟨hlen, hsects⟩ := blockBitmapSize_toNat hmin hmax
  have hone : divRoundUp 4096 4096 = 1 := by decide
  have htable : divRoundUp (108 * 4096) 512 = 864 := by decide
  let sb := formatSuperBlock startLba secCnt
  have h₁ : sb.blockBitmapLba.toNat = startLba.toNat + 2 :=
    Word.toNat_add (a := startLba) (b := 2) (by simp only [UInt32.reduceToNat]; omega)
  have h₂ : sb.inodeBitmapLba.toNat = sb.blockBitmapLba.toNat + sb.blockBitmapSects.toNat :=
    Word.toNat_add (a := sb.blockBitmapLba) (b := sb.blockBitmapSects)
      (by rw [h₁, show sb.blockBitmapSects.toNat = _ from hsects]; omega)
  have h₃ : sb.inodeTableLba.toNat = sb.inodeBitmapLba.toNat + 1 := by
    rw [show sb.inodeTableLba = sb.inodeBitmapLba + 1 by simp only [sb, formatSuperBlock, hone]]
    exact Word.toNat_add (by rw [h₂, h₁, show sb.blockBitmapSects.toNat = _ from hsects]; simp only [UInt32.reduceToNat]; omega)
  have h₄ : sb.dataStartLba.toNat = sb.inodeTableLba.toNat + 864 := by
    rw [show sb.dataStartLba = sb.inodeTableLba + 864 by simp only [sb, formatSuperBlock, htable]]
    exact Word.toNat_add (by rw [h₃, h₂, h₁, show sb.blockBitmapSects.toNat = _ from hsects]; simp only [UInt32.reduceToNat]; omega)
  have hend : sb.dataStartLba.toNat ≤ startLba.toNat + secCnt.toNat := by
    rw [h₄, h₃, h₂, h₁, show sb.blockBitmapSects.toNat = _ from hsects]
    omega
  exact ⟨h₁, h₂, h₃, h₄, hend⟩

/-- A partition that fits on the disk and has room for the root block is laid out so. -/
theorem layout_formattedPartition {startLba secCnt : UInt32} (hmin : 869 ≤ secCnt.toNat)
    (hfit : startLba.toNat + secCnt.toNat ≤ maxLba.toNat + 1) :
    Layout (formattedPartition startLba secCnt) := by
  have hfit' := hfit
  rw [maxLba_toNat] at hfit'
  obtain ⟨h₁, h₂, h₃, h₄, hend⟩ := formatSuperBlock_regions startLba
    (by omega : 867 ≤ secCnt.toNat) (by omega) (by omega)
  have hone : divRoundUp 4096 4096 = 1 := by decide
  have hlen₁ : (formattedPartition startLba secCnt).inodeBitmap.btmpBytesLen = 512 := by
    simp only [formattedPartition, formatSuperBlock, hone]
    rfl
  exact ⟨h₁, h₂, h₃, h₄, hend, hfit, rfl, rfl, Nat.mul_comm _ _, hlen₁⟩

/-- The byte of the disk where the record of an inode starts. -/
def recordOff (sb : SuperBlock) (n : ℕ) : ℕ := sb.inodeTableLba.toNat * 512 + sizeofInode * n

/-- The inode stored on the disk under a number. -/
def diskInode (disk : Bytes) (sb : SuperBlock) (n : ℕ) : Inode :=
  Inode.ofBytes (disk.window (recordOff sb n))

/-- Storing the record of an inode under a number. -/
def storeRecord (disk : Bytes) (sb : SuperBlock) (n : ℕ) (i : Inode) : Bytes :=
  disk.splice (recordOff sb n) sizeofInode i.pureInode.toBytes

variable {s : Fs} {E : Fault → Prop} {n : UInt32} {i : Inode}

/-- Where `inode_locate` finds the record of an inode. -/
theorem inodeLocate_spec {part : Partition} (hl : Layout part) (hn : n.toNat < 4096) :
    ∃ pos, inodeLocate part n = some pos ∧
      pos.secLba.toNat * 512 + pos.offSize.toNat = recordOff part.sb n.toNat ∧
      pos.offSize.toNat + sizeofInode ≤ pos.secCnt * 512 ∧ pos.secLba ≤ maxLba ∧
      pos.secLba ≤ part.startLba + part.secCnt := by
  have h₁ := hl.dataStartLba
  have h₂ := hl.data_le_end
  have h₃ := hl.end_le
  rw [maxLba_toNat] at h₃
  have hoff : (n * 108).toNat = n.toNat * 108 := by
    rw [UInt32.toNat_mul]
    exact Nat.mod_eq_of_lt (by simp only [UInt32.reduceToNat]; omega)
  have hlba : (part.sb.inodeTableLba + n * 108 / 512).toNat =
      part.sb.inodeTableLba.toNat + n.toNat * 108 / 512 := by
    rw [UInt32.toNat_add, UInt32.toNat_div, hoff]
    exact Nat.mod_eq_of_lt (by simp only [UInt32.reduceToNat]; omega)
  have hmod : (n * 108 % 512).toNat = n.toNat * 108 % 512 := by
    rw [UInt32.toNat_mod, hoff]
    rfl
  have hleft : (512 - n * 108 % 512).toNat = 512 - n.toNat * 108 % 512 := by
    rw [UInt32.toNat_sub_of_le _ _ (by rw [UInt32.le_iff_toNat_le, hmod]; simp only [UInt32.reduceToNat]; omega),
      hmod]
    rfl
  have hend : (part.startLba + part.secCnt).toNat = part.startLba.toNat + part.secCnt.toNat := by
    rw [UInt32.toNat_add]
    exact Nat.mod_eq_of_lt (by omega)
  refine ⟨_, if_neg ?_, ?_, ?_, ?_, ?_⟩
  · rw [gt_iff_lt, UInt32.lt_iff_toNat_lt]
    simp only [UInt32.reduceToNat]
    omega
  · simp only [hlba, hmod, recordOff, sizeofInode]
    omega
  · simp only [InodePosition.secCnt, UInt32.lt_iff_toNat_lt, hleft, hmod, sizeofInode,
      UInt32.reduceToNat, decide_eq_true_eq]
    split <;> omega
  · rw [UInt32.le_iff_toNat_le, hlba, maxLba_toNat]
    omega
  · rw [UInt32.le_iff_toNat_le, hlba, hend]
    omega

theorem InodePosition.secCnt_pos (pos : InodePosition) : 0 < pos.secCnt := by
  unfold secCnt; split <;> omega

theorem toNat_toUInt8_toUInt32 (n : UInt32) : n.toUInt8.toUInt32.toNat = n.toNat % 256 := by
  simp

/-- `inode_sync` stores the record of its number modulo 256. -/
theorem post_inodeSync (hl : Layout s.part) {Q : Unit → Fs → Prop} :
    Exec.Post (inodeSync i) s Q E ↔
      (s.mallocs 0 = true →
        Q () (s.tick.setDisk (storeRecord s.disk s.part.sb (i.iNo.toNat % 256) i))) ∧
      (s.mallocs 0 = false → E .badPointer) := by
  have hn : i.iNo.toUInt8.toUInt32.toNat < 4096 := by rw [toNat_toUInt8_toUInt32]; omega
  obtain ⟨pos, hpos, hoff, hfit, hmax, hend⟩ := inodeLocate_spec hl hn
  rw [toNat_toUInt8_toUInt32] at hoff
  have hpos' : inodeLocate s.part (i.iNo % 256) = some pos := by simpa using hpos
  cases hm : s.mallocs 0 <;>
    simp [inodeSync, sysMallocUnchecked, hpos', hend, hmax, hm, storeRecord, ← hoff,
      pos.secCnt_pos, pos.secCnt_pos.ne', Bytes.splice_window_splice hfit]

theorem returns_inodeSync (hl : Layout s.part) (hm : s.mallocs 0 = true) :
    Exec.Returns (inodeSync i) s fun _ s' => s'.part = s.part ∧
      s'.disk = storeRecord s.disk s.part.sb (i.iNo.toNat % 256) i :=
  (post_inodeSync hl).mpr ⟨fun _ => ⟨rfl, rfl⟩, fun h => by simp [hm] at h⟩

/-- `inode_open` of a number that is not on `open_inodes` brings in the stored inode. -/
theorem post_inodeLoad (hl : Layout s.part) (hn : n.toNat < 4096) {Q : ℕ → Fs → Prop} :
    Exec.Post (inodeLoad n) s Q E ↔
      (s.mallocs 0 = true ∧ s.mallocs 1 = true →
        Q s.nextInode
          ((s.tick.tick.setInode s.nextInode
            (some ((diskInode s.disk s.part.sb n.toNat).setOpenCnts 1))).bumpInode.setPart
              (s.part.setOpenInodes (s.nextInode :: s.part.openInodes)))) ∧
      (¬ (s.mallocs 0 = true ∧ s.mallocs 1 = true) → E .badPointer) := by
  obtain ⟨pos, hpos, hoff, hfit, hmax, -⟩ := inodeLocate_spec hl hn
  have hread : Inode.ofBytes ((Bytes.splice Bytes.zero 0 (pos.secCnt * 512)
      (s.disk.window (pos.secLba.toNat * 512))).window pos.offSize.toNat) =
      diskInode s.disk s.part.sb n.toNat := by
    apply Inode.ofBytes_congr
    intro j hj
    rw [Bytes.window_apply, Bytes.splice_apply_of_mem (by omega), Bytes.window_apply,
      Bytes.window_apply, ← hoff]
    exact congrArg s.disk (by omega)
  cases h₀ : s.mallocs 0 <;> cases h₁ : s.mallocs 1 <;>
    simp [inodeLoad, sysMallocUnchecked, newInode, pushOpenInode, hpos, hmax, pos.secCnt_pos,
      pos.secCnt_pos.ne', h₀, h₁, hread]

theorem diskInode_storeRecord_self (disk : Bytes) (sb : SuperBlock) (n : ℕ) (i : Inode) :
    diskInode (storeRecord disk sb n i) sb n = i.pureInode := by
  refine (Inode.ofBytes_congr fun j hj => ?_).trans (Inode.ofBytes_toBytes_pureInode i)
  rw [Bytes.window_apply, storeRecord, Bytes.splice_apply_of_mem (by omega)]
  exact congrArg _ (by omega)

theorem diskInode_storeRecord_of_ne (disk : Bytes) (sb : SuperBlock) {m n : ℕ} (i : Inode)
    (h : m ≠ n) : diskInode (storeRecord disk sb n i) sb m = diskInode disk sb m := by
  refine Inode.ofBytes_congr fun j hj => ?_
  rw [Bytes.window_apply, storeRecord, Bytes.splice_apply_of_not_mem]
  · rfl
  · simp only [recordOff, sizeofInode] at *
    omega

/-- The number, the size and the block numbers of two inodes agree. -/
def SameFile (i j : Inode) : Prop := i.iNo = j.iNo ∧ i.iSize = j.iSize ∧ i.iSectors = j.iSectors

/-- Any later `inode_open` of the number of `inode` that misses `open_inodes` while the disk is
that of `s` brings in `inode` again. -/
def ReadsBack (s : Fs) (inode : Inode) : Prop :=
  ∀ s' : Fs, s'.disk = s.disk → s'.part.sb = s.part.sb → Layout s'.part →
    findOpenInode s' inode.iNo = none →
    Exec.Ensures (inodeOpen inode.iNo) s' fun p s'' =>
      ∃ i, s''.inodes p = some i ∧ SameFile i inode

/-- Both disks hold the same record for every inode other than number `n`. -/
def OtherRecordsKept (s s' : Fs) (n : ℕ) : Prop :=
  ∀ m < 4096, m ≠ n → diskInode s'.disk s'.part.sb m = diskInode s.disk s.part.sb m

theorem sameFile_pureInode (i : Inode) : SameFile i.pureInode i := ⟨rfl, rfl, rfl⟩

/-- What comes in is what the disk stores. -/
theorem readsBack_iff (hl : Layout s.part) (hn : i.iNo.toNat < 4096) :
    ReadsBack s i ↔ SameFile (diskInode s.disk s.part.sb i.iNo.toNat) i := by
  constructor
  · intro h
    let s' := (s.setPart (s.part.setOpenInodes [])).withMallocs fun _ => true
    have hl' : Layout s'.part := ⟨hl.1, hl.2, hl.3, hl.4, hl.5, hl.6, hl.7, hl.8, hl.9, hl.10⟩
    have h' := h s' rfl rfl hl' rfl
    have hmiss : findOpenInode s' i.iNo = none := rfl
    simp only [inodeOpen, Exec.post_bind, Exec.post_get, hmiss, post_inodeLoad hl' hn] at h'
    obtain ⟨j, hj, hsame⟩ := h'.1 ⟨rfl, rfl⟩
    simp only [Fs.setPart_inodes, Fs.bumpInode_inodes, Fs.setInode_inodes, Function.update_self,
      Option.some.injEq] at hj
    subst hj
    exact hsame
  · intro h s' hd hsb hl' hmiss
    simp only [inodeOpen, Exec.post_bind, Exec.post_get, hmiss, post_inodeLoad hl' hn, hd, hsb]
    exact ⟨fun _ => ⟨(diskInode s.disk s.part.sb i.iNo.toNat).setOpenCnts 1, by simp, h⟩,
      fun _ => trivial⟩

/-- Writing back an inode and loading it again loses nothing and spares the other records exactly
for the numbers below 256, apart from writes that change nothing. -/
theorem inodeSync_roundTrip_iff {s' : Fs} (hl : Layout s.part) (hn : i.iNo.toNat < 4096)
    (h : inodeSync i s = .ok ((), s')) :
    (ReadsBack s' i ∧ OtherRecordsKept s s' i.iNo.toNat) ↔
      i.iNo.toNat < 256 ∨
        (SameFile (diskInode s.disk s.part.sb i.iNo.toNat) i ∧
          diskInode s.disk s.part.sb (i.iNo.toNat % 256) = i.pureInode) := by
  have hpost : Exec.Ensures (inodeSync i) s fun _ s' =>
      s'.part = s.part ∧ s'.disk = storeRecord s.disk s.part.sb (i.iNo.toNat % 256) i :=
    (post_inodeSync hl).mpr ⟨fun _ => ⟨rfl, rfl⟩, fun _ => trivial⟩
  obtain ⟨hpart, hdisk⟩ := hpost.of_ok h
  rw [readsBack_iff (hpart ▸ hl) hn, hpart, hdisk]
  unfold OtherRecordsKept
  rw [hpart, hdisk]
  rcases Nat.lt_or_ge i.iNo.toNat 256 with hlt | hge
  · rw [Nat.mod_eq_of_lt hlt, diskInode_storeRecord_self]
    refine iff_of_true ⟨sameFile_pureInode i, fun m _ hm => ?_⟩ (Or.inl hlt)
    exact diskInode_storeRecord_of_ne _ _ _ hm
  · have hne : i.iNo.toNat ≠ i.iNo.toNat % 256 := by omega
    rw [diskInode_storeRecord_of_ne _ _ _ hne]
    constructor
    · rintro ⟨hsame, hkept⟩
      have := hkept (i.iNo.toNat % 256) (by omega) hne.symm
      rw [diskInode_storeRecord_self] at this
      exact Or.inr ⟨hsame, this.symm⟩
    · rintro (hlt | ⟨hsame, hold⟩)
      · omega
      · refine ⟨hsame, fun m _ hm => ?_⟩
        rcases eq_or_ne m (i.iNo.toNat % 256) with rfl | hm'
        · rw [diskInode_storeRecord_self, hold]
        · exact diskInode_storeRecord_of_ne _ _ _ hm'

/-- An empty inode with the given number. -/
def emptyInode (n : UInt32) : Inode := inodeInit n zeroInode

/-- A blank disk whose only partition is mounted. -/
def mountedFs : Fs := (Fs.unmounted Bytes.zero).setPart (formattedPartition 63 1000)

theorem layout_mountedFs : Layout mountedFs.part :=
  layout_formattedPartition (by decide) (by decide)

/-- A small partition after it is formatted and mounted, with the root directory open. -/
def rootFs : Fs :=
  { Fs.unmounted (Bytes.zero.splice ((formattedPartition 0 1000).sb.dataStartLba.toNat * 512) 512
      (dotEntries 0 0)) with
    part := (formattedPartition 0 1000).setOpenInodes [0]
    inodes := fun p => if p = 0 then
      some ((formatRootInode (formatSuperBlock 0 1000) fun _ => 0).setOpenCnts 1) else none
    nextInode := 1 }

theorem layout_rootFs : Layout rootFs.part :=
  let h : Layout (formattedPartition 0 1000) := layout_formattedPartition (by decide) (by decide)
  ⟨h.1, h.2, h.3, h.4, h.5, h.6, h.7, h.8, h.9, h.10⟩

/-- An inode with number 5 makes the round trip. -/
theorem inodeSync_roundTrip_five : ∃ s', inodeSync (emptyInode 5) mountedFs = .ok ((), s') ∧
    ReadsBack s' (emptyInode 5) ∧ OtherRecordsKept mountedFs s' 5 := by
  obtain ⟨_, s', h, -⟩ :=
    Exec.returns_iff.mp (returns_inodeSync (i := emptyInode 5) layout_mountedFs rfl)
  exact ⟨s', h, (inodeSync_roundTrip_iff layout_mountedFs (by decide) h).mpr (Or.inl (by decide))⟩

/-- An inode with number 256 does not: its record replaces that of inode 0. -/
theorem inodeSync_loses_256 : ∃ s', inodeSync (emptyInode 256) mountedFs = .ok ((), s') ∧
    ¬ (ReadsBack s' (emptyInode 256) ∧ OtherRecordsKept mountedFs s' 256) := by
  obtain ⟨_, s', h, hpart, hdisk⟩ :=
    Exec.returns_iff.mp (returns_inodeSync (i := emptyInode 256) layout_mountedFs rfl)
  refine ⟨s', h, ?_⟩
  rintro ⟨hback, -⟩
  rw [readsBack_iff (hpart ▸ layout_mountedFs) (by decide), hpart, hdisk,
    diskInode_storeRecord_of_ne _ _ _ (by decide)] at hback
  have hno : (diskInode mountedFs.disk mountedFs.part.sb 256).iNo = 256 := hback.1
  exact absurd hno (by decide)

end Winx
