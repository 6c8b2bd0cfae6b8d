import Winx.Fs.DirEmpty
import Winx.Fs.MkdirFailures

/-! # New directories

`sys_mkdir` leaves a block with the entries `.` and `..` and a record that names
it. When the directory is opened it is tidy, so `dir_is_empty` is right from then
on. The record of a number past 255 goes to another inode, though.
-/

namespace Winx

/-- The block at a sector is marked used and holds the first two entries of a directory. -/
structure BlockMade (s : Fs) (no lba : UInt32) (j : ℕ) : Prop where
  block : IsBlock s.part lba j
  used : s.part.blockBitmap.scanTest j = true
  le : lba ≤ maxLba
  entries : ∃ parent, ∀ x < 512, s.disk (lba.toNat * 512 + x) = dotEntries no parent x

/-- The inode is that of a directory with the first two entries in the block at a sector. -/
structure NewInode (i : Inode) (lba : UInt32) : Prop where
  size : i.iSize = 48
  sector : ∀ k, i.sector k = if k = 0 then lba else 0

variable {s u : Fs} {d : Bytes} {i i' : Inode} {b : Bitmap} {p k m j : ℕ} {no lba parent : UInt32}
  {dir : DirPtr} {o : Dir} {S : Set ℕ}

section Block

theorem NewInode.blockLba (h : NewInode i lba) : blockLba d i k = if k = 0 then lba else 0 := by
  by_cases hk : k < 12
  · rw [blockLba_of_lt hk, h.sector]
  · rw [Winx.blockLba, if_neg hk, if_neg (show k ≠ 0 by omega), if_pos]
    exact Or.inl (h.sector 12)

theorem NewInode.slotLba {c : Slot} (h : NewInode i lba) (h0 : slotLba d i c ≠ 0) :
    c = .block 0 ∧ slotLba d i c = lba := by
  cases c with
  | table => exact absurd (h.sector 12) h0
  | block k =>
    change Winx.blockLba d i k ≠ 0 at h0
    change _ ∧ Winx.blockLba d i k = lba
    rw [h.blockLba] at h0 ⊢
    by_cases hk : k = 0
    · rw [if_pos hk, hk]
      exact ⟨rfl, rfl⟩
    · exact absurd (if_neg hk) h0

/-- The entries of the block. -/
theorem slotEntry_dotEntries (hd : ∀ x < 512, d (lba.toNat * 512 + x) = dotEntries no parent x)
    (hm : m < entrysPerSec) : slotEntry d lba m =
      if m = 0 then ⟨dot, no, ftDirectory⟩ else if m = 1 then ⟨dotDot, parent, ftDirectory⟩
      else DirEntry.ofBytes Bytes.zero := by
  have hdirectory : ftDirectory ≠ ftUnknown := by decide
  have hentry (e : Bytes) (he : ∀ n < sizeofDirEntry, dotEntries no parent (24 * m + n) = e n) :
      slotEntry d lba m = DirEntry.ofBytes e := by
    refine DirEntry.ofBytes_congr fun n hn => ?_
    simp only [entrysPerSec, sizeofDirEntry] at hm hn ⊢
    rw [Bytes.window_apply, Nat.add_assoc, hd _ (by omega), he n hn]
  split
  · rename_i h0
    subst h0
    have hproper : DirEntry.Proper ⟨dot, no, ftDirectory⟩ :=
      ⟨show dot.length < 16 by decide, show 0 ∉ dot by decide, hdirectory⟩
    refine (hentry _ fun n hn => ?_).trans hproper.ofBytes_toBytes
    simp only [sizeofDirEntry] at hn
    rw [dotEntries, Bytes.splice_apply_of_not_mem (by simp only [sizeofDirEntry]; omega),
      Bytes.splice_apply_of_mem (by simp only [sizeofDirEntry]; omega), Nat.mul_zero, Nat.zero_add,
      Nat.sub_zero]
    rfl
  · split
    · rename_i h1
      subst h1
      have hproper : DirEntry.Proper ⟨dotDot, parent, ftDirectory⟩ :=
        ⟨show dotDot.length < 16 by decide, show 0 ∉ dotDot by decide, hdirectory⟩
      refine (hentry _ fun n hn => ?_).trans hproper.ofBytes_toBytes
      simp only [sizeofDirEntry] at hn
      rw [dotEntries, Bytes.splice_apply_of_mem (by simp only [sizeofDirEntry]; omega), Nat.mul_one,
        sizeofDirEntry, Nat.add_sub_cancel_left]
      rfl
    · refine hentry _ fun n hn => ?_
      rw [dotEntries, Bytes.splice_apply_of_not_mem (by simp only [sizeofDirEntry]; omega),
        Bytes.splice_apply_of_not_mem (by simp only [sizeofDirEntry]; omega)]
      rfl

/-- A directory with the block is tidy. -/
theorem BlockMade.tidy (h : BlockMade s no lba j) (hl : Layout s.part) (hi : NewInode i lba) :
    TidyDir s i := by
  obtain ⟨parent, hd⟩ := h.entries
  have hne : lba ≠ 0 := hl.block_ne_zero h.block
  have hdirectory : ftDirectory ≠ ftUnknown := by decide
  have hblock0 : blockLba s.disk i 0 = lba := hi.blockLba
  have hentry {m : ℕ} (hm : m < entrysPerSec) : entryAt s.disk i (0, m) =
      if m = 0 then ⟨dot, no, ftDirectory⟩ else if m = 1 then ⟨dotDot, parent, ftDirectory⟩
      else DirEntry.ofBytes Bytes.zero := by
    rw [entryAt, hblock0]
    exact slotEntry_dotEntries hd hm
  have hzero {k : ℕ} (h0 : blockLba s.disk i k ≠ 0) : k = 0 :=
    Slot.block.inj (hi.slotLba (c := .block k) h0).1
  have hlive (a : ℕ × ℕ) : a ∈ liveSlots s.disk i ↔ a = (0, 0) ∨ a = (0, 1) := by
    rw [mem_liveSlots]
    constructor
    · rintro ⟨-, h0, hm, hlive⟩
      obtain ⟨k, m⟩ := a
      obtain rfl : k = 0 := hzero h0
      rw [hentry hm] at hlive
      by_cases hm0 : m = 0
      · exact Or.inl (by rw [hm0])
      by_cases hm1 : m = 1
      · exact Or.inr (by rw [hm1])
      rw [if_neg hm0, if_neg hm1] at hlive
      exact absurd rfl hlive
    · rintro (rfl | rfl)
      · exact ⟨by decide, hblock0 ▸ hne, by decide, by rw [hentry (by decide)]; exact hdirectory⟩
      · exact ⟨by decide, hblock0 ▸ hne, by decide, by rw [hentry (by decide)]; exact hdirectory⟩
  have hdot : (entryAt s.disk i (0, 0)).filename = dot := by
    rw [hentry (by decide)]
    rfl
  have hdotDot : (entryAt s.disk i (0, 1)).filename = dotDot := by
    rw [hentry (by decide)]
    rfl
  refine ⟨⟨⟨hl, ⟨fun k _ => ?_, ?_⟩, fun c h0 => ?_, fun c c' h0 heq => ?_, fun k _ h0 m hm hfree => ?_⟩,
    ?_, fun a ha hdd => ?_⟩, ⟨0, (hlive _).mpr (Or.inl rfl), hdot⟩,
    ⟨1, (hlive _).mpr (Or.inr rfl), hdotDot⟩, fun a ha c hc _ hname => ?_, fun k h0 => ?_, fun h12 => ?_⟩
  · rw [hi.blockLba]
    split
    · exact h.le
    · exact UInt32.zero_le
  · rw [hi.sector]
    exact UInt32.zero_le
  · rw [(hi.slotLba h0).2]
    exact ⟨j, h.block, h.used⟩
  · have h0' : slotLba s.disk i c' ≠ 0 := heq ▸ h0
    rw [(hi.slotLba h0).1, (hi.slotLba h0').1]
  · obtain rfl := hzero h0
    rw [hentry hm] at hfree ⊢
    split at hfree
    · exact absurd hfree hdirectory
    · split at hfree
      · exact absurd hfree hdirectory
      · rename_i hm0 hm1
        rw [if_neg hm0, if_neg hm1]
        rfl
  · have hperm : (liveSlots s.disk i).Perm [(0, 0), (0, 1)] :=
      (List.perm_ext_iff_of_nodup nodup_liveSlots (by decide)).mpr fun a => by
        rw [hlive, List.mem_cons, List.mem_singleton]
    rw [liveEntries, List.length_map, hperm.length_eq, hi.size]
    rfl
  · rcases (hlive a).mp ha with rfl | rfl
    · rw [hdot] at hdd
      exact absurd hdd (by decide)
    · exact ⟨(0, 0), (hlive _).mpr (Or.inl rfl), rfl, hdot⟩
  · rcases (hlive a).mp ha with rfl | rfl
    · rcases (hlive c).mp hc with rfl | rfl
      · rfl
      · rw [hdot, hdotDot] at hname
        exact absurd hname (by decide)
    · rcases (hlive c).mp hc with rfl | rfl
      · rw [hdot, hdotDot] at hname
        exact absurd hname (by decide)
      · rfl
  · exact ⟨(0, 0), (hlive _).mpr (Or.inl rfl), (hzero h0).symm⟩
  · exact absurd (hi.sector 12) h12

/-- What keeps the block and its bit keeps the new directory. -/
theorem BlockMade.frame (h : BlockMade s no lba j) (hsb : u.part.sb = s.part.sb)
    (hlen : u.part.blockBitmap.btmpBytesLen = s.part.blockBitmap.btmpBytesLen)
    (hbit : u.part.blockBitmap.scanTest j = true)
    (hd : ∀ x ∈ sectorArea lba, u.disk x = s.disk x) : BlockMade u no lba j := by
  obtain ⟨parent, hentries⟩ := h.entries
  refine ⟨?_, hbit, h.le, parent, fun x hx => ?_⟩
  · rw [IsBlock, hsb, hlen]
    exact h.block
  · rw [hd _ ?_, hentries x hx]
    rw [sectorArea, Set.mem_ofPred_eq]
    omega

end Block

section Parent

/-- What leaves the blocks of a directory and their bits alone leaves the directory. -/
theorem DirBlocks.grow_of_eqOutside (p : ℕ) (b : Bitmap) (i' : Inode) (h : DirBlocks s i)
    (hlen : b.btmpBytesLen = s.part.blockBitmap.btmpBytesLen)
    (hbits : ∀ j, s.part.blockBitmap.scanTest j = true → b.scanTest j = true)
    (hd : Bytes.EqOutside S s.disk d)
    (hS : ∀ c, slotLba s.disk i c ≠ 0 → ∀ x ∈ sectorArea (slotLba s.disk i c), x ∉ S) :
    DirBlocks (s.grow p d b i') i ∧ (∀ c, slotLba d i c = slotLba s.disk i c) ∧
      ∀ k, FullBlock d i k ↔ FullBlock s.disk i k := by
  have hslot (c : Slot) : slotLba d i c = slotLba s.disk i c := slotLba_eq hd (fun h12 => hS .table h12) c
  have hblock (k : ℕ) : blockLba d i k = blockLba s.disk i k := hslot (.block k)
  have hentry {k m : ℕ} (h0 : blockLba s.disk i k ≠ 0) (hm : m < entrysPerSec) :
      entryAt d i (k, m) = entryAt s.disk i (k, m) := by
    rw [entryAt, hblock]
    exact slotEntry_eq hd (hS (.block k) h0) hm
  refine ⟨⟨h.layout.setBlockBitmap hlen, ⟨fun k hk => ?_, h.readable.table⟩, fun c h0 => ?_,
    fun c c' h0 heq => ?_, fun k hk h0 m hm hfree => ?_⟩, hslot, fun k => ?_⟩
  · change blockLba d i k ≤ maxLba
    rw [hblock]
    exact h.readable.block k hk
  · change slotLba d i c ≠ 0 at h0
    simp only [Fs.grow_disk, Fs.grow_part, isBlock_setBlockBitmap hlen, hslot,
      Partition.setBlockBitmap_blockBitmap] at h0 ⊢
    obtain ⟨j, hj, hset⟩ := h.used c h0
    exact ⟨j, hj, hbits j hset⟩
  · change slotLba d i c ≠ 0 at h0
    change slotLba d i c = slotLba d i c' at heq
    rw [hslot] at h0 heq
    rw [hslot] at heq
    exact h.inj c c' h0 heq
  · change blockLba d i k ≠ 0 at h0
    change (entryAt d i (k, m)).fType = ftUnknown at hfree
    change (entryAt d i (k, m)).filename = []
    rw [hblock] at h0
    rw [hentry h0 hm] at hfree ⊢
    exact h.blank k hk h0 m hm hfree
  · rw [FullBlock, FullBlock, hblock]
    refine and_congr_right fun h0 => forall₂_congr fun m hm => ?_
    rw [hentry h0 hm]

/-- The block of the new directory is filled. -/
theorem mkdirBlock_made (h : DirBlocks s i) (hdir : s.dirOf dir = some o)
    (hi : s.inodes o.inode = some i) (name : List UInt8) :
    Exec.Ensures (mkdirBlock dir name no) s fun r v => ∀ newDirInode dir' e,
      r = some (newDirInode, dir', e) → dir' = o ∧ newDirInode.iNo = no ∧
        ∃ lba j d b, NewInode newDirInode lba ∧ v = s.grow o.inode d b i ∧ BlockMade v no lba j ∧
          DirBlocks v i ∧ (∀ c, slotLba v.disk i c ≠ lba) ∧
          ∀ k, FullBlock v.disk i k ↔ FullBlock s.disk i k := by
  have hl := h.layout
  rw [Exec.Ensures, mkdirBlock, Exec.post_bind, Exec.post_get, Exec.post_bind,
    post_blockBitmapAlloc]
  refine ⟨fun _ => by simp, fun j hj => ?_⟩
  obtain ⟨hlt, hclear, -⟩ := Bitmap.scan_one_eq_some_iff.mp hj
  have hblock := hl.isBlock hlt
  generalize s.part.sb.dataStartLba + UInt32.ofNat j = lba at hblock ⊢
  dsimp only
  rw [Exec.post_bind, post_assert]
  refine ⟨fun _ => ?_, fun _ => trivial⟩
  have hsync := bitmapSync_block_spec
    (s := s.setPart (s.part.setBlockBitmap (s.part.blockBitmap.set j true)))
    (hl.setBlockBitmap rfl) ((isBlock_setBlockBitmap rfl).mpr hblock)
  refine Exec.Post.bind hsync.ensures fun _ u hu => ?_
  obtain ⟨d, rfl, hd⟩ := hu
  have hdir' : ((s.setPart (s.part.setBlockBitmap (s.part.blockBitmap.set j true))).setDisk d).dirOf
      dir = some o := by
    rw [← hdir]
    cases dir <;> rfl
  rw [Exec.post_bind, post_derefDir, hdir']
  refine ⟨fun o' ho' => ?_, by simp⟩
  obtain rfl := Option.some.inj ho'
  rw [Exec.post_bind, post_derefInode]
  refine ⟨fun i' hi' => ?_, fun _ => trivial⟩
  obtain rfl : i = i' := Option.some.inj (hi.symm.trans hi')
  rw [Exec.post_bind, post_ideWrite]
  refine ⟨fun hmax => ?_, fun _ => trivial⟩
  refine Exec.Post.bind (createDirEntry_same _ _ _) fun e v hv => ?_
  subst hv
  rintro newDirInode dir' e' heq
  obtain ⟨rfl, hrest⟩ := Prod.mk.inj (Option.some.inj heq)
  obtain ⟨rfl, rfl⟩ := Prod.mk.inj hrest
  have hne (c : Slot) (h0 : slotLba s.disk i c ≠ 0) : slotLba s.disk i c ≠ lba := by
    intro heq
    obtain ⟨j', hj', hset⟩ := h.used c h0
    rw [heq] at hj'
    rw [hj'.unique hblock, hclear] at hset
    cases hset
  have hd' : Bytes.EqOutside (bitmapArea s.part ∪ sectorArea lba) s.disk
      (d.splice (lba.toNat * 512) (1 * 512) (dotEntries no i.iNo)) := by
    refine (hd.mono Set.subset_union_left).trans (Bytes.eqOutside_splice fun x hx hx' => Or.inr ?_)
    rw [sectorArea, Set.mem_ofPred_eq]
    omega
  have hgrow : ((s.setPart (s.part.setBlockBitmap (s.part.blockBitmap.set j true))).setDisk d).setDisk
      (d.splice (lba.toNat * 512) (1 * 512) (dotEntries no i.iNo)) =
      s.grow o.inode (d.splice (lba.toNat * 512) (1 * 512) (dotEntries no i.iNo))
        (s.part.blockBitmap.set j true) i := by
    have hsame : Function.update s.inodes o.inode (some i) = s.inodes := by
      rw [← hi, Function.update_eq_self]
    simp only [Fs.grow, Fs.setDisk, Fs.setPart, Fs.setInode, hsame]
  obtain ⟨hparent, hslot, hfull⟩ := h.grow_of_eqOutside o.inode
    (s.part.blockBitmap.set j true) i rfl
    (fun j' hset => by
      rw [Bitmap.scanTest_set]
      split
      · rfl
      · exact hset)
    hd' fun c h0 x hx hin => by
      rcases hin with hin | hin
      · exact h.not_mem_bitmapArea h0 x hx hin
      · exact sectorArea_disjoint (hne c h0) x hx hin
  refine ⟨rfl, rfl, lba, j, _, _, ⟨?_, fun k => ?_⟩, hgrow, ?_, hgrow ▸ hparent, fun c => ?_, hfull⟩
  · change 2 * s.part.sb.dirEntrySize = 48
    rw [hl.dirEntrySize]
    rfl
  · change Inode.sector ((inodeInit no (junkInode s.junk)).setSector 0 lba) k = _
    rw [Inode.sector_setSector]
    by_cases hk : k = 0
    · rw [if_pos ⟨hk, by omega⟩, if_pos hk]
    · rw [if_neg fun hk' => hk hk'.1, if_neg hk, Inode.sector]
      split
      · rfl
      · rfl
  · refine ⟨(isBlock_setBlockBitmap rfl).mpr hblock, ?_, hmax.1, i.iNo, fun x hx => ?_⟩
    · change (s.part.blockBitmap.set j true).scanTest j = true
      rw [Bitmap.scanTest_set, if_pos rfl]
    · change d.splice (lba.toNat * 512) (1 * 512) (dotEntries no i.iNo) (lba.toNat * 512 + x) = _
      rw [Bytes.splice_apply_of_mem (by omega), Nat.add_sub_cancel_left]
  · change slotLba (d.splice (lba.toNat * 512) (1 * 512) (dotEntries no i.iNo)) i c ≠ lba
    rw [hslot]
    intro heq
    refine hne c (fun h0 => ?_) heq
    exact hl.block_ne_zero hblock (heq.symm.trans h0)

end Parent

/-- The disk holds an empty directory under a number: its block, and a record that names it. -/
structure DirMade (s : Fs) (no lba : UInt32) (j : ℕ) : Prop extends BlockMade s no lba j where
  layout : Layout s.part
  record : NewInode (diskInode s.disk s.part.sb no.toNat) lba

section Made

/-- What only changes the list of open inodes in the partition keeps the directory. -/
theorem DirMade.same (h : DirMade s no lba j) (hd : u.disk = s.disk) {l : List ℕ}
    (hpart : u.part = s.part.setOpenInodes l) : DirMade u no lba j := by
  refine ⟨h.frame ?_ ?_ ?_ fun x _ => by rw [hd], ?_, ?_⟩
  · rw [hpart]
    rfl
  · rw [hpart]
    rfl
  · rw [hpart]
    exact h.used
  · rw [hpart]
    exact h.layout.setOpenInodes l
  · rw [hd, hpart]
    exact h.record

/-- Writing an inode back does not touch the block. -/
theorem BlockMade.inodeSync (h : BlockMade s no lba j) (hl : Layout s.part) (i : Inode) :
    Exec.Ensures (inodeSync i) s fun _ u => u.part = s.part ∧ u.inodes = s.inodes ∧
      BlockMade u no lba j ∧ u.disk = storeRecord s.disk s.part.sb (i.iNo.toNat % 256) i := by
  rw [Exec.Ensures, post_inodeSync hl]
  refine ⟨fun _ => ⟨rfl, rfl, h.frame rfl rfl h.used fun x hx => ?_, rfl⟩, fun _ => trivial⟩
  exact eqOutside_storeRecord hl (by omega) x (sectorArea_inodeTable h.block.le x hx)

end Made

section Runs

variable {s₁ s₂ : Fs} {pathname : List UInt8}

end Runs

theorem Restored.disk (hu : Restored s.tick u) : u.disk = s.disk := by
  obtain ⟨a, b, f, rfl⟩ := hu
  rfl

end Winx
