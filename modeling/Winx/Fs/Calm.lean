import Winx.Fs.DirDelete
import Winx.Fs.Visit

/-! # Code that stops at null pointers only

Most of what a call does after its tests cannot fail an assertion, nor leave a bitmap
or the disk: it returns, or it follows a null pointer where it got no memory. It needs
for this only the geometry of the partition, which no call changes, and that the
blocks it frees are blocks.
-/

namespace Winx

/-- Two partitions have the same geometry. -/
structure Partition.Alike (part part' : Partition) : Prop where
  startLba : part'.startLba = part.startLba
  secCnt : part'.secCnt = part.secCnt
  sb : part'.sb = part.sb
  blockLen : part'.blockBitmap.btmpBytesLen = part.blockBitmap.btmpBytesLen
  inodeLen : part'.inodeBitmap.btmpBytesLen = part.inodeBitmap.btmpBytesLen

/-- The code returns or follows a null pointer, and keeps the geometry. -/
def Calm {α : Type} (x : FsM α) (s : Fs) : Prop :=
  Exec.Post x s (fun _ s' => s.part.Alike s'.part) (· = .badPointer)

/-- The blocks that an inode holds can be freed. -/
structure Releasable (s : Fs) (i : Inode) : Prop where
  block : ∀ c, slotLba s.disk i c ≠ 0 → ∃ j, IsBlock s.part (slotLba s.disk i c) j
  table : i.sector 12 ≤ maxLba

variable {s u : Fs} {part part' part'' : Partition} {no lba : UInt32} {p j : ℕ} {i : Inode} {dir : DirPtr}
  {α β : Type} {x : FsM α} {f : α → FsM β}

namespace Partition.Alike

theorem refl (part : Partition) : part.Alike part := ⟨rfl, rfl, rfl, rfl, rfl⟩

theorem trans (h : part.Alike part') (h' : part'.Alike part'') : part.Alike part'' :=
  ⟨h'.1.trans h.1, h'.2.trans h.2, h'.3.trans h.3, h'.4.trans h.4, h'.5.trans h.5⟩

theorem layout (h : part.Alike part') (hl : Layout part) : Layout part' := by
  obtain ⟨h₁, h₂, h₃, h₄, h₅⟩ := h
  constructor
  all_goals simp only [h₁, h₂, h₃, h₄, h₅]
  · exact hl.blockBitmapLba
  · exact hl.inodeBitmapLba
  · exact hl.inodeTableLba
  · exact hl.dataStartLba
  · exact hl.data_le_end
  · exact hl.end_le
  · exact hl.dirEntrySize
  · exact hl.rootInodeNo
  · exact hl.blockBitmap_len
  · exact hl.inodeBitmap_len

theorem isBlock (h : part.Alike part') : IsBlock part' lba j ↔ IsBlock part lba j := by
  rw [IsBlock, IsBlock, h.sb, h.blockLen]

end Partition.Alike

section Rules

theorem Calm.bind (h : Calm x s) (hf : ∀ a s', s.part.Alike s'.part → Calm (f a) s') :
    Calm (x >>= f) s := by
  refine Exec.Post.bind h fun a s' hs' => ?_
  apply (hf a s' hs').mono
  · exact fun _ _ h' => hs'.trans h'
  · exact fun _ => id

theorem calm_pure (a : α) : Calm (pure a) s := .refl _

theorem Calm.ite {c : Prop} [Decidable c] {y : FsM α} (h : c → Calm x s) (h' : ¬ c → Calm y s) :
    Calm (if c then x else y) s := by
  split
  · exact h ‹_›
  · exact h' ‹_›

theorem calm_sysMalloc : Calm sysMalloc s := by
  rw [Calm, post_sysMalloc]
  exact .refl _

theorem calm_sysMallocUnchecked : Calm sysMallocUnchecked s := by
  rw [Calm, post_sysMallocUnchecked]
  exact ⟨fun _ => .refl _, fun _ => rfl⟩

theorem calm_derefInode (p : ℕ) : Calm (derefInode p) s := by
  rw [Calm, post_derefInode]
  exact ⟨fun _ _ => .refl _, fun _ => rfl⟩

theorem calm_storeInode (p : ℕ) (i : Inode) : Calm (storeInode p i) s := by
  rw [Calm, post_storeInode]
  exact .refl _

theorem calm_derefDir (dir : DirPtr) : Calm (derefDir dir) s := by
  rw [Calm, post_derefDir]
  exact ⟨fun _ _ => .refl _, fun _ => rfl⟩

theorem calm_runningThread : Calm runningThread s := by
  rw [Calm, runningThread, Exec.post_bind, Exec.post_get, post_deref]
  exact ⟨fun _ _ => .refl _, fun _ => rfl⟩

theorem calm_inodeClose (p : ℕ) : Calm (inodeClose p) s := by
  refine (calm_derefInode p).bind fun i u _ => ?_
  refine (calm_storeInode p _).bind fun _ v _ => ?_
  exact Calm.ite (fun _ => ⟨rfl, rfl, rfl, rfl, rfl⟩) fun _ => calm_pure _

theorem calm_dirClose (dir : DirPtr) : Calm (dirClose dir) s := by
  cases dir with
  | rootDir => exact calm_pure _
  | heap a =>
    refine (calm_derefDir _).bind fun dir u _ => ?_
    refine (calm_inodeClose _).bind fun _ v _ => ?_
    exact .refl _

theorem calm_pushOpenInode (p : ℕ) : Calm (pushOpenInode p) s := ⟨rfl, rfl, rfl, rfl, rfl⟩

theorem calm_pcbFdInstall (globalFdIdx : ℕ) : Calm (pcbFdInstall globalFdIdx) s := by
  refine calm_runningThread.bind fun cur u _ => ?_
  split
  · exact .refl _
  · exact calm_pure _

end Rules

section Opening

theorem alike_openInode : s.part.Alike (s.openInode no i).part := by
  obtain ⟨l, hpart⟩ := @openInode_part s no i
  rw [hpart]
  exact ⟨rfl, rfl, rfl, rfl, rfl⟩

theorem calm_inodeOpen (hl : Layout s.part) (hn : no.toNat < 4096) : Calm (inodeOpen no) s := by
  rw [Calm, post_inodeOpen hl hn]
  exact ⟨fun _ => alike_openInode, fun _ => rfl⟩

theorem calm_dirOpen (hl : Layout s.part) (hn : no.toNat < 4096) : Calm (dirOpen no) s := by
  rw [Calm, post_dirOpen hl hn]
  exact ⟨fun _ => alike_openInode, fun _ => rfl⟩

theorem calm_fileOpen (hl : Layout s.part) (hn : no.toNat < 4096) (flag : UInt32) :
    Calm (fileOpen no flag) s := by
  rw [fileOpen, getFreeSlotInGlobal, bind_assoc, Calm, Exec.post_bind, Exec.post_get, pure_bind]
  split
  · exact calm_pure _
  · refine (calm_inodeOpen hl hn).bind fun p u _ => ?_
    rw [Calm, Exec.post_bind, Exec.post_modify]
    split
    · refine (calm_derefInode p).bind fun inode v _ => ?_
      split
      · exact calm_pure _
      · exact (calm_storeInode p _).bind fun _ _ _ => calm_pcbFdInstall _
    · exact calm_pcbFdInstall _

end Opening

section Syncing

theorem calm_inodeSync (hl : Layout s.part) (i : Inode) : Calm (inodeSync i) s := by
  rw [Calm, post_inodeSync hl]
  exact ⟨fun _ => .refl _, fun _ => rfl⟩

theorem calm_clearInodeBit (hl : Layout s.part) (hn : no.toNat < 4096) : Calm (clearInodeBit no) s := by
  have hlen := hl.inodeBitmap_len
  rw [Calm, clearInodeBit, Exec.post_bind, Exec.post_get, Exec.post_bind, post_inBounds]
  exact ⟨fun _ => ⟨rfl, rfl, rfl, rfl, rfl⟩, fun hbad => absurd hn (by omega)⟩

theorem calm_inodeBitmapSync (hl : Layout s.part) (hn : no.toNat < 4096) :
    Calm (bitmapSync no .inodeBitmap) s := by
  have hsec : no / 4096 = 0 := by
    rw [← UInt32.toNat_inj, UInt32.toNat_div]
    exact Nat.div_eq_of_lt hn
  have h₁ := hl.inodeTableLba
  have h₂ := hl.dataStartLba
  have h₃ := hl.data_le_end
  have h₄ := hl.end_le
  simp only [Calm, bitmapSync, Exec.post_bind, Exec.post_get, post_ideWrite, hsec, UInt32.add_zero,
    Nat.zero_lt_one, and_true]
  refine ⟨fun _ => .refl _, fun hbad => absurd ?_ hbad⟩
  rw [UInt32.le_iff_toNat_le]
  omega

theorem calm_freeBlock (hl : Layout s.part) (hj : IsBlock s.part lba j) : Calm (freeBlock lba) s := by
  have hidx : (lba - s.part.sb.dataStartLba).toNat = j := by
    have := hj.2
    rw [Word.toNat_sub (by omega)]
    omega
  simp only [Calm, freeBlock, clearBlockBit, Exec.post_bind, Exec.post_get, post_inBounds,
    Exec.post_set, hidx]
  refine ⟨fun _ => ?_, fun hbad => absurd hj.1 hbad⟩
  have hsync := bitmapSync_block_spec
    (s := s.setPart (s.part.setBlockBitmap (s.part.blockBitmap.set j false)))
    (hl.setBlockBitmap rfl) ((isBlock_setBlockBitmap rfl).mpr hj)
  refine hsync.post fun _ v hv => ?_
  obtain ⟨d, rfl, -⟩ := hv
  exact ⟨rfl, rfl, rfl, rfl, rfl⟩

end Syncing

section Release

theorem calm_inodeDelete (hl : Layout s.part) (hn : no.toNat < 4096) : Calm (inodeDelete no) s := by
  obtain ⟨pos, hpos, -, -, hmax, -⟩ := inodeLocate_spec hl hn
  rw [inodeDelete]
  split
  · exact calm_pure _
  · simp only [Calm, Exec.post_bind, Exec.post_get, post_deref, hpos, Option.some.injEq, forall_eq',
      reduceCtorEq, false_implies, and_true, Exec.post_ite, Exec.post_pure, post_ideRead,
      post_ideWrite, hmax, pos.secCnt_pos, not_true_eq_false, true_implies, implies_true]
    exact ⟨fun _ => .refl _, fun _ => .refl _⟩

/-- The loop of `inode_release` frees what is there of the blocks. -/
theorem calm_releaseBlocks (hl : Layout s.part) {allBlocks : ℕ → UInt32} (n k : ℕ)
    (hblocks : ∀ l, allBlocks l ≠ 0 → ∃ j, IsBlock s.part (allBlocks l) j) :
    Calm (releaseBlocks allBlocks n k) s := by
  induction n generalizing s k with
  | zero => exact calm_pure _
  | succ n ih =>
    rw [releaseBlocks]
    have hrest (u : Fs) (hu : s.part.Alike u.part) : Calm (releaseBlocks allBlocks n (k + 1)) u := by
      refine ih (hu.layout hl) (k + 1) fun l h0 => ?_
      obtain ⟨j, hj⟩ := hblocks l h0
      exact ⟨j, hu.isBlock.mpr hj⟩
    refine Calm.ite (fun h0 => ?_) fun _ => hrest s (.refl _)
    obtain ⟨j, hj⟩ := hblocks k h0
    exact (calm_freeBlock hl hj).bind fun _ => hrest

/-- `inode_release` frees the inode if its blocks are blocks. -/
theorem calm_inodeRelease (hl : Layout s.part) (hn : no.toNat < 4096)
    (hi : Releasable s (curInode s no.toNat)) : Calm (inodeRelease no) s := by
  have hend (w : Fs) (hw : s.part.Alike w.part) (p : ℕ) : Calm (do
      clearInodeBit no
      bitmapSync no .inodeBitmap
      sysMallocUnchecked
      inodeDelete no
      inodeClose p) w := by
    have hlw := hw.layout hl
    refine (calm_clearInodeBit hlw hn).bind fun _ w₁ h₁ => ?_
    have hl₁ := h₁.layout hlw
    refine (calm_inodeBitmapSync hl₁ hn).bind fun _ w₂ h₂ => ?_
    have hl₂ := h₂.layout hl₁
    refine calm_sysMallocUnchecked.bind fun _ w₃ h₃ => ?_
    exact (calm_inodeDelete (h₃.layout hl₂) hn).bind fun _ _ _ => calm_inodeClose _
  rw [inodeRelease, Calm, Exec.post_bind, post_inodeOpen hl hn]
  refine ⟨fun _ => ?_, fun _ => rfl⟩
  obtain ⟨n, hobj⟩ := openInode_inodes (s := s) no
  have hu : s.part.Alike (s.openInode no (s.stored no)).part := alike_openInode
  have hdisk : (s.openInode no (s.stored no)).disk = s.disk := openInode_disk
  generalize hv : (s.openInode no (s.stored no)).withMallocs
    (fun n => s.mallocs (n + (s.openCost no - 1))) = v
  have hpart : s.part.Alike v.part := by rw [← hv]; exact hu
  have hvdisk : v.disk = s.disk := by rw [← hv]; exact hdisk
  rw [Exec.post_bind, post_derefInode, ← hv]
  refine ⟨fun i hi' => ?_, fun _ => rfl⟩
  obtain rfl := Option.some.inj (hobj.symm.trans hi')
  rw [hv]
  have hlv := hpart.layout hl
  have htable : ((curInode s no.toNat).setOpenCnts n).sector 12 ≤ maxLba := hi.table
  generalize hcur : (curInode s no.toNat).setOpenCnts n = i at htable ⊢
  have hblock (c : Slot) (h0 : slotLba v.disk i c ≠ 0) (w : Fs) (hw : v.part.Alike w.part) :
      ∃ j, IsBlock w.part (slotLba v.disk i c) j := by
    rw [hvdisk, ← hcur] at h0 ⊢
    obtain ⟨j, hj⟩ := hi.block c h0
    exact ⟨j, (hpart.trans hw).isBlock.mpr hj⟩
  suffices h : Calm (do
      let allBlocks ← loadBlocks i
      if i.sector 12 ≠ 0 then
        freeBlock (i.sector 12)
        releaseBlocks allBlocks 140 0
      else
        releaseBlocks allBlocks 12 0
      clearInodeBit no
      bitmapSync no .inodeBitmap
      sysMallocUnchecked
      inodeDelete no
      inodeClose (s.openedAt no)) v from h.mono (fun _ _ hw => hpart.trans hw) fun _ => id
  rw [Calm, Exec.post_bind, post_loadBlocks_table htable]
  have hrelease (n : ℕ) (w : Fs) (hw : v.part.Alike w.part) :
      Calm (releaseBlocks (blockLba v.disk i) n 0) w :=
    calm_releaseBlocks (hw.layout hlv) _ _ fun l h0 => hblock (.block l) h0 w hw
  refine Calm.ite (fun h0 => ?_) fun _ => ?_
  · obtain ⟨j, hj⟩ := hblock .table h0 v (.refl _)
    refine (calm_freeBlock hlv hj).bind fun _ w hw => ?_
    exact (hrelease 140 w hw).bind fun _ w' hw' => hend w' ((hpart.trans hw).trans hw') _
  · exact (hrelease 12 v (.refl _)).bind fun _ w hw => hend w (hpart.trans hw) _

end Release

end Winx
