import Winx.Fs.Alloc
import Winx.Fs.OpenFailures

/-! # What a failed `mkdir` leaves

`sys_mkdir` takes an inode number and a block before it writes the entry of the
new directory. Its rollback gives back the number, but not the block. So it
undoes everything unless the entry finds no place.
-/

namespace Winx

/-- Among `n` blocks from block `k` on there is no place for an entry, and none can be made. -/
def Fs.NoPlace (s : Fs) (f : ℕ → UInt32) : ℕ → ℕ → Prop
  | 0, _ => True
  | n + 1, k =>
    if f k = 0 then
      s.part.blockBitmap.freeCnt = 0 ∨ k = 12 ∧ s.part.blockBitmap.freeCnt = 1
    else f k ≤ maxLba ∧ findFree (sectorBuf s.disk (f k)) (dirEntrysPerSec s) 0 = none ∧
      s.NoPlace f n (k + 1)

/-- There is no place for an entry in the blocks that `sync_dir_entry` knows of a directory. -/
def Fs.DirFull (s : Fs) (dir : DirPtr) : Prop := ∃ o i, s.dirOf dir = some o ∧
  s.inodes o.inode = some i ∧ i.iSize % s.part.sb.dirEntrySize = 0 ∧
    s.NoPlace (fun k => if k < 12 then i.sector k else s.junk k) 140 0

variable {s u v : Fs} {p k : ℕ} {i : Inode} {e : DirEntry} {f : ℕ → UInt32} {dir : DirPtr}

section Sync

/-- What an entry that finds no place leaves. -/
def Unplaced (s : Fs) (p : ℕ) (u : Fs) : Prop := ∃ d i, u = (s.setDisk d).setInode p (some i)

theorem Unplaced.refl (hi : s.inodes p = some i) : Unplaced s p s := by
  refine ⟨s.disk, i, ?_⟩
  simp only [Fs.setDisk, Fs.setInode, ← hi, Function.update_eq_self]

/-- Extending the directory fails when there are not enough free blocks. -/
theorem extendDir_fails (hl : Layout s.part) (hi : s.inodes p = some i)
    (hfree : s.part.blockBitmap.freeCnt = 0 ∨ k = 12 ∧ s.part.blockBitmap.freeCnt = 1) :
    Exec.Returns (extendDir p e k f) s fun r u => r = false ∧ Unplaced s p u := by
  rw [Exec.Returns, extendDir, Exec.post_bind, Exec.post_get, Exec.post_bind,
    post_blockBitmapAlloc]
  refine ⟨fun _ => ⟨rfl, .refl hi⟩, fun j hj => ?_⟩
  obtain ⟨hlt, hclear, -⟩ := Bitmap.scan_one_eq_some_iff.mp hj
  have hcnt := Bitmap.freeCnt_set hlt hclear
  obtain ⟨rfl, hone⟩ : k = 12 ∧ s.part.blockBitmap.freeCnt = 1 := by
    rcases hfree with hzero | hone
    · omega
    · exact hone
  have hnone : (s.part.blockBitmap.set j true).scan 1 = none := by
    rw [Bitmap.scan_one_eq_none_iff_freeCnt]
    omega
  have hblock := hl.isBlock hlt
  generalize s.part.sb.dataStartLba + UInt32.ofNat j = lba at hblock ⊢
  have hidx : (lba - s.part.sb.dataStartLba).toNat = j := by
    have := hblock.2
    rw [Word.toNat_sub (by omega)]
    omega
  have hsync := bitmapSync_block_spec
    (s := s.setPart (s.part.setBlockBitmap (s.part.blockBitmap.set j true)))
    (hl.setBlockBitmap rfl) ((isBlock_setBlockBitmap rfl).mpr hblock)
  refine Exec.Returns.bind hsync fun _ u hu => ?_
  obtain ⟨d, rfl, -⟩ := hu
  simp only [Exec.post_bind, post_derefInode, Fs.setDisk_inodes, Fs.setPart_inodes, hi,
    Option.some.injEq, forall_eq', reduceCtorEq, false_implies, and_true, Nat.lt_irrefl, if_false,
    if_true, post_storeInode, post_blockBitmapAlloc, Fs.setInode_part, Fs.setDisk_part,
    Fs.setPart_part, Partition.setBlockBitmap_blockBitmap, hnone, true_implies, clearBlockBit,
    Exec.post_get, post_inBounds, hidx, Bitmap.set_btmpBytesLen, hlt, not_true_eq_false,
    Exec.post_set, Exec.post_pure, true_and, implies_true]
  refine ⟨d, i.setSector 12 0, ?_⟩
  simp only [Fs.setInode, Fs.setPart, Fs.setDisk, Partition.setBlockBitmap, Function.update_idem,
    Bitmap.set_true_set_false hclear]

/-- With enough free blocks it does not fail. -/
theorem extendDir_true
    (hfree : ¬ (s.part.blockBitmap.freeCnt = 0 ∨ k = 12 ∧ s.part.blockBitmap.freeCnt = 1)) :
    Exec.Ensures (extendDir p e k f) s fun r _ => r = true := by
  rw [Exec.Ensures, extendDir, Exec.post_bind, Exec.post_get, Exec.post_bind,
    post_blockBitmapAlloc]
  refine ⟨fun hnone => ?_, fun j hj => ?_⟩
  · exact absurd (.inl (Bitmap.scan_one_eq_none_iff_freeCnt.mp hnone)) hfree
  · obtain ⟨hlt, hclear, -⟩ := Bitmap.scan_one_eq_some_iff.mp hj
    have hcnt := Bitmap.freeCnt_set hlt hclear
    have hsame : Exec.Ensures (bitmapSync (s.part.sb.dataStartLba + UInt32.ofNat j -
        s.part.sb.dataStartLba) .blockBitmap)
        (s.setPart (s.part.setBlockBitmap (s.part.blockBitmap.set j true)))
        fun _ u => u.part.blockBitmap = s.part.blockBitmap.set j true :=
      (bitmapSync_part _ _).mono fun _ u hu => by
        rw [hu.1]
        rfl
    refine Exec.Post.bind hsame fun _ u hu => ?_
    refine Exec.Post.bind derefInode_same fun inode u₂ h₂ => ?_
    obtain ⟨rfl, -⟩ := h₂
    split
    · rw [Exec.post_bind, post_storeInode]
      exact writeFirstEntry_true
    · split
      · rename_i hk
        rw [Exec.post_bind, post_storeInode, Exec.post_bind, post_blockBitmapAlloc]
        refine ⟨fun hnone => ?_, fun j' _ => ?_⟩
        · rw [Fs.setInode_part, hu, Bitmap.scan_one_eq_none_iff_freeCnt] at hnone
          exact absurd (.inr ⟨hk, by omega⟩) hfree
        · refine Exec.Post.bind Exec.ensures_true fun _ _ _ => ?_
          exact Exec.Post.bind Exec.ensures_true fun _ _ _ => writeFirstEntry_true
      · exact Exec.Post.bind Exec.ensures_true fun _ _ _ => writeFirstEntry_true

theorem syncBlocks_fails (hl : Layout s.part) (hi : s.inodes p = some i) (n k : ℕ)
    (hfull : s.NoPlace f n k) :
    Exec.Returns (syncBlocks p e f n k) s fun r u => r = false ∧ Unplaced s p u := by
  induction n generalizing k with
  | zero => exact ⟨rfl, .refl hi⟩
  | succ n ih =>
    rw [Fs.NoPlace] at hfull
    rw [Exec.Returns, syncBlocks, Exec.post_bind, Exec.post_get]
    split
    · rename_i h0
      rw [if_pos h0] at hfull
      exact extendDir_fails hl hi hfull
    · rename_i h0
      rw [if_neg h0] at hfull
      obtain ⟨hmax, hnone, hrest⟩ := hfull
      rw [Exec.post_bind, post_readBlock hmax, hnone]
      exact ih (k + 1) hrest

theorem syncBlocks_true (n k : ℕ) (hplace : ¬ s.NoPlace f n k) :
    Exec.Ensures (syncBlocks p e f n k) s fun r _ => r = true := by
  induction n generalizing k with
  | zero => exact absurd trivial hplace
  | succ n ih =>
    rw [Fs.NoPlace] at hplace
    rw [Exec.Ensures, syncBlocks, Exec.post_bind, Exec.post_get]
    split
    · rename_i h0
      rw [if_pos h0] at hplace
      exact extendDir_true hplace
    · rename_i h0
      rw [if_neg h0] at hplace
      by_cases hmax : f k ≤ maxLba
      · rw [Exec.post_bind, post_readBlock hmax]
        split
        · refine Exec.Post.bind Exec.ensures_true fun _ _ _ => ?_
          exact Exec.Post.bind Exec.ensures_true fun _ _ _ => rfl
        · rename_i hnone
          exact ih (k + 1) fun hrest => hplace ⟨hmax, hnone, hrest⟩
      · rw [Exec.post_bind, post_ideRead]
        exact ⟨fun h => absurd h.1 hmax, fun _ => trivial⟩

/-- `sync_dir_entry` fails where there is no place. -/
theorem syncDirEntry_fails (hl : Layout s.part) (hfull : s.DirFull dir) :
    Exec.Returns (syncDirEntry dir e) s fun r u => r = false ∧
      ∃ o i, s.dirOf dir = some o ∧ s.inodes o.inode = some i ∧ Unplaced s o.inode u := by
  obtain ⟨o, i, ho, hi, hmod, hnone⟩ := hfull
  rw [Exec.Returns, syncDirEntry]
  simp only [Exec.post_bind, Exec.post_get, post_derefDir, ho, Option.some.injEq, forall_eq',
    reduceCtorEq, false_implies, and_true, post_derefInode, hi, post_assert, hmod, true_implies,
    not_true_eq_false]
  exact (syncBlocks_fails hl hi 140 0 hnone).mono fun r u hu => ⟨hu.1, o, i, rfl, hi, hu.2⟩

/-- `sync_dir_entry` does not fail where there is a place. -/
theorem syncDirEntry_true (hplace : ¬ s.DirFull dir) :
    Exec.Ensures (syncDirEntry dir e) s fun r _ => r = true := by
  rw [Exec.Ensures, syncDirEntry, Exec.post_bind, Exec.post_get, Exec.post_bind, post_derefDir]
  refine ⟨fun o ho => ?_, fun _ => trivial⟩
  rw [Exec.post_bind, post_derefInode]
  refine ⟨fun i hi => ?_, fun _ => trivial⟩
  rw [Exec.post_bind, post_assert]
  exact ⟨fun hmod => syncBlocks_true (f := fun k => if k < 12 then i.sector k else s.junk k) 140 0
    fun hnone => hplace ⟨o, i, ho, hi, hmod, hnone⟩, fun _ => trivial⟩

end Sync

/-- The part of `sys_mkdir` that looks up the path: the parent directory and the name, or `none` where
it returns `-1`. -/
def mkdirTarget (pathname : List UInt8) : FsM (Option (DirPtr × List UInt8)) := do
  let ok ← sysMalloc
  if ok then
    let (inodeNo, record) ← searchFile pathname
    if inodeNo ≠ -1 then
      dirClose record.parentDir
      pure none
    else
      let pathnameDepth ← pathDepthCnt pathname
      let pathSearchedDepth ← pathDepthCnt record.searchedPath
      if pathnameDepth ≠ pathSearchedDepth then
        dirClose record.parentDir
        pure none
      else
        let dirname ← afterLastSlash record.searchedPath
        pure (some (record.parentDir, dirname))
  else pure none

/-- The part of `sys_mkdir` that fills the block of the new directory: its inode, the parent's handle
and the new entry, or `none` where there is no block. -/
def mkdirBlock (parentDir : DirPtr) (dirname : List UInt8) (inodeNo : UInt32) :
    FsM (Option (Inode × Dir × DirEntry)) := do
  let s ← get
  let newDirInode := inodeInit inodeNo (junkInode s.junk)
  match ← blockBitmapAlloc with
  | none => pure none
  | some blockLba =>
    let blockBitmapIdx := blockLba - s.part.sb.dataStartLba
    assert (blockBitmapIdx ≠ 0)
    bitmapSync blockBitmapIdx .blockBitmap
    let dir ← derefDir parentDir
    let parentInode ← derefInode dir.inode
    ideWrite blockLba (dotEntries inodeNo parentInode.iNo) 1
    let newDirInode :=
      { newDirInode.setSector 0 blockLba with iSize := 2 * s.part.sb.dirEntrySize }
    let newDirEntry ← createDirEntry dirname inodeNo ftDirectory
    pure (some (newDirInode, dir, newDirEntry))

/-- The part of `sys_mkdir` that writes the new entry and both inodes. -/
def mkdirEntry (parentDir : DirPtr) (inodeNo : UInt32) :
    Option (Inode × Dir × DirEntry) → FsM Bool
  | none => pure false
  | some (newDirInode, dir, newDirEntry) => do
    let ok ← syncDirEntry parentDir newDirEntry
    if ok then
      let parentInode ← derefInode dir.inode
      inodeSync parentInode
      inodeSync newDirInode
      bitmapSync inodeNo .inodeBitmap
      pure true
    else pure false

/-- The part of `sys_mkdir` after the path is looked up. -/
def mkdirRun : Option (DirPtr × List UInt8) → FsM Int
  | none => pure (-1)
  | some (parentDir, dirname) => do
    match ← inodeBitmapAlloc with
    | none =>
      dirClose parentDir
      pure (-1)
    | some inodeNo =>
      let block ← mkdirBlock parentDir dirname inodeNo
      let ok ← mkdirEntry parentDir inodeNo block
      if ok then
        dirClose parentDir
        pure 0
      else
        clearInodeBit inodeNo
        dirClose parentDir
        pure (-1)

section Parts

theorem mkdirInode_eq (parentDir : DirPtr) (dirname : List UInt8) (inodeNo : UInt32) :
    mkdirInode parentDir dirname inodeNo =
      mkdirBlock parentDir dirname inodeNo >>= mkdirEntry parentDir inodeNo := by
  rw [mkdirInode, mkdirBlock, bind_assoc]
  refine bind_congr fun s => ?_
  rw [bind_assoc]
  refine bind_congr fun blockLba => ?_
  cases blockLba with
  | none => rfl
  | some blockLba =>
    dsimp only
    rw [bind_assoc]
    refine bind_congr fun _ => ?_
    rw [bind_assoc]
    refine bind_congr fun _ => ?_
    rw [bind_assoc]
    refine bind_congr fun dir => ?_
    rw [bind_assoc]
    refine bind_congr fun parentInode => ?_
    rw [bind_assoc]
    refine bind_congr fun _ => ?_
    rw [bind_assoc]
    rfl

theorem sysMkdir_eq (pathname : List UInt8) :
    sysMkdir pathname = mkdirTarget pathname >>= mkdirRun := by
  rw [sysMkdir, mkdirTarget, bind_assoc]
  refine bind_congr fun ok => ?_
  split
  · rw [bind_assoc]
    refine bind_congr fun found => ?_
    dsimp only
    split
    · rw [bind_assoc]
      rfl
    · rw [bind_assoc]
      refine bind_congr fun pathnameDepth => ?_
      rw [bind_assoc]
      refine bind_congr fun pathSearchedDepth => ?_
      split
      · rw [bind_assoc]
        rfl
      · rw [bind_assoc]
        refine bind_congr fun dirname => ?_
        rw [pure_bind, mkdirRun]
        refine bind_congr fun bit => ?_
        cases bit with
        | none => rfl
        | some inodeNo =>
          dsimp only
          rw [mkdirInode_eq, bind_assoc]
  · rfl

end Parts

/-- A `sys_mkdir` that fails changes nothing. -/
def FailedMkdirUndone (s : Fs) (pathname : List UInt8) : Prop :=
  ∀ u, sysMkdir pathname s = .ok (-1, u) → NothingOpened s u

/-- When the new directory has its number and its block, its entry finds no place in the parent. -/
def MkdirStuck (s : Fs) (pathname : List UInt8) : Prop := ∃ dir name u no u' block v,
  mkdirTarget pathname s = .ok (some (dir, name), u) ∧ inodeBitmapAlloc u = .ok (some no, u') ∧
    mkdirBlock dir name no u' = .ok (some block, v) ∧ v.DirFull dir

section Calls

variable {no : UInt32} {j : ℕ} {o : Dir}

/-- Looking up the path leaves at most the parent directory open. -/
theorem mkdirTarget_visiting (hs : Openable s.tick) (pathname : List UInt8) :
    Exec.Ensures (mkdirTarget pathname) s fun r u =>
      match r with
      | none => Restored s.tick u
      | some (dir, _) => Visiting s.tick dir u := by
  have hrefuse {dir : DirPtr} {u : Fs} (h : Visiting s.tick dir u) :
      Exec.Ensures (do dirClose dir; pure none) u fun (r : Option (DirPtr × List UInt8)) v =>
        match r with
        | none => Restored s.tick v
        | some (dir, _) => Visiting s.tick dir v :=
    Exec.Post.bind (h.ensures_close hs) fun _ v hv => hv
  rw [Exec.Ensures, mkdirTarget, Exec.post_bind, post_sysMalloc]
  split
  · refine Exec.Post.bind (searchFile_visiting hs pathname) fun found u hu => ?_
    dsimp only
    split
    · exact hrefuse hu
    · refine Exec.Post.bind (pathDepthCnt_same _) fun pathnameDepth u₂ h₂ => ?_
      subst h₂
      refine Exec.Post.bind (pathDepthCnt_same _) fun pathSearchedDepth u₃ h₃ => ?_
      subst h₃
      split
      · exact hrefuse hu
      · exact Exec.Post.bind (afterLastSlash_same _) fun dirname v hv => hv ▸ hu
  · exact .refl s.tick

/-- Filling the block of the new directory takes one block, if there is one. -/
theorem mkdirBlock_spec (hl : Layout s.part) (name : List UInt8) :
    Exec.Ensures (mkdirBlock dir name no) s fun r v =>
      (r = none → v = s) ∧ (r ≠ none → ∃ j d, s.part.blockBitmap.scanTest j = false ∧
        v = (s.setPart (s.part.setBlockBitmap (s.part.blockBitmap.set j true))).setDisk d) := by
  rw [Exec.Ensures, mkdirBlock, Exec.post_bind, Exec.post_get, Exec.post_bind,
    post_blockBitmapAlloc]
  refine ⟨fun _ => ⟨fun _ => rfl, fun h => absurd rfl h⟩, fun j hj => ?_⟩
  obtain ⟨hlt, hclear, -⟩ := Bitmap.scan_one_eq_some_iff.mp hj
  have hblock := hl.isBlock hlt
  generalize s.part.sb.dataStartLba + UInt32.ofNat j = lba at hblock ⊢
  dsimp only
  rw [Exec.post_bind, post_assert]
  refine ⟨fun _ => ?_, fun _ => trivial⟩
  have hsync := bitmapSync_block_spec
    (s := s.setPart (s.part.setBlockBitmap (s.part.blockBitmap.set j true)))
    (hl.setBlockBitmap rfl) ((isBlock_setBlockBitmap rfl).mpr hblock)
  refine Exec.Post.bind hsync.ensures fun _ u hu => ?_
  obtain ⟨d, rfl, -⟩ := hu
  refine Exec.Post.bind (derefDir_same _) fun o u₂ h₂ => ?_
  subst h₂
  refine Exec.Post.bind derefInode_same fun parentInode u₃ h₃ => ?_
  obtain ⟨rfl, -⟩ := h₃
  rw [Exec.post_bind, post_ideWrite]
  refine ⟨fun _ => ?_, fun _ => trivial⟩
  refine Exec.Post.bind (createDirEntry_same _ _ _) fun entry u₄ h₄ => ?_
  subst h₄
  exact ⟨by simp, fun _ => ⟨j, _, hclear, rfl⟩⟩

/-- Closing a directory frees no block. -/
theorem dirClose_blockBitmap (ho : s.dirOf dir = some o) (hi : s.inodes o.inode = some i) :
    Exec.Returns (dirClose dir) s fun _ u => u.part.blockBitmap = s.part.blockBitmap := by
  cases dir with
  | rootDir => rfl
  | heap a =>
    simp only [dirClose, Exec.Returns, Exec.post_bind, post_derefDir, ho, inodeClose,
      post_derefInode, hi, post_storeInode, modifyThread, Exec.post_modify, Exec.post_ite,
      Option.some.injEq, forall_eq', reduceCtorEq, false_implies, and_true]
    exact ⟨fun _ => rfl, fun _ => rfl⟩

/-- If the entry finds a place, a failure undoes everything. -/
theorem mkdirRun_undone (hs : Openable s) (hl : Layout s.part) (h : Visiting s dir u)
    (name : List UInt8) (hplace : ∀ no u' block v, inodeBitmapAlloc u = .ok (some no, u') →
      mkdirBlock dir name no u' = .ok (some block, v) → ¬ v.DirFull dir) :
    Exec.Ensures (mkdirRun (some (dir, name))) u fun r w => r = -1 → NothingOpened s w := by
  have hclose {r : Int} : Exec.Ensures (do dirClose dir; pure r) u
      fun r w => r = -1 → NothingOpened s w :=
    Exec.Post.bind (h.ensures_close hs) fun _ w hw _ => hw.nothingOpened
  rw [Exec.Ensures, mkdirRun, Exec.post_bind, post_inodeBitmapAlloc]
  refine ⟨fun _ => hclose, fun j hj => ?_⟩
  have halloc : inodeBitmapAlloc u = .ok (some (UInt32.ofNat j), u.takeNumber j) := by
    rw [Exec.eq_ok_iff, Exec.Returns, post_inodeBitmapAlloc, hj]
    exact ⟨by simp, fun j' hj' => by rw [← Option.some.inj hj']; exact ⟨rfl, rfl⟩⟩
  have hlu := h.layout hl
  refine Exec.Post.bind ((mkdirBlock_spec hlu.takeNumber name).and
    (Exec.ensures_iff.mpr fun r v hrun => hrun)) fun block v hv => ?_
  obtain ⟨⟨hnone, -⟩, hrun⟩ := hv
  cases block with
  | none =>
    rw [hnone rfl, mkdirEntry, pure_bind, if_neg Bool.false_ne_true]
    refine Exec.Post.bind (clearInodeBit_taken hlu hj) fun _ w hw => ?_
    rw [hw]
    exact hclose
  | some block =>
    have htrue : Exec.Ensures (mkdirEntry dir (UInt32.ofNat j) (some block)) v
        fun ok _ => ok = true := by
      refine Exec.Post.bind (syncDirEntry_true (hplace _ _ _ _ halloc hrun)) fun ok w hok => ?_
      rw [if_pos hok]
      refine Exec.Post.bind Exec.ensures_true fun _ _ _ => ?_
      refine Exec.Post.bind Exec.ensures_true fun _ _ _ => ?_
      refine Exec.Post.bind Exec.ensures_true fun _ _ _ => ?_
      exact Exec.Post.bind Exec.ensures_true fun _ _ _ => rfl
    refine Exec.Post.bind htrue fun ok w hok => ?_
    rw [if_pos hok]
    exact Exec.Post.bind Exec.ensures_true fun _ _ _ => by simp

/-- If the entry finds no place, the block stays taken. -/
theorem mkdirRun_stuck (hl : Layout s.part) (h : Visiting s dir u) {name : List UInt8} {u' : Fs}
    {block : Inode × Dir × DirEntry} (halloc : inodeBitmapAlloc u = .ok (some no, u'))
    (hblock : mkdirBlock dir name no u' = .ok (some block, v)) (hfull : v.DirFull dir) :
    Exec.Returns (mkdirRun (some (dir, name))) u fun r w => r = -1 ∧ ¬ NothingOpened s w := by
  have hlu := h.layout hl
  obtain ⟨-, -, -, l, hpart⟩ := h.same
  obtain ⟨n, hn, rfl, rfl⟩ : ∃ n, u.part.inodeBitmap.scan 1 = some n ∧ no = UInt32.ofNat n ∧
      u' = u.takeNumber n := by
    rw [Exec.eq_ok_iff, Exec.Returns, post_inodeBitmapAlloc] at halloc
    cases hscan : u.part.inodeBitmap.scan 1 with
    | none => cases (halloc.1 hscan).1
    | some n =>
      obtain ⟨hno, hu'⟩ := halloc.2 n hscan
      exact ⟨n, rfl, (Option.some.inj hno).symm, hu'.symm⟩
  obtain ⟨hn, -, -⟩ := Bitmap.scan_one_eq_some_iff.mp hn
  obtain ⟨j, d, hclear, rfl⟩ := ((mkdirBlock_spec hlu.takeNumber name).of_ok hblock).2 (by simp)
  have hlv : Layout (((u.takeNumber n).setPart ((u.takeNumber n).part.setBlockBitmap
      ((u.takeNumber n).part.blockBitmap.set j true))).setDisk d).part :=
    hlu.takeNumber.setBlockBitmap rfl
  rw [Exec.Returns, mkdirRun, Exec.post_bind_of_ok halloc]
  dsimp only
  rw [Exec.post_bind_of_ok hblock, mkdirEntry, bind_assoc]
  refine Exec.Returns.bind (syncDirEntry_fails hlv hfull) fun ok w hw => ?_
  obtain ⟨rfl, o, i, ho, -, d', i', rfl⟩ := hw
  have hidx : (UInt32.ofNat n).toNat < 8 * u.part.inodeBitmap.btmpBytesLen := by
    rw [hlu.inodeBitmap_len] at hn
    rw [Word.toNat_ofNat (by omega), hlu.inodeBitmap_len]
    exact hn
  rw [if_neg Bool.false_ne_true, pure_bind, if_neg Bool.false_ne_true, clearInodeBit]
  simp only [Exec.post_bind, Exec.post_get, post_inBounds, Exec.post_set]
  refine ⟨fun _ => ?_, fun hout => hout hidx⟩
  refine Exec.Returns.post (dirClose_blockBitmap (o := o) (i := i') ?_ ?_)
    fun _ w hw => ⟨rfl, fun hno => ?_⟩
  · exact ho
  · exact Function.update_self ..
  have hset := hno.blockBitmap
  rw [hw] at hset
  have hbit : (u.part.blockBitmap.set j true).scanTest j = s.part.blockBitmap.scanTest j :=
    congrArg (fun b => b.scanTest j) hset
  have hold : u.part.blockBitmap.scanTest j = false := hclear
  rw [hpart] at hold
  rw [Bitmap.scanTest_set, if_pos rfl] at hbit
  exact absurd (hbit.trans hold) (by simp)

end Calls

/-- A call of `sys_mkdir` that fails changes nothing, unless the entry finds no place after the block
is taken. -/
theorem failedMkdirUndone_iff (hs : Openable s) (hl : Layout s.part) (pathname : List UInt8) :
    FailedMkdirUndone s pathname ↔ ¬ MkdirStuck s pathname := by
  have hs' : Openable s.tick := ⟨hs.running, hs.dirs, hs.inode_lt, hs.opened⟩
  have hl' : Layout s.tick.part := hl
  have hvisit := mkdirTarget_visiting hs' pathname
  have htick {u : Fs} : NothingOpened s u ↔ NothingOpened s.tick u :=
    ⟨fun h => ⟨h.1, h.2, h.3, h.4, h.5, h.6, h.7⟩, fun h => ⟨h.1, h.2, h.3, h.4, h.5, h.6, h.7⟩⟩
  rw [FailedMkdirUndone, sysMkdir_eq]
  constructor
  · rintro hundone ⟨dir, name, u, no, u', block, v, htarget, halloc, hblock, hfull⟩
    obtain ⟨r, w, hrun, rfl, hnot⟩ := Exec.returns_iff.mp
      (mkdirRun_stuck hl' (hvisit.of_ok htarget) halloc hblock hfull)
    exact hnot (htick.mp (hundone w ((Exec.bind_eq_ok htarget).trans hrun)))
  · intro hstuck w hw
    have hundone : Exec.Ensures (mkdirTarget pathname >>= mkdirRun) s
        fun r w => r = -1 → NothingOpened s.tick w := by
      refine Exec.Post.bind (hvisit.and (Exec.ensures_iff.mpr fun r u hrun => hrun))
        fun target u hu => ?_
      obtain ⟨hu, htarget⟩ := hu
      cases target with
      | none => exact fun _ => hu.nothingOpened
      | some x =>
        exact mkdirRun_undone hs' hl' hu x.2 fun no u' block v halloc hblock hfull =>
          hstuck ⟨x.1, x.2, u, no, u', block, v, htarget, halloc, hblock, hfull⟩
    exact htick.mpr (hundone.of_ok hw rfl)

/-- The block of a directory with its first two entries and nineteen files. -/
def crowdedBlock : Bytes :=
  Bytes.splice (fun x => if x < 504 then
    DirEntry.toBytes ⟨[97 + UInt8.ofNat (x / 24)], UInt32.ofNat (x / 24 - 1), ftRegular⟩ (x % 24)
    else 0) 0 48 (dotEntries 0 0)

/-- The root directory when its block is full. -/
def crowdedRoot : Inode := { rootInode with iSize := 504 }

/-- A small partition with one free block left, and none of its entries. -/
def crowdedFs : Fs :=
  ((rootFs.setDisk (rootFs.disk.splice ((rootInode.sector 0).toNat * 512) 512 crowdedBlock)).setPart
    ((rootFs.part.setBlockBitmap ⟨512, fun b => if b = 1 then 254 else 255⟩).setInodeBitmap
      (rootFs.part.inodeBitmap.setRun 1 true 19))).setInode 0 (some crowdedRoot)

theorem layout_crowdedFs : Layout crowdedFs.part :=
  let h := layout_rootFs
  ⟨h.1, h.2, h.3, h.4, h.5, h.6, h.7, h.8, h.9,
    (Bitmap.setRun_btmpBytesLen _ 19).trans h.10⟩

theorem openable_crowdedFs : Openable crowdedFs where
  running := List.mem_singleton.mpr rfl
  dirs t ht x hx := by
    obtain rfl := List.mem_singleton.mp ht
    cases hx
  inode_lt p i hi := by
    by_contra hp
    have hne : p ≠ 0 := fun h0 => hp (h0 ▸ Nat.zero_lt_one)
    rw [crowdedFs, Fs.setInode_inodes, Function.update_of_ne hne] at hi
    change (if p = 0 then _ else none) = some i at hi
    rw [if_neg hne] at hi
    cases hi
  opened p hp i hi := by
    obtain rfl : p = 0 := List.mem_singleton.mp hp
    rw [crowdedFs, Fs.setInode_inodes, Function.update_self] at hi
    rw [← Option.some.inj hi]
    exact Nat.zero_lt_one

/-- The file `/c` is there already. -/
theorem failedMkdirUndone_iff_c : (∃ u, sysMkdir [slash, 99] crowdedFs = .ok (-1, u)) ∧
    FailedMkdirUndone crowdedFs [slash, 99] := by
  constructor
  · have hcall : Exec.returnsWith (sysMkdir [slash, 99] crowdedFs) (fun r _ => r == -1) = true := by
      decide +kernel
    obtain ⟨r, u, hrun, hr⟩ := Exec.exists_of_returnsWith hcall
    obtain rfl : r = -1 := by simpa using hr
    exact ⟨u, hrun⟩
  · refine (failedMkdirUndone_iff openable_crowdedFs layout_crowdedFs [slash, 99]).mpr ?_
    rintro ⟨dir, name, u, no, u', block, v, htarget, -⟩
    have hcall : Exec.returnsWith (mkdirTarget [slash, 99] crowdedFs) (fun r _ => r.isNone) =
      true := by decide +kernel
    rw [htarget] at hcall
    cases hcall

/-- The block taken for the directory `/z` is the last one, and its entry needs another: the call
fails, and the block stays taken. -/
theorem not_failedMkdirUndone : ¬ ∀ s pathname, Openable s → Layout s.part →
    FailedMkdirUndone s pathname := by
  intro hall
  have hcall : Exec.returnsWith (sysMkdir [slash, 122] crowdedFs)
      (fun r u => r == -1 && u.part.blockBitmap.scanTest 8) = true := by decide +kernel
  have h := hall crowdedFs [slash, 122] openable_crowdedFs layout_crowdedFs
  obtain ⟨r, u, hrun, hcall⟩ := Exec.exists_of_returnsWith hcall
  obtain ⟨rfl, hset⟩ : r = -1 ∧ u.part.blockBitmap.scanTest 8 = true := by simpa using hcall
  rw [(h u hrun).blockBitmap] at hset
  exact absurd hset (by decide)

end Winx
