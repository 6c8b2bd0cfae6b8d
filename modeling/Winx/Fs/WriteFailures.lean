import Winx.Fs.WriteBounds

/-! # Writes that fail

A write takes its blocks one by one and gives none of them back. So a write that
runs out of blocks after it has taken one leaves the file with a block past its
end, and so does the write of the largest size to a file without blocks, whose
last block is refused only after the first one is taken.
-/

namespace Winx

/-- A file as a write that succeeds leaves it: it has no block past its end. -/
structure WholeFile (disk : Bytes) (i : Inode) : Prop where
  shape : FileShape disk i
  empty : ∀ k ≤ 12, i.iSize.toNat / 512 < k → i.sector k = 0

/-- The inode at `p`, the blocks of its table and the map of used blocks are as they were. -/
structure FileKept (s : Fs) (p : ℕ) (i : Inode) (s' : Fs) : Prop where
  inode : s'.inodes p = some i
  slots : ∀ a, slotLba s'.disk i a = slotLba s.disk i a
  blockBitmap : s'.part.blockBitmap = s.part.blockBitmap

/-- However other blocks are freed and other files change, a later write to the file that there are
blocks and memory for appends its buffer. -/
def Rewritable (s' : Fs) (fd p : ℕ) : Prop :=
  ∀ t i buf count, FsOk t → p ∈ t.part.openInodes → t.inodes p = some i → s'.inodes p = some i →
    (∀ a, slotLba t.disk i a = slotLba s'.disk i a) → (t.fileTable fd).fdInode = some p →
    FreeOnDisk t.part → i.iSize.toNat + count.toNat < 140 * 512 → (∀ n, t.mallocs n = true) →
    blocksFor i count ≤ t.part.blockBitmap.freeCnt →
    Exec.Returns (fileWrite fd buf count) t fun r t' => r = (count.toNat : Int) ∧ ∃ d b i',
      t' = writtenState t fd p d b i' (i.iSize - 1 + count) ∧ Appended t i buf count d b i'

/-- If `file_write` returns `-1`, the file is as it was and can be written later. -/
def FailureUndone (s : Fs) (fd p : ℕ) (i : Inode) (buf : Bytes) (count : UInt32) : Prop :=
  Exec.Ensures (fileWrite fd buf count) s fun r s' =>
    r = -1 → FileKept s p i s' ∧ Rewritable s' fd p

/-- A write for which there is memory, and some block, is refused for its last block after the first
one is taken, or there are not enough blocks for it. -/
def LeavesBlocks (s : Fs) (i : Inode) (count : UInt32) : Prop :=
  (s.mallocs 0 = true ∧ s.mallocs 1 = true) ∧ 0 < s.part.blockBitmap.freeCnt ∧
    (i.iSize.toNat + count.toNat = 140 * 512 ∧ i.sector 0 = 0 ∨
      i.iSize.toNat + count.toNat < 140 * 512 ∧ s.part.blockBitmap.freeCnt < blocksFor i count)

variable {s : Fs} {i : Inode} {buf : Bytes} {fd p used will : ℕ} {count : UInt32}

/-- `n` free blocks are taken, or all there are, which is not enough. -/
def Takes (n : ℕ) (s : Fs) (done : Bool) (s' : Fs) : Prop :=
  match done with
  | true => s'.part.blockBitmap.freeCnt + n = s.part.blockBitmap.freeCnt
  | false => s'.part.blockBitmap.freeCnt = 0 ∧ s.part.blockBitmap.freeCnt < n

section Counting

theorem Takes.none_le {n m : ℕ} {s' : Fs} (h : Takes n s false s') (hle : n ≤ m) :
    Takes m s false s' :=
  ⟨h.1, lt_of_lt_of_le h.2 hle⟩

theorem Takes.succ {n m : ℕ} {done : Bool} {s' s'' : Fs} (h : Takes m s true s')
    (h' : Takes n s' done s'') : Takes (n + m) s done s'' := by
  have h : s'.part.blockBitmap.freeCnt + m = s.part.blockBitmap.freeCnt := h
  cases done with
  | true =>
    have h' : s''.part.blockBitmap.freeCnt + n = s'.part.blockBitmap.freeCnt := h'
    change s''.part.blockBitmap.freeCnt + (n + m) = s.part.blockBitmap.freeCnt
    omega
  | false =>
    obtain ⟨hzero, hlt⟩ := h'
    exact ⟨hzero, by omega⟩

theorem Takes.congr {n : ℕ} {done : Bool} {s' s'' : Fs} (h : Takes n s done s'')
    (hpart : s'.part.blockBitmap = s.part.blockBitmap) : Takes n s' done s'' := by
  unfold Takes at h ⊢
  rwa [hpart]

/-- Taking a block. -/
theorem blockBitmapAlloc_takes : Exec.Ensures blockBitmapAlloc s fun r s' =>
    Takes 1 s r.isSome s' ∧ s'.inodes = s.inodes := by
  rw [Exec.Ensures, post_blockBitmapAlloc]
  refine ⟨fun hnone => ⟨?_, rfl⟩, fun j hj => ⟨?_, rfl⟩⟩
  · have hzero := Bitmap.scan_one_eq_none_iff_freeCnt.mp hnone
    exact ⟨hzero, by omega⟩
  · obtain ⟨hlt, hclear, -⟩ := Bitmap.scan_one_eq_some_iff.mp hj
    exact Bitmap.freeCnt_set hlt hclear

/-- The block-mapping loop takes `n` blocks. -/
theorem mapNewBlocks_takes (n lo : ℕ) (f : ℕ → UInt32) :
    Exec.Ensures (mapNewBlocks p n lo f) s fun r s' => Takes n s r.isSome s' := by
  induction n generalizing lo f s with
  | zero => exact rfl
  | succ n ih =>
    rw [mapNewBlocks, Exec.Ensures, Exec.post_bind, Exec.post_get]
    refine Exec.Post.bind blockBitmapAlloc_takes fun r s₁ h₁ => ?_
    cases r with
    | none => exact h₁.1.none_le (by omega)
    | some lba =>
      have hrest {s₂ : Fs} (h₂ : s₂.part = s₁.part) : Exec.Ensures (do
          bitmapSync (lba - s.part.sb.dataStartLba) .blockBitmap
          mapNewBlocks p n (lo + 1) (Function.update f lo lba)) s₂
          fun r s' => Takes (n + 1) s r.isSome s' := by
        refine Exec.Post.bind (bitmapSync_part _ _) fun _ s₃ h₃ => ?_
        refine (ih (lo + 1) _).mono fun r s' h => h₁.1.succ (h.congr ?_)
        rw [h₃.1, h₂]
      dsimp only
      split
      · simp only [derefInode, storeInode, Exec.post_bind, Exec.post_get, post_deref, post_assert,
          Exec.post_modify, implies_true, and_true]
        exact fun j _ _ => Exec.post_bind.mp (hrest rfl)
      · exact hrest rfl

/-- The situations that add blocks. -/
theorem mapBlocks_takes (hlt : used < will) : Exec.Ensures (mapBlocks p used will) s fun r s' =>
    Takes (grownCnt used will) s r.isSome s' := by
  unfold mapBlocks
  simp only [derefInode, Exec.Ensures, Exec.post_bind, Exec.post_get, post_deref, implies_true, and_true]
  refine fun inode _ => ?_
  split
  · have hcnt : grownCnt used will = will - used := by
      rw [grownCnt, if_neg (by omega), Nat.add_zero]
    rw [hcnt]
    simp only [show used - 1 < 13 by omega, if_true, Exec.post_bind, Exec.post_pure]
    exact mapNewBlocks_takes _ _ _
  · split
    · have hcnt : grownCnt used will = will - used + 1 := by
        rw [grownCnt, if_pos (by omega)]
      rw [hcnt]
      refine Exec.Post.bind blockBitmapAlloc_takes fun r s₂ h₂ => ?_
      cases r with
      | none => exact h₂.1.none_le (by omega)
      | some lba =>
        simp only [storeInode, Exec.post_bind, post_assert, Exec.post_modify, implies_true, and_true]
        refine fun _ => (mapNewBlocks_takes _ _ _).mono fun r s₃ h₃ => ?_
        have h₃ := h₂.1.succ (h₃.congr (show s₂.part.blockBitmap = _ from rfl))
        cases r with
        | none => exact h₃
        | some g =>
          simp only [writeTable, Exec.post_bind, post_ideWrite, Exec.post_pure]
          exact ⟨fun _ => h₃, fun _ => trivial⟩
    · have hcnt : grownCnt used will = will - used := by
        rw [grownCnt, if_neg (by omega), Nat.add_zero]
      rw [hcnt]
      simp only [Exec.post_bind, post_assert, post_readTable, implies_true, and_true]
      refine fun _ _ => (mapNewBlocks_takes _ _ _).mono fun r s₂ h₂ => ?_
      cases r with
      | none => exact h₂
      | some g =>
        simp only [writeTable, Exec.post_bind, post_ideWrite, Exec.post_pure]
        exact ⟨fun _ => h₂, fun _ => trivial⟩

/-- Giving a file its first block. -/
theorem mapFirstBlock_takes (hi : s.inodes p = some i) :
    Exec.Ensures (mapFirstBlock p) s fun r s' => Takes (if i.sector 0 = 0 then 1 else 0) s r s' ∧
      ∃ i', s'.inodes p = some i' ∧ i'.iSize = i.iSize := by
  simp only [mapFirstBlock, derefInode, Exec.Ensures, Exec.post_bind, Exec.post_get, post_deref, hi,
    Option.some.injEq, forall_eq', implies_true, and_true]
  split
  · rw [Exec.post_bind, Exec.post_get]
    refine Exec.Post.bind blockBitmapAlloc_takes fun r s₁ h₁ => ?_
    cases r with
    | none => exact ⟨h₁.1, i, by rw [h₁.2, hi], rfl⟩
    | some lba =>
      simp only [storeInode, Exec.post_bind, Exec.post_modify]
      refine Exec.Ensures.mono (bitmapSync_part _ _) fun _ s₂ h₂ => ?_
      have hpart : s₂.part.blockBitmap = s₁.part.blockBitmap := by rw [h₂.1]; rfl
      have htakes : Takes 0 s₁ true s₂ := by
        rw [Takes, hpart, Nat.add_zero]
      refine ⟨h₁.1.succ htakes, i.setSector 0 lba, ?_, rfl⟩
      rw [h₂.2]
      exact Function.update_self ..
  · exact ⟨rfl, i, hi, rfl⟩

theorem mapForWrite_takes (hi : s.inodes p = some i)
    (hlt : i.iSize.toNat + count.toNat < 140 * 512) :
    Exec.Ensures (mapForWrite p count) s fun r s' =>
      Takes (grownCnt (i.iSize.toNat / 512 + 1) ((i.iSize.toNat + count.toNat) / 512 + 1)) s
        r.isSome s' := by
  have hused := toNat_blockCnt (x := i.iSize) rfl
  have hwill := toNat_blockCnt (x := i.iSize + count) (Word.toNat_add (by omega))
  have hlimit : ¬ (i.iSize + count) / 512 + 1 > 140 := by
    rw [gt_iff_lt, UInt32.lt_iff_toNat_lt, hwill]
    simp only [UInt32.reduceToNat]
    omega
  have hsub : (i.iSize + count) / 512 + 1 - (i.iSize / 512 + 1) = 0 ↔
      (i.iSize.toNat + count.toNat) / 512 = i.iSize.toNat / 512 := by
    rw [← UInt32.toNat_inj, Word.toNat_sub (by rw [hused, hwill]; omega), hused, hwill,
      UInt32.toNat_zero]
    omega
  simp only [mapForWrite, derefInode, Exec.Ensures, Exec.post_bind, Exec.post_get, post_deref, hi,
    Option.some.injEq, forall_eq', implies_true, and_true, hlimit, false_imp_iff, true_and,
    not_false_eq_true, forall_const, Exec.post_ite, hsub, hused, hwill]
  refine ⟨fun heq => ?_, fun hne => mapBlocks_takes (by omega)⟩
  have hcnt : grownCnt (i.iSize.toNat / 512 + 1) ((i.iSize.toNat + count.toNat) / 512 + 1) = 0 := by
    rw [heq, grownCnt, Nat.sub_self, if_neg (by omega)]
  rw [hcnt]
  simp only [mapLastBlock, derefInode, Exec.post_map, Exec.post_bind, Exec.post_get, post_deref, hi,
    Option.some.injEq, forall_eq', implies_true, and_true, Exec.post_ite, Exec.post_pure,
    post_readTable]
  exact ⟨fun _ => rfl, fun _ _ => rfl⟩

/-- The write of the largest size is refused for its last block. -/
theorem mapForWrite_limit (hi : s.inodes p = some i)
    (hsum : i.iSize.toNat + count.toNat = 140 * 512) :
    Exec.Ensures (mapForWrite p count) s fun r s' => r = none ∧ s' = s := by
  have hwill := toNat_blockCnt (x := i.iSize + count) (Word.toNat_add (by omega))
  have hlimit : (i.iSize + count) / 512 + 1 > 140 := by
    rw [gt_iff_lt, UInt32.lt_iff_toNat_lt, hwill, hsum]
    decide
  simp [mapForWrite, derefInode, Exec.Ensures, hi, hlimit]

end Counting

section Prepare

variable (hi : s.inodes p = some i)

include hi

/-- The part of `file_write` before the writing loop, with memory for its buffers. -/
theorem post_fileWritePrepare {Q : Option (ℕ → UInt32) → Fs → Prop} {E : Fault → Prop}
    (hle : i.iSize.toNat + count.toNat ≤ 140 * 512)
    (hm : s.mallocs 0 = true ∧ s.mallocs 1 = true) :
    Exec.Post (fileWritePrepare p count) s Q E ↔
      Exec.Post (mapFirstBlock p) s.tick.tick (fun mapped s' => match mapped with
        | true => Exec.Post (mapForWrite p count) s' Q E
        | false => Q none s') E := by
  have hguard : ¬ i.iSize + count > 512 * 140 := by
    rw [gt_iff_lt, UInt32.lt_iff_toNat_lt, Word.toNat_add (by omega), not_lt]
    exact hle
  simp only [fileWritePrepare, derefInode, Exec.post_bind, Exec.post_get, post_deref, hi,
    Option.some.injEq, forall_eq', reduceCtorEq, false_imp_iff, and_true, hguard, if_false,
    post_sysMalloc, Fs.tick_mallocs, hm.1, hm.2, if_true]
  refine iff_of_eq (congrArg (fun R => Exec.Post (mapFirstBlock p) s.tick.tick R E) ?_)
  funext mapped s'
  cases mapped <;> rfl

/-- A write that is not refused outright takes the blocks it fills. -/
theorem fileWritePrepare_takes (hlt : i.iSize.toNat + count.toNat < 140 * 512)
    (hm : s.mallocs 0 = true ∧ s.mallocs 1 = true) :
    Exec.Ensures (fileWritePrepare p count) s fun r s' =>
      Takes (blocksFor i count) s r.isSome s' := by
  rw [Exec.Ensures, post_fileWritePrepare hi hlt.le hm]
  refine (mapFirstBlock_takes (s := s.tick.tick) hi).mono fun mapped s₁ h₁ => ?_
  obtain ⟨htakes, i', hi', hsize⟩ := h₁
  have htakes : Takes _ s mapped s₁ := htakes
  cases mapped with
  | false => exact htakes.none_le (Nat.le_add_right _ _)
  | true =>
    refine (mapForWrite_takes hi' (by rwa [hsize])).mono fun r s₂ h₂ => ?_
    rw [hsize] at h₂
    have hboth := htakes.succ h₂
    rwa [Nat.add_comm] at hboth

/-- The write of the largest size takes the first block of a file without blocks, and nothing of
another file. -/
theorem fileWritePrepare_limit (hsum : i.iSize.toNat + count.toNat = 140 * 512)
    (hm : s.mallocs 0 = true ∧ s.mallocs 1 = true) :
    Exec.Ensures (fileWritePrepare p count) s fun r s' => r = none ∧
      (i.sector 0 = 0 → Takes 1 s (decide (0 < s.part.blockBitmap.freeCnt)) s') ∧
      (i.sector 0 ≠ 0 → s' = s.tick.tick) := by
  rw [Exec.Ensures, post_fileWritePrepare hi hsum.le hm]
  by_cases h0 : i.sector 0 = 0
  · refine (mapFirstBlock_takes (s := s.tick.tick) hi).mono fun mapped s₁ h₁ => ?_
    obtain ⟨htakes, i', hi', hsize⟩ := h₁
    rw [if_pos h0] at htakes
    have htakes : Takes 1 s mapped s₁ := htakes
    cases mapped with
    | false =>
      refine ⟨rfl, fun _ => ?_, fun hne => absurd h0 hne⟩
      rwa [decide_eq_false (by have := htakes.2; omega)]
    | true =>
      refine (mapForWrite_limit hi' (by rwa [hsize])).mono fun r s₂ h₂ => ?_
      obtain ⟨hr, rfl⟩ := h₂
      refine ⟨hr, fun _ => ?_, fun hne => absurd h0 hne⟩
      have hcnt : s₂.part.blockBitmap.freeCnt + 1 = s.part.blockBitmap.freeCnt := htakes
      rwa [decide_eq_true (by omega)]
  · have hfirst : Exec.Ensures (mapFirstBlock p) s.tick.tick fun mapped s' =>
        mapped = true ∧ s' = s.tick.tick := by
      simp [mapFirstBlock, derefInode, Exec.Ensures, hi, h0]
    refine hfirst.mono fun mapped s₁ h₁ => ?_
    obtain ⟨rfl, rfl⟩ := h₁
    refine (mapForWrite_limit (s := s.tick.tick) hi hsum).mono fun r s₂ h₂ => ?_
    exact ⟨h₂.1, fun h => absurd h h0, fun _ => h₂.2⟩

end Prepare

section Undone

theorem WholeFile.emptySlots (h : WholeFile s.disk i) (count : UInt32) : EmptySlots i count :=
  fun k hk hlt _ => h.empty k hk hlt

/-- Without memory, or past the largest size, nothing is taken. -/
theorem fileWritePrepare_early (hi : s.inodes p = some i)
    (h : ¬ (s.mallocs 0 = true ∧ s.mallocs 1 = true) ∨ i.iSize + count > 512 * 140) :
    Exec.Ensures (fileWritePrepare p count) s fun r s' => r = none ∧ ∃ m, s' = s.withMallocs m := by
  simp only [fileWritePrepare, derefInode, Exec.Ensures, Exec.post_bind, Exec.post_get, post_deref,
    hi, Option.some.injEq, forall_eq', implies_true, and_true, Exec.post_ite, Exec.post_pure,
    post_sysMalloc, Fs.tick_mallocs, true_and]
  refine ⟨fun _ => ⟨s.mallocs, rfl⟩, fun hle => ⟨fun hm₀ => ⟨fun hm₁ => ?_, fun _ => ⟨_, rfl⟩⟩,
    fun _ => ⟨_, rfl⟩⟩⟩
  exact absurd ⟨hm₀, hm₁⟩ (h.resolve_right hle)

/-- A file whose inode and slots are as they were can be written later. -/
theorem FileKept.rewritable {s' : Fs} (h : FileKept s p i s') (hwhole : WholeFile s.disk i) :
    Rewritable s' fd p := by
  intro t j buf count hs hp hi hi' hslots hfd hfree hfit hm hcnt
  obtain rfl : i = j := Option.some.inj (h.inode.symm.trans hi')
  have hsame (a : Slot) : slotLba t.disk i a = slotLba s.disk i a := (hslots a).trans (h.slots a)
  have hshape : FileShape t.disk i := by
    refine ⟨hwhole.shape.size_lt, hwhole.shape.mapped.imp_right fun hall k hk => ?_⟩
    have hblock : blockLba t.disk i k = blockLba s.disk i k := hsame (.block k)
    obtain ⟨hne, hle, htable⟩ := hall k hk
    exact ⟨hblock ▸ hne, hblock ▸ hle, htable⟩
  exact fileWrite_returns hs hp hi hfd hshape hfit hm hcnt hfree (hwhole.emptySlots count)

theorem fileKept_withMallocs (hi : s.inodes p = some i) (m : ℕ → Bool) :
    FileKept s p i (s.withMallocs m) :=
  ⟨hi, fun _ => rfl, rfl⟩

/-- `file_write` by its part before the writing loop. -/
theorem post_fileWrite_of_prepare {Q : Int → Fs → Prop} {E : Fault → Prop}
    {R : Option (ℕ → UInt32) → Fs → Prop} (hfd : (s.fileTable fd).fdInode = some p)
    (h : Exec.Post (fileWritePrepare p count) s R E)
    (hnone : ∀ s', R none s' → Q (-1) s')
    (hsome : ∀ f s', R (some f) s' → Exec.Post (do
        let inode ← derefInode p
        modify fun s => s.setFile fd { s.fileTable fd with fdPos := inode.iSize - 1 }
        let w ← writeLoop fd p f buf count count.toNat ⟨0, 0, count, true⟩
        let inode ← derefInode p
        inodeSync inode
        pure (toI32 w.bytesWritten)) s' Q E) :
    Exec.Post (fileWrite fd buf count) s Q E := by
  rw [fileWrite]
  simp only [Exec.post_bind, Exec.post_get, post_deref, hfd, Option.some.injEq, forall_eq',
    reduceCtorEq, false_imp_iff, and_true]
  refine h.mono (fun r s' hr => ?_) fun _ => id
  cases r with
  | none => exact hnone s' hr
  | some f => simpa only [Exec.post_bind] using hsome f s' hr

variable (hs : FsOk s) (hp : p ∈ s.part.openInodes) (hi : s.inodes p = some i)

include hs hp hi

/-- A write whose blocks are mapped returns its count. -/
theorem fillBlocks_result {d : Bytes} {b : Bitmap} {i' : Inode} {f : ℕ → UInt32}
    (hshape : FileShape s.disk i) (hfit : i.iSize.toNat + count.toNat < 140 * 512)
    (h : Extends s.part s.part.blockBitmap b s.disk d i i' (slotsFor i count) f
      (i.iSize.toNat / 512) ((i.iSize.toNat + count.toNat) / 512 + 1)) :
    Exec.Ensures (do
        let inode ← derefInode p
        modify fun s => s.setFile fd { s.fileTable fd with fdPos := inode.iSize - 1 }
        let w ← writeLoop fd p f buf count count.toNat ⟨0, 0, count, true⟩
        let inode ← derefInode p
        inodeSync inode
        pure (toI32 w.bytesWritten)) (s.tick.tick.grow p d b i')
      fun r _ => r = (count.toNat : Int) := by
  obtain ⟨sectors, hsame⟩ := h.same
  have hsize : i'.iSize = i.iSize := by rw [hsame]
  simp only [derefInode, Exec.Ensures, Exec.post_bind, Exec.post_get, post_deref, Exec.post_modify,
    Fs.grow_inodes, Fs.grow_fileTable, Function.update_self, Option.some.injEq, forall_eq',
    implies_true, and_true]
  set t := (s.tick.tick.grow p d b i').setFile fd
    { s.tick.tick.fileTable fd with fdPos := i'.iSize - 1 } with ht
  have hstart : WriteInv t fd p i' f buf count.toNat 0 ⟨0, 0, UInt32.ofNat count.toNat, true⟩ t :=
    .start (by rw [ht]; exact Function.update_self ..) _
  have hloop := writeLoop_spec (by rw [hsize]; omega)
    (by rw [hsize]; exact h.distinct hs hp hi hshape) count.toNat hstart le_rfl
  rw [UInt32.ofNat_toNat] at hloop
  refine hloop.ensures.mono fun w s' hw => ?_
  obtain ⟨-, -, rfl, -⟩ := hw
  refine fun j _ => Exec.ensures_iff.mpr fun _ s'' _ => ?_
  rw [Exec.post_pure, writeVars, UInt32.ofNat_toNat]
  exact toI32_of_lt (x := count) (by omega)

/-- A write that leaves no block behind changes nothing when it fails. -/
theorem failureUndone_of_not_leaves (hfd : (s.fileTable fd).fdInode = some p)
    (hwhole : WholeFile s.disk i) (h : ¬ LeavesBlocks s i count) :
    FailureUndone s fd p i buf count := by
  have hsize := hwhole.shape.size_lt
  have hcount := count.toNat_lt
  have hmax : (512 * 140 : UInt32).toNat = 140 * 512 := rfl
  have hnever {Q : Int → Fs → Prop} (hm : s.mallocs 0 = true ∧ s.mallocs 1 = true)
      (hwrap : 2 ^ 32 ≤ i.iSize.toNat + count.toNat) : Exec.Ensures (fileWrite fd buf count) s Q :=
    Exec.Ensures.mono (fileWrite_wrap hfd hi hwhole.shape hwrap hm) fun _ _ => False.elim
  have hdone {t : Fs} (ht : ∃ m, t = s.withMallocs m) : FileKept s p i t ∧ Rewritable t fd p := by
    obtain ⟨m, rfl⟩ := ht
    exact ⟨fileKept_withMallocs hi m, (fileKept_withMallocs hi m).rewritable hwhole⟩
  have hearly (hearly : ¬ (s.mallocs 0 = true ∧ s.mallocs 1 = true) ∨
      i.iSize + count > 512 * 140) : FailureUndone s fd p i buf count := by
    refine post_fileWrite_of_prepare hfd (fileWritePrepare_early hi hearly) ?_ ?_
    · exact fun t ht _ => hdone ht.2
    · exact fun f t ht => by cases ht.1
  by_cases hm : s.mallocs 0 = true ∧ s.mallocs 1 = true
  · rcases Nat.lt_or_ge (i.iSize.toNat + count.toNat) (2 ^ 32) with hfit | hwrap
    · have hreg : i.sector 12 ≠ 0 → s.part.sb.dataStartLba.toNat ≤ (i.sector 12).toNat := by
        intro h12
        obtain ⟨j, hj, -⟩ := hs.isBlock (a := .table) hp hi h12
        exact hj.le
      have hprepare := (fileWritePrepare_spec hs.layout hi hwhole.shape hfit hreg).ensures
      rcases Nat.lt_trichotomy (i.iSize.toNat + count.toNat) (140 * 512) with hlt | heq | hgt
      · refine post_fileWrite_of_prepare hfd hprepare (fun t ht _ => hdone ?_) fun f t ht => ?_
        · refine (ht.unchanged rfl).resolve_right ?_
          rintro ⟨hpos, ⟨-, hle⟩ | hfew⟩
          · omega
          · exact h ⟨hm, hpos, .inr ⟨hlt, hfew⟩⟩
        · obtain ⟨-, -, d, b, i', rfl, hext⟩ := ht.some f rfl
          refine (fillBlocks_result hs hp hi hwhole.shape hlt hext).mono fun r t hr hneg => ?_
          omega
      · have hlimit := fileWritePrepare_limit hi heq hm
        refine post_fileWrite_of_prepare hfd (hprepare.and hlimit) (fun t ht _ => hdone ?_) ?_
        · obtain ⟨hresult, -, hzero, hkept⟩ := ht
          by_cases h0 : i.sector 0 = 0
          · refine (hresult.unchanged rfl).resolve_right fun hpos => ?_
            exact h ⟨hm, hpos.1, .inl ⟨heq, h0⟩⟩
          · exact ⟨s.tick.tick.mallocs, hkept h0⟩
        · exact fun f t ht => by cases ht.2.1
      · refine hearly (.inr ?_)
        rw [gt_iff_lt, UInt32.lt_iff_toNat_lt, Word.toNat_add hfit, hmax]
        exact hgt
    · exact hnever hm hwrap
  · exact hearly (.inl hm)

/-- A write that leaves blocks behind fails, and has taken at least one. -/
theorem not_failureUndone (hfd : (s.fileTable fd).fdInode = some p) (hwhole : WholeFile s.disk i)
    (hfree : FreeOnDisk s.part) (h : LeavesBlocks s i count) : ¬ FailureUndone s fd p i buf count := by
  obtain ⟨hm, hpos, hcase⟩ := h
  have hfit : i.iSize.toNat + count.toNat < 2 ^ 32 := by omega
  have hreg : i.sector 12 ≠ 0 → s.part.sb.dataStartLba.toNat ≤ (i.sector 12).toNat := fun h12 => by
    obtain ⟨j, hj, -⟩ := hs.isBlock (a := .table) hp hi h12
    exact hj.le
  have hprepare : Exec.Returns (fileWritePrepare p count) s (PrepareResult s p i count) :=
    (fileWritePrepare_spec hs.layout hi hwhole.shape hfit hreg).mono (fun _ _ => id) fun _ =>
      not_mapFault hwhole.shape hfree (hwhole.emptySlots count)
  have htakes : Exec.Ensures (fileWritePrepare p count) s fun r t =>
      r = none ∧ t.part.blockBitmap.freeCnt < s.part.blockBitmap.freeCnt := by
    rcases hcase with ⟨heq, h0⟩ | ⟨hlt, hfew⟩
    · refine (fileWritePrepare_limit hi heq hm).mono fun r t ht => ⟨ht.1, ?_⟩
      have hone := ht.2.1 h0
      rw [decide_eq_true hpos] at hone
      have hone : t.part.blockBitmap.freeCnt + 1 = s.part.blockBitmap.freeCnt := hone
      omega
    · refine (fileWritePrepare_takes hi hlt hm).mono fun r t ht => ?_
      cases r with
      | none =>
        have hzero := ht.1
        exact ⟨rfl, by omega⟩
      | some f =>
        have hcnt : t.part.blockBitmap.freeCnt + blocksFor i count =
            s.part.blockBitmap.freeCnt := ht
        omega
  have hfails : Exec.Returns (fileWrite fd buf count) s fun r t =>
      r = -1 ∧ t.part.blockBitmap.freeCnt < s.part.blockBitmap.freeCnt :=
    post_fileWrite_of_prepare hfd (hprepare.and htakes) (fun t ht => ⟨rfl, ht.2.2⟩)
      fun f t ht => by cases ht.2.1
  intro hundone
  obtain ⟨r, t, hcall, hr, hless⟩ := Exec.returns_iff.mp hfails
  obtain ⟨hkept, -⟩ := hundone.of_ok hcall hr
  rw [hkept.blockBitmap] at hless
  exact absurd hless (lt_irrefl _)

/-- A write that fails leaves the file as it was, and writable later, exactly if it is not one that
takes blocks before it is refused. -/
theorem failureUndone_iff (hfd : (s.fileTable fd).fdInode = some p) (hwhole : WholeFile s.disk i)
    (hfree : FreeOnDisk s.part) :
    FailureUndone s fd p i buf count ↔ ¬ LeavesBlocks s i count := by
  constructor
  · exact fun h hleaves => not_failureUndone hs hp hi hfd hwhole hfree hleaves h
  · exact failureUndone_of_not_leaves hs hp hi hfd hwhole

end Undone

theorem wholeFile_emptyInode {disk : Bytes} {no : UInt32} : WholeFile disk (emptyInode no) :=
  ⟨fileShape_emptyInode, fun k _ _ => sector_emptyInode k⟩

/-- A write of three bytes to an empty file, for which there are blocks. -/
theorem failureUndone_three :
    FailureUndone (openFileFs (emptyInode 5)) 3 0 (emptyInode 5) Bytes.zero 3 := by
  have hfs := fsOk_openFileFs (smallFile_emptyInode 5 (by decide) (by decide))
  refine (failureUndone_iff hfs (List.mem_cons_self ..) rfl rfl wholeFile_emptyInode
    (freeOnDisk_openFileFs _)).mpr ?_
  have hcnt := freeCnt_openFileFs (emptyInode 5)
  have hsize : (emptyInode 5).iSize.toNat = 0 := rfl
  have hthree : (3 : UInt32).toNat = 3 := rfl
  rintro ⟨-, -, ⟨heq, -⟩ | ⟨-, hfew⟩⟩
  · omega
  · rw [blocksFor_emptyInode] at hfew
    omega

/-- The write of 71680 bytes to an empty file fails and leaves it a block, although the state and the
file are well formed and blocks are free. -/
theorem not_failureUndone_largest :
    FsOk (openFileFs (emptyInode 5)) ∧ WholeFile Bytes.zero (emptyInode 5) ∧
      FreeOnDisk (openFileFs (emptyInode 5)).part ∧
      ¬ FailureUndone (openFileFs (emptyInode 5)) 3 0 (emptyInode 5) Bytes.zero 71680 := by
  have hfs := fsOk_openFileFs (smallFile_emptyInode 5 (by decide) (by decide))
  have hcnt := freeCnt_openFileFs (emptyInode 5)
  refine ⟨hfs, wholeFile_emptyInode, freeOnDisk_openFileFs _, ?_⟩
  exact not_failureUndone hfs (List.mem_cons_self ..) rfl rfl wholeFile_emptyInode
    (freeOnDisk_openFileFs _)
    ⟨⟨rfl, rfl⟩, by omega, .inl ⟨rfl, sector_emptyInode 0⟩⟩

end Winx
