import Winx.Fs.Append

/-! # Where the writing loop writes

As long as the sum of size and count does not wrap around, `file_write` either
refuses or fills blocks of its own file. When it does wrap around, the guard on
the size passes, no block is mapped, and the loop leaves the blocks of the file
and then its block list.
-/

namespace Winx

variable {s : Fs} {i : Inode} {buf : Bytes} {fd p : ℕ} {count : UInt32}

/-- The next turn of the writing loop reads `all_blocks` below its end and writes to a sector that
is mapped by the file and by no other inode. -/
def WritesOwnBlock (p : ℕ) (f : ℕ → UInt32) (s : Fs) : Prop :=
  ∃ i, s.inodes p = some i ∧ i.iSize.toNat / 512 < 140 ∧ f (i.iSize.toNat / 512) ≠ 0 ∧
    f (i.iSize.toNat / 512) = blockLba s.disk i (i.iSize.toNat / 512) ∧
    ∀ m, UsedInode s m → m ≠ i.iNo.toNat → ∀ a,
      slotLba s.disk (curInode s m) a ≠ f (i.iSize.toNat / 512)

/-- `file_write` refuses a size past 140 blocks without changing the size, and every turn of its
loop stays inside the file. -/
def StaysInside (s : Fs) (fd p : ℕ) (i : Inode) (buf : Bytes) (count : UInt32) : Prop :=
  (i.iSize.toNat + count.toNat ≤ 140 * 512 ∨
    Exec.Returns (fileWrite fd buf count) s fun r s' =>
      r = -1 ∧ ∃ i', s'.inodes p = some i' ∧ i'.iSize = i.iSize) ∧
  ∀ f t j, fileWritePrepare p count s = .ok (some f, t) → t.inodes p = some j → ∀ w u,
    Relation.ReflTransGen (WriteTurn fd p f buf count) (⟨0, 0, count, true⟩,
      t.setFile fd { t.fileTable fd with fdPos := j.iSize - 1 }) (w, u) →
    w.bytesWritten < count → WritesOwnBlock p f u

section Inside

variable {d : Bytes} {b : Bitmap} {i' : Inode} {f : ℕ → UInt32}
  (hs : FsOk s) (hp : p ∈ s.part.openInodes) (hi : s.inodes p = some i)

include hs hp hi

/-- Every turn after the blocks are mapped fills one of them. -/
theorem Extends.writesOwnBlock (hshape : FileShape s.disk i)
    (hfit : i.iSize.toNat + count.toNat < 140 * 512)
    (h : Extends s.part s.part.blockBitmap b s.disk d i i' (slotsFor i count) f
      (i.iSize.toNat / 512) ((i.iSize.toNat + count.toNat) / 512 + 1))
    {w : WriteLoop} {u : Fs}
    (hturns : Relation.ReflTransGen (WriteTurn fd p f buf count) (⟨0, 0, count, true⟩,
      (s.tick.tick.grow p d b i').setFile fd
        { s.tick.tick.fileTable fd with fdPos := i'.iSize - 1 }) (w, u))
    (hgo : w.bytesWritten < count) : WritesOwnBlock p f u := by
  obtain ⟨sectors, hsame⟩ := h.same
  have hsize : i'.iSize = i.iSize := by rw [hsame]
  set t := (s.tick.tick.grow p d b i').setFile fd
    { s.tick.tick.fileTable fd with fdPos := i'.iSize - 1 } with ht
  have hstart : WriteInv t fd p i' f buf count.toNat 0 ⟨0, 0, UInt32.ofNat count.toNat, true⟩ t :=
    .start (by rw [ht]; exact Function.update_self ..) _
  rw [UInt32.ofNat_toNat] at hstart
  have hinv := hstart.of_turns (x := (_, t)) (y := (w, u)) (by rw [hsize]; omega)
    (by rw [hsize]; exact h.distinct hs hp hi hshape)
  rw [UInt32.ofNat_toNat] at hinv
  obtain ⟨n, hn⟩ := hinv hturns
  have hlt := hn.lt_iff (by omega)
  rw [UInt32.ofNat_toNat] at hlt
  have hlt := hlt.mp hgo
  obtain ⟨-, -, -, d₂, hu, hfilled⟩ := hn
  change u = _ at hu
  rw [hsize] at hfilled
  obtain ⟨hgrows, hslot⟩ := h.filled hs hp hi (i.iSize + UInt32.ofNat n) hshape hlt.le hfilled
  have hu : u = (s.tick.tick.grow p d₂ b { i' with iSize := i.iSize + UInt32.ofNat n }).setFile fd
      { s.fileTable fd with fdPos := i.iSize - 1 + UInt32.ofNat n } := by
    rw [hu, ht, ← hsize]
    simp [writeState, Fs.setFile, Fs.setInode, Fs.setDisk, Fs.grow, Fs.setPart, Fs.tick]
  have hpos : (i.iSize + UInt32.ofNat n).toNat = i.iSize.toNat + n := by
    rw [Word.toNat_add] <;> rw [Word.toNat_ofNat (by omega)]
    omega
  have hblock : blockLba d₂ { i' with iSize := i.iSize + UInt32.ofNat n } ((i.iSize.toNat + n) / 512) =
      blockLba d i' ((i.iSize.toNat + n) / 512) := hslot (.block _)
  have h0 : blockLba d i' ((i.iSize.toNat + n) / 512) ≠ 0 :=
    h.grows.covered hshape hs.layout (by omega)
  have hknown := h.known ((i.iSize.toNat + n) / 512) (by omega) (by omega)
  refine ⟨{ i' with iSize := i.iSize + UInt32.ofNat n }, ?_, ?_⟩
  · rw [hu]
    exact Function.update_self ..
  · rw [hpos, hknown]
    refine ⟨by omega, h0, ?_, fun m hm hne a => ?_⟩
    · rw [hu]
      exact hblock.symm
    · have hm : UsedInode s m := by rw [hu] at hm; exact hm
      have hne : m ≠ i.iNo.toNat := by rw [← hgrows.iNo]; exact hne
      have hcur : curInode u m = curInode s m := by
        have hgrown := hgrows.curInode_of_ne hs hp hi hm.1 hne
        rw [hu]
        exact hgrown
      have hother : slotLba u.disk (curInode s m) a = slotLba s.disk (curInode s m) a := by
        rw [hu]
        exact hgrows.slotLba_of_ne hs hp hi hm hne a
      rw [hcur, hother, ← hblock]
      by_cases hzero : slotLba s.disk (curInode s m) a = 0
      · rw [hzero, hblock]
        exact h0.symm
      · exact (hgrows.slot_ne (a := .block _) hs hp hi hm hne hzero).symm

end Inside

section Wrap

/-- When no block is to be added, mapping blocks keeps the inode. -/
theorem mapBlocks_of_lt {used will : ℕ} (hi : s.inodes p = some i) (hlt : will < used) :
    Exec.Ensures (mapBlocks p used will) s fun r s' => r ≠ none ∧ s'.inodes p = some i := by
  rw [mapBlocks, show will - used = 0 by omega]
  rcases Nat.lt_or_ge 12 will with hwill | hwill
  · simp only [derefInode, mapNewBlocks, writeTable, show ¬ will ≤ 12 by omega,
      show ¬ used ≤ 12 by omega, Exec.post_bind, Exec.post_get, post_deref, hi, Option.some.injEq,
      forall_eq', if_false, Exec.post_pure, post_assert, post_readTable, post_ideWrite]
    simp [hi]
  · simp only [derefInode, mapNewBlocks, hwill, Exec.post_bind, Exec.post_get, post_deref, hi,
      Option.some.injEq, forall_eq', if_true, Exec.post_ite, Exec.post_pure, Exec.post_throw]
    simp

/-- A sum that wraps around passes the guards, and no block is mapped. -/
theorem fileWritePrepare_wrap (hi : s.inodes p = some i) (hshape : FileShape s.disk i)
    (hwrap : 2 ^ 32 ≤ i.iSize.toNat + count.toNat)
    (hm : s.mallocs 0 = true ∧ s.mallocs 1 = true) :
    Exec.Ensures (fileWritePrepare p count) s fun r s' => r ≠ none ∧ s'.inodes p = some i := by
  have hsize := hshape.size_lt
  have hcount := count.toNat_lt
  have hsum : (i.iSize + count).toNat = i.iSize.toNat + count.toNat - 2 ^ 32 :=
    Word.toNat_add_of_wrap hwrap
  have hmax : (512 * 140 : UInt32).toNat = 140 * 512 := rfl
  have hguard : ¬ i.iSize + count > 512 * 140 := by
    rw [gt_iff_lt, UInt32.lt_iff_toNat_lt, hsum, hmax]
    omega
  have hfirst : i.sector 0 ≠ 0 := fun h0 => by
    rw [hshape.sector_zero h0, UInt32.toNat_zero] at hwrap
    omega
  have hused := toNat_blockCnt (x := i.iSize) rfl
  have hwill := toNat_blockCnt hsum
  have hlimit : ¬ (i.iSize + count) / 512 + 1 > 140 := by
    rw [gt_iff_lt, UInt32.lt_iff_toNat_lt, hwill]
    simp only [UInt32.reduceToNat]
    omega
  simp only [fileWritePrepare, mapFirstBlock, mapForWrite, derefInode, Exec.post_bind, Exec.post_get,
    post_deref, hi, Option.some.injEq, forall_eq', reduceCtorEq, false_imp_iff, and_true,
    hguard, hlimit, post_sysMalloc, Fs.tick_mallocs, hm.1, hm.2, hfirst, Exec.post_pure,
    Exec.post_ite, Fs.tick_inodes, hused, hwill, true_implies, true_and, not_true_eq_false,
    not_false_eq_true]
  refine ⟨fun _ => ?_, fun hne => mapBlocks_of_lt hi ?_⟩
  · simp only [mapLastBlock, derefInode, Exec.post_map, Exec.post_bind, Exec.post_get, post_deref,
      Fs.tick_inodes, hi, Option.some.injEq, forall_eq', reduceCtorEq, false_imp_iff, and_true,
      Exec.post_ite, Exec.post_pure, post_readTable]
    simp
  · have hdiff : i.iSize / 512 ≠ (i.iSize + count) / 512 := by
      intro heq
      rw [heq, UInt32.sub_self] at hne
      exact hne rfl
    rw [ne_eq, ← UInt32.toNat_inj, toNat_div_512, toNat_div_512, hsum] at hdiff
    omega

/-- A sum that wraps around makes `file_write` run into a fault. -/
theorem fileWrite_wrap (hfd : (s.fileTable fd).fdInode = some p) (hi : s.inodes p = some i)
    (hshape : FileShape s.disk i) (hwrap : 2 ^ 32 ≤ i.iSize.toNat + count.toNat)
    (hm : s.mallocs 0 = true ∧ s.mallocs 1 = true) :
    Exec.Ensures (fileWrite fd buf count) s fun _ _ => False := by
  have hsize := hshape.size_lt
  rw [fileWrite]
  simp only [Exec.post_bind, Exec.post_get, post_deref, hfd, Option.some.injEq, forall_eq',
    implies_true, and_true]
  refine (fileWritePrepare_wrap hi hshape hwrap hm).mono ?_
  rintro (_ | f) t ⟨hr, ht⟩
  · exact absurd rfl hr
  · simp only [derefInode, Exec.post_bind, Exec.post_get, post_deref, ht, Option.some.injEq,
      forall_eq', implies_true, and_true, Exec.post_modify]
    have hloop : Exec.Ensures (writeLoop fd p f buf count count.toNat ⟨0, 0, count, true⟩)
        (t.setFile fd { t.fileTable fd with fdPos := i.iSize - 1 }) fun _ _ => False :=
      writeLoop_overrun (by omega) _ ht (Nat.zero_le _) hsize.le
    exact hloop.mono fun _ _ => False.elim

end Wrap

/-- `file_write` stays inside the file exactly if the sum of the size and the count does not wrap
around, or there is no memory for its buffers. -/
theorem fileWrite_staysInside_iff (hs : FsOk s) (hp : p ∈ s.part.openInodes)
    (hi : s.inodes p = some i) (hfd : (s.fileTable fd).fdInode = some p)
    (hshape : FileShape s.disk i) :
    StaysInside s fd p i buf count ↔
      i.iSize.toNat + count.toNat < 2 ^ 32 ∨ ¬ (s.mallocs 0 = true ∧ s.mallocs 1 = true) := by
  have hsize := hshape.size_lt
  have hearly (h : Exec.Returns (fileWritePrepare p count) s fun r s' =>
      r = none ∧ s'.inodes = s.inodes) : StaysInside s fd p i buf count := by
    refine ⟨Or.inr ?_, fun f t j hok => ?_⟩
    · rw [fileWrite]
      simp only [Exec.Returns, Exec.post_bind, Exec.post_get, post_deref, hfd, Option.some.injEq,
        forall_eq', reduceCtorEq, false_imp_iff, and_true]
      refine h.mono ?_
      rintro _ t ⟨rfl, ht⟩
      exact ⟨rfl, i, by rw [ht, hi], rfl⟩
    · cases (h.ensures.of_ok hok).1
  constructor
  · rintro ⟨hfirst, -⟩
    by_contra hcon
    rw [not_or, not_lt, not_not] at hcon
    have hnever : Exec.Ensures (fileWrite fd buf count) s fun _ _ => False :=
      fileWrite_wrap hfd hi hshape hcon.1 hcon.2
    rcases hfirst with hle | hreturns
    · omega
    · exact hreturns.elim hnever
  · intro hcond
    have hreg : i.sector 12 ≠ 0 → s.part.sb.dataStartLba.toNat ≤ (i.sector 12).toNat := fun h12 => by
      obtain ⟨j, hj, -⟩ := hs.isBlock (a := .table) hp hi h12
      exact hj.le
    rcases Nat.lt_or_ge (i.iSize.toNat + count.toNat) (2 ^ 32) with hfit | hwrap
    · rcases Nat.lt_or_ge (140 * 512) (i.iSize.toNat + count.toNat) with hlarge | hle
      · have hguard : i.iSize + count > 512 * 140 := by
          rw [gt_iff_lt, UInt32.lt_iff_toNat_lt, Word.toNat_add hfit]
          exact hlarge
        refine hearly ?_
        simp only [fileWritePrepare, derefInode, Exec.Returns, Exec.post_bind, Exec.post_get,
          post_deref, hi, Option.some.injEq, forall_eq', reduceCtorEq, false_imp_iff, and_true,
          hguard, if_true, Exec.post_pure]
      · refine ⟨Or.inl hle, fun f t j hok hj w u hturns hgo => ?_⟩
        have hprepare : Exec.Ensures (fileWritePrepare p count) s (PrepareResult s p i count) :=
          (fileWritePrepare_spec hs.layout hi hshape hfit hreg).mono (fun _ _ => id)
            fun _ _ => trivial
        obtain ⟨hlt, -, d, b, i', rfl, hext⟩ := (hprepare.of_ok hok).some f rfl
        obtain rfl : i' = j := by
          rw [Fs.grow_inodes, Function.update_self] at hj
          exact Option.some.inj hj
        exact hext.writesOwnBlock hs hp hi hshape hlt hturns hgo
    · have hm := hcond.resolve_left (by omega)
      refine hearly ?_
      have hguard : ¬ i.iSize + count > 512 * 140 := by
        have hcount := count.toNat_lt
        have hmax : (512 * 140 : UInt32).toNat = 140 * 512 := rfl
        rw [gt_iff_lt, UInt32.lt_iff_toNat_lt, Word.toNat_add_of_wrap hwrap, hmax]
        omega
      simp only [fileWritePrepare, derefInode, Exec.Returns, Exec.post_bind, Exec.post_get,
        post_deref, hi, Option.some.injEq, forall_eq', reduceCtorEq, false_imp_iff, and_true,
        hguard, not_false_eq_true, true_implies, true_and, post_sysMalloc, Fs.tick_mallocs,
        Exec.post_ite, Exec.post_pure]
      exact ⟨fun h₀ => ⟨fun h₁ => absurd ⟨h₀, h₁⟩ hm, fun _ => rfl⟩, fun _ => rfl⟩

/-- Three bytes written to an empty file stay inside it. -/
theorem fileWrite_staysInside_five :
    StaysInside (openFileFs (emptyInode 5)) 3 0 (emptyInode 5) Bytes.zero 3 := by
  have hfs := fsOk_openFileFs (smallFile_emptyInode 5 (by decide) (by decide))
  exact (fileWrite_staysInside_iff hfs (List.mem_cons_self ..) rfl rfl fileShape_emptyInode).mpr
    (Or.inl (by decide))

/-- The largest count does not stay inside a file of one byte, although the state is well formed. -/
theorem fileWrite_leaves_byte :
    FsOk (openFileFs (blockFile 1)) ∧ FileShape Bytes.zero (blockFile 1) ∧
      ¬ StaysInside (openFileFs (blockFile 1)) 3 0 (blockFile 1) Bytes.zero 4294967295 := by
  have hsize : (blockFile 1).iSize.toNat = 1 := rfl
  have hmax : (4294967295 : UInt32).toNat = 4294967295 := rfl
  generalize (4294967295 : UInt32) = count at *
  have hnever : Exec.Ensures (fileWrite 3 Bytes.zero count) (openFileFs (blockFile 1))
      fun _ _ => False :=
    fileWrite_wrap (p := 0) (i := blockFile 1) rfl rfl (fileShape_blockFile (by decide))
      (by rw [hsize, hmax]; omega) ⟨rfl, rfl⟩
  refine ⟨fsOk_openFileFs (smallFile_blockFile 1), fileShape_blockFile (by decide), ?_⟩
  rintro ⟨hle | hreturns, -⟩
  · rw [hsize, hmax] at hle
    omega
  · exact hreturns.elim hnever

end Winx
