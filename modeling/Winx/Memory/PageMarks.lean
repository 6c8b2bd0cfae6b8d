import Winx.Memory.ForkSpaces
import Winx.Memory.PageFailures

/-! # The bits of the pages of processes

A process has a bit for each page of its half of the address space. The pages
are mapped and unmapped by other code than the code that sets and clears the
bits. They agree as long as every request that finds clear bits has frames for
its pages and for their page tables, and every fork as well.
-/

namespace Winx

/-- The calls that map no page without its bit. -/
def PageCall.marks : PageCall → Bool
  | .getAPageWithoutOpvaddrbitmap _ => false
  | _ => true

/-- There are frames for the pages of the running process whose bits the call sets, and for their
page tables. -/
def PageCall.FramesFit (m : Memory) : PageCall → Prop
  | .mallocPage .pfUser pgCnt => ∀ t ∈ m.task m.cur,
      ∀ i ∈ t.userprogVaddr.vaddrBitmap.scan pgCnt,
        m.FramesFor (t.userprogVaddr.vaddrStart + i) pgCnt .pfUser
  | .getAPage .pfUser vaddr => ∀ t ∈ m.task m.cur,
      t.userprogVaddr.vaddrBitmap.scanTest (vaddr - t.userprogVaddr.vaddrStart) = false →
        m.FramesFor vaddr 1 .pfUser
  | _ => True

/-- A call of the memory management, or a fork. -/
inductive SpaceCall
  | page (c : PageCall)
  | sysFork

/-- Run a call, without its result. -/
def SpaceCall.exec : SpaceCall → MemM Unit
  | .page c => c.exec
  | .sysFork => do let _ ← Memory.sysFork

/-- What is admitted of a thread: `get_a_page_without_opvaddrbitmap` is for `sys_fork` only, and that
is for processes. -/
def SpaceCall.Admitted (m : Memory) : SpaceCall → Prop
  | .page c => c.Admitted m ∧ c.marks = true
  | .sysFork => m.RunsProcess

/-- There are frames for what the call maps. A fork without pages for the kernel needs none. -/
def SpaceCall.FramesFit (m : Memory) : SpaceCall → Prop
  | .page c => c.FramesFit m
  | .sysFork => ∀ t ∈ m.task m.cur, m.Serves forkRequests → m.ForkFrames t

/-- A bit of a process is set exactly if the page at its index is present. -/
def Memory.BitsMatch (m : Memory) : Prop :=
  ∀ p t, m.task p = some t → t.pgdir ≠ 0 → ∀ i < 8 * t.userprogVaddr.vaddrBitmap.btmpBytesLen,
    (t.userprogVaddr.vaddrBitmap.scanTest i = true ↔
      (m.walk (m.dirOf t) (t.userprogVaddr.vaddrStart + i)).isSome = true)

/-- The invariant of memory, and the pages of every process are those of its bits. -/
structure MarkInv (m : Memory) : Prop where
  mem : MemInv m
  marked : ∀ p t, m.task p = some t → t.pgdir ≠ 0 → m.PagesMarked t

section Marks

variable {m m' : Memory} {p n i v w cnt : ℕ} {t : MemTask} {b : Bitmap}

theorem MarkInv.bitsMatch (h : MarkInv m) : m.BitsMatch := by
  intro p t ht hne i hi
  have hrange := h.mem.range ht hne
  rw [h.marked p t ht hne _ (by omega)]
  constructor
  · exact fun hset => ⟨i, MemTask.mem_setBits.mpr ⟨hi, hset⟩, rfl⟩
  · rintro ⟨j, hj, heq⟩
    obtain rfl : i = j := by omega
    exact (MemTask.mem_setBits.mp hj).2

/-- The processes and their pages are the same. -/
theorem MarkInv.of_samePages (h : MarkInv m) (h' : MemInv m') (hk : KeepsDirs m m')
    (htask : m'.task = m.task) (hpage : ∀ d v g, m'.Holds (.page d v) g ↔ m.Holds (.page d v) g) :
    MarkInv m' := by
  refine ⟨h', fun p t ht hne => ?_⟩
  have ht' : m.task p = some t := htask ▸ ht
  rw [h'.pagesMarked_iff ht hne]
  intro v
  simp only [hpage, hk.dirOf ht' rfl]
  exact (h.mem.pagesMarked_iff ht' hne).mp (h.marked p t ht' hne) v

/-- The running process changes its bits and its pages. -/
theorem MarkInv.of_running (h : MarkInv m) (h' : MemInv m') (hk : KeepsDirs m m')
    (hcur : m.task m.cur = some t) (hne : t.pgdir ≠ 0)
    (hlen : b.btmpBytesLen = t.userprogVaddr.vaddrBitmap.btmpBytesLen)
    (htask : m'.task = Function.update m.task m.cur (some (t.setBitmap b)))
    (hother : ∀ d v, d ≠ m.cr3 → ((∃ g, m'.Holds (.page d v) g) ↔ ∃ g, m.Holds (.page d v) g))
    (hpage : ∀ v, (∃ g, m'.Holds (.page m.cr3 v) g) ↔
      ∃ i < 8 * t.userprogVaddr.vaddrBitmap.btmpBytesLen,
        b.scanTest i = true ∧ v = t.userprogVaddr.vaddrStart + i) : MarkInv m' := by
  have hcr3 := h.mem.cr3_eq hcur
  refine ⟨h', fun p u hu hne' => ?_⟩
  rw [h'.pagesMarked_iff hu hne']
  intro v
  rw [htask, Function.update_apply] at hu
  split at hu
  · obtain rfl := Option.some.inj hu
    rw [hk.dirOf hcur (MemTask.setBitmap_pgdir t b), ← hcr3, hpage]
    simp only [MemTask.mem_setBits, and_assoc]
    change _ ↔ ∃ i < 8 * b.btmpBytesLen, b.scanTest i = true ∧ v = t.userprogVaddr.vaddrStart + i
    rw [hlen]
  · rename_i hp
    have hdir : m.dirOf u ≠ m.cr3 := by
      rw [hcr3]
      exact h.mem.page.dirOf_ne hu hcur hne' hne hp
    rw [hk.dirOf hu rfl, hother _ v hdir]
    exact (h.mem.pagesMarked_iff hu hne').mp (h.marked p u hu hne') v

/-- The pages of the running process, by its bits. -/
theorem MarkInv.page_iff (h : MarkInv m) (hcur : m.task m.cur = some t) (hne : t.pgdir ≠ 0) (v : ℕ) :
    (∃ g, m.Holds (.page m.cr3 v) g) ↔ ∃ i < 8 * t.userprogVaddr.vaddrBitmap.btmpBytesLen,
      t.userprogVaddr.vaddrBitmap.scanTest i = true ∧ v = t.userprogVaddr.vaddrStart + i := by
  rw [h.mem.cr3_eq hcur, (h.mem.pagesMarked_iff hcur hne).mp (h.marked _ t hcur hne)]
  simp only [MemTask.mem_setBits, and_assoc]

/-- Pages that were mapped after their bits were set. -/
theorem AddedPages.markInv (ha : AddedPages (m.markPages t i n) m' (t.userprogVaddr.vaddrStart + i) cnt)
    (h : MarkInv m) (h' : PageInv m') (hcur : m.task m.cur = some t) (hne : t.pgdir ≠ 0)
    (hend : i + n ≤ 8 * t.userprogVaddr.vaddrBitmap.btmpBytesLen)
    (hall : ∀ j < n, cnt ≤ j → t.userprogVaddr.vaddrBitmap.scanTest (i + j) = true) (hle : cnt ≤ n) :
    MarkInv m' := by
  have hs : SameUses m (m.markPages t i n) := Memory.sameUses_setTask hcur rfl
  have hpage (d w : ℕ) : (∃ g, m'.Holds (.page d w) g) ↔ (∃ g, m.Holds (.page d w) g) ∨
      d = m.cr3 ∧ t.userprogVaddr.vaddrStart + i ≤ w ∧ w < t.userprogVaddr.vaddrStart + i + cnt := by
    rw [ha.page]
    simp only [hs.holds]
    rfl
  refine h.of_running (b := t.userprogVaddr.vaddrBitmap.setRun i true n) (ha.memInv h.mem h' hcur)
    (hs.keeps.trans ha.grows.keeps) hcur hne
    (Bitmap.setRun_btmpBytesLen ..) ?_ (fun d w hd => ?_) fun w => ?_
  · rw [ha.task]
    rfl
  · rw [hpage]
    exact or_iff_left fun heq => hd heq.1
  · rw [hpage, h.page_iff hcur hne]
    constructor
    · rintro (⟨j, hj, hset, rfl⟩ | ⟨-, hlo, hhi⟩)
      · refine ⟨j, hj, ?_, rfl⟩
        rw [Bitmap.scanTest_setRun, hset, ite_self]
      · refine ⟨w - t.userprogVaddr.vaddrStart, by omega, ?_, by omega⟩
        rw [Bitmap.scanTest_setRun, if_pos (by omega)]
    · rintro ⟨j, hj, hset, rfl⟩
      rw [Bitmap.scanTest_setRun] at hset
      split at hset
      · rename_i hin
        rcases Nat.lt_or_ge j (i + cnt) with hlt | hge
        · exact Or.inr ⟨rfl, by omega, by omega⟩
        · refine Or.inl ⟨j, hj, ?_, rfl⟩
          have hj := hall (j - i) (by omega) (by omega)
          rwa [Nat.add_sub_cancel' hin.1] at hj
      · exact Or.inl ⟨j, hj, hset, rfl⟩

/-- Pages that are freed, and then their bits cleared. -/
theorem FreedPages.markInv (hf : FreedPages m m' (pageUse m.cr3 .pfUser) v n) (h : MarkInv m)
    (h' : PageInv m') (hcur : m.task m.cur = some t) (hne : t.pgdir ≠ 0)
    (hlo : t.userprogVaddr.vaddrStart ≤ v)
    (htask : m'.task = Function.update m.task m.cur (some (t.setBitmap
      (t.userprogVaddr.vaddrBitmap.setRun (v - t.userprogVaddr.vaddrStart) false n)))) : MarkInv m' := by
  have hpage (d w : ℕ) : (∃ g, m'.Holds (.page d w) g) ↔
      (∃ g, m.Holds (.page d w) g) ∧ ¬ (d = m.cr3 ∧ v ≤ w ∧ w < v + n) := by
    simp only [hf.holds, exists_and_right]
    refine and_congr_right fun _ => ?_
    simp only [pageUse, ne_eq, FrameUse.page.injEq]
    constructor
    · rintro hnot ⟨hd, hlo', hhi'⟩
      exact hnot w hlo' hhi' ⟨hd, rfl⟩
    · rintro hnot u hlo' hhi' ⟨hd, rfl⟩
      exact hnot ⟨hd, hlo', hhi'⟩
  refine h.of_running (h.mem.of_setBitmap h' hf.keeps hf.cr3 hf.cur hcur
    (Bitmap.setRun_btmpBytesLen ..) htask) hf.keeps hcur hne (Bitmap.setRun_btmpBytesLen ..) htask
    (fun d w hd => ?_) fun w => ?_
  · rw [hpage]
    exact and_iff_left fun heq => hd heq.1
  · rw [hpage, h.page_iff hcur hne]
    constructor
    · rintro ⟨⟨j, hj, hset, rfl⟩, hnot⟩
      refine ⟨j, hj, ?_, rfl⟩
      rw [Bitmap.scanTest_setRun, if_neg, hset]
      exact fun hin => hnot ⟨rfl, by omega, by omega⟩
    · rintro ⟨j, hj, hset, rfl⟩
      rw [Bitmap.scanTest_setRun] at hset
      split at hset
      · cases hset
      · rename_i hout
        exact ⟨⟨j, hj, hset, rfl⟩, fun hin => hout ⟨by omega, by omega⟩⟩

/-- A new process has no page and no bit. -/
theorem processExecute_markInv (h : MarkInv m) :
    Exec.Ensures processExecute m fun _ m' => MarkInv m' := by
  refine Exec.Ensures.mono (processExecute_spec h.mem) ?_
  rintro - m' ⟨h', hpage, -, hdir, q, u, hnone, htask, hzero⟩
  have hold {p : ℕ} {t : MemTask} (ht : m.task p = some t) : p ≠ q ∧ m'.task p = some t := by
    have hp : p ≠ q := by
      rintro rfl
      cases ht.symm.trans hnone
    exact ⟨hp, by rw [htask, Function.update_of_ne hp, ht]⟩
  refine ⟨h', fun p t ht hne => ?_⟩
  rw [h'.pagesMarked_iff ht hne]
  intro v
  simp only [hpage]
  by_cases hp : p = q
  · subst hp
    have hnew := ht
    rw [htask, Function.update_self] at hnew
    obtain rfl := Option.some.inj hnew
    refine iff_of_false ?_ ?_
    · rintro ⟨g, ⟨p', t', ht', hne', hwalk⟩, -⟩
      obtain ⟨hp', ht''⟩ := hold ht'
      refine h'.page.dirOf_ne ht'' ht hne' hne hp' ?_
      rw [hdir p' t' ht', Memory.dirOf, if_neg hne', hwalk, Option.getD_some]
    · rintro ⟨i, hi, -⟩
      have hset := (MemTask.mem_setBits.mp hi).2
      rw [Bitmap.scanTest, hzero] at hset
      simp [Bytes.zero] at hset
  · rw [htask, Function.update_of_ne hp] at ht
    rw [hdir p t ht]
    exact (h.mem.pagesMarked_iff ht hne).mp (h.marked p t ht hne) v

/-- The page table of a present page is there. -/
theorem Memory.tablesFit_of_page {g : ℕ} (hg : m.Holds (.page m.cr3 v) g) : m.TablesFit v 1 := by
  have hp := (Memory.walk_eq_some.mp hg.2.2).1
  unfold Memory.TablesFit Memory.missingTables
  rw [Finset.card_eq_zero.mpr]
  · exact Nat.zero_le _
  · refine Finset.filter_eq_empty_iff.mpr fun i hi hnot => ?_
    obtain ⟨w, hw, rfl⟩ := Finset.mem_image.mp hi
    rw [Finset.mem_Ico] at hw
    obtain rfl : w = v := by omega
    rw [hp] at hnot
    cases hnot

/-- `get_a_page` of the running process. A page whose bit was set is there already. -/
theorem getAPage_markInv (h : MarkInv m) (hcur : m.task m.cur = some t) (hne : t.pgdir ≠ 0)
    (hfit : t.userprogVaddr.vaddrBitmap.scanTest (v - t.userprogVaddr.vaddrStart) = false →
      m.FramesFor v 1 .pfUser) :
    Exec.Ensures (getAPage .pfUser v) m fun _ m' => MarkInv m' := by
  by_cases hin : t.userprogVaddr.vaddrStart ≤ v ∧
      v - t.userprogVaddr.vaddrStart < 8 * t.userprogVaddr.vaddrBitmap.btmpBytesLen
  swap
  · simp only [getAPage, curTask, Exec.post_bind, Exec.post_get, post_deref, hcur, Option.some.injEq,
      forall_eq', hne, ne_eq, not_false_eq_true, and_self, if_true, post_inBounds, hin, false_implies,
      implies_true, and_true]
  have heq : t.userprogVaddr.vaddrStart + (v - t.userprogVaddr.vaddrStart) = v := by omega
  have htables : m.TablesFit v 1 := by
    cases hbit : t.userprogVaddr.vaddrBitmap.scanTest (v - t.userprogVaddr.vaddrStart) with
    | false =>
      obtain ⟨huser, hkernel⟩ := hfit hbit
      rw [Memory.TablesFit, Nat.min_eq_left huser]
      exact hkernel
    | true =>
      obtain ⟨g, hg⟩ := (h.page_iff hcur hne v).mpr ⟨_, hin.2, hbit, heq.symm⟩
      exact Memory.tablesFit_of_page hg
  refine Exec.Ensures.mono (getAPage_user h.mem.page hcur (h.mem.isProcDir hcur hne)
    (h.mem.range hcur hne) hne htables) ?_
  rintro r m' ⟨h', -, -, hr⟩
  rw [← heq] at hr
  rcases hr with ⟨-, ha⟩ | ⟨-, hzero, ha⟩
  · rw [Nat.add_sub_cancel_left] at ha
    exact ha.markInv h h' hcur hne (by omega) (fun j hj hle => by omega) le_rfl
  · rw [Nat.add_sub_cancel_left] at ha
    refine ha.markInv h h' hcur hne (by omega) (fun j hj _ => ?_) (Nat.zero_le _)
    obtain rfl : j = 0 := by omega
    by_contra hclear
    have huser := (hfit (by simpa using hclear)).1
    omega

/-- A call with enough frames keeps the bits and the pages alike. -/
theorem PageCall.exec_markInv {c : PageCall} (h : MarkInv m) (hok : c.Admitted m)
    (hmarks : c.marks = true) (hfit : c.FramesFit m) :
    Exec.Ensures c.exec m fun _ m' => MarkInv m' := by
  have hkernel {m' : Memory} {v n : ℕ} (h' : PageInv m') (hp : KernelPages m m' v n) : MarkInv m' :=
    h.of_samePages (h.mem.of_task_eq h' hp.keeps hp.cr3 hp.cur hp.task) hp.keeps hp.task hp.page
  cases c with
  | getKernelPages pgCnt =>
    simp only [PageCall.exec, Exec.post_bind, Exec.post_pure]
    refine Exec.Post.mono (getKernelPages_spec h.mem.page) ?_ fun _ _ => trivial
    rintro r m' ⟨h', hgot, -⟩
    obtain ⟨v, n, hp⟩ := hgot.pages
    exact hkernel h' hp
  | mallocPage pf pgCnt =>
    simp only [PageCall.exec, Exec.post_bind, Exec.post_pure]
    cases pf with
    | pfKernel =>
      refine Exec.Post.mono (mallocPage_kernel h.mem.page) ?_ fun _ _ => trivial
      rintro r m' ⟨h', hgot⟩
      obtain ⟨v, n, hp⟩ := hgot.pages
      exact hkernel h' hp
    | pfUser =>
      obtain ⟨t, ht, hne⟩ := (hok rfl).task
      by_cases hpos : 0 < pgCnt
      swap
      · simp [Winx.mallocPage, post_assert, hpos]
      have hframes := hfit t ht
      have htables : ∀ i, t.userprogVaddr.vaddrBitmap.scan pgCnt = some i →
          m.TablesFit (t.userprogVaddr.vaddrStart + i) pgCnt := by
        intro i hi
        obtain ⟨huser, hkernel⟩ := hframes i hi
        rw [Memory.TablesFit, Nat.min_eq_left huser]
        exact hkernel
      refine Exec.Ensures.mono (mallocPage_user h.mem.page ht (h.mem.isProcDir ht hne)
        (h.mem.range ht hne) htables) ?_
      rintro r m' ⟨h', hgot⟩
      cases r with
      | some vaddr =>
        obtain ⟨i, hscan, rfl, ha⟩ := hgot
        have hlast := (Bitmap.scan_eq_some hscan (pgCnt - 1) (by omega)).2
        exact ha.markInv h h' ht hne (by omega) (fun j hj hle => by omega) le_rfl
      | none =>
        rcases hgot with ⟨-, rfl⟩ | ⟨i, hscan, hless, -⟩
        · exact h
        · exact absurd (hframes i hscan).1 (Nat.not_le.mpr hless)
  | getAPage pf vaddr =>
    simp only [PageCall.exec, Exec.post_bind, Exec.post_pure]
    obtain ⟨t, ht, -⟩ := h.mem.active
    by_cases hne : t.pgdir = 0
    · cases pf with
      | pfKernel =>
        refine Exec.Ensures.mono (getAPage_kernel h.mem.page ht hne) ?_
        rintro r m' ⟨h', n, hp, -⟩
        exact hkernel h' hp
      | pfUser => simp [Winx.getAPage, curTask, ht, hne]
    · cases pf with
      | pfKernel => simp [Winx.getAPage, curTask, ht, hne]
      | pfUser => exact getAPage_markInv h ht hne (hfit t ht)
  | getAPageWithoutOpvaddrbitmap vaddr => cases hmarks
  | mfreePage pf vaddr pgCnt =>
    by_cases hcnt : 1 ≤ pgCnt
    swap
    · simp only [PageCall.exec, Winx.mfreePage, Exec.post_bind, post_assert, hcnt, false_implies,
        not_false_eq_true, true_implies, true_and]
    cases pf with
    | pfKernel =>
      refine Exec.Returns.post (mfreePage_kernel h.mem.page hcnt hok) ?_
      rintro - m' ⟨h', hf, htask, -⟩
      exact h.of_samePages (h.mem.of_task_eq h' hf.keeps hf.cr3 hf.cur htask) hf.keeps htask
        fun _ _ _ => hf.page
    | pfUser =>
      obtain ⟨t, ht, hcr3⟩ := h.mem.active
      have hne : t.pgdir ≠ 0 := by
        obtain ⟨⟨g, hg⟩, -⟩ := hok vaddr le_rfl (by omega)
        intro hzero
        have hboot := (h.mem.page.procDir_bounds hg.1).1
        rw [hcr3, Memory.dirOf, if_pos hzero] at hboot
        exact absurd hboot (by decide)
      refine Exec.Ensures.mono (mfreePage_user h.mem.page hcnt ht hok) ?_
      rintro - m' ⟨h', hf, hlo, -, htask⟩
      exact hf.markInv h h' ht hne hlo htask
  | processExecute => exact processExecute_markInv h
  | switchTo thread =>
    refine Exec.Ensures.mono (switchTo_spec h.mem) ?_
    rintro - m' ⟨h', t, -, rfl⟩
    have hs : SameUses m ((m.setCur thread).setCr3 (m.dirOf t)) :=
      .of_phys rfl (fun _ => rfl) (fun _ => rfl) (fun _ => rfl) rfl rfl
    exact h.of_samePages h' hs.keeps rfl fun _ _ _ => Iff.rfl

/-- A process and its child have the pages of their bits, and the others keep theirs. -/
theorem Forked.markInv {parent child : MemTask} {thread : ℕ} (hf : Forked m m' parent thread child)
    (h : MarkInv m) (h' : MemInv m') (hcur : m.task m.cur = some parent) (hne : parent.pgdir ≠ 0) :
    MarkInv m' := by
  refine ⟨h', fun p t ht hne' v hv => ?_⟩
  rw [hf.task, Function.update_apply] at ht
  split at ht
  · obtain rfl := Option.some.inj ht
    rw [hf.pages v hv, h.marked _ _ hcur hne v hv, hf.vaddrStart, hf.len]
    refine exists_congr fun i => and_congr_left fun _ => ?_
    rw [MemTask.mem_setBits, MemTask.mem_setBits]
    exact and_congr_right fun hi => by rw [hf.bitmap i hi]
  · rw [(hf.kept p t ht hne').walk v hv]
    exact h.marked p t ht hne' v hv

theorem SpaceCall.exec_markInv {c : SpaceCall} (h : MarkInv m) (hok : c.Admitted m)
    (hfit : c.FramesFit m) : Exec.Ensures c.exec m fun _ m' => MarkInv m' := by
  cases c with
  | page c => exact c.exec_markInv h hok.1 hok.2 hfit
  | sysFork =>
    obtain ⟨t, ht, hne⟩ := hok.task
    simp only [SpaceCall.exec, Exec.post_bind, Exec.post_pure]
    refine Exec.Returns.post (sysFork_spec h.mem ht hne (h.marked _ t ht hne) (hfit t ht)) ?_
    rintro r m' ⟨h', hfail, hfork⟩
    cases r with
    | none =>
      obtain ⟨⟨k, hk⟩, -⟩ := hfail rfl
      exact h.of_samePages h' hk.keeps hk.task hk.page
    | some thread =>
      obtain ⟨child, hf⟩ := hfork thread rfl
      exact hf.markInv h h' ht hne

theorem markInv_boot {allMem : ℕ} : MarkInv (Memory.boot allMem) := by
  refine ⟨memInv_boot, fun p t ht hne => ?_⟩
  exact absurd (memInv_boot.page.isProcDir_dirOf ht hne) Memory.not_isProcDir_boot

end Marks

instance (m : Memory) (vaddr cnt : ℕ) : (pf : PoolFlags) → Decidable (m.FramesFor vaddr cnt pf)
  | .pfKernel => inferInstanceAs (Decidable (cnt ≤ m.freeFrames .pfKernel))
  | .pfUser => inferInstanceAs (Decidable (cnt ≤ m.freeFrames .pfUser ∧
      m.missingTables vaddr cnt ≤ m.freeFrames .pfKernel))

instance (m : Memory) : (c : PageCall) → Decidable (c.FramesFit m)
  | .mallocPage .pfUser pgCnt => inferInstanceAs (Decidable (∀ t ∈ m.task m.cur,
      ∀ i ∈ t.userprogVaddr.vaddrBitmap.scan pgCnt,
        m.FramesFor (t.userprogVaddr.vaddrStart + i) pgCnt .pfUser))
  | .getAPage .pfUser vaddr => inferInstanceAs (Decidable (∀ t ∈ m.task m.cur,
      t.userprogVaddr.vaddrBitmap.scanTest (vaddr - t.userprogVaddr.vaddrStart) = false →
        m.FramesFor vaddr 1 .pfUser))
  | .mallocPage .pfKernel _ | .getAPage .pfKernel _ | .getKernelPages _ | .mfreePage .. |
    .getAPageWithoutOpvaddrbitmap _ | .processExecute | .switchTo _ => isTrue trivial

/-- In every run in which there are frames for the pages whose bits are set, the bits of the processes
match their pages. -/
theorem bitsMatch_of_run {allMem : ℕ} {m : Memory}
    (hrun : Exec.Run SpaceCall.exec (fun m c => c.Admitted m ∧ c.FramesFit m) (Memory.boot allMem) m) :
    m.BitsMatch :=
  MarkInv.bitsMatch (hrun.invariant markInv_boot fun _ _ h hok => SpaceCall.exec_markInv h hok.1 hok.2)

/-- A process with a page from each request. -/
theorem bitsMatch_of_run_pages : ∃ m : Memory, (m.frameOf 0xc0100 0x8048).isSome = true ∧
    (m.frameOf 0xc0100 0xbffff).isSome = true ∧ m.BitsMatch := by
  have h : (Exec.runList PageCall.exec (fun m c => (c.Asks m ∧ c.marks = true) ∧ c.FramesFit m)
      [.processExecute, .switchTo 0xc0100, .getAPage .pfUser 0xbffff, .mallocPage .pfUser 2]
      (Memory.boot 0x400000)).any
      (fun m => (m.frameOf 0xc0100 0x8048).isSome && (m.frameOf 0xc0100 0xbffff).isSome) = true := by
    decide +kernel
  obtain ⟨m, hrun, hpages⟩ := Exec.Run.exists_of_any h
  rw [Bool.and_eq_true] at hpages
  exact ⟨m, hpages.1, hpages.2, bitsMatch_of_run (hrun.map (φ := SpaceCall.page) (fun _ => rfl)
    fun _ _ hok => ⟨⟨hok.1.1.2, hok.1.2⟩, hok.2⟩)⟩

/-- A process that asks for more pages than there are frames has bits for pages that it did not get. -/
theorem not_bitsMatch_of_run :
    ∃ m, Exec.Run SpaceCall.exec (fun m c => c.Admitted m) (Memory.boot 0x240000) m ∧ ¬ m.BitsMatch := by
  have h : (Exec.runList PageCall.exec (fun m c => c.Asks m ∧ c.marks = true)
      [.processExecute, .switchTo 0xc0100, .mallocPage .pfUser 40] (Memory.boot 0x240000)).any
      (fun m => (m.task 0xc0100).any fun t => t.pgdir ≠ 0 &&
        (39 < 8 * t.userprogVaddr.vaddrBitmap.btmpBytesLen &&
          (t.userprogVaddr.vaddrBitmap.scanTest 39 &&
            !(m.walk (m.dirOf t) (t.userprogVaddr.vaddrStart + 39)).isSome))) = true := by
    decide +kernel
  obtain ⟨m, hrun, hany⟩ := Exec.Run.exists_of_any h
  refine ⟨m, hrun.map (φ := SpaceCall.page) (fun _ => rfl) fun _ _ hok => ⟨hok.1.2, hok.2⟩, fun hbits => ?_⟩
  simp only [Option.any_eq_true, Bool.and_eq_true, decide_eq_true_eq, Bool.not_eq_true'] at hany
  obtain ⟨t, ht, hne, hlt, hset, hnone⟩ := hany
  rw [(hbits _ t ht hne 39 hlt).mp hset] at hnone
  cases hnone

section Children

variable {m : Memory} {parent : MemTask}

/-- Frames in use are not free. -/
theorem card_add_freeFrames_le (pf : PoolFlags) {s : Finset ℕ} {g : ℕ → ℕ} (hinj : Set.InjOn g s)
    (halloc : ∀ i ∈ s, m.Allocated pf (g i)) :
    s.card + m.freeFrames pf ≤ 8 * (m.pool pf).poolBitmap.btmpBytesLen := by
  have hle : s.card ≤ ((Finset.range (8 * (m.pool pf).poolBitmap.btmpBytesLen)).filter
      fun i => ¬ (m.pool pf).poolBitmap.scanTest i = false).card := by
    refine Finset.card_le_card_of_injOn (fun i => g i - (m.pool pf).phyAddrStart) (fun i hi => ?_) ?_
    · obtain ⟨-, hhi, hset⟩ := halloc i hi
      refine Finset.mem_filter.mpr ⟨Finset.mem_range.mpr hhi, fun hclear => ?_⟩
      rw [hset] at hclear
      cases hclear
    · intro i hi j hj heq
      have hlo := (halloc i hi).1
      have hlo' := (halloc j hj).1
      refine hinj hi hj ?_
      simp only at heq
      omega
  have hsum := Finset.card_filter_add_card_filter_not (s := Finset.range
    (8 * (m.pool pf).poolBitmap.btmpBytesLen)) fun i => (m.pool pf).poolBitmap.scanTest i = false
  rw [Finset.card_range] at hsum
  unfold Memory.freeFrames Bitmap.freeCnt
  omega

/-- A process has no more pages than there are frames in use. -/
theorem MarkInv.card_setBits (h : MarkInv m) (hcur : m.task m.cur = some parent)
    (hne : parent.pgdir ≠ 0) :
    (parent.setBits (8 * parent.userprogVaddr.vaddrBitmap.btmpBytesLen)).card +
      m.freeFrames .pfUser ≤ 8 * m.userPool.poolBitmap.btmpBytesLen := by
  have hpage (i : ℕ) (hi : i ∈ parent.setBits (8 * parent.userprogVaddr.vaddrBitmap.btmpBytesLen)) :
      m.Holds (.page m.cr3 (parent.userprogVaddr.vaddrStart + i))
        ((m.walk m.cr3 (parent.userprogVaddr.vaddrStart + i)).getD 0) := by
    obtain ⟨hlt, hset⟩ := MemTask.mem_setBits.mp hi
    obtain ⟨g, hg⟩ := (h.page_iff hcur hne _).mpr ⟨i, hlt, hset, rfl⟩
    rw [hg.2.2, Option.getD_some]
    exact hg
  refine card_add_freeFrames_le .pfUser (g := fun i => (m.walk m.cr3 (parent.userprogVaddr.vaddrStart + i)).getD 0)
    (fun i hi j hj heq => ?_) fun i hi => h.mem.page.alloc _ _ (hpage i hi)
  have hi' := hpage i hi
  simp only at heq
  rw [heq] at hi'
  have huse := h.mem.page.unique _ _ _ hi' (hpage j hj)
  rw [FrameUse.page.injEq] at huse
  omega

end Children

/-- A process whose pages are those of its bits gets a child with its bits and with copies of its pages
in frames that were free, and its own pages stay as they are. Afterwards each of the two reads what it
has stored itself. -/
theorem sysFork_isolates {m : Memory} {parent : MemTask} (h : MemInv m)
    (hcur : m.task m.cur = some parent) (hne : parent.pgdir ≠ 0) (hmarked : m.PagesMarked parent)
    (hframes : m.ForkFrames parent) :
    Exec.Returns Memory.sysFork m fun r m' => (r = none → ¬ m.Serves forkRequests) ∧
      ∀ thread, r = some thread → ∃ child, Forked m m' parent thread child ∧
        ∀ l : List UserStore, (∀ s ∈ l, s.Admitted m') →
          Exec.Ensures (userStores l) m' fun _ m'' =>
            ∀ q, q = m.cur ∨ q = thread → ∀ addr < 1024 * kernelBase,
              m''.userWord q addr =
                storedWord addr (l.filter (·.thread = q)) (m'.userWord q addr) := by
  refine Exec.Returns.mono (sysFork_spec h hcur hne hmarked fun _ => hframes) ?_
  rintro r m' ⟨h', hfail, hfork⟩
  refine ⟨fun hr => (hfail hr).2, fun thread hr => ?_⟩
  obtain ⟨child, hf⟩ := hfork thread hr
  have hparent : m'.IsProcess m.cur := by
    have hp : m.cur ≠ thread := fun heq => by
      cases hcur.symm.trans (heq ▸ hf.absent)
    exact ⟨parent, by rw [hf.task, Function.update_of_ne hp, hcur], hne⟩
  have hchild : m'.IsProcess thread := ⟨child, by rw [hf.task, Function.update_self], hf.pgdir⟩
  refine ⟨child, hf, fun l hok => Exec.Ensures.mono (userStores_spec l h' hok) ?_⟩
  rintro - m'' ⟨-, -, hword⟩ q (rfl | rfl) addr haddr
  · exact hword _ hparent addr haddr
  · exact hword _ hchild addr haddr

/-- A process with a page for its stack has a child. -/
theorem sysFork_isolates_stack : ∃ (m : Memory) (t : MemTask), m.task m.cur = some t ∧
    (m.frameOf 0xc0100 0xbffff).isSome = true ∧
    Exec.Returns Memory.sysFork m fun r m' => ∃ thread child, r = some thread ∧
      Forked m m' t thread child := by
  have h : (Exec.runList PageCall.exec (fun m c => (c.Asks m ∧ c.marks = true) ∧ c.FramesFit m)
      [.processExecute, .switchTo 0xc0100, .getAPage .pfUser 0xbffff] (Memory.boot 0x400000)).any
      (fun m => (m.frameOf 0xc0100 0xbffff).isSome && (decide m.RunsProcess &&
        (m.freeFrames .pfUser == 255 && (m.userPool.poolBitmap.btmpBytesLen == 32 &&
          (decide (100 ≤ m.freeFrames .pfKernel) &&
            m.kernelVaddr.vaddrBitmap.serves forkRequests))))) = true := by
    decide +kernel
  obtain ⟨m, hrun, hm⟩ := Exec.Run.exists_of_any h
  simp only [Bool.and_eq_true, decide_eq_true_eq, beq_iff_eq] at hm
  obtain ⟨hframe, hproc, huser, hlen, hkernel, hserves⟩ := hm
  obtain ⟨t, ht, hne⟩ := hproc.task
  have hinv : MarkInv m := (hrun.map (φ := SpaceCall.page) (q := fun m c => c.Admitted m ∧ c.FramesFit m)
    (fun _ => rfl) fun _ _ hok => ⟨⟨hok.1.1.2, hok.1.2⟩, hok.2⟩).invariant markInv_boot
      fun _ _ h hok => SpaceCall.exec_markInv h hok.1 hok.2
  -- the process has one page
  have hcard := hinv.card_setBits ht hne
  rw [huser, hlen] at hcard
  have htables : (t.setTables (8 * t.userprogVaddr.vaddrBitmap.btmpBytesLen)).card ≤ 1 :=
    Finset.card_image_le.trans (by omega)
  have hsum : forkRequests.sum = 26 := by decide
  refine ⟨m, t, ht, hframe, ?_⟩
  refine Exec.Returns.mono
    (sysFork_isolates hinv.mem ht hne (hinv.marked _ t ht hne) ⟨by omega, by omega⟩) ?_
  rintro r m' ⟨hnone, hfork⟩
  cases r with
  | none => exact absurd ⟨by omega, hserves⟩ (hnone rfl)
  | some thread =>
    obtain ⟨child, hf, -⟩ := hfork thread rfl
    exact ⟨thread, child, rfl, hf⟩

end Winx
