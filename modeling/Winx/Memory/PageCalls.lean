import Winx.Lib.Run
import Winx.Memory.PageDirs

/-! # Runs of page requests

Kernel threads and processes ask for pages and give them back, in any order and
switching between them. As long as there are frames for the page tables, no
frame is ever used twice.
-/

namespace Winx

/-- A call of the memory management, a new process, or a switch to another thread. -/
inductive PageCall
  | getKernelPages (pgCnt : ℕ)
  | mallocPage (pf : PoolFlags) (pgCnt : ℕ)
  | getAPage (pf : PoolFlags) (vaddr : ℕ)
  | getAPageWithoutOpvaddrbitmap (vaddr : ℕ)
  | mfreePage (pf : PoolFlags) (vaddr pgCnt : ℕ)
  | processExecute
  | switchTo (thread : ℕ)

/-- Run a call, without its result. -/
def PageCall.exec : PageCall → MemM Unit
  | .getKernelPages pgCnt => do let _ ← Winx.getKernelPages pgCnt
  | .mallocPage pf pgCnt => do let _ ← Winx.mallocPage pf pgCnt
  | .getAPage pf vaddr => do let _ ← Winx.getAPage pf vaddr
  | .getAPageWithoutOpvaddrbitmap vaddr => do let _ ← Winx.getAPageWithoutOpvaddrbitmap .pfUser vaddr
  | .mfreePage pf vaddr pgCnt => Winx.mfreePage pf vaddr pgCnt
  | .processExecute => Winx.processExecute
  | .switchTo thread => Winx.switchTo thread

/-- The running thread is a process. -/
def Memory.RunsProcess (m : Memory) : Prop := (m.task m.cur).any (·.pgdir ≠ 0) = true

instance (m : Memory) : Decidable m.RunsProcess := by unfold Memory.RunsProcess; infer_instance

/-- Only processes ask for pages of processes, in their half of the address space, and the pages
given back are there and are not those of a thread. -/
def PageCall.Admitted (m : Memory) : PageCall → Prop
  | .mallocPage pf _ => pf = .pfUser → m.RunsProcess
  | .getAPageWithoutOpvaddrbitmap vaddr => m.RunsProcess ∧ vaddr < kernelBase
  | .mfreePage pf vaddr pgCnt => m.Mapped pf vaddr pgCnt
  | _ => True

/-- The kernel pool has the frames for the page tables of the pages that the call maps. -/
def PageCall.TablesFit (m : Memory) : PageCall → Prop
  | .mallocPage .pfUser pgCnt =>
    match m.task m.cur with
    | none => True
    | some t =>
      match t.userprogVaddr.vaddrBitmap.scan pgCnt with
      | none => True
      | some bitIdxStart => m.TablesFit (t.userprogVaddr.vaddrStart + bitIdxStart) pgCnt
  | .getAPage .pfUser vaddr => m.TablesFit vaddr 1
  | .getAPageWithoutOpvaddrbitmap vaddr => m.TablesFit vaddr 1
  | _ => True

/-- No frame is used twice: not by two pages, of one or of two processes or of the kernel, not by two
page tables, and not by a page and a page table; and `palloc` returns no frame that is used. -/
structure Memory.FramesExclusive (m : Memory) : Prop where
  exclusive : Exclusive m.Holds
  palloc : ∀ pf, Exec.Returns (palloc pf) m fun r _ => ∀ frame, r = some frame → ∀ u, ¬ m.Holds u frame

section Calls

variable {m : Memory} {c : PageCall}

theorem MemInv.framesExclusive (h : MemInv m) : m.FramesExclusive := by
  refine ⟨h.page.unique, fun pf => ?_⟩
  rw [Exec.Returns, post_palloc]
  exact fun frame hf => h.page.not_holds_nextFrame hf

theorem Memory.RunsProcess.task (h : m.RunsProcess) : ∃ t, m.task m.cur = some t ∧ t.pgdir ≠ 0 := by
  unfold Memory.RunsProcess at h
  cases ht : m.task m.cur with
  | none => simp [ht] at h
  | some t => exact ⟨t, rfl, by simpa [ht] using h⟩

theorem AddedPages.memInv {t : MemTask} {m' : Memory} {i n vaddr cnt : ℕ}
    (ha : AddedPages (m.markPages t i n) m' vaddr cnt) (h : MemInv m) (h' : PageInv m')
    (ht : m.task m.cur = some t) : MemInv m' := by
  have hs : SameUses m (m.markPages t i n) := Memory.sameUses_setTask ht rfl
  refine h.of_setBitmap h' (hs.keeps.trans ha.grows.keeps) ha.grows.cr3 ha.grows.cur ht
    (Bitmap.setRun_btmpBytesLen (i := i) true n) ?_
  rw [ha.task]
  rfl

theorem MemInv.range (h : MemInv m) {p : ℕ} {t : MemTask} (ht : m.task p = some t)
    (hne : t.pgdir ≠ 0) :
    t.userprogVaddr.vaddrStart + 8 * t.userprogVaddr.vaddrBitmap.btmpBytesLen ≤ kernelBase := by
  obtain ⟨hstart, hlen⟩ := h.bitmap p t ht hne
  rw [hstart, hlen]
  decide

/-- A call with enough frames for its page tables keeps the invariant. -/
theorem PageCall.exec_memInv (h : MemInv m) (hok : c.Admitted m) (hfit : c.TablesFit m) :
    Exec.Ensures c.exec m fun _ m' => MemInv m' := by
  have hkernel {m' : Memory} {v n : ℕ} (h' : PageInv m') (hp : KernelPages m m' v n) : MemInv m' :=
    h.of_task_eq h' hp.keeps hp.cr3 hp.cur hp.task
  cases c with
  | getKernelPages pgCnt =>
    simp only [PageCall.exec, Exec.post_bind, Exec.post_pure]
    refine Exec.Post.mono (getKernelPages_spec h.page) (fun r m' hpost => ?_) fun _ _ => trivial
    obtain ⟨h', hgot, -⟩ := hpost
    obtain ⟨v, n, hp⟩ := hgot.pages
    exact hkernel h' hp
  | mallocPage pf pgCnt =>
    simp only [PageCall.exec, Exec.post_bind, Exec.post_pure]
    cases pf with
    | pfKernel =>
      refine Exec.Post.mono (mallocPage_kernel h.page) (fun r m' hpost => ?_) fun _ _ => trivial
      obtain ⟨h', hgot⟩ := hpost
      obtain ⟨v, n, hp⟩ := hgot.pages
      exact hkernel h' hp
    | pfUser =>
      obtain ⟨t, ht, hne⟩ := (hok rfl).task
      have hfit' : ∀ i, t.userprogVaddr.vaddrBitmap.scan pgCnt = some i →
          m.TablesFit (t.userprogVaddr.vaddrStart + i) pgCnt := by
        intro i hi
        simpa only [PageCall.TablesFit, ht, hi] using hfit
      refine Exec.Ensures.mono (mallocPage_user h.page ht (h.isProcDir ht hne) (h.range ht hne) hfit')
        fun r m' hpost => ?_
      obtain ⟨h', hgot⟩ := hpost
      cases r with
      | some vaddr =>
        obtain ⟨i, -, -, ha⟩ := hgot
        exact ha.memInv h h' ht
      | none =>
        rcases hgot with ⟨-, rfl⟩ | ⟨i, -, -, ha⟩
        · exact h
        · exact ha.memInv h h' ht
  | getAPage pf vaddr =>
    simp only [PageCall.exec, Exec.post_bind, Exec.post_pure]
    obtain ⟨t, ht, -⟩ := h.active
    cases pf with
    | pfKernel =>
      by_cases hne : t.pgdir = 0
      · refine Exec.Ensures.mono (getAPage_kernel h.page ht hne) fun r m' hpost => ?_
        obtain ⟨h', n, hp, _⟩ := hpost
        exact hkernel h' hp
      · simp [Winx.getAPage, curTask, ht, hne]
    | pfUser =>
      by_cases hne : t.pgdir = 0
      · simp [Winx.getAPage, curTask, ht, hne]
      · refine Exec.Ensures.mono (getAPage_user h.page ht (h.isProcDir ht hne) (h.range ht hne) hne
          hfit) fun r m' hpost => ?_
        obtain ⟨h', _, _, hr⟩ := hpost
        rcases hr with ⟨-, ha⟩ | ⟨-, -, ha⟩
        · exact ha.memInv h h' ht
        · exact ha.memInv h h' ht
  | getAPageWithoutOpvaddrbitmap vaddr =>
    obtain ⟨t, ht, hne⟩ := hok.1.task
    simp only [PageCall.exec, Exec.post_bind, Exec.post_pure]
    refine Exec.Post.mono (getAPageWithoutOpvaddrbitmap_user h.page (h.isProcDir ht hne) hok.2 hfit)
      (fun r m' hpost => ?_) fun _ _ => trivial
    obtain ⟨h', hr⟩ := hpost
    obtain ⟨n, ha⟩ : ∃ n, AddedPages m m' vaddr n := by
      rcases hr with ⟨-, ha⟩ | ⟨-, -, ha⟩
      · exact ⟨1, ha⟩
      · exact ⟨0, ha⟩
    exact h.of_task_eq h' ha.grows.keeps ha.grows.cr3 ha.grows.cur ha.task
  | mfreePage pf vaddr pgCnt =>
    by_cases hcnt : 1 ≤ pgCnt
    · cases pf with
      | pfKernel =>
        refine Exec.Returns.post (mfreePage_kernel h.page hcnt hok) fun _ m' hpost => ?_
        obtain ⟨h', hf, htask, _⟩ := hpost
        exact h.of_task_eq h' hf.keeps hf.cr3 hf.cur htask
      | pfUser =>
        obtain ⟨t, ht, -⟩ := h.active
        refine Exec.Ensures.mono (mfreePage_user h.page hcnt ht hok) fun _ m' hpost => ?_
        obtain ⟨h', hf, _, _, htask⟩ := hpost
        exact h.of_setBitmap h' hf.keeps hf.cr3 hf.cur ht (Bitmap.setRun_btmpBytesLen ..) htask
    · simp only [PageCall.exec, Winx.mfreePage, Exec.post_bind, post_assert, hcnt, false_implies,
        not_false_eq_true, true_implies, true_and]
  | processExecute => exact Exec.Ensures.mono (processExecute_spec h) fun _ m' h' => h'.1
  | switchTo thread => exact Exec.Ensures.mono (switchTo_spec h) fun _ m' h' => h'.1

end Calls

section Boot

variable {allMem dir i vaddr : ℕ}

theorem Memory.not_isProcDir_boot : ¬ (Memory.boot allMem).IsProcDir dir := by
  rintro ⟨p, t, ht, hne, -⟩
  simp only [boot] at ht
  split at ht
  · obtain rfl := Option.some.inj ht
    exact hne rfl
  · cases ht

/-- There is no page in the kernel heap after the loader. -/
theorem Memory.walk_boot (hlo : kHeapStart ≤ vaddr) (hhi : vaddr < pteBase) :
    (Memory.boot allMem).walk bootDir vaddr = none := by
  unfold kHeapStart at hlo
  unfold pteBase at hhi
  have hpde : (Memory.boot allMem).phys bootDir (vaddr / 1024) =
      entry (0x101 + (vaddr / 1024 - 768)) := by
    simp only [boot, if_true]
    rw [if_neg (by omega), if_neg (by omega), if_pos (by omega)]
  have hpte : (Memory.boot allMem).phys (0x101 + (vaddr / 1024 - 768)) (vaddr % 1024) = 0 := by
    have hne : 0x101 + (vaddr / 1024 - 768) ≠ bootDir := by
      unfold bootDir
      omega
    simp only [boot]
    rw [if_neg hne, if_neg (by omega)]
  unfold walk
  dsimp only
  rw [hpde, entryPresent_entry, if_pos rfl, entryFrame_entry (by omega), hpte, entryPresent_zero,
    if_neg Bool.false_ne_true]

theorem Memory.not_holds_boot (u : FrameUse) (frame : ℕ) : ¬ (Memory.boot allMem).Holds u frame := by
  cases u with
  | page d v => exact fun hu => not_isProcDir_boot hu.1
  | table d i => exact fun hu => not_isProcDir_boot hu.1
  | kernelPage v =>
    rintro ⟨hlo, hhi, hwalk⟩
    rw [walk_boot hlo hhi] at hwalk
    cases hwalk

/-- The invariant holds at boot, whatever the size of the memory. -/
theorem memInv_boot : MemInv (Memory.boot allMem) := by
  have htask {p : ℕ} {t : MemTask} (ht : (Memory.boot allMem).task p = some t) :
      p = 0xc009e ∧ t.pgdir = 0 := by
    simp only [Memory.boot] at ht
    split at ht
    · obtain rfl := Option.some.inj ht
      exact ⟨‹_›, rfl⟩
    · cases ht
  refine ⟨⟨⟨?_, ?_, ?_, rfl, ?_, fun i hlo hhi => ?_, rfl⟩,
    fun d hd => absurd hd Memory.not_isProcDir_boot, fun d hd => absurd hd Memory.not_isProcDir_boot,
    fun u g hu => absurd hu (Memory.not_holds_boot u g),
    fun u v g hu => absurd hu (Memory.not_holds_boot u g),
    fun v g hu => absurd hu (Memory.not_holds_boot _ g), fun p t ht hne => absurd (htask ht).2 hne,
    fun p q t u ht _ hne => absurd (htask ht).2 hne, fun p t ht => Or.inl ?_, Or.inl rfl⟩,
    ⟨_, rfl, rfl⟩, fun p t ht hne => absurd (htask ht).2 hne⟩
  · exact le_rfl
  · simp only [Memory.boot]
    omega
  · simp only [Memory.boot]
    omega
  · simp only [Memory.boot, kHeapStart, pteBase]
    omega
  · simp only [Memory.boot, if_true]
    rw [if_neg (by omega), if_neg (by omega), if_pos hlo]
  · rw [(htask ht).1]
    decide

end Boot

/-- In every run in which the page tables fit, frames are used once. -/
theorem framesExclusive_of_run {allMem : ℕ} {m : Memory}
    (hrun : Exec.Run PageCall.exec (fun m c => c.Admitted m ∧ c.TablesFit m) (Memory.boot allMem) m) :
    m.FramesExclusive :=
  MemInv.framesExclusive (hrun.invariant memInv_boot fun _ _ h hok => PageCall.exec_memInv h hok.1 hok.2)

/-- A call that only asks for pages. -/
def PageCall.Asks (m : Memory) (c : PageCall) : Prop :=
  (∀ pf vaddr pgCnt, c ≠ .mfreePage pf vaddr pgCnt) ∧ c.Admitted m

instance (m : Memory) : (c : PageCall) → Decidable (c.Asks m)
  | .mfreePage .. => isFalse fun h => h.1 _ _ _ rfl
  | .mallocPage pf _ =>
    decidable_of_iff (pf = .pfUser → m.RunsProcess) ⟨fun h => ⟨nofun, h⟩, And.right⟩
  | .getAPageWithoutOpvaddrbitmap vaddr =>
    decidable_of_iff (m.RunsProcess ∧ vaddr < kernelBase) ⟨fun h => ⟨nofun, h⟩, And.right⟩
  | .getKernelPages _ | .getAPage .. | .processExecute | .switchTo _ => isTrue ⟨nofun, trivial⟩

instance (m : Memory) : (c : PageCall) → Decidable (c.TablesFit m)
  | .mallocPage .pfUser _ => by
    unfold PageCall.TablesFit
    dsimp only
    split
    · exact isTrue trivial
    · split
      · exact isTrue trivial
      · exact inferInstance
  | .getAPage .pfUser vaddr => inferInstanceAs (Decidable (m.TablesFit vaddr 1))
  | .getAPageWithoutOpvaddrbitmap vaddr => inferInstanceAs (Decidable (m.TablesFit vaddr 1))
  | .mallocPage .pfKernel _ | .getAPage .pfKernel _ | .getKernelPages _ | .mfreePage .. |
    .processExecute | .switchTo _ => isTrue trivial

/-- The frame of a page of the process that runs as a thread. -/
def Memory.frameOf (m : Memory) (thread vaddr : ℕ) : Option ℕ :=
  (m.task thread).bind fun t =>
    if t.pgdir ≠ 0 ∧ m.walk bootDir t.pgdir = some m.cr3 ∧ vaddr < kernelBase then
      m.walk m.cr3 vaddr
    else none

theorem Memory.holds_of_frameOf {m : Memory} {thread vaddr frame : ℕ}
    (h : m.frameOf thread vaddr = some frame) : m.Holds (.page m.cr3 vaddr) frame := by
  obtain ⟨t, ht, hwalk⟩ := Option.bind_eq_some_iff.mp h
  split at hwalk
  · rename_i hc
    exact ⟨⟨thread, t, ht, hc.1, hc.2.1⟩, hc.2.2, hwalk⟩
  · cases hwalk

/-- A process with a page from each request. -/
theorem framesExclusive_of_run_pages : ∃ m : Memory, (m.frameOf 0xc0100 0x8048).isSome = true ∧
    (m.frameOf 0xc0100 0x8060).isSome = true ∧ m.FramesExclusive := by
  have h : (Exec.runList PageCall.exec (fun m c => c.Asks m ∧ c.TablesFit m)
      [.processExecute, .switchTo 0xc0100, .getAPage .pfUser 0xbffff, .mallocPage .pfUser 2,
        .getAPageWithoutOpvaddrbitmap 0x8060] (Memory.boot 0x400000)).any
      (fun m => (m.frameOf 0xc0100 0x8048).isSome && (m.frameOf 0xc0100 0x8060).isSome) = true := by
    decide +kernel
  obtain ⟨m, hrun, hpages⟩ := Exec.Run.exists_of_any h
  rw [Bool.and_eq_true] at hpages
  exact ⟨m, hpages.1, hpages.2,
    framesExclusive_of_run (hrun.mono fun _ _ hok => ⟨hok.1.2, hok.2⟩)⟩

/-- With the kernel pool used up, two page directory entries get the frame 0 for a page table, and
then two pages have one frame. -/
theorem not_framesExclusive_of_run :
    ∃ m, Exec.Run PageCall.exec (fun m c => c.Admitted m) (Memory.boot 0x240000) m ∧
      ¬ m.FramesExclusive := by
  have h : (Exec.runList PageCall.exec (fun m c => c.Asks m)
      [.processExecute, .getKernelPages 7, .switchTo 0xc0100, .getAPage .pfUser 0x8048,
        .getAPage .pfUser 0x8448] (Memory.boot 0x240000)).any
      (fun m => (m.frameOf 0xc0100 0x8048).isSome &&
        m.frameOf 0xc0100 0x8048 == m.frameOf 0xc0100 0x8448) = true := by
    decide +kernel
  obtain ⟨m, hrun, hshare⟩ := Exec.Run.exists_of_any h
  refine ⟨m, hrun.mono fun _ _ hok => hok.2, fun h => ?_⟩
  rw [Bool.and_eq_true, beq_iff_eq] at hshare
  obtain ⟨frame, hframe⟩ := Option.isSome_iff_exists.mp hshare.1
  have hsame := h.exclusive _ _ frame (Memory.holds_of_frameOf hframe)
    (Memory.holds_of_frameOf (hshare.2 ▸ hframe))
  rw [FrameUse.page.injEq] at hsame
  exact absurd hsame.2 (by decide)

end Winx
