import Winx.Memory.PageOps

/-! # Pages of processes

`malloc_page`, `get_a_page` and fork map pages of the active process as long as
the user pool has frames. Each page that begins a page table needs one more
frame, of the kernel pool.
-/

namespace Winx

/-- How many page tables the active directory lacks for a range of pages. -/
def Memory.missingTables (m : Memory) (vaddr cnt : ℕ) : ℕ :=
  (((Finset.Ico vaddr (vaddr + cnt)).image (· / 1024)).filter
    fun i => entryPresent (m.phys m.cr3 i) = false).card

/-- The kernel pool has the page tables for the pages that get a frame. -/
def Memory.TablesFit (m : Memory) (vaddr cnt : ℕ) : Prop :=
  m.missingTables vaddr (min cnt (m.freeFrames .pfUser)) ≤ m.freeFrames .pfKernel

instance (m : Memory) (vaddr cnt : ℕ) : Decidable (m.TablesFit vaddr cnt) := by
  unfold Memory.TablesFit; infer_instance

/-- The active process has got a range of pages. -/
structure AddedPages (m m' : Memory) (vaddr cnt : ℕ) : Prop where
  grows : GivesFrames m m'
  task : m'.task = m.task
  kernelVaddr : m'.kernelVaddr = m.kernelVaddr
  kernelPage : ∀ v g, m'.Holds (.kernelPage v) g ↔ m.Holds (.kernelPage v) g
  other : ∀ d v g, ¬ (d = m.cr3 ∧ vaddr ≤ v ∧ v < vaddr + cnt) →
    (m'.Holds (.page d v) g ↔ m.Holds (.page d v) g)
  mapped : ∀ v, vaddr ≤ v → v < vaddr + cnt →
    (∀ g, ¬ m.Holds (.page m.cr3 v) g) ∧ ∃ g, m'.Holds (.page m.cr3 v) g
  free : m'.freeFrames .pfUser + cnt = m.freeFrames .pfUser

section Added

variable {m m' : Memory} {vaddr frame cnt : ℕ}

/-- Which pages are mapped afterwards. -/
theorem AddedPages.page (h : AddedPages m m' vaddr cnt) (d v : ℕ) :
    (∃ g, m'.Holds (.page d v) g) ↔
      (∃ g, m.Holds (.page d v) g) ∨ d = m.cr3 ∧ vaddr ≤ v ∧ v < vaddr + cnt := by
  by_cases hin : d = m.cr3 ∧ vaddr ≤ v ∧ v < vaddr + cnt
  · obtain ⟨rfl, hlo, hhi⟩ := hin
    exact iff_of_true (h.mapped v hlo hhi).2 (Or.inr ⟨rfl, hlo, hhi⟩)
  · rw [or_iff_left hin]
    exact exists_congr fun g => h.other d v g hin

theorem AddedPages.refl (m : Memory) (vaddr : ℕ) : AddedPages m m vaddr 0 := by
  refine ⟨⟨⟨fun _ => rfl, fun _ => rfl, fun _ => rfl, rfl, rfl, fun _ _ => rfl, fun _ _ _ _ => rfl,
    fun _ _ => rfl⟩, rfl, rfl, fun _ _ => id, fun _ _ => Or.inl, fun _ _ => id, fun _ _ _ _ => rfl⟩,
    rfl, rfl, fun _ _ => Iff.rfl, fun _ _ _ _ => Iff.rfl, fun v hlo hhi => ?_, rfl⟩
  omega

/-- One page, with the frame that `palloc` returned. -/
theorem AddedPage.addedPages (h : AddedPage (m.takeFrame .pfUser) m' vaddr frame)
    (hinv : PageInv m) (hf : m.nextFrame .pfUser = some frame) : AddedPages m m' vaddr 1 := by
  have hs : SameUses m (m.takeFrame .pfUser) := Memory.sameUses_takeFrame
  have hg : GivesFrames m (m.takeFrame .pfUser) := .takeFrame
  have hnot : ¬ m.Allocated .pfUser frame := fun hall => Memory.nextFrame_ne hinv.layout hf hall rfl
  have habsent (g : ℕ) : ¬ m.Holds (.page m.cr3 vaddr) g := by
    intro hu
    have hu' := ((hs.holds _ g).mpr hu).2.2
    rw [← hg.cr3, h.absent] at hu'
    cases hu'
  have hpage (d v g : ℕ) : m'.Holds (.page d v) g ↔
      if d = m.cr3 ∧ v = vaddr then g = frame else m.Holds (.page d v) g := by
    rw [h.page, hg.cr3, hs.holds]
  refine ⟨⟨hg.keeps.trans h.keeps, h.cr3.trans hg.cr3, h.cur.trans hg.cur, fun u g hu => ?_,
    fun u g hu => ?_, fun pf g hg' => h.alloc pf g (hg.alloc pf g hg'), fun pf g hg' hplain => ?_⟩,
    h.task.trans Memory.takeFrame_task, h.kernelVaddr.trans Memory.takeFrame_kernelVaddr,
    fun v g => (h.kernelPage v g).trans (hs.holds _ g), fun d v g hin => ?_, fun v hlo hhi => ?_, ?_⟩
  · cases u with
    | page d v =>
      rw [hpage]
      split
      · rename_i heq
        obtain ⟨rfl, rfl⟩ := heq
        exact absurd hu (habsent g)
      · exact hu
    | table d i => exact h.table d i g ((hs.holds _ g).mpr hu)
    | kernelPage v => exact (h.kernelPage v g).mpr ((hs.holds _ g).mpr hu)
  · cases u with
    | page d v =>
      rw [hpage] at hu
      split at hu
      · exact Or.inr (hu ▸ hnot)
      · exact Or.inl hu
    | table d i =>
      refine (h.newTable d i g hu).imp (hs.holds _ g).mp fun hnew hall => hnew.2 ?_
      exact hg.alloc _ g hall
    | kernelPage v => exact Or.inl ((hs.holds _ g).mp ((h.kernelPage v g).mp hu))
  · rw [h.content pf g (hg.alloc pf g hg') (hg.plain hinv.takeFrame hg' hplain), Memory.takeFrame_phys]
  · rw [hpage, if_neg]
    rintro ⟨rfl, rfl⟩
    exact hin ⟨rfl, le_rfl, by omega⟩
  · obtain rfl : v = vaddr := by omega
    refine ⟨habsent, frame, ?_⟩
    rw [hpage, if_pos ⟨rfl, rfl⟩]
  · have hpool : m'.freeFrames .pfUser = (m.takeFrame .pfUser).freeFrames .pfUser := by
      unfold Memory.freeFrames Memory.pool
      rw [h.userPool]
    have htake : (m.takeFrame .pfUser).freeFrames .pfUser +
        (if PoolFlags.pfUser = .pfUser then 1 else 0) = m.freeFrames .pfUser :=
      Memory.freeFrames_takeFrame hf
    rw [hpool]
    exact htake

/-- One page and then the rest. -/
theorem AddedPages.cons {m'' : Memory} (h : AddedPages m m' vaddr 1) (hinv' : PageInv m')
    (h' : AddedPages m' m'' (vaddr + 1) cnt) : AddedPages m m'' vaddr (cnt + 1) := by
  have hcr3 := h.grows.cr3
  refine ⟨h.grows.trans hinv' h'.grows, h'.task.trans h.task, h'.kernelVaddr.trans h.kernelVaddr,
    fun v g => (h'.kernelPage v g).trans (h.kernelPage v g), fun d v g hin => ?_,
    fun v hlo hhi => ?_, ?_⟩
  · rw [h'.other d v g (by rw [hcr3]; omega), h.other d v g (by omega)]
  · rcases Nat.eq_or_lt_of_le hlo with rfl | hlt
    · obtain ⟨hnone, g, hg⟩ := h.mapped vaddr le_rfl (by omega)
      exact ⟨hnone, g, h'.grows.holds _ g hg⟩
    · obtain ⟨hnone, hg⟩ := h'.mapped v hlt (by omega)
      rw [hcr3] at hnone hg
      exact ⟨fun g hg => hnone g (h.grows.holds _ g hg), hg⟩
  · have := h.free
    have := h'.free
    omega

theorem Memory.missingTables_pos {n : ℕ} (hn : 0 < n)
    (hp : ¬ entryPresent (m.phys m.cr3 (vaddr / 1024)) = true) : 0 < m.missingTables vaddr n := by
  refine Finset.card_pos.mpr ⟨vaddr / 1024, ?_⟩
  rw [Finset.mem_filter, Finset.mem_image]
  exact ⟨⟨vaddr, Finset.mem_Ico.mpr ⟨le_rfl, by omega⟩, rfl⟩, Bool.eq_false_iff.mpr hp⟩

/-- A page that begins a page table needs one of the tables that are missing. -/
theorem AddedPage.missingTables (h : AddedPage m m' vaddr frame) (n : ℕ) :
    m'.missingTables (vaddr + 1) n +
      (if entryPresent (m.phys m.cr3 (vaddr / 1024)) then 0 else 1) ≤ m.missingTables vaddr (n + 1) := by
  have hsub {i : ℕ} (hi : i ∈ ((Finset.Ico (vaddr + 1) (vaddr + 1 + n)).image (· / 1024)).filter
      fun i => entryPresent (m'.phys m'.cr3 i) = false) : i ≠ vaddr / 1024 ∧
      i ∈ ((Finset.Ico vaddr (vaddr + (n + 1))).image (· / 1024)).filter
        fun i => entryPresent (m.phys m.cr3 i) = false := by
    obtain ⟨himg, habs⟩ := Finset.mem_filter.mp hi
    obtain ⟨v, hv, rfl⟩ := Finset.mem_image.mp himg
    have hv := Finset.mem_Ico.mp hv
    rw [h.cr3] at habs
    have hnot := mt (h.present (v / 1024)).mpr (by rw [habs]; decide)
    rw [not_or] at hnot
    refine ⟨hnot.2, Finset.mem_filter.mpr ⟨Finset.mem_image.mpr ⟨v, ?_, rfl⟩,
      Bool.eq_false_iff.mpr hnot.1⟩⟩
    exact Finset.mem_Ico.mpr ⟨by omega, by omega⟩
  unfold Memory.missingTables
  split
  · exact Finset.card_le_card fun i hi => (hsub hi).2
  · rename_i hp
    rw [← Finset.card_insert_of_notMem fun hmem => (hsub hmem).1 rfl]
    refine Finset.card_le_card fun i hi => ?_
    rcases Finset.mem_insert.mp hi with rfl | hi
    · rw [Finset.mem_filter, Finset.mem_image]
      exact ⟨⟨vaddr, Finset.mem_Ico.mpr ⟨le_rfl, by omega⟩, rfl⟩, Bool.eq_false_iff.mpr hp⟩
    · exact (hsub hi).2

end Added

/-- The loop of `malloc_page` for a process. It maps pages as long as there are frames. -/
theorem mapPages_user {cnt : ℕ} : ∀ {m : Memory} {vaddr : ℕ}, PageInv m → m.IsProcDir m.cr3 →
    vaddr + cnt ≤ kernelBase → m.TablesFit vaddr cnt →
    Exec.Post (mapPages .pfUser vaddr cnt) m
      (fun r m' => PageInv m' ∧ AddedPages m m' vaddr (min cnt (m.freeFrames .pfUser)) ∧
        (r = true ↔ cnt ≤ m.freeFrames .pfUser))
      (fun e => e = .assertFailed ∧ ∃ v, vaddr ≤ v ∧ v < vaddr + cnt ∧ m.walk m.cr3 v ≠ none) := by
  induction cnt with
  | zero =>
    intro m vaddr h hdir hv hfit
    rw [mapPages, Nat.zero_min]
    exact ⟨h, .refl m vaddr, by simp⟩
  | succ cnt ih =>
    intro m vaddr h hdir hv hfit
    rw [mapPages, Exec.post_bind, post_palloc]
    cases hf : m.nextFrame .pfUser with
    | none =>
      have hzero := Memory.nextFrame_eq_none.mp hf
      rw [hzero, Nat.min_zero]
      rw [Memory.takeFrame_eq_self hf]
      exact ⟨h, .refl m vaddr, by simp⟩
    | some frame =>
      have hfree : (m.takeFrame .pfUser).freeFrames .pfUser + 1 = m.freeFrames .pfUser :=
        Memory.freeFrames_takeFrame hf
      have hfree' : (m.takeFrame .pfUser).freeFrames .pfKernel + 0 = m.freeFrames .pfKernel :=
        Memory.freeFrames_takeFrame hf
      have hdir₁ : (m.takeFrame .pfUser).IsProcDir (m.takeFrame .pfUser).cr3 := by
        rw [Memory.takeFrame_cr3]
        exact Memory.sameUses_takeFrame.keeps.isProcDir.mpr hdir
      have hmiss (v n : ℕ) : (m.takeFrame .pfUser).missingTables v n = m.missingTables v n := by
        unfold Memory.missingTables
        rw [Memory.takeFrame_phys, Memory.takeFrame_cr3]
      have hmin : min (cnt + 1) (m.freeFrames .pfUser) =
          min cnt ((m.takeFrame .pfUser).freeFrames .pfUser) + 1 := by omega
      unfold Memory.TablesFit at hfit
      rw [hmin] at hfit
      have hroom : entryPresent ((m.takeFrame .pfUser).phys (m.takeFrame .pfUser).cr3
          (vaddr / 1024)) = true ∨ (m.takeFrame .pfUser).freeFrames .pfKernel ≠ 0 := by
        by_contra hnot
        rw [not_or, not_not] at hnot
        have hpos : 0 < m.missingTables vaddr
            (min cnt ((m.takeFrame .pfUser).freeFrames .pfUser) + 1) := by
          rw [← hmiss]
          exact Memory.missingTables_pos (Nat.succ_pos _) hnot.1
        omega
      have hadd := pageTableAdd_user h.takeFrame hdir₁ (by omega) (h.fresh_nextFrame hf) hroom
      have hwalk (v : ℕ) : (m.takeFrame .pfUser).walk (m.takeFrame .pfUser).cr3 v = m.walk m.cr3 v := by
        unfold Memory.walk
        rw [Memory.takeFrame_phys, Memory.takeFrame_cr3]
      dsimp only
      rw [Exec.post_bind]
      refine Exec.Post.mono hadd (fun _ m' hpost => ?_) fun e he =>
        ⟨he.1, vaddr, le_rfl, by omega, by rw [← hwalk]; exact he.2⟩
      obtain ⟨h', hpage⟩ := hpost
      have hcr3 : m'.cr3 = m.cr3 := hpage.cr3.trans Memory.takeFrame_cr3
      have hdir' : m'.IsProcDir m'.cr3 := by
        rw [hpage.cr3]
        exact hpage.keeps.isProcDir.mpr hdir₁
      have hfree'' : m'.freeFrames .pfUser = (m.takeFrame .pfUser).freeFrames .pfUser := by
        unfold Memory.freeFrames Memory.pool
        rw [hpage.userPool]
      have hfit' : m'.TablesFit (vaddr + 1) cnt := by
        have hle := hpage.missingTables (min cnt ((m.takeFrame .pfUser).freeFrames .pfUser))
        have htables := hpage.tables
        rw [hmiss] at hle
        unfold Memory.TablesFit
        rw [hfree'']
        omega
      refine Exec.Post.mono (ih h' hdir' (by omega) hfit') (fun r m'' hpost => ?_)
        fun e he => ?_
      · obtain ⟨h'', hrest, hr⟩ := hpost
        rw [hfree''] at hrest hr
        refine ⟨h'', hmin ▸ (hpage.addedPages h hf).cons h' hrest, hr.trans (by omega)⟩
      · obtain ⟨he, v, hlo, hhi, hne⟩ := he
        refine ⟨he, v, by omega, by omega, fun hnone => ?_⟩
        refine hne (Option.eq_none_iff_forall_not_mem.mpr fun g hg => ?_)
        have hu : m'.Holds (.page m'.cr3 v) g := ⟨hdir', by omega, hg⟩
        rw [hpage.page, hcr3, Memory.takeFrame_cr3, if_neg (by omega)] at hu
        have hwalk' := (Memory.sameUses_takeFrame.holds _ g).mp hu
        cases hnone.symm.trans hwalk'.2.2

/-- The memory after the running process marked pages as used. -/
def Memory.markPages (m : Memory) (t : MemTask) (bitIdx cnt : ℕ) : Memory :=
  m.setTask m.cur (some (t.setBitmap (t.userprogVaddr.vaddrBitmap.setRun bitIdx true cnt)))

/-- A change of the running process that leaves its directory. -/
theorem Memory.sameUses_setTask {m : Memory} {p : ℕ} {t t' : MemTask} (ht : m.task p = some t)
    (hpgdir : t'.pgdir = t.pgdir) : SameUses m (m.setTask p (some t')) := by
  refine .of_phys rfl (fun q => ?_) (fun _ => rfl) (fun _ => rfl) rfl rfl
  rw [Memory.setTask_task, Function.update_apply]
  split
  · rename_i heq
    rw [heq, ht, Option.map_some, Option.map_some, hpgdir]
  · rfl

theorem PageInv.setTask {m : Memory} {p : ℕ} {t t' : MemTask} (h : PageInv m)
    (ht : m.task p = some t) (hpgdir : t'.pgdir = t.pgdir) : PageInv (m.setTask p (some t')) :=
  h.of_sameUses (Memory.sameUses_setTask ht hpgdir) rfl (fun _ _ => id) fun _ => id

/-- How a request of the running process for pages ends: with a page for each bit that it marked, or
without pages that are free, or without enough frames, and then only the first pages are mapped. -/
def GotUserPages (m m' : Memory) (t : MemTask) (cnt : ℕ) : Option ℕ → Prop
  | some vaddr => ∃ i, t.userprogVaddr.vaddrBitmap.scan cnt = some i ∧
      vaddr = t.userprogVaddr.vaddrStart + i ∧ AddedPages (m.markPages t i cnt) m' vaddr cnt
  | none => t.userprogVaddr.vaddrBitmap.scan cnt = none ∧ m' = m ∨
      ∃ i, t.userprogVaddr.vaddrBitmap.scan cnt = some i ∧ m.freeFrames .pfUser < cnt ∧
        AddedPages (m.markPages t i cnt) m' (t.userprogVaddr.vaddrStart + i) (m.freeFrames .pfUser)

section Requests

variable {m : Memory} {t : MemTask} {vaddr cnt : ℕ}

/-- The pages that a scan found end below the kernel. -/
theorem MemTask.scan_le {i : ℕ} (hscan : t.userprogVaddr.vaddrBitmap.scan cnt = some i)
    (hpos : 0 < cnt) (hend : t.userprogVaddr.vaddrStart +
      8 * t.userprogVaddr.vaddrBitmap.btmpBytesLen ≤ kernelBase) :
    t.userprogVaddr.vaddrStart + i + cnt ≤ kernelBase := by
  have hlast := (Bitmap.scan_eq_some hscan (cnt - 1) (by omega)).2
  omega

/-- `malloc_page` for the running process. -/
theorem mallocPage_user (h : PageInv m) (hcur : m.task m.cur = some t) (hdir : m.IsProcDir m.cr3)
    (hend : t.userprogVaddr.vaddrStart + 8 * t.userprogVaddr.vaddrBitmap.btmpBytesLen ≤ kernelBase)
    (hfit : ∀ i, t.userprogVaddr.vaddrBitmap.scan cnt = some i →
      m.TablesFit (t.userprogVaddr.vaddrStart + i) cnt) :
    Exec.Ensures (mallocPage .pfUser cnt) m fun r m' => PageInv m' ∧ GotUserPages m m' t cnt r := by
  simp only [mallocPage, vaddrGet, curTask, storeTask, Exec.post_bind, post_assert, Exec.post_get,
    post_deref, hcur, Option.some.injEq, forall_eq']
  refine ⟨fun hcnt => ⟨?_, fun _ => trivial⟩, fun _ => trivial⟩
  cases hscan : t.userprogVaddr.vaddrBitmap.scan cnt with
  | none => exact ⟨h, Or.inl ⟨hscan, rfl⟩⟩
  | some i =>
    simp only [Exec.post_bind, Exec.post_modify, post_assert, Exec.post_pure]
    refine ⟨fun _ => ?_, fun _ => trivial⟩
    have h₁ : PageInv (m.markPages t i cnt) := h.setTask hcur rfl
    have hs : SameUses m (m.markPages t i cnt) := Memory.sameUses_setTask hcur rfl
    have hmap := mapPages_user h₁ (hs.keeps.isProcDir.mpr hdir)
      (MemTask.scan_le hscan hcnt.1 hend) (hfit i hscan)
    have hfree : (m.markPages t i cnt).freeFrames .pfUser = m.freeFrames .pfUser := rfl
    rw [hfree] at hmap
    refine Exec.Post.mono hmap (fun r m' hpost => ?_) fun _ _ => trivial
    obtain ⟨h', hadd, hr⟩ := hpost
    cases r with
    | false =>
      have hlt : m.freeFrames .pfUser < cnt :=
        Nat.lt_of_not_le fun hle => Bool.false_ne_true (hr.mpr hle)
      rw [Nat.min_eq_right hlt.le] at hadd
      exact ⟨h', Or.inr ⟨i, hscan, hlt, hadd⟩⟩
    | true =>
      rw [Nat.min_eq_left (hr.mp rfl)] at hadd
      exact ⟨h', i, hscan, rfl, hadd⟩

/-- `get_a_page_without_opvaddrbitmap` for the active process. -/
theorem getAPageWithoutOpvaddrbitmap_user (h : PageInv m) (hdir : m.IsProcDir m.cr3)
    (hv : vaddr < kernelBase) (hfit : m.TablesFit vaddr 1) :
    Exec.Post (getAPageWithoutOpvaddrbitmap .pfUser vaddr) m
      (fun r m' => PageInv m' ∧ (r = some vaddr ∧ AddedPages m m' vaddr 1 ∨
        r = none ∧ m.freeFrames .pfUser = 0 ∧ AddedPages m m' vaddr 0))
      (fun e => e = .assertFailed ∧ m.walk m.cr3 vaddr ≠ none) := by
  rw [post_getAPageWithoutOpvaddrbitmap]
  refine Exec.Post.mono (mapPages_user h hdir (show vaddr + 1 ≤ kernelBase by omega) hfit)
    (fun r m' hpost => ?_) fun e he => ?_
  · obtain ⟨h', hadd, hr⟩ := hpost
    refine ⟨h', ?_⟩
    cases r with
    | false =>
      have hzero : m.freeFrames .pfUser = 0 := by
        by_contra hne
        exact Bool.false_ne_true (hr.mpr (by omega))
      rw [hzero] at hadd
      exact Or.inr ⟨rfl, hzero, hadd⟩
    | true =>
      rw [Nat.min_eq_left (hr.mp rfl)] at hadd
      exact Or.inl ⟨rfl, hadd⟩
  · obtain ⟨he, v, hlo, hhi, hne⟩ := he
    obtain rfl : v = vaddr := by omega
    exact ⟨he, hne⟩

/-- `get_a_page` for the running process. -/
theorem getAPage_user (h : PageInv m) (hcur : m.task m.cur = some t) (hdir : m.IsProcDir m.cr3)
    (hend : t.userprogVaddr.vaddrStart + 8 * t.userprogVaddr.vaddrBitmap.btmpBytesLen ≤ kernelBase)
    (hne : t.pgdir ≠ 0) (hfit : m.TablesFit vaddr 1) :
    Exec.Ensures (getAPage .pfUser vaddr) m fun r m' => PageInv m' ∧
      t.userprogVaddr.vaddrStart ≤ vaddr ∧ vaddr - t.userprogVaddr.vaddrStart <
        8 * t.userprogVaddr.vaddrBitmap.btmpBytesLen ∧
      ((r = some vaddr ∧
        AddedPages (m.markPages t (vaddr - t.userprogVaddr.vaddrStart) 1) m' vaddr 1) ∨
      r = none ∧ m.freeFrames .pfUser = 0 ∧
        AddedPages (m.markPages t (vaddr - t.userprogVaddr.vaddrStart) 1) m' vaddr 0) := by
  have h₁ : PageInv (m.markPages t (vaddr - t.userprogVaddr.vaddrStart) 1) := h.setTask hcur rfl
  have hs : SameUses m (m.markPages t (vaddr - t.userprogVaddr.vaddrStart) 1) :=
    Memory.sameUses_setTask hcur rfl
  simp only [getAPage, curTask, storeTask, Exec.post_bind, Exec.post_get, post_deref, hcur,
    Option.some.injEq, forall_eq', hne, ne_eq, not_false_eq_true, and_self, post_inBounds,
    Exec.post_modify, reduceCtorEq, false_implies, and_true, implies_true, Exec.post_ite,
    true_implies, not_true_eq_false]
  rintro ⟨hlo, hhi⟩
  have hget := getAPageWithoutOpvaddrbitmap_user h₁ (hs.keeps.isProcDir.mpr hdir)
    (show vaddr < kernelBase by omega) hfit
  rw [← Exec.post_bind]
  change Exec.Post (getAPageWithoutOpvaddrbitmap .pfUser vaddr) _ _ _
  exact Exec.Post.mono hget (fun r m' hr => ⟨hr.1, hlo, hhi, hr.2⟩) fun _ _ => trivial

end Requests

end Winx
