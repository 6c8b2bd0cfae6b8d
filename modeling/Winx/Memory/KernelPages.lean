import Winx.Memory.PageOps

/-! # Pages of the kernel heap

`get_kernel_pages` takes a free range of the kernel heap, maps a frame of the
kernel pool to each page and clears the pages. The page tables of the kernel
half are all there, so no other frame is needed.
-/

namespace Winx

/-- The kernel has got a range of pages. -/
structure KernelPages (m m' : Memory) (vaddr cnt : ℕ) : Prop where
  keeps : KeepsDirs m m'
  cr3 : m'.cr3 = m.cr3
  cur : m'.cur = m.cur
  task : m'.task = m.task
  userPool : m'.userPool = m.userPool
  page : ∀ d v g, m'.Holds (.page d v) g ↔ m.Holds (.page d v) g
  table : ∀ d i g, m'.Holds (.table d i) g ↔ m.Holds (.table d i) g
  other : ∀ v g, ¬ (vaddr ≤ v ∧ v < vaddr + cnt) →
    (m'.Holds (.kernelPage v) g ↔ m.Holds (.kernelPage v) g)
  mapped : ∀ v, vaddr ≤ v → v < vaddr + cnt →
    (∀ g, ¬ m.Holds (.kernelPage v) g) ∧ ∃ g, m'.Holds (.kernelPage v) g ∧ ¬ m.Allocated .pfKernel g
  free : m'.freeFrames .pfKernel + cnt = m.freeFrames .pfKernel
  alloc : ∀ pf g, m.Allocated pf g → m'.Allocated pf g
  content : ∀ pf g, m.Allocated pf g → m'.phys g = m.phys g

section Kernel

variable {m m' : Memory} {vaddr frame cnt : ℕ}

/-- A page of the kernel half has a page table, whatever directory is active. -/
theorem PageInv.kernel_pde (h : PageInv m) (hlo : kernelBase ≤ vaddr) (hhi : vaddr < pteBase) :
    m.phys m.cr3 (vaddr / 1024) = entry (0x101 + (vaddr / 1024 - 768)) := by
  unfold kernelBase at hlo
  unfold pteBase at hhi
  rcases h.cr3 with heq | hproc
  · rw [heq]
    exact h.layout.bootTable _ (by omega) (by omega)
  · rw [h.kernelHalf _ hproc _ (by omega) (by omega)]
    exact h.layout.bootTable _ (by omega) (by omega)

/-- The kernel half is the same in all directories. -/
theorem PageInv.walk_kernel (h : PageInv m) (hlo : kernelBase ≤ vaddr) (hhi : vaddr < pteBase) :
    m.walk m.cr3 vaddr = m.walk bootDir vaddr := by
  unfold Memory.walk
  rw [h.kernel_pde hlo hhi, h.layout.bootTable]
  · unfold kernelBase at hlo
    omega
  · unfold pteBase at hhi
    omega

theorem PageInv.kernel_frame (h : PageInv m) (hlo : kernelBase ≤ vaddr) (hhi : vaddr < pteBase) :
    entryPresent (m.phys m.cr3 (vaddr / 1024)) = true ∧
      entryFrame (m.phys m.cr3 (vaddr / 1024)) = 0x101 + (vaddr / 1024 - 768) := by
  rw [h.kernel_pde hlo hhi, entryPresent_entry, entryFrame_entry]
  · exact ⟨rfl, rfl⟩
  · unfold pteBase at hhi
    omega

theorem kernelBase_le_of_heap (hlo : kHeapStart ≤ vaddr) : kernelBase ≤ vaddr := by
  unfold kHeapStart at hlo
  unfold kernelBase
  omega

/-- A page that is not mapped is not that of a PCB or a page directory. -/
theorem PageInv.not_isTaskPage (h : PageInv m) (hwalk : m.walk bootDir vaddr = none) :
    ¬ m.IsTaskPage vaddr := by
  rintro ⟨p, t, ht, ⟨rfl, hge⟩ | ⟨rfl, hne⟩⟩
  · rcases h.pcb _ t ht with hlt | ⟨-, g, hg⟩
    · omega
    · rw [hwalk] at hg
      cases hg
  · obtain ⟨-, -, g, hg⟩ := h.pgdir p t ht hne
    rw [hwalk] at hg
    cases hg

theorem KernelPages.grows (h : KernelPages m m' vaddr cnt) : GivesFrames m m' := by
  refine ⟨h.keeps, h.cr3, h.cur, fun u g hu => ?_, fun u g hu => ?_, h.alloc,
    fun pf g hg _ => h.content pf g hg⟩
  · cases u with
    | page d v => exact (h.page d v g).mpr hu
    | table d i => exact (h.table d i g).mpr hu
    | kernelPage v =>
      by_cases hin : vaddr ≤ v ∧ v < vaddr + cnt
      · exact absurd hu ((h.mapped v hin.1 hin.2).1 g)
      · exact (h.other v g hin).mpr hu
  · cases u with
    | page d v => exact Or.inl ((h.page d v g).mp hu)
    | table d i => exact Or.inl ((h.table d i g).mp hu)
    | kernelPage v =>
      by_cases hin : vaddr ≤ v ∧ v < vaddr + cnt
      · obtain ⟨-, g', hg', hnot⟩ := h.mapped v hin.1 hin.2
        obtain rfl := Option.some.inj (hu.2.2.symm.trans hg'.2.2)
        exact Or.inr hnot
      · exact Or.inl ((h.other v g hin).mp hu)

theorem KernelPages.refl (m : Memory) (vaddr : ℕ) : KernelPages m m vaddr 0 := by
  refine ⟨(SameUses.of_phys rfl (fun _ => rfl) (fun _ => rfl) (fun _ => rfl) rfl rfl).keeps, rfl, rfl, rfl,
    rfl, fun _ _ _ => Iff.rfl, fun _ _ _ => Iff.rfl, fun _ _ _ => Iff.rfl, fun v hlo hhi => ?_, rfl,
    fun _ _ => id, fun _ _ _ => rfl⟩
  omega

/-- One page and then the rest. -/
theorem KernelPages.cons {m'' : Memory} (h : KernelPages m m' vaddr 1)
    (h' : KernelPages m' m'' (vaddr + 1) cnt) : KernelPages m m'' vaddr (cnt + 1) := by
  refine ⟨h.keeps.trans h'.keeps, h'.cr3.trans h.cr3, h'.cur.trans h.cur,
    h'.task.trans h.task, h'.userPool.trans h.userPool, fun d v g => (h'.page d v g).trans (h.page d v g),
    fun d i g => (h'.table d i g).trans (h.table d i g), fun v g hv => ?_, fun v hlo hhi => ?_, ?_,
    fun pf g hg => h'.alloc pf g (h.alloc pf g hg), fun pf g hg => ?_⟩
  · rw [h'.other v g (by omega), h.other v g (by omega)]
  · rcases Nat.eq_or_lt_of_le hlo with rfl | hlt
    · obtain ⟨hnone, g, hg, hnot⟩ := h.mapped vaddr le_rfl (by omega)
      exact ⟨hnone, g, (h'.other vaddr g (by omega)).mpr hg, hnot⟩
    · obtain ⟨hnone, g, hg, hnot⟩ := h'.mapped v hlt (by omega)
      exact ⟨fun g' hg' => hnone g' ((h.other v g' (by omega)).mpr hg'), g, hg,
        fun hg' => hnot (h.alloc _ g hg')⟩
  · have := h.free
    have := h'.free
    omega
  · rw [h'.content pf g (h.alloc pf g hg), h.content pf g hg]

/-- `page_table_add` of a page of the kernel heap, with the frame that `palloc` returned. -/
theorem pageTableAdd_kernel (h : PageInv m) (hlo : kHeapStart ≤ vaddr) (hhi : vaddr < pteBase)
    (hbit : vaddr - kHeapStart < 8 * m.kernelVaddr.vaddrBitmap.btmpBytesLen ∧
      m.kernelVaddr.vaddrBitmap.scanTest (vaddr - kHeapStart) = true)
    (hf : m.nextFrame .pfKernel = some frame) :
    Exec.Post (pageTableAdd vaddr frame) (m.takeFrame .pfKernel)
      (fun _ m' => PageInv m' ∧ KernelPages m m' vaddr 1 ∧ m'.kernelVaddr = m.kernelVaddr)
      (fun e => e = .assertFailed ∧ m.walk bootDir vaddr ≠ none) := by
  have h₁ : PageInv (m.takeFrame .pfKernel) := h.takeFrame
  have hsame : SameUses m (m.takeFrame .pfKernel) := Memory.sameUses_takeFrame
  have hfresh := h.fresh_nextFrame hf
  have hlt := (h₁.layout.allocated_bounds hfresh.1).2
  have htable : 0x101 + (vaddr / 1024 - 768) < 0x200 := by
    unfold pteBase at hhi
    omega
  obtain ⟨hp, hframe⟩ := h₁.kernel_frame (kernelBase_le_of_heap hlo) hhi
  have hwalk : (m.takeFrame .pfKernel).walk (m.takeFrame .pfKernel).cr3 vaddr =
      m.walk bootDir vaddr := by
    rw [h₁.walk_kernel (kernelBase_le_of_heap hlo) hhi]
    unfold Memory.walk
    rw [Memory.takeFrame_phys]
  rw [h₁.selfMapped.pageTableAdd_present (lt_trans hhi (by decide)) hp, hwalk, hframe]
  refine ⟨fun hnone => ?_, fun hne => ⟨rfl, hne⟩⟩
  have hnot : ¬ (m.takeFrame .pfKernel).IsTaskPage vaddr := fun htask =>
    h.not_isTaskPage hnone (hsame.keeps.isTaskPage.mp htask)
  have hremap := h₁.remaps_kernel hlo hhi hnot (entry frame)
  rw [entryPresent_entry, if_pos rfl, entryFrame_entry hlt] at hremap
  have hvaddr : (m.takeFrame .pfKernel).kernelVaddr = m.kernelVaddr := Memory.takeFrame_kernelVaddr
  have h₂ := h₁.of_give hremap hfresh rfl rfl rfl fun v hv => by
    obtain rfl : vaddr = v := by simpa using hv
    rw [hvaddr]
    exact hbit
  have hholds (u : FrameUse) (g : ℕ) (hu : u ≠ .kernelPage vaddr) :
      ((m.takeFrame .pfKernel).setWord (0x101 + (vaddr / 1024 - 768)) (vaddr % 1024)
        (entry frame)).Holds u g ↔ m.Holds u g := by
    rw [hremap.holds, if_neg hu, hsame.holds]
  refine ⟨h₂, ⟨hsame.keeps.trans hremap.keeps, Memory.takeFrame_cr3, Memory.takeFrame_cur,
    Memory.takeFrame_task, ?_, fun d v g => hholds _ g nofun, fun d i g => hholds _ g nofun, fun v g hv => hholds _ g ?_,
    fun v hlo' hhi' => ?_, ?_, fun pf g hg => ?_, fun pf g hg => ?_⟩, hvaddr⟩
  · change (m.takeFrame .pfKernel).userPool = m.userPool
    unfold Memory.takeFrame
    split <;> rfl
  · rw [ne_eq, FrameUse.kernelPage.injEq]
    omega
  · obtain rfl : v = vaddr := by omega
    refine ⟨fun g hg => ?_, frame, ?_, fun hg => Memory.nextFrame_ne h.layout hf hg rfl⟩
    · cases hnone.symm.trans hg.2.2
    · rw [hremap.holds, if_pos rfl]
  · have htake : (m.takeFrame .pfKernel).freeFrames .pfKernel +
        (if PoolFlags.pfKernel = .pfKernel then 1 else 0) = m.freeFrames .pfKernel :=
      Memory.freeFrames_takeFrame hf
    exact htake
  · exact hg.of_scanTest Memory.takeFrame_start Memory.takeFrame_len
      fun i hi => Memory.takeFrame_scanTest hi
  · have hne : g ≠ 0x101 + (vaddr / 1024 - 768) :=
      (lt_of_lt_of_le htable (h.layout.allocated_bounds hg).1).ne'
    rw [Memory.setWord, Memory.setFrame_phys, Function.update_of_ne hne, Memory.takeFrame_phys]

/-- The loop of `malloc_page` for the kernel. It maps pages as long as there are frames. -/
theorem mapPages_kernel : ∀ {m : Memory} {vaddr : ℕ}, PageInv m → kHeapStart ≤ vaddr →
    vaddr + cnt ≤ pteBase →
    (∀ v, vaddr ≤ v → v < vaddr + cnt →
      v - kHeapStart < 8 * m.kernelVaddr.vaddrBitmap.btmpBytesLen ∧
        m.kernelVaddr.vaddrBitmap.scanTest (v - kHeapStart) = true) →
    Exec.Post (mapPages .pfKernel vaddr cnt) m
      (fun r m' => PageInv m' ∧ KernelPages m m' vaddr (min cnt (m.freeFrames .pfKernel)) ∧
        m'.kernelVaddr = m.kernelVaddr ∧ (r = true ↔ cnt ≤ m.freeFrames .pfKernel))
      (fun e => e = .assertFailed ∧
        ∃ v, vaddr ≤ v ∧ v < vaddr + cnt ∧ m.walk bootDir v ≠ none) := by
  induction cnt with
  | zero =>
    intro m vaddr h hlo hhi hbits
    rw [mapPages, Nat.zero_min]
    exact ⟨h, .refl m vaddr, rfl, by simp⟩
  | succ cnt ih =>
    intro m vaddr h hlo hhi hbits
    rw [mapPages, Exec.post_bind, post_palloc]
    cases hf : m.nextFrame .pfKernel with
    | none =>
      have hzero := Memory.nextFrame_eq_none.mp hf
      rw [hzero, Nat.min_zero, Memory.takeFrame_eq_self hf]
      exact ⟨h, .refl m vaddr, rfl, by simp⟩
    | some frame =>
      have hadd := pageTableAdd_kernel h hlo (by omega) (hbits vaddr le_rfl (by omega)) hf
      dsimp only
      rw [Exec.post_bind]
      refine Exec.Post.mono hadd (fun _ m' hpost => ?_) fun e he =>
        ⟨he.1, vaddr, le_rfl, by omega, he.2⟩
      obtain ⟨h', hpage, hvaddr⟩ := hpost
      have hfree := hpage.free
      have hmin : min (cnt + 1) (m.freeFrames .pfKernel) =
          min cnt (m'.freeFrames .pfKernel) + 1 := by omega
      have hbits' : ∀ v, vaddr + 1 ≤ v → v < vaddr + 1 + cnt →
          v - kHeapStart < 8 * m'.kernelVaddr.vaddrBitmap.btmpBytesLen ∧
            m'.kernelVaddr.vaddrBitmap.scanTest (v - kHeapStart) = true := by
        intro v hv hv'
        rw [hvaddr]
        exact hbits v (by omega) (by omega)
      refine Exec.Post.mono (ih h' (by omega) (by omega) hbits')
        (fun r m'' hpost => ?_) fun e he => ?_
      · obtain ⟨h'', hrest, hvaddr', hr⟩ := hpost
        exact ⟨h'', hmin ▸ hpage.cons hrest, hvaddr'.trans hvaddr, hr.trans (by omega)⟩
      · obtain ⟨he, v, hlo', hhi', hne⟩ := he
        refine ⟨he, v, by omega, by omega, fun hnone => hne ?_⟩
        refine Option.eq_none_iff_forall_not_mem.mpr fun g hg => ?_
        have hu : m'.Holds (.kernelPage v) g := ⟨by omega, by omega, hg⟩
        cases hnone.symm.trans ((hpage.other v g (by omega)).mp hu).2.2

/-- The content of pages of the kernel heap was changed, and nothing else. -/
structure WrotePages (m m' : Memory) (vaddr cnt : ℕ) : Prop where
  same : SameUses m m'
  cr3 : m'.cr3 = m.cr3
  cur : m'.cur = m.cur
  task : m'.task = m.task
  pool : m'.pool = m.pool
  kernelVaddr : m'.kernelVaddr = m.kernelVaddr
  other : ∀ g, (∀ v, vaddr ≤ v → v < vaddr + cnt → ¬ m.Holds (.kernelPage v) g) →
    m'.phys g = m.phys g

theorem WrotePages.refl (m : Memory) (vaddr : ℕ) : WrotePages m m vaddr 0 :=
  ⟨.of_phys rfl (fun _ => rfl) (fun _ => rfl) (fun _ => rfl) rfl rfl, rfl, rfl, rfl, rfl, rfl,
    fun _ _ => rfl⟩

theorem WrotePages.trans {m'' : Memory} {n : ℕ} (h : WrotePages m m' vaddr cnt)
    (h' : WrotePages m' m'' frame n) (hle : vaddr ≤ frame) (hle' : frame + n ≤ vaddr + cnt) :
    WrotePages m m'' vaddr cnt := by
  refine ⟨⟨h.same.keeps.trans h'.same.keeps, fun u g => (h'.same.holds u g).trans (h.same.holds u g)⟩,
    h'.cr3.trans h.cr3, h'.cur.trans h.cur, h'.task.trans h.task, h'.pool.trans h.pool,
    h'.kernelVaddr.trans h.kernelVaddr, fun g hg => ?_⟩
  rw [h'.other g fun v hlo hhi hv => hg v (by omega) (by omega) ((h.same.holds _ g).mp hv),
    h.other g hg]

theorem WrotePages.mono {n v : ℕ} (h : WrotePages m m' v n) (hle : vaddr ≤ v)
    (hle' : v + n ≤ vaddr + cnt) : WrotePages m m' vaddr cnt :=
  ⟨h.same, h.cr3, h.cur, h.task, h.pool, h.kernelVaddr,
    fun g hg => h.other g fun v' hlo hhi => hg v' (by omega) (by omega)⟩

/-- Writing to a page that is not of a thread. -/
theorem PageInv.wrotePage (h : PageInv m) (hv : m.Holds (.kernelPage vaddr) frame)
    (hnot : ¬ m.IsTaskPage vaddr) (words : ℕ → UInt32) :
    PageInv (m.setFrame frame words) ∧ WrotePages m (m.setFrame frame words) vaddr 1 := by
  have hsame := h.sameUses_setFrame (h.kernelPage_plain hv hnot) words
  refine ⟨h.of_sameUses hsame rfl (fun _ _ => id) fun _ => id, hsame, rfl, rfl, rfl, ?_, rfl,
    fun g hg => ?_⟩
  · funext pf
    cases pf <;> rfl
  · rw [Memory.setFrame_phys, Function.update_of_ne]
    rintro rfl
    exact hg vaddr le_rfl (by omega) hv

theorem clearPages_spec (h : PageInv m)
    (hmapped : ∀ v, vaddr ≤ v → v < vaddr + cnt →
      ¬ m.IsTaskPage v ∧ ∃ g, m.Holds (.kernelPage v) g) :
    Exec.Returns (clearPages vaddr cnt) m fun _ m' => PageInv m' ∧ WrotePages m m' vaddr cnt ∧
      ∀ v g, vaddr ≤ v → v < vaddr + cnt → m.Holds (.kernelPage v) g → m'.phys g = fun _ => 0 := by
  induction cnt with
  | zero =>
    refine ⟨h, .refl m vaddr, fun v g hlo hhi => ?_⟩
    omega
  | succ cnt ih =>
    refine (ih fun v hlo hhi => hmapped v hlo (by omega)).bind fun _ m' ⟨h', hw, hzero⟩ => ?_
    obtain ⟨hnot, g, hg⟩ := hmapped (vaddr + cnt) (by omega) (by omega)
    have hg' : m'.Holds (.kernelPage (vaddr + cnt)) g := (hw.same.holds _ g).mpr hg
    obtain ⟨hlo, hhi, hwalk⟩ := hg'
    have hcr3 : m'.walk m'.cr3 (vaddr + cnt) = some g := by
      rw [h'.walk_kernel (kernelBase_le_of_heap hlo) hhi, hwalk]
    obtain ⟨h'', hlast⟩ := h'.wrotePage ⟨hlo, hhi, hwalk⟩
      (fun htask => hnot (hw.same.keeps.isTaskPage.mp htask)) fun _ => 0
    simp only [clearPage, translate, Exec.post_bind, Exec.post_get, post_deref, hcr3,
      Option.some.injEq, forall_eq', Exec.post_modify, reduceCtorEq, false_implies, and_true]
    refine ⟨h'', (hw.mono le_rfl (by omega)).trans hlast (by omega) (by omega),
      fun v g' hlo' hhi' hv => ?_⟩
    rw [Memory.setFrame_phys, Function.update_apply]
    split
    · rfl
    · rename_i hne
      refine hzero v g' hlo' ?_ hv
      rcases Nat.eq_or_lt_of_le (Nat.le_of_lt_succ hhi') with heq | hlt
      · obtain rfl : v = vaddr + cnt := by omega
        exact absurd (Option.some.inj (hv.2.2.symm.trans hg.2.2)) hne
      · omega

/-- A run of clear bits in the map of the kernel heap stands for pages that are not mapped. -/
theorem PageInv.scan_kernel (h : PageInv m) {i : ℕ}
    (hscan : m.kernelVaddr.vaddrBitmap.scan cnt = some i) (hpos : 0 < cnt) :
    kHeapStart + i + cnt ≤ pteBase ∧
      (∀ v, kHeapStart + i ≤ v → v < kHeapStart + i + cnt →
        v - kHeapStart < 8 * m.kernelVaddr.vaddrBitmap.btmpBytesLen ∧
          ∀ g, ¬ m.Holds (.kernelPage v) g) := by
  have hrun := Bitmap.scan_eq_some hscan
  have hend := (hrun (cnt - 1) (by omega)).2
  have := h.layout.kernelHeap
  refine ⟨by omega, fun v hlo hhi => ?_⟩
  obtain ⟨hclear, hlt⟩ := hrun (v - kHeapStart - i) (by omega)
  have heq : i + (v - kHeapStart - i) = v - kHeapStart := by omega
  rw [heq] at hclear hlt
  refine ⟨hlt, fun g hg => ?_⟩
  have hbit := (h.bits v g hg).2
  rw [hclear] at hbit
  cases hbit

/-- Marking pages of the kernel heap as used. -/
theorem PageInv.setKernelBitmap (h : PageInv m) {b : Bitmap}
    (hlen : b.btmpBytesLen = m.kernelVaddr.vaddrBitmap.btmpBytesLen)
    (hbits : ∀ i, m.kernelVaddr.vaddrBitmap.scanTest i = true → b.scanTest i = true) :
    PageInv (m.setKernelBitmap b) ∧ SameUses m (m.setKernelBitmap b) := by
  have hsame : SameUses m (m.setKernelBitmap b) :=
    .of_phys rfl (fun _ => rfl) (fun pf => by cases pf <;> rfl) (fun pf => by cases pf <;> rfl) rfl hlen
  exact ⟨h.of_sameUses hsame rfl (fun pf i hi => by cases pf <;> exact hi) hbits, hsame⟩

/-- How a request for pages of the kernel heap ends: with the pages that the scan found, or without
enough pages or frames, and then some pages may have been mapped. -/
def GotKernelPages (m m' : Memory) (cnt : ℕ) : Option ℕ → Prop
  | some vaddr => KernelPages m m' vaddr cnt ∧
      ∃ i, m.kernelVaddr.vaddrBitmap.scan cnt = some i ∧ vaddr = kHeapStart + i ∧
        m'.kernelVaddr.vaddrBitmap = m.kernelVaddr.vaddrBitmap.setRun i true cnt
  | none => (∃ vaddr n, KernelPages m m' vaddr n) ∧
      (m.kernelVaddr.vaddrBitmap.scan cnt = none ∨ m.freeFrames .pfKernel < cnt)

theorem GotKernelPages.pages {r : Option ℕ} (h : GotKernelPages m m' cnt r) :
    ∃ vaddr n, KernelPages m m' vaddr n := by
  cases r with
  | none => exact h.1
  | some vaddr => exact ⟨vaddr, cnt, h.1⟩

theorem KernelPages.of_same {m₁ m₂ : Memory} (hs : SameUses m m₁) (hphys : m₁.phys = m.phys)
    (hpool : m₁.pool = m.pool) (hcr3 : m₁.cr3 = m.cr3) (hcur : m₁.cur = m.cur)
    (htask : m₁.task = m.task)
    (h : KernelPages m₁ m₂ vaddr cnt) : KernelPages m m₂ vaddr cnt := by
  have halloc (pf : PoolFlags) (g : ℕ) : m₁.Allocated pf g ↔ m.Allocated pf g := by
    unfold Memory.Allocated
    rw [hpool]
  refine ⟨hs.keeps.trans h.keeps, h.cr3.trans hcr3, h.cur.trans hcur,
    h.task.trans htask, h.userPool.trans (congrFun hpool .pfUser), fun d v g => (h.page d v g).trans (hs.holds _ g),
    fun d i g => (h.table d i g).trans (hs.holds _ g),
    fun v g hv => (h.other v g hv).trans (hs.holds _ g), fun v hlo hhi => ?_, ?_,
    fun pf g hg => h.alloc pf g ((halloc pf g).mpr hg), fun pf g hg => ?_⟩
  · obtain ⟨hnone, g, hg, hnot⟩ := h.mapped v hlo hhi
    exact ⟨fun g' hg' => hnone g' ((hs.holds _ g').mpr hg'), g, hg,
      fun hg' => hnot ((halloc _ g).mpr hg')⟩
  · rw [h.free]
    unfold Memory.freeFrames
    rw [hpool]
  · rw [h.content pf g ((halloc pf g).mpr hg), hphys]

/-- The new pages may be written to. -/
theorem KernelPages.wrote {m₁ m₂ : Memory} (h : KernelPages m m₁ vaddr cnt)
    (hc : WrotePages m₁ m₂ vaddr cnt) (hinv : PageInv m₁) : KernelPages m m₂ vaddr cnt := by
  have halloc (pf : PoolFlags) (g : ℕ) : m₂.Allocated pf g ↔ m₁.Allocated pf g := by
    unfold Memory.Allocated
    rw [hc.pool]
  refine ⟨h.keeps.trans hc.same.keeps, hc.cr3.trans h.cr3, hc.cur.trans h.cur,
    hc.task.trans h.task, (congrFun hc.pool .pfUser).trans h.userPool, fun d v g => (hc.same.holds _ g).trans (h.page d v g),
    fun d i g => (hc.same.holds _ g).trans (h.table d i g),
    fun v g hv => (hc.same.holds _ g).trans (h.other v g hv), fun v hlo hhi => ?_, ?_,
    fun pf g hg => (halloc pf g).mpr (h.alloc pf g hg), fun pf g hg => ?_⟩
  · obtain ⟨hnone, g, hg, hnot⟩ := h.mapped v hlo hhi
    exact ⟨hnone, g, (hc.same.holds _ g).mpr hg, hnot⟩
  · rw [← h.free]
    unfold Memory.freeFrames
    rw [hc.pool]
  · rw [hc.other g fun v hlo hhi hv => ?_, h.content pf g hg]
    obtain ⟨-, g', hg', hnot⟩ := h.mapped v hlo hhi
    obtain rfl := Option.some.inj (hv.2.2.symm.trans hg'.2.2)
    have hown := h.alloc pf g hg
    obtain rfl := hinv.layout.pool_eq hown (hinv.alloc _ _ hv)
    exact hnot hg

/-- `malloc_page` for the kernel. -/
theorem mallocPage_kernel (h : PageInv m) :
    Exec.Post (mallocPage .pfKernel cnt) m (fun r m' => PageInv m' ∧ GotKernelPages m m' cnt r)
      (fun e => e = .assertFailed ∧ ¬ (0 < cnt ∧ cnt < 3840)) := by
  simp only [mallocPage, vaddrGet, Exec.post_bind, post_assert, Exec.post_get]
  refine ⟨fun hcnt => ?_, fun hcnt => ⟨trivial, hcnt⟩⟩
  cases hscan : m.kernelVaddr.vaddrBitmap.scan cnt with
  | none => exact ⟨h, ⟨0, 0, .refl m 0⟩, Or.inl hscan⟩
  | some i =>
    simp only [Exec.post_bind, Exec.post_set, Exec.post_pure]
    obtain ⟨hend, hclear⟩ := h.scan_kernel hscan hcnt.1
    obtain ⟨h₁, hs₁⟩ := h.setKernelBitmap (b := m.kernelVaddr.vaddrBitmap.setRun i true cnt)
      (Bitmap.setRun_btmpBytesLen ..) fun j hj => by rw [Bitmap.scanTest_setRun, hj, ite_self]
    generalize hm₁ : m.setKernelBitmap (m.kernelVaddr.vaddrBitmap.setRun i true cnt) = m₁ at h₁ hs₁
    have hphys : m₁.phys = m.phys := hm₁ ▸ rfl
    have hpool : m₁.pool = m.pool := by
      funext pf
      rw [← hm₁]
      cases pf <;> rfl
    have hcr3 : m₁.cr3 = m.cr3 := hm₁ ▸ rfl
    have hcur : m₁.cur = m.cur := hm₁ ▸ rfl
    have hvaddr : m₁.kernelVaddr.vaddrBitmap = m.kernelVaddr.vaddrBitmap.setRun i true cnt :=
      hm₁ ▸ rfl
    have hbits : ∀ v, kHeapStart + i ≤ v → v < kHeapStart + i + cnt →
        v - kHeapStart < 8 * m₁.kernelVaddr.vaddrBitmap.btmpBytesLen ∧
          m₁.kernelVaddr.vaddrBitmap.scanTest (v - kHeapStart) = true := by
      intro v hlo hhi
      rw [hvaddr, Bitmap.setRun_btmpBytesLen, Bitmap.scanTest_setRun, if_pos (by omega)]
      exact ⟨(hclear v hlo hhi).1, rfl⟩
    have hmap := mapPages_kernel h₁ (show kHeapStart ≤ kHeapStart + i by omega) hend hbits
    have hfree : m₁.freeFrames .pfKernel = m.freeFrames .pfKernel := by
      unfold Memory.freeFrames
      rw [hpool]
    rw [hfree] at hmap
    rw [h.layout.vaddrStart]
    refine Exec.Post.mono hmap (fun r m₂ hpost => ?_) fun e he => ?_
    · obtain ⟨h₂, hpages, hvaddr₂, hr⟩ := hpost
      have hpages' := hpages.of_same hs₁ hphys hpool hcr3 hcur (hm₁ ▸ rfl)
      cases r with
      | false => exact ⟨h₂, ⟨_, _, hpages'⟩, Or.inr (by simpa using hr)⟩
      | true =>
        rw [Nat.min_eq_left (hr.mp rfl)] at hpages'
        exact ⟨h₂, hpages', i, hscan, rfl, by rw [hvaddr₂, hvaddr]⟩
    · -- the pages were not mapped
      obtain ⟨-, v, hlo, hhi, hne⟩ := he
      refine absurd ?_ hne
      refine (Option.eq_none_iff_forall_not_mem.mpr fun g hg => ?_)
      refine (hclear v hlo hhi).2 g ⟨by omega, by omega, ?_⟩
      have hwalk : m₁.walk bootDir v = m.walk bootDir v := by
        unfold Memory.walk
        rw [hphys]
      exact hwalk ▸ hg

/-- The pages of the kernel heap that are mapped are not those of threads. -/
theorem KernelPages.not_isTaskPage {v : ℕ} (h : KernelPages m m' vaddr cnt) (hinv : PageInv m)
    (hlo : vaddr ≤ v) (hhi : v < vaddr + cnt) :
    ¬ m'.IsTaskPage v ∧ ∃ g, m'.Holds (.kernelPage v) g := by
  obtain ⟨hnone, g, hg, -⟩ := h.mapped v hlo hhi
  refine ⟨fun htask => ?_, g, hg⟩
  refine hinv.not_isTaskPage (Option.eq_none_iff_forall_not_mem.mpr fun g' hg' => ?_)
    (h.keeps.isTaskPage.mp htask)
  exact hnone g' ⟨hg.1, hg.2.1, hg'⟩

/-- `get_kernel_pages`: what `malloc_page` gives, with its pages cleared. -/
theorem getKernelPages_spec (h : PageInv m) :
    Exec.Post (getKernelPages cnt) m
      (fun r m' => PageInv m' ∧ GotKernelPages m m' cnt r ∧
        ∀ vaddr, r = some vaddr → ∀ v g, vaddr ≤ v → v < vaddr + cnt →
          m'.Holds (.kernelPage v) g → m'.phys g = fun _ => 0)
      (fun e => e = .assertFailed ∧ ¬ (0 < cnt ∧ cnt < 3840)) := by
  rw [getKernelPages, Exec.post_bind]
  refine Exec.Post.mono (mallocPage_kernel h) (fun r m₂ hpost => ?_) fun _ => id
  obtain ⟨h₂, hgot⟩ := hpost
  cases r with
  | none => exact ⟨h₂, hgot, by simp⟩
  | some vaddr =>
    obtain ⟨hpages, i, hscan, hvaddr, hbitmap⟩ := hgot
    simp only [Exec.post_bind, Exec.post_pure]
    refine Exec.Returns.post (clearPages_spec h₂ fun v hlo hhi => hpages.not_isTaskPage h hlo hhi)
      fun _ m₃ hpost => ?_
    obtain ⟨h₃, hc, hzero⟩ := hpost
    refine ⟨h₃, ⟨hpages.wrote hc h₂, i, hscan, hvaddr, ?_⟩, fun vaddr' heq v g hlo hhi hg => ?_⟩
    · rw [hc.kernelVaddr, hbitmap]
    · obtain rfl := Option.some.inj heq
      exact hzero v g hlo hhi ((hc.same.holds _ g).mp hg)

/-- `get_a_page` of a kernel thread. -/
theorem getAPage_kernel {t : MemTask} (h : PageInv m) (hcur : m.task m.cur = some t)
    (hpgdir : t.pgdir = 0) :
    Exec.Ensures (getAPage .pfKernel vaddr) m fun r m' => PageInv m' ∧
      ∃ n, KernelPages m m' vaddr n ∧ (r = none → n = 0) := by
  simp only [getAPage, curTask, Exec.post_bind, Exec.post_get, post_deref, hcur,
    Option.some.injEq, forall_eq', hpgdir, ne_eq, not_true_eq_false, true_and,
    and_self, post_inBounds, post_assert, Exec.post_set, reduceCtorEq, false_implies, and_true,
    implies_true, Exec.post_ite, true_implies, not_false_eq_true, h.layout.vaddrStart]
  rintro ⟨hlo, hhi⟩ -
  have hbits : ∀ i, m.kernelVaddr.vaddrBitmap.scanTest i = true →
      (m.kernelVaddr.vaddrBitmap.set (vaddr - kHeapStart) true).scanTest i = true := by
    intro i hi
    rw [Bitmap.scanTest_set, hi, ite_self]
  obtain ⟨h₁, hs₁⟩ := h.setKernelBitmap (Bitmap.set_btmpBytesLen _) hbits
  have hend := h.layout.kernelHeap
  have hmap := mapPages_kernel h₁ hlo (show vaddr + 1 ≤ pteBase by omega) fun v hv hv' => by
    obtain rfl : v = vaddr := by omega
    refine ⟨hhi, ?_⟩
    change (m.kernelVaddr.vaddrBitmap.set (v - kHeapStart) true).scanTest (v - kHeapStart) = true
    rw [Bitmap.scanTest_set, if_pos rfl]
  have hpool : (m.setKernelBitmap (m.kernelVaddr.vaddrBitmap.set (vaddr - kHeapStart) true)).pool =
      m.pool := by
    funext pf
    cases pf <;> rfl
  rw [← Exec.post_bind]
  change Exec.Post (getAPageWithoutOpvaddrbitmap .pfKernel vaddr) _ _ _
  rw [post_getAPageWithoutOpvaddrbitmap]
  refine Exec.Post.mono hmap (fun r m' hpost => ?_) fun _ _ => trivial
  obtain ⟨h', hpages, -, hr⟩ := hpost
  refine ⟨h', _, hpages.of_same hs₁ rfl hpool rfl rfl rfl, fun hnone => ?_⟩
  cases r with
  | false =>
    have hlt := mt hr.mpr Bool.false_ne_true
    omega
  | true => cases hnone

end Kernel

end Winx
