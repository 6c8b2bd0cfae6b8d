import Winx.Memory.PageCalls

/-! # Page allocations that fail

`vaddr_get` and `get_a_page` mark pages as used before there are frames for
them, and nothing is given back when the frames run out. An allocation is all
or nothing exactly if there are enough frames, of the pool of the pages and for
the page tables, or no pages at all.
-/

namespace Winx

/-- The addresses that a pool flag stands for: those of the kernel heap, or of the running thread. -/
def Memory.vaddrs (m : Memory) : PoolFlags → Option VirtualAddr
  | .pfKernel => some m.kernelVaddr
  | .pfUser => (m.task m.cur).map (·.userprogVaddr)

/-- A page that is free: it is in the map, its bit is clear, and it is not mapped. -/
def Memory.FreePage (m : Memory) (va : VirtualAddr) (v : ℕ) : Prop :=
  va.vaddrStart ≤ v ∧ v - va.vaddrStart < 8 * va.vaddrBitmap.btmpBytesLen ∧
    va.vaddrBitmap.scanTest (v - va.vaddrStart) = false ∧ m.walk m.cr3 v = none

/-- Pages are mapped to different frames of the right pool that were free, and so are the page tables
that they needed. -/
structure MappedFresh (m m' : Memory) (pf : PoolFlags) (vaddr cnt : ℕ) : Prop where
  sound : PageInv m'
  cr3 : m'.cr3 = m.cr3
  mapped : ∀ v, vaddr ≤ v → v < vaddr + cnt →
    ∃ g, m'.walk m'.cr3 v = some g ∧ ¬ m.Allocated pf g ∧ m'.Allocated pf g
  distinct : ∀ v w, vaddr ≤ v → v < vaddr + cnt → vaddr ≤ w → w < vaddr + cnt →
    m'.walk m'.cr3 v = m'.walk m'.cr3 w → v = w
  tables : ∀ i g, m'.Holds (.table m'.cr3 i) g →
    m.Holds (.table m.cr3 i) g ∨ ¬ m.Allocated .pfKernel g

/-- The maps of frames and of pages and the page tables are as before. -/
structure SamePages (m m' : Memory) : Prop where
  kernelPool : m'.kernelPool = m.kernelPool
  userPool : m'.userPool = m.userPool
  kernelVaddr : m'.kernelVaddr = m.kernelVaddr
  task : m'.task = m.task
  phys : m'.phys = m.phys

/-- `malloc_page` gives the pages it was asked for, which were free, or changes nothing. -/
def MallocAllOrNothing (m : Memory) (pf : PoolFlags) (pgCnt : ℕ) : Prop :=
  Exec.Returns (mallocPage pf pgCnt) m fun r m' =>
    match r with
    | some vaddr => MappedFresh m m' pf vaddr pgCnt ∧
        ∃ va, m.vaddrs pf = some va ∧ ∀ v, vaddr ≤ v → v < vaddr + pgCnt → m.FreePage va v
    | none => SamePages m m'

/-- `get_a_page` maps the page or changes nothing. -/
def GetAllOrNothing (m : Memory) (pf : PoolFlags) (vaddr : ℕ) : Prop :=
  Exec.Returns (getAPage pf vaddr) m fun r m' =>
    match r with
    | some v => v = vaddr ∧ MappedFresh m m' pf vaddr 1
    | none => SamePages m m'

/-- There are frames for the pages, and for the page tables that they need. -/
def Memory.FramesFor (m : Memory) (vaddr cnt : ℕ) : PoolFlags → Prop
  | .pfKernel => cnt ≤ m.freeFrames .pfKernel
  | .pfUser => cnt ≤ m.freeFrames .pfUser ∧ m.missingTables vaddr cnt ≤ m.freeFrames .pfKernel

/-- What mapping pages leaves alone. -/
structure KeepsMaps (m m' : Memory) : Prop where
  task : m'.task = m.task
  cur : m'.cur = m.cur
  cr3 : m'.cr3 = m.cr3
  kernelVaddr : m'.kernelVaddr = m.kernelVaddr
  start : ∀ pf, (m'.pool pf).phyAddrStart = (m.pool pf).phyAddrStart
  len : ∀ pf, (m'.pool pf).poolBitmap.btmpBytesLen = (m.pool pf).poolBitmap.btmpBytesLen

section Keeps

variable {m m' m'' : Memory} {pf : PoolFlags} {vaddr addr cnt frame : ℕ} {w : UInt32}

theorem KeepsMaps.refl (m : Memory) : KeepsMaps m m :=
  ⟨rfl, rfl, rfl, rfl, fun _ => rfl, fun _ => rfl⟩

theorem KeepsMaps.trans (h : KeepsMaps m m') (h' : KeepsMaps m' m'') : KeepsMaps m m'' where
  task := h'.task.trans h.task
  cur := h'.cur.trans h.cur
  cr3 := h'.cr3.trans h.cr3
  kernelVaddr := h'.kernelVaddr.trans h.kernelVaddr
  start pf := (h'.start pf).trans (h.start pf)
  len pf := (h'.len pf).trans (h.len pf)

theorem KeepsMaps.bind {α β : Type} {x : MemM α} {f : α → MemM β}
    (hx : Exec.Ensures x m fun _ m' => KeepsMaps m m')
    (hf : ∀ a m', Exec.Ensures (f a) m' fun _ m'' => KeepsMaps m' m'') :
    Exec.Ensures (x >>= f) m fun _ m' => KeepsMaps m m' :=
  Exec.Post.bind hx fun a m' h => (hf a m').mono fun _ _ h' => h.trans h'

theorem keepsMaps_setFrame (m : Memory) (frame : ℕ) (words : ℕ → UInt32) :
    KeepsMaps m (m.setFrame frame words) :=
  ⟨rfl, rfl, rfl, rfl, fun pf => by cases pf <;> rfl, fun pf => by cases pf <;> rfl⟩

theorem palloc_keepsMaps : Exec.Ensures (palloc pf) m fun _ m' => KeepsMaps m m' := by
  rw [Exec.Ensures, post_palloc]
  exact ⟨Memory.takeFrame_task, Memory.takeFrame_cur, Memory.takeFrame_cr3,
    Memory.takeFrame_kernelVaddr, fun _ => Memory.takeFrame_start, fun _ => Memory.takeFrame_len⟩

theorem translate_keepsMaps : Exec.Ensures (translate vaddr) m fun _ m' => KeepsMaps m m' := by
  simp only [Exec.Ensures, translate, Exec.post_bind, Exec.post_get, post_deref, implies_true, and_true]
  exact fun _ _ => .refl m

theorem load_keepsMaps : Exec.Ensures (load addr) m fun _ m' => KeepsMaps m m' := by
  refine KeepsMaps.bind translate_keepsMaps fun frame m' => ?_
  exact KeepsMaps.refl m'

theorem store_keepsMaps : Exec.Ensures (store addr w) m fun _ m' => KeepsMaps m m' :=
  KeepsMaps.bind translate_keepsMaps fun _ m' => keepsMaps_setFrame m' _ _

theorem clearPage_keepsMaps : Exec.Ensures (clearPage vaddr) m fun _ m' => KeepsMaps m m' :=
  KeepsMaps.bind translate_keepsMaps fun _ m' => keepsMaps_setFrame m' _ _

theorem clearPages_keepsMaps :
    Exec.Ensures (clearPages vaddr cnt) m fun _ m' => KeepsMaps m m' := by
  induction cnt with
  | zero => exact KeepsMaps.refl m
  | succ cnt ih => exact KeepsMaps.bind ih fun _ _ => clearPage_keepsMaps

theorem assert_keepsMaps {c : Prop} [Decidable c] :
    Exec.Ensures (assert c) m fun _ m' => KeepsMaps m m' := by
  rw [Exec.Ensures, post_assert]
  exact ⟨fun _ => .refl m, fun _ => trivial⟩

theorem pageTableAdd_keepsMaps :
    Exec.Ensures (pageTableAdd vaddr frame) m fun _ m' => KeepsMaps m m' := by
  refine KeepsMaps.bind load_keepsMaps fun pde m₁ => ?_
  split
  · refine KeepsMaps.bind load_keepsMaps fun pte m₂ => ?_
    exact KeepsMaps.bind assert_keepsMaps fun _ m₃ => store_keepsMaps
  · refine KeepsMaps.bind palloc_keepsMaps fun r m₂ => ?_
    refine KeepsMaps.bind store_keepsMaps fun _ m₃ => ?_
    refine KeepsMaps.bind clearPage_keepsMaps fun _ m₄ => ?_
    refine KeepsMaps.bind load_keepsMaps fun pte m₅ => ?_
    exact KeepsMaps.bind assert_keepsMaps fun _ m₆ => store_keepsMaps

theorem mapPages_keepsMaps : Exec.Ensures (mapPages pf vaddr cnt) m fun _ m' => KeepsMaps m m' := by
  induction cnt generalizing m vaddr with
  | zero => exact KeepsMaps.refl m
  | succ cnt ih =>
    refine KeepsMaps.bind palloc_keepsMaps fun r m₁ => ?_
    cases r with
    | none => exact KeepsMaps.refl m₁
    | some frame => exact KeepsMaps.bind pageTableAdd_keepsMaps fun _ m₂ => ih

end Keeps

/-- Where pages of a kind are: in the kernel heap, with their bits set, or in the user half of the
active process. -/
def Memory.Range (m : Memory) (vaddr cnt : ℕ) : PoolFlags → Prop
  | .pfKernel => kHeapStart ≤ vaddr ∧ vaddr + cnt ≤ pteBase ∧
      ∀ v, vaddr ≤ v → v < vaddr + cnt →
        v - kHeapStart < 8 * m.kernelVaddr.vaddrBitmap.btmpBytesLen ∧
          m.kernelVaddr.vaddrBitmap.scanTest (v - kHeapStart) = true
  | .pfUser => m.IsProcDir m.cr3 ∧ vaddr + cnt ≤ kernelBase

section Mapping

variable {m m' : Memory} {pf : PoolFlags} {vaddr cnt : ℕ}

theorem KernelPages.mappedFresh (h : KernelPages m m' vaddr cnt) (h' : PageInv m') :
    MappedFresh m m' .pfKernel vaddr cnt := by
  have hwalk (v : ℕ) (hlo : vaddr ≤ v) (hhi : v < vaddr + cnt) : ∃ g, m'.Holds (.kernelPage v) g ∧
      m'.walk m'.cr3 v = some g ∧ ¬ m.Allocated .pfKernel g := by
    obtain ⟨-, g, hg, hnot⟩ := h.mapped v hlo hhi
    refine ⟨g, hg, ?_, hnot⟩
    rw [h'.walk_kernel (kernelBase_le_of_heap hg.1) hg.2.1]
    exact hg.2.2
  refine ⟨h', h.cr3, fun v hlo hhi => ?_, fun v w hlo hhi hlo' hhi' heq => ?_, fun i g hg => ?_⟩
  · obtain ⟨g, hg, hv, hnot⟩ := hwalk v hlo hhi
    exact ⟨g, hv, hnot, h'.alloc _ _ hg⟩
  · obtain ⟨g, hg, hv, -⟩ := hwalk v hlo hhi
    obtain ⟨g', hg', hw, -⟩ := hwalk w hlo' hhi'
    obtain rfl := Option.some.inj (hv.symm.trans (heq.trans hw))
    exact FrameUse.kernelPage.inj (h'.unique _ _ g hg hg')
  · rw [h.cr3] at hg
    exact Or.inl ((h.table _ i g).mp hg)

theorem AddedPages.mappedFresh (h : AddedPages m m' vaddr cnt) (h' : PageInv m') :
    MappedFresh m m' .pfUser vaddr cnt := by
  have hwalk (v : ℕ) (hlo : vaddr ≤ v) (hhi : v < vaddr + cnt) : ∃ g, m'.Holds (.page m.cr3 v) g ∧
      ¬ m.Allocated .pfUser g := by
    obtain ⟨hnone, g, hg⟩ := h.mapped v hlo hhi
    exact ⟨g, hg, (h.grows.new _ g hg).resolve_left (hnone g)⟩
  refine ⟨h', h.grows.cr3, fun v hlo hhi => ?_, fun v w hlo hhi hlo' hhi' heq => ?_, fun i g hg => ?_⟩
  · obtain ⟨g, hg, hnot⟩ := hwalk v hlo hhi
    rw [h.grows.cr3]
    exact ⟨g, hg.2.2, hnot, h'.alloc _ _ hg⟩
  · obtain ⟨g, hg, -⟩ := hwalk v hlo hhi
    obtain ⟨g', hg', -⟩ := hwalk w hlo' hhi'
    rw [h.grows.cr3] at heq
    obtain rfl := Option.some.inj (hg.2.2.symm.trans (heq.trans hg'.2.2))
    exact (FrameUse.page.inj (h'.unique _ _ g hg hg')).2
  · rw [h.grows.cr3] at hg
    exact h.grows.new _ g hg

/-- With enough frames the loop of `malloc_page` maps all pages. -/
theorem mapPages_fresh (h : PageInv m) (hrange : m.Range vaddr cnt pf)
    (hfree : ∀ v, vaddr ≤ v → v < vaddr + cnt → m.walk m.cr3 v = none)
    (hframes : m.FramesFor vaddr cnt pf) :
    Exec.Returns (mapPages pf vaddr cnt) m fun r m' => r = true ∧ MappedFresh m m' pf vaddr cnt := by
  cases pf with
  | pfKernel =>
    obtain ⟨hlo, hhi, hbits⟩ := hrange
    refine Exec.Post.mono (mapPages_kernel h hlo hhi hbits) (fun r m' => ?_) ?_
    · rintro ⟨h', hpages, -, hr⟩
      rw [Nat.min_eq_left hframes] at hpages
      exact ⟨hr.mpr hframes, hpages.mappedFresh h'⟩
    · rintro e ⟨-, v, hlo', hhi', hne⟩
      refine hne ?_
      rw [← h.walk_kernel (kernelBase_le_of_heap (hlo.trans hlo')) (by omega)]
      exact hfree v hlo' hhi'
  | pfUser =>
    obtain ⟨hdir, hhi⟩ := hrange
    have hfit : m.TablesFit vaddr cnt := by
      unfold Memory.TablesFit
      rw [Nat.min_eq_left hframes.1]
      exact hframes.2
    refine Exec.Post.mono (mapPages_user h hdir hhi hfit) (fun r m' => ?_) ?_
    · rintro ⟨h', hadd, hr⟩
      rw [Nat.min_eq_left hframes.1] at hadd
      exact ⟨hr.mpr hframes.1, hadd.mappedFresh h'⟩
    · rintro e ⟨-, v, hlo', hhi', hne⟩
      exact hne (hfree v hlo' hhi')

/-- Frames that were given out were free. -/
theorem card_le_freeFrames (hstart : ∀ pf, (m'.pool pf).phyAddrStart = (m.pool pf).phyAddrStart)
    (hlen : ∀ pf, (m'.pool pf).poolBitmap.btmpBytesLen = (m.pool pf).poolBitmap.btmpBytesLen)
    {s : Finset ℕ} {g : ℕ → ℕ} (hinj : Set.InjOn g s)
    (hnew : ∀ i ∈ s, ¬ m.Allocated pf (g i) ∧ m'.Allocated pf (g i)) :
    s.card ≤ m.freeFrames pf := by
  have hbound (i : ℕ) (hi : i ∈ s) : (m.pool pf).phyAddrStart ≤ g i ∧
      g i - (m.pool pf).phyAddrStart < 8 * (m.pool pf).poolBitmap.btmpBytesLen ∧
        (m.pool pf).poolBitmap.scanTest (g i - (m.pool pf).phyAddrStart) = false := by
    obtain ⟨hnot, hlo, hhi, -⟩ := hnew i hi
    rw [hstart] at hlo hhi
    rw [hlen] at hhi
    exact ⟨hlo, hhi, Bool.eq_false_iff.mpr fun hset => hnot ⟨hlo, hhi, hset⟩⟩
  unfold Memory.freeFrames Bitmap.freeCnt
  refine Finset.card_le_card_of_injOn (fun i => g i - (m.pool pf).phyAddrStart) (fun i hi => ?_) ?_
  · obtain ⟨-, hhi, hclear⟩ := hbound i hi
    exact Finset.mem_filter.mpr ⟨Finset.mem_range.mpr hhi, hclear⟩
  · intro i hi j hj heq
    have hlo := (hbound i hi).1
    have hlo' := (hbound j hj).1
    refine hinj hi hj ?_
    simp only at heq
    omega

/-- Pages that were mapped had their frames, and the frames for their page tables. -/
theorem MappedFresh.framesFor (h : MappedFresh m m' pf vaddr cnt) (hinv : PageInv m)
    (hstart : ∀ pf, (m'.pool pf).phyAddrStart = (m.pool pf).phyAddrStart)
    (hlen : ∀ pf, (m'.pool pf).poolBitmap.btmpBytesLen = (m.pool pf).poolBitmap.btmpBytesLen)
    (hdir : pf = .pfUser → m.IsProcDir m.cr3 ∧ vaddr + cnt ≤ kernelBase) :
    m.FramesFor vaddr cnt pf := by
  have hpages : (Finset.Ico vaddr (vaddr + cnt)).card ≤ m.freeFrames pf := by
    refine card_le_freeFrames hstart hlen (g := fun v => (m'.walk m'.cr3 v).getD 0) ?_ ?_
    · intro v hv w hw heq
      obtain ⟨hlo, hhi⟩ := Finset.mem_Ico.mp hv
      obtain ⟨hlo', hhi'⟩ := Finset.mem_Ico.mp hw
      obtain ⟨g, hg, -⟩ := h.mapped v hlo hhi
      obtain ⟨g', hg', -⟩ := h.mapped w hlo' hhi'
      simp only [hg, hg', Option.getD_some] at heq
      exact h.distinct v w hlo hhi hlo' hhi' (hg.trans (heq ▸ hg'.symm))
    · intro v hv
      obtain ⟨hlo, hhi⟩ := Finset.mem_Ico.mp hv
      obtain ⟨g, hg, hnew⟩ := h.mapped v hlo hhi
      simpa only [hg, Option.getD_some] using hnew
  rw [Nat.card_Ico, Nat.add_sub_cancel_left] at hpages
  cases pf with
  | pfKernel => exact hpages
  | pfUser =>
    refine ⟨hpages, ?_⟩
    obtain ⟨hproc, hhigh⟩ := hdir rfl
    have hproc' : m'.IsProcDir m'.cr3 := by
      refine h.sound.cr3.resolve_left fun hboot => ?_
      have hbounds := hinv.procDir_bounds hproc
      rw [← h.cr3, hboot, bootDir] at hbounds
      omega
    have htable (i : ℕ) (hi : i ∈ ((Finset.Ico vaddr (vaddr + cnt)).image (· / 1024)).filter
        fun i => entryPresent (m.phys m.cr3 i) = false) :
        m'.Holds (.table m'.cr3 i) (entryFrame (m'.phys m'.cr3 i)) ∧
          ¬ m.Allocated .pfKernel (entryFrame (m'.phys m'.cr3 i)) := by
      obtain ⟨himg, habsent⟩ := Finset.mem_filter.mp hi
      obtain ⟨v, hv, rfl⟩ := Finset.mem_image.mp himg
      obtain ⟨hlo, hhi⟩ := Finset.mem_Ico.mp hv
      obtain ⟨g, hg, -⟩ := h.mapped v hlo hhi
      have hlt : v / 1024 < 768 := by
        unfold kernelBase at hhigh
        omega
      have hholds : m'.Holds (.table m'.cr3 (v / 1024)) (entryFrame (m'.phys m'.cr3 (v / 1024))) :=
        ⟨hproc', hlt, (Memory.walk_eq_some.mp hg).1, rfl⟩
      refine ⟨hholds, (h.tables _ _ hholds).resolve_left fun hold => ?_⟩
      exact Bool.false_ne_true (habsent.symm.trans hold.2.2.1)
    change _ ≤ m.freeFrames .pfKernel
    refine card_le_freeFrames hstart hlen
      (g := fun i => entryFrame (m'.phys m'.cr3 i)) (fun i hi j hj heq => ?_) fun i hi => ?_
    · have hi' := (htable i hi).1
      have hj' := (htable j hj).1
      simp only at heq
      rw [heq] at hi'
      exact (FrameUse.table.inj (h.sound.unique _ _ _ hi' hj')).2
    · exact ⟨(htable i hi).2, h.sound.alloc _ _ (htable i hi).1⟩

end Mapping

/-- The memory after pages were marked as used. -/
def Memory.mark (m : Memory) (i cnt : ℕ) : PoolFlags → Memory
  | .pfKernel => m.setKernelBitmap (m.kernelVaddr.vaddrBitmap.setRun i true cnt)
  | .pfUser =>
    match m.task m.cur with
    | none => m
    | some t => m.markPages t i cnt

/-- `t->userprog_vaddr` and `kernel_vaddr` after that. -/
def VirtualAddr.mark (va : VirtualAddr) (i cnt : ℕ) : VirtualAddr :=
  { va with vaddrBitmap := va.vaddrBitmap.setRun i true cnt }

/-- The pages of the running process that are mapped are marked. -/
def Memory.BitsCover (m : Memory) : Prop :=
  ∀ t, m.task m.cur = some t → t.pgdir ≠ 0 → ∀ v, t.userprogVaddr.vaddrStart ≤ v → v < kernelBase →
    m.walk m.cr3 v ≠ none → t.userprogVaddr.vaddrBitmap.scanTest (v - t.userprogVaddr.vaddrStart) = true

section Marking

variable {m m' : Memory} {pf : PoolFlags} {t : MemTask} {va : VirtualAddr} {vaddr cnt i : ℕ}
  {E : Fault → Prop} {Q : Option ℕ → Memory → Prop}

theorem Memory.mark_user (hcur : m.task m.cur = some t) :
    m.mark i cnt .pfUser = m.markPages t i cnt := by
  rw [mark, hcur]

theorem Memory.mark_user_none (hcur : m.task m.cur = none) : m.mark i cnt .pfUser = m := by
  rw [mark, hcur]

/-- Marking pages as used changes a map and nothing else. -/
theorem Memory.mark_cases (m : Memory) (i cnt : ℕ) (pf : PoolFlags) : m.mark i cnt pf = m ∨
    m.mark i cnt pf = m.setKernelBitmap (m.kernelVaddr.vaddrBitmap.setRun i true cnt) ∨
      ∃ t, m.task m.cur = some t ∧ m.mark i cnt pf = m.markPages t i cnt := by
  cases pf with
  | pfKernel => exact Or.inr (Or.inl rfl)
  | pfUser =>
    cases hcur : m.task m.cur with
    | none => exact Or.inl (mark_user_none hcur)
    | some t => exact Or.inr (Or.inr ⟨t, rfl, mark_user hcur⟩)

theorem Memory.mark_phys : (m.mark i cnt pf).phys = m.phys := by
  rcases m.mark_cases i cnt pf with heq | heq | ⟨t, -, heq⟩ <;>
    rw [heq] <;> rfl

theorem Memory.mark_cr3 : (m.mark i cnt pf).cr3 = m.cr3 := by
  rcases m.mark_cases i cnt pf with heq | heq | ⟨t, -, heq⟩ <;>
    rw [heq] <;> rfl

theorem Memory.mark_cur : (m.mark i cnt pf).cur = m.cur := by
  rcases m.mark_cases i cnt pf with heq | heq | ⟨t, -, heq⟩ <;>
    rw [heq] <;> rfl

theorem Memory.mark_pool : (m.mark i cnt pf).pool = m.pool := by
  funext pf'
  rcases m.mark_cases i cnt pf with heq | heq | ⟨t, -, heq⟩ <;>
    rw [heq] <;> cases pf' <;> rfl

theorem Memory.mark_walk (dir v : ℕ) : (m.mark i cnt pf).walk dir v = m.walk dir v := by
  unfold walk
  rw [mark_phys]

theorem Memory.vaddrs_mark (hva : m.vaddrs pf = some va) :
    (m.mark i cnt pf).vaddrs pf = some (va.mark i cnt) := by
  cases pf with
  | pfKernel =>
    obtain rfl := Option.some.inj hva
    rfl
  | pfUser =>
    obtain ⟨t, ht, rfl⟩ := Option.map_eq_some_iff.mp hva
    simp only [mark_user ht, vaddrs, markPages, setTask_task, setTask_cur, Function.update_self,
      Option.map_some]
    rfl

/-- Marking pages changes no use of a frame. -/
theorem PageInv.mark (h : PageInv m) : PageInv (m.mark i cnt pf) ∧ SameUses m (m.mark i cnt pf) := by
  rcases m.mark_cases i cnt pf with heq | heq | ⟨t, ht, heq⟩ <;>
    rw [heq]
  · exact ⟨h, .of_phys rfl (fun _ => rfl) (fun _ => rfl) (fun _ => rfl) rfl rfl⟩
  · exact h.setKernelBitmap (Bitmap.setRun_btmpBytesLen ..)
      fun j hj => by rw [Bitmap.scanTest_setRun, hj, ite_self]
  · exact ⟨h.setTask ht rfl, Memory.sameUses_setTask ht rfl⟩

/-- Marking a page that was marked before. -/
theorem Memory.mark_of_set (hva : m.vaddrs pf = some va) (hset : va.vaddrBitmap.scanTest i = true) :
    m.mark i 1 pf = m := by
  cases pf with
  | pfKernel =>
    obtain rfl := Option.some.inj hva
    change m.setKernelBitmap (m.kernelVaddr.vaddrBitmap.set i true) = m
    rw [Bitmap.set_of_scanTest hset]
    rfl
  | pfUser =>
    obtain ⟨t, ht, rfl⟩ := Option.map_eq_some_iff.mp hva
    have hsame : t.setBitmap (t.userprogVaddr.vaddrBitmap.setRun i true 1) = t := by
      change t.setBitmap (t.userprogVaddr.vaddrBitmap.set i true) = t
      rw [Bitmap.set_of_scanTest hset]
      rfl
    rw [mark_user ht, markPages, hsame, setTask, ← ht, Function.update_eq_self]

theorem Memory.mark_framesFor : (m.mark i cnt pf).FramesFor vaddr cnt pf ↔ m.FramesFor vaddr cnt pf := by
  have hfree (pf' : PoolFlags) : (m.mark i cnt pf).freeFrames pf' = m.freeFrames pf' := by
    unfold freeFrames
    rw [mark_pool]
  cases pf with
  | pfKernel => rw [FramesFor, FramesFor, hfree]
  | pfUser =>
    unfold FramesFor missingTables
    rw [hfree, hfree, mark_phys, mark_cr3]

/-- Mapping the marked pages. -/
theorem MappedFresh.of_mark (h : MappedFresh (m.mark i cnt pf) m' pf vaddr cnt) (hinv : PageInv m) :
    MappedFresh m m' pf vaddr cnt := by
  have halloc (pf' : PoolFlags) (g : ℕ) : (m.mark i cnt pf).Allocated pf' g ↔ m.Allocated pf' g := by
    unfold Memory.Allocated
    rw [Memory.mark_pool]
  refine ⟨h.sound, h.cr3.trans Memory.mark_cr3, fun v hlo hhi => ?_, h.distinct, fun j g hg => ?_⟩
  · obtain ⟨g, hg, hnot, hall⟩ := h.mapped v hlo hhi
    exact ⟨g, hg, mt (halloc pf g).mpr hnot, hall⟩
  · refine (h.tables j g hg).imp (fun hold => ?_) (mt (halloc _ g).mpr)
    rw [Memory.mark_cr3] at hold
    exact (hinv.mark.2.holds _ g).mp hold

theorem post_mallocPage_none (hcnt : 0 < cnt ∧ cnt < 3840) (hva : m.vaddrs pf = some va)
    (hscan : va.vaddrBitmap.scan cnt = none) : Exec.Post (mallocPage pf cnt) m Q E ↔ Q none m := by
  simp only [mallocPage, vaddrGet, Exec.post_bind, post_assert, Exec.post_get, hcnt]
  cases pf with
  | pfKernel =>
    obtain rfl := Option.some.inj hva
    simp [hscan]
  | pfUser =>
    obtain ⟨t, ht, rfl⟩ := Option.map_eq_some_iff.mp hva
    simp [curTask, ht, hscan]

theorem post_mallocPage (hcnt : 0 < cnt ∧ cnt < 3840) (hva : m.vaddrs pf = some va)
    (hscan : va.vaddrBitmap.scan cnt = some i) : Exec.Post (mallocPage pf cnt) m Q E ↔
      ((pf = .pfUser → va.vaddrStart + i < kernelBase - 1) →
        Exec.Post (mapPages pf (va.vaddrStart + i) cnt) (m.mark i cnt pf)
          (fun r => Q (if r then some (va.vaddrStart + i) else none)) E) ∧
      (¬ (pf = .pfUser → va.vaddrStart + i < kernelBase - 1) → E .assertFailed) := by
  have hpost (r : Bool) (m' : Memory) : Exec.Post (if r then pure (some (va.vaddrStart + i)) else
      pure none : MemM (Option ℕ)) m' Q E ↔ Q (if r then some (va.vaddrStart + i) else none) m' := by
    cases r <;> rfl
  simp only [mallocPage, vaddrGet, Exec.post_bind, post_assert, Exec.post_get, hcnt]
  cases pf with
  | pfKernel =>
    obtain rfl := Option.some.inj hva
    simp [hscan, hpost, Memory.mark]
  | pfUser =>
    obtain ⟨t, ht, rfl⟩ := Option.map_eq_some_iff.mp hva
    simp [curTask, storeTask, ht, hscan, hpost, Memory.mark, Memory.markPages]

theorem post_getAPage (hcur : m.task m.cur = some t) (hkind : pf = .pfUser ↔ t.pgdir ≠ 0)
    (hva : m.vaddrs pf = some va) (hlo : va.vaddrStart ≤ vaddr)
    (hhi : vaddr - va.vaddrStart < 8 * va.vaddrBitmap.btmpBytesLen)
    (hpos : pf = .pfKernel → va.vaddrStart < vaddr) : Exec.Post (getAPage pf vaddr) m Q E ↔
      Exec.Post (mapPages pf vaddr 1) (m.mark (vaddr - va.vaddrStart) 1 pf)
        (fun r => Q (if r then some vaddr else none)) E := by
  rw [← post_getAPageWithoutOpvaddrbitmap]
  cases pf with
  | pfKernel =>
    obtain rfl := Option.some.inj hva
    have hzero : t.pgdir = 0 := by simpa using hkind
    have hlt := hpos rfl
    simp only [getAPage, curTask, Exec.post_bind, Exec.post_get, post_deref, hcur, Option.some.injEq,
      forall_eq', hzero, ne_eq, not_true_eq_false, false_and, reduceCtorEq, if_false, true_and,
      if_true, post_inBounds, post_assert, Exec.post_set, hlo, hhi]
    rw [← Exec.post_bind]
    have hpos' : 0 < vaddr - m.kernelVaddr.vaddrStart := by omega
    simp only [hpos', true_implies, not_true_eq_false, false_implies, and_true]
    rfl
  | pfUser =>
    obtain ⟨t', ht', rfl⟩ := Option.map_eq_some_iff.mp hva
    obtain rfl : t = t' := Option.some.inj (hcur.symm.trans ht')
    have hne : t.pgdir ≠ 0 := hkind.mp rfl
    simp only [getAPage, curTask, storeTask, Exec.post_bind, Exec.post_get, post_deref, hcur,
      Option.some.injEq, forall_eq', hne, ne_eq, not_false_eq_true, and_self, if_true, post_inBounds,
      Exec.post_modify, hlo, hhi, Memory.mark]
    rw [← Exec.post_bind]
    simp only [true_implies, not_true_eq_false, false_implies, and_true, reduceCtorEq]
    rfl

end Marking

section Iff

variable {m m' : Memory} {pf : PoolFlags} {t : MemTask} {va : VirtualAddr} {vaddr cnt i : ℕ}

/-- Pages of a map that were marked are where pages of the kind are. -/
theorem MemInv.range_mark (h : MemInv m) (hcur : m.task m.cur = some t)
    (hpf : pf = .pfUser → t.pgdir ≠ 0) (hva : m.vaddrs pf = some va)
    (hend : i + cnt ≤ 8 * va.vaddrBitmap.btmpBytesLen) :
    (m.mark i cnt pf).Range (va.vaddrStart + i) cnt pf := by
  cases pf with
  | pfKernel =>
    obtain rfl := Option.some.inj hva
    have hheap := h.page.layout.kernelHeap
    rw [h.page.layout.vaddrStart]
    refine ⟨Nat.le_add_right .., by omega, fun v hlo hhi => ?_⟩
    change v - kHeapStart < 8 * (m.kernelVaddr.vaddrBitmap.setRun i true cnt).btmpBytesLen ∧
      (m.kernelVaddr.vaddrBitmap.setRun i true cnt).scanTest (v - kHeapStart) = true
    rw [Bitmap.setRun_btmpBytesLen, Bitmap.scanTest_setRun, if_pos (by omega)]
    exact ⟨by omega, rfl⟩
  | pfUser =>
    obtain ⟨t', ht', rfl⟩ := Option.map_eq_some_iff.mp hva
    obtain rfl : t = t' := Option.some.inj (hcur.symm.trans ht')
    have hrange := h.range hcur (hpf rfl)
    refine ⟨?_, by omega⟩
    rw [Memory.mark_cr3]
    exact h.page.mark.2.keeps.isProcDir.mpr (h.isProcDir hcur (hpf rfl))

/-- A page whose bit is clear is not mapped. -/
theorem MemInv.walk_of_clear (h : MemInv m) (hbits : m.BitsCover) (hcur : m.task m.cur = some t)
    (hpf : pf = .pfUser → t.pgdir ≠ 0) (hva : m.vaddrs pf = some va) (hlo : va.vaddrStart ≤ vaddr)
    (hhi : vaddr - va.vaddrStart < 8 * va.vaddrBitmap.btmpBytesLen)
    (hclear : va.vaddrBitmap.scanTest (vaddr - va.vaddrStart) = false) :
    m.walk m.cr3 vaddr = none := by
  cases pf with
  | pfKernel =>
    obtain rfl := Option.some.inj hva
    have hheap := h.page.layout.kernelHeap
    rw [h.page.layout.vaddrStart] at hlo hhi hclear
    refine Option.eq_none_iff_forall_not_mem.mpr fun g hg => ?_
    rw [Option.mem_def, h.page.walk_kernel (kernelBase_le_of_heap hlo) (by omega)] at hg
    have hbit := (h.page.bits vaddr g ⟨hlo, by omega, hg⟩).2
    rw [hclear] at hbit
    cases hbit
  | pfUser =>
    obtain ⟨t', ht', rfl⟩ := Option.map_eq_some_iff.mp hva
    obtain rfl : t = t' := Option.some.inj (hcur.symm.trans ht')
    have hrange := h.range hcur (hpf rfl)
    by_contra hne
    rw [hbits t hcur (hpf rfl) vaddr hlo (by omega) hne] at hclear
    cases hclear

/-- Mapping marked pages ends with all of them, given the frames. -/
theorem MemInv.mapPages_mark (h : MemInv m) (hcur : m.task m.cur = some t)
    (hpf : pf = .pfUser → t.pgdir ≠ 0) (hva : m.vaddrs pf = some va)
    (hend : i + cnt ≤ 8 * va.vaddrBitmap.btmpBytesLen)
    (hfree : ∀ v, va.vaddrStart + i ≤ v → v < va.vaddrStart + i + cnt → m.walk m.cr3 v = none)
    (hframes : m.FramesFor (va.vaddrStart + i) cnt pf) :
    Exec.Returns (mapPages pf (va.vaddrStart + i) cnt) (m.mark i cnt pf) fun r m' =>
      r = true ∧ MappedFresh m m' pf (va.vaddrStart + i) cnt := by
  refine (mapPages_fresh h.page.mark.1 (h.range_mark hcur hpf hva hend) (fun v hlo hhi => ?_)
    (Memory.mark_framesFor.mpr hframes)).mono fun r m' hr => ⟨hr.1, hr.2.of_mark h.page⟩
  rw [Memory.mark_walk, Memory.mark_cr3]
  exact hfree v hlo hhi

/-- What marked pages leave of the frames and of the maps when they are mapped, or not. -/
theorem KeepsMaps.of_mark (h : KeepsMaps (m.mark i cnt pf) m') (hva : m.vaddrs pf = some va) :
    m'.vaddrs pf = some (va.mark i cnt) ∧ m'.cur = m.cur ∧
      (∀ pf', (m'.pool pf').phyAddrStart = (m.pool pf').phyAddrStart) ∧
        ∀ pf', (m'.pool pf').poolBitmap.btmpBytesLen = (m.pool pf').poolBitmap.btmpBytesLen := by
  refine ⟨?_, h.cur.trans Memory.mark_cur, fun pf' => (h.start pf').trans (by rw [Memory.mark_pool]),
    fun pf' => (h.len pf').trans (by rw [Memory.mark_pool])⟩
  rw [← Memory.vaddrs_mark hva]
  cases pf with
  | pfKernel => exact congrArg some h.kernelVaddr
  | pfUser => rw [Memory.vaddrs, Memory.vaddrs, h.task, h.cur]

theorem SamePages.vaddrs (h : SamePages m m') (hcur : m'.cur = m.cur) :
    m'.vaddrs pf = m.vaddrs pf := by
  cases pf with
  | pfKernel => exact congrArg some h.kernelVaddr
  | pfUser => rw [Memory.vaddrs, Memory.vaddrs, h.task, hcur]

/-- `malloc_page` is all or nothing exactly if there is no run of free pages, or the run that is found
ends below the last page and there are frames for it. -/
theorem MemInv.malloc_iff (h : MemInv m) (hbits : m.BitsCover) (hcur : m.task m.cur = some t)
    (hpf : pf = .pfUser → t.pgdir ≠ 0) (hva : m.vaddrs pf = some va) (hcnt : 0 < cnt ∧ cnt < 3840) :
    MallocAllOrNothing m pf cnt ↔ ∀ i, va.vaddrBitmap.scan cnt = some i →
      (pf = .pfUser → va.vaddrStart + i < kernelBase - 1) ∧ m.FramesFor (va.vaddrStart + i) cnt pf := by
  unfold MallocAllOrNothing Exec.Returns
  cases hscan : va.vaddrBitmap.scan cnt with
  | none =>
    rw [post_mallocPage_none hcnt hva hscan]
    exact iff_of_true ⟨rfl, rfl, rfl, rfl, rfl⟩ nofun
  | some i =>
    have hrun := Bitmap.scan_eq_some hscan
    have hlast := (hrun (cnt - 1) (by omega)).2
    have hfree (v : ℕ) (hlo : va.vaddrStart + i ≤ v) (hhi : v < va.vaddrStart + i + cnt) :
        m.FreePage va v := by
      obtain ⟨hclear, hlt⟩ := hrun (v - va.vaddrStart - i) (by omega)
      rw [show i + (v - va.vaddrStart - i) = v - va.vaddrStart by omega] at hclear hlt
      exact ⟨by omega, hlt, hclear, h.walk_of_clear hbits hcur hpf hva (by omega) hlt hclear⟩
    rw [post_mallocPage hcnt hva hscan]
    simp only [Option.some.injEq, forall_eq']
    constructor
    · rintro ⟨hmap, hend⟩
      have hbelow : pf = .pfUser → va.vaddrStart + i < kernelBase - 1 := by
        by_contra hnot
        exact hend hnot
      refine ⟨hbelow, ?_⟩
      obtain ⟨r, m', hok, hr⟩ := Exec.returns_iff.mp (hmap hbelow)
      obtain ⟨hvaddrs, hsame, hstart, hlen⟩ := (mapPages_keepsMaps.of_ok hok).of_mark hva
      cases r with
      | true =>
        refine hr.1.framesFor h.page hstart hlen fun huser => ?_
        have hrange : (m.mark i cnt pf).Range (va.vaddrStart + i) cnt pf :=
          h.range_mark hcur hpf hva (by omega)
        obtain ⟨hdir, hhigh⟩ := huser ▸ hrange
        rw [Memory.mark_cr3] at hdir
        exact ⟨h.page.mark.2.keeps.isProcDir.mp hdir, hhigh⟩
      | false =>
        -- The bits of the pages are set, so something has changed.
        have hold : m'.vaddrs pf = m.vaddrs pf := hr.vaddrs hsame
        rw [hvaddrs, hva, Option.some.injEq] at hold
        have hbit : (va.mark i cnt).vaddrBitmap.scanTest i = true := by
          rw [VirtualAddr.mark, Bitmap.scanTest_setRun, if_pos (by omega)]
        rw [hold, ← Nat.add_zero i, (hrun 0 hcnt.1).1] at hbit
        cases hbit
    · rintro ⟨hbelow, hframes⟩
      refine ⟨fun _ => ?_, fun hnot => absurd hbelow hnot⟩
      have hend : i + cnt ≤ 8 * va.vaddrBitmap.btmpBytesLen := by omega
      have hmap := h.mapPages_mark hcur hpf hva hend (fun v hlo hhi => (hfree v hlo hhi).2.2.2) hframes
      refine hmap.mono fun r m' hr => ?_
      obtain ⟨rfl, hfresh⟩ := hr
      exact ⟨hfresh, va, hva, hfree⟩

/-- The loop of `malloc_page` ends at the first page only without a frame. -/
theorem mapPages_one_false :
    Exec.Ensures (mapPages pf vaddr 1) m fun r _ => r = false → m.freeFrames pf = 0 := by
  rw [mapPages, Exec.Ensures, Exec.post_bind, post_palloc]
  cases hf : m.nextFrame pf with
  | none => exact fun _ => Memory.nextFrame_eq_none.mp hf
  | some frame =>
    rw [Exec.post_bind]
    exact Exec.Post.mono pageTableAdd_keepsMaps (fun _ _ _ htrue => by cases htrue) fun _ _ => trivial

/-- `get_a_page` is all or nothing exactly if there are the frames, or there is none and the page
was marked before. -/
theorem MemInv.get_iff (h : MemInv m) (hcur : m.task m.cur = some t)
    (hkind : pf = .pfUser ↔ t.pgdir ≠ 0) (hva : m.vaddrs pf = some va) (hlo : va.vaddrStart ≤ vaddr)
    (hhi : vaddr - va.vaddrStart < 8 * va.vaddrBitmap.btmpBytesLen)
    (hpos : pf = .pfKernel → va.vaddrStart < vaddr) (hfree : m.walk m.cr3 vaddr = none) :
    GetAllOrNothing m pf vaddr ↔ m.FramesFor vaddr 1 pf ∨
      m.freeFrames pf = 0 ∧ va.vaddrBitmap.scanTest (vaddr - va.vaddrStart) = true := by
  have haddr : va.vaddrStart + (vaddr - va.vaddrStart) = vaddr := by omega
  unfold GetAllOrNothing Exec.Returns
  rw [post_getAPage hcur hkind hva hlo hhi hpos]
  constructor
  · intro hmap
    obtain ⟨r, m', hok, hr⟩ := Exec.returns_iff.mp hmap
    obtain ⟨hvaddrs, hsame, hstart, hlen⟩ := (mapPages_keepsMaps.of_ok hok).of_mark hva
    cases r with
    | true =>
      refine Or.inl (hr.2.framesFor h.page hstart hlen fun huser => ?_)
      have hrange : (m.mark (vaddr - va.vaddrStart) 1 pf).Range (va.vaddrStart + (vaddr - va.vaddrStart)) 1
          pf := h.range_mark hcur hkind.mp hva (by omega)
      obtain ⟨hdir, hhigh⟩ := huser ▸ hrange
      rw [Memory.mark_cr3] at hdir
      rw [haddr] at hhigh
      exact ⟨h.page.mark.2.keeps.isProcDir.mp hdir, hhigh⟩
    | false =>
      have hzero := mapPages_one_false.of_ok hok rfl
      unfold Memory.freeFrames at hzero
      rw [Memory.mark_pool] at hzero
      refine Or.inr ⟨hzero, ?_⟩
      have hold : m'.vaddrs pf = m.vaddrs pf := hr.vaddrs hsame
      rw [hvaddrs, hva, Option.some.injEq] at hold
      rw [← hold, VirtualAddr.mark, Bitmap.scanTest_setRun, if_pos ⟨le_rfl, Nat.lt_succ_self _⟩]
  · rintro (hframes | ⟨hzero, hset⟩)
    · have hend : vaddr - va.vaddrStart + 1 ≤ 8 * va.vaddrBitmap.btmpBytesLen := by omega
      have hmap := h.mapPages_mark hcur hkind.mp hva hend
        (fun v hv hv' => by rwa [show v = vaddr by omega]) (by rwa [haddr])
      rw [haddr] at hmap
      refine hmap.mono fun r m' hr => ?_
      obtain ⟨rfl, hfresh⟩ := hr
      exact ⟨rfl, hfresh⟩
    · have hmark : m.mark (vaddr - va.vaddrStart) 1 pf = m := Memory.mark_of_set hva hset
      have hnone : m.nextFrame pf = none := Memory.nextFrame_eq_none.mpr hzero
      rw [hmark, mapPages, Exec.post_bind, post_palloc, hnone, Memory.takeFrame_eq_self hnone]
      exact ⟨rfl, rfl, rfl, rfl, rfl⟩

end Iff

/-- Page allocations of a thread are all or nothing exactly if there are frames for the pages and for
their page tables, or no pages, or neither frames nor anything to mark. -/
theorem allOrNothing_iff {m : Memory} {pf : PoolFlags} {t : MemTask} {va : VirtualAddr} (h : MemInv m)
    (hbits : m.BitsCover) (hcur : m.task m.cur = some t) (hpf : pf = .pfUser → t.pgdir ≠ 0)
    (hva : m.vaddrs pf = some va) :
    (∀ pgCnt, 0 < pgCnt ∧ pgCnt < 3840 → (MallocAllOrNothing m pf pgCnt ↔
      ∀ i, va.vaddrBitmap.scan pgCnt = some i →
        (pf = .pfUser → va.vaddrStart + i < kernelBase - 1) ∧
          m.FramesFor (va.vaddrStart + i) pgCnt pf)) ∧
    ∀ vaddr, va.vaddrStart ≤ vaddr → vaddr - va.vaddrStart < 8 * va.vaddrBitmap.btmpBytesLen →
      (pf = .pfKernel → t.pgdir = 0 ∧ va.vaddrStart < vaddr) → m.walk m.cr3 vaddr = none →
      (GetAllOrNothing m pf vaddr ↔ m.FramesFor vaddr 1 pf ∨
        m.freeFrames pf = 0 ∧ va.vaddrBitmap.scanTest (vaddr - va.vaddrStart) = true) := by
  refine ⟨fun pgCnt hcnt => h.malloc_iff hbits hcur hpf hva hcnt, fun vaddr hlo hhi hkernel hfree => ?_⟩
  refine h.get_iff hcur ⟨hpf, fun hne => ?_⟩ hva hlo hhi (fun hk => (hkernel hk).2) hfree
  cases pf with
  | pfKernel => exact absurd (hkernel rfl).1 hne
  | pfUser => rfl

/-- The kernel after boot gets two pages, and one at a place of its own. -/
theorem allOrNothing_iff_boot : MallocAllOrNothing (Memory.boot 0x400000) .pfKernel 2 ∧
    GetAllOrNothing (Memory.boot 0x400000) .pfKernel 0xc0110 := by
  have hiff := @allOrNothing_iff (Memory.boot 0x400000) .pfKernel ⟨0, ⟨⟨0, Bytes.zero⟩, 0, 0⟩⟩
    (Memory.boot 0x400000).kernelVaddr memInv_boot (fun t ht hne => absurd ?_ hne) rfl nofun rfl
  · have hframes : 2 ≤ (Memory.boot 0x400000).freeFrames .pfKernel := by decide +kernel
    refine ⟨(hiff.1 2 (by decide)).mpr fun i _ => ⟨nofun, hframes⟩, ?_⟩
    refine (hiff.2 0xc0110 (by decide) (by decide) (fun _ => ⟨rfl, by decide⟩) ?_).mpr
      (Or.inl (Nat.le_of_succ_le hframes))
    exact Memory.walk_boot (by decide) (by decide)
  · obtain rfl := Option.some.inj ht
    rfl

/-- A process that asks for more pages than there are frames gets none, and its pages stay
marked. -/
theorem not_mallocAllOrNothing :
    ∃ m, Exec.Run PageCall.exec (fun m c => c.Admitted m ∧ c.TablesFit m) (Memory.boot 0x240000) m ∧
      m.RunsProcess ∧ ¬ MallocAllOrNothing m .pfUser 40 := by
  have hany : (Exec.runList PageCall.exec (fun m c => c.Asks m ∧ c.TablesFit m)
      [.processExecute, .switchTo 0xc0100] (Memory.boot 0x240000)).any (fun m =>
        decide m.RunsProcess && match mallocPage .pfUser 40 m with
          | .ok (none, m') =>
            (m'.task m.cur).any (·.userprogVaddr.vaddrBitmap.scanTest 0) &&
              !(m.task m.cur).any (·.userprogVaddr.vaddrBitmap.scanTest 0)
          | _ => false) = true := by
    decide +kernel
  obtain ⟨m, hrun, hm⟩ := Exec.Run.exists_of_any hany
  obtain ⟨hproc, hmatch⟩ := Bool.and_eq_true_iff.mp hm
  refine ⟨m, hrun.mono fun _ _ hok => ⟨hok.1.2, hok.2⟩, of_decide_eq_true hproc, fun hall => ?_⟩
  obtain ⟨r, m', hcall, hr⟩ := Exec.returns_iff.mp hall
  rw [hcall] at hmatch
  cases r with
  | some vaddr => cases hmatch
  | none =>
    have htask : m'.task = m.task := SamePages.task hr
    dsimp only at hmatch
    rw [htask, Bool.and_not_self] at hmatch
    cases hmatch

end Winx
