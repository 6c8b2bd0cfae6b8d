import Winx.Memory.KernelPages
import Winx.Memory.UserPages

/-! # Giving pages back

`mfree_page` clears the bit of the frame of each page and the present bit of its
entry, and then the bits of the range. The pages of the range end being used,
and nothing else changes.
-/

namespace Winx

/-- The pages of a range are no longer used, and their frames are free. -/
structure FreedPages (m m' : Memory) (use : ℕ → FrameUse) (vaddr cnt : ℕ) : Prop where
  keeps : KeepsDirs m m'
  cr3 : m'.cr3 = m.cr3
  cur : m'.cur = m.cur
  holds : ∀ u g, m'.Holds u g ↔ m.Holds u g ∧ ∀ v, vaddr ≤ v → v < vaddr + cnt → u ≠ use v
  alloc : ∀ pf g, m'.Allocated pf g ↔
    m.Allocated pf g ∧ ∀ v, vaddr ≤ v → v < vaddr + cnt → ¬ m.Holds (use v) g
  content : ∀ g, PlainFrame m g → m'.phys g = m.phys g

/-- The entry of a page that is used: where the active directory has it. -/
structure PageEntry (m : Memory) (u : FrameUse) (vaddr frame : ℕ) : Prop where
  lt : vaddr < 2 ^ 20
  present : entryPresent (m.phys m.cr3 (vaddr / 1024)) = true
  table : entryFrame (m.phys m.cr3 (vaddr / 1024)) = frame
  remaps : ∀ w, Remaps m (m.setWord frame (vaddr % 1024) w) u
    (if entryPresent w then some (entryFrame w) else none)
  plain : ¬ PlainFrame m frame

section Entry

variable {m m' : Memory} {vaddr frame g : ℕ} {u : FrameUse}

/-- A use has one frame. -/
theorem Memory.Holds.frame_eq {g' : ℕ} (hu : m.Holds u g) (hu' : m.Holds u g') : g = g' := by
  cases u with
  | page d v => exact Option.some.inj (hu.2.2.symm.trans hu'.2.2)
  | table d i => exact hu.2.2.2.symm.trans hu'.2.2.2
  | kernelPage v => exact Option.some.inj (hu.2.2.symm.trans hu'.2.2)

theorem PageInv.pageEntry_user (h : PageInv m) (hu : m.Holds (.page m.cr3 vaddr) g) :
    PageEntry m (.page m.cr3 vaddr) vaddr (entryFrame (m.phys m.cr3 (vaddr / 1024))) := by
  obtain ⟨hdir, hv, hwalk⟩ := hu
  obtain ⟨hp, -, -⟩ := Memory.walk_eq_some.mp hwalk
  refine ⟨lt_trans hv (by decide), hp, rfl, h.remaps_user hdir hv hp, fun hplain => ?_⟩
  unfold kernelBase at hv
  exact hplain.table m.cr3 (vaddr / 1024) ⟨hdir, by omega, hp, rfl⟩

theorem PageInv.pageEntry_kernel (h : PageInv m) (hu : m.Holds (.kernelPage vaddr) g)
    (hnot : ¬ m.IsTaskPage vaddr) :
    PageEntry m (.kernelPage vaddr) vaddr (0x101 + (vaddr / 1024 - 768)) := by
  obtain ⟨hlo, hhi, -⟩ := hu
  obtain ⟨hp, hframe⟩ := h.kernel_frame (kernelBase_le_of_heap hlo) hhi
  refine ⟨lt_trans hhi (by decide), hp, hframe, h.remaps_kernel hlo hhi hnot, fun hplain => ?_⟩
  have := hplain.low
  unfold pteBase at hhi
  omega

/-- The pool that `pfree` gives a frame in use back to. -/
theorem PageInv.pfree_pool (h : PageInv m) (hu : m.Holds u g) :
    (if m.userPool.phyAddrStart ≤ g then PoolFlags.pfUser else .pfKernel) = u.pool := by
  obtain ⟨hlo, hhi, -⟩ := h.alloc u g hu
  have := h.layout.userPool
  cases hpf : u.pool <;> rw [hpf] at hlo hhi <;> simp only [Memory.pool] at hlo hhi
  · rw [if_neg (by omega)]
  · rw [if_pos hlo]

theorem Memory.setPoolBitmap_setWord (pf : PoolFlags) (b : Bitmap) (i : ℕ) (w : UInt32) :
    (m.setPoolBitmap pf b).setWord frame i w = (m.setWord frame i w).setPoolBitmap pf b := by
  cases pf <;> rfl

theorem Memory.sameUses_setPoolBitmap (pf : PoolFlags) {b : Bitmap}
    (hlen : b.btmpBytesLen = (m.pool pf).poolBitmap.btmpBytesLen) :
    SameUses m (m.setPoolBitmap pf b) := by
  refine .of_phys (setPoolBitmap_phys b) (fun _ => by rw [setPoolBitmap_task])
    (fun _ => setPoolBitmap_start b) (fun pf' => ?_) (by rw [setPoolBitmap_kernelVaddr])
    (by rw [setPoolBitmap_kernelVaddr])
  rw [setPoolBitmap_poolBitmap]
  split
  · rename_i heq
    rw [heq, hlen]
  · rfl

/-- The memory after one turn of the loops of `mfree_page`. -/
def Memory.dropPage (m : Memory) (u : FrameUse) (vaddr frame g : ℕ) : Memory :=
  (m.setPoolBitmap u.pool
    ((m.pool u.pool).poolBitmap.set (g - (m.pool u.pool).phyAddrStart) false)).setWord frame
    (vaddr % 1024) (m.phys frame (vaddr % 1024) &&& ~~~1)

theorem PageInv.dropPage (h : PageInv m) (hu : m.Holds u g) (he : PageEntry m u vaddr frame) :
    PageInv (m.dropPage u vaddr frame g) ∧
      FreedPages m (m.dropPage u vaddr frame g) (fun _ => u) vaddr 1 := by
  have hremap := he.remaps (m.phys frame (vaddr % 1024) &&& ~~~1)
  rw [entryPresent_remove, if_neg Bool.false_ne_true] at hremap
  have hlen : ((m.pool u.pool).poolBitmap.set (g - (m.pool u.pool).phyAddrStart) false).btmpBytesLen =
      (m.pool u.pool).poolBitmap.btmpBytesLen := Bitmap.set_btmpBytesLen _
  have hs := Memory.sameUses_setPoolBitmap
    (m := m.setWord frame (vaddr % 1024) (m.phys frame (vaddr % 1024) &&& ~~~1)) u.pool hlen
  have hremap' : Remaps m (m.dropPage u vaddr frame g) u none := by
    refine ⟨?_, fun w g => ?_⟩
    · rw [Memory.dropPage, Memory.setPoolBitmap_setWord]
      exact hremap.keeps.trans hs.keeps
    · rw [Memory.dropPage, Memory.setPoolBitmap_setWord, hs.holds]
      exact hremap.holds w g
  have hbit (pf : PoolFlags) (i : ℕ) :
      ((m.dropPage u vaddr frame g).pool pf).poolBitmap.scanTest i =
        if pf = u.pool ∧ i = g - (m.pool u.pool).phyAddrStart then false
        else (m.pool pf).poolBitmap.scanTest i := by
    have hpool : (m.dropPage u vaddr frame g).pool pf = (m.setPoolBitmap u.pool
        ((m.pool u.pool).poolBitmap.set (g - (m.pool u.pool).phyAddrStart) false)).pool pf := by
      cases pf <;> rfl
    rw [hpool, Memory.setPoolBitmap_poolBitmap]
    by_cases hpf : pf = u.pool
    · subst hpf
      simp only [if_true, true_and, Bitmap.scanTest_set]
    · rw [if_neg hpf, if_neg fun hc => hpf hc.1]
  have hcr3 : (m.dropPage u vaddr frame g).cr3 = m.cr3 := Memory.setPoolBitmap_cr3 _
  have hvaddr : (m.dropPage u vaddr frame g).kernelVaddr = m.kernelVaddr :=
    Memory.setPoolBitmap_kernelVaddr _
  have hown := h.alloc u g hu
  refine ⟨h.of_release hu hremap' hcr3 (fun pf i hi hne => ?_) fun i hi => ?_, hremap'.keeps, hcr3,
    Memory.setPoolBitmap_cur _, fun w g' => ?_, fun pf g' => ?_, fun g' hplain => ?_⟩
  · rw [hbit, if_neg (by tauto)]
    exact hi
  · rw [hvaddr]
    exact hi
  · rw [hremap'.holds]
    by_cases heq : w = u
    · subst heq
      simp only [if_true, reduceCtorEq, false_iff, not_and, not_forall]
      exact fun _ => ⟨vaddr, le_rfl, by omega, fun hc => hc rfl⟩
    · rw [if_neg heq]
      exact ⟨fun hw => ⟨hw, fun _ _ _ => heq⟩, fun hw => hw.1⟩
  · unfold Memory.Allocated
    rw [hremap'.keeps.start, hremap'.keeps.len, hbit]
    constructor
    · rintro ⟨hlo, hhi, hset⟩
      split at hset
      · cases hset
      · rename_i hne
        refine ⟨⟨hlo, hhi, hset⟩, fun v _ _ hu' => ?_⟩
        obtain rfl := hu.frame_eq hu'
        obtain rfl := h.layout.pool_eq ⟨hlo, hhi, hset⟩ hown
        exact hne ⟨rfl, rfl⟩
    · rintro ⟨⟨hlo, hhi, hset⟩, hnot⟩
      refine ⟨hlo, hhi, ?_⟩
      rw [if_neg, hset]
      rintro ⟨rfl, heq⟩
      have hge := hown.1
      obtain rfl : g' = g := by omega
      exact hnot vaddr le_rfl (by omega) hu
  · have hne : g' ≠ frame := by
      rintro rfl
      exact he.plain hplain
    rw [Memory.dropPage, Memory.setWord, Memory.setFrame_phys, Function.update_of_ne hne,
      Memory.setPoolBitmap_phys]

/-- One turn of the loops of `mfree_page`. -/
theorem unmapPage_spec (h : PageInv m) (hu : m.Holds u g) (he : PageEntry m u vaddr frame)
    (hg : entryFrame (m.phys frame (vaddr % 1024)) = g) {isUser : Bool}
    (hpool : u.pool = if isUser then .pfUser else .pfKernel) :
    Exec.Returns (do
      let frame ← addrV2p vaddr
      let m ← get
      assert (if isUser then m.userPool.phyAddrStart ≤ frame
        else m.kernelPool.phyAddrStart ≤ frame ∧ frame < m.userPool.phyAddrStart)
      pfree frame
      pageTablePteRemove vaddr : MemM Unit) m fun _ m' => m' = m.dropPage u vaddr frame g := by
  obtain ⟨hlo, hhi, hbit⟩ := h.alloc u g hu
  have hstart := h.layout.userPool
  have hassert : if isUser then m.userPool.phyAddrStart ≤ g
      else m.kernelPool.phyAddrStart ≤ g ∧ g < m.userPool.phyAddrStart := by
    cases isUser <;> rw [hpool] at hlo hhi <;>
      simp only [Memory.pool, if_true, Bool.false_eq_true, if_false] at hlo hhi ⊢
    · omega
    · exact hlo
  have hs : SelfMapped (m.setPoolBitmap u.pool
      ((m.pool u.pool).poolBitmap.set (g - (m.pool u.pool).phyAddrStart) false)) := by
    refine ⟨?_, ?_⟩
    · rw [Memory.setPoolBitmap_phys, Memory.setPoolBitmap_cr3]
      exact h.selfMapped.self
    · rw [Memory.setPoolBitmap_cr3]
      exact h.selfMapped.lt
  simp only [addrV2p, pfree, pageTablePteRemove, Exec.post_bind, Exec.post_pure, Exec.post_get,
    h.selfMapped.post_load_ptePtr he.lt, he.present, he.table, hg, true_implies, post_assert,
    hassert, not_true_eq_false, false_implies, and_true, h.pfree_pool hu, post_inBounds,
    Exec.post_set, hs.post_load_ptePtr he.lt, hs.post_store_ptePtr he.lt,
    Memory.setPoolBitmap_phys, Memory.setPoolBitmap_cr3]
  exact ⟨fun _ => rfl, fun hnot => hnot ⟨hlo, hhi⟩⟩

end Entry

/-- What the frame of a page is used for: a page of a process or of the kernel. -/
def pageUse (dir : ℕ) : PoolFlags → ℕ → FrameUse
  | .pfKernel, vaddr => .kernelPage vaddr
  | .pfUser, vaddr => .page dir vaddr

theorem pageUse_pool (dir : ℕ) (pf : PoolFlags) (v : ℕ) : (pageUse dir pf v).pool = pf := by
  cases pf <;> rfl

theorem pageUse_inj {dir v w : ℕ} {pf : PoolFlags} : pageUse dir pf v = pageUse dir pf w ↔ v = w := by
  cases pf <;> simp [pageUse]

/-- A range of mapped pages of the active directory, or of the kernel heap without the pages of
threads. -/
def Memory.Mapped (m : Memory) (pf : PoolFlags) (vaddr cnt : ℕ) : Prop :=
  ∀ v, vaddr ≤ v → v < vaddr + cnt →
    (∃ g, m.Holds (pageUse m.cr3 pf v) g) ∧ (pf = .pfKernel → ¬ m.IsTaskPage v)

section Free

variable {m m' m'' : Memory} {use : ℕ → FrameUse} {vaddr cnt frame : ℕ} {pf : PoolFlags}

theorem FreedPages.refl (m : Memory) (use : ℕ → FrameUse) (vaddr : ℕ) : FreedPages m m use vaddr 0 := by
  refine ⟨(SameUses.of_phys rfl (fun _ => rfl) (fun _ => rfl) (fun _ => rfl) rfl rfl).keeps, rfl, rfl,
    fun u g => ?_, fun pf g => ?_, fun _ _ => rfl⟩
  · exact ⟨fun hu => ⟨hu, fun v hlo hhi => by omega⟩, And.left⟩
  · exact ⟨fun hg => ⟨hg, fun v hlo hhi => by omega⟩, And.left⟩

theorem FreedPages.plain (h : FreedPages m m' use vaddr cnt) (hg : PlainFrame m frame) :
    PlainFrame m' frame :=
  ⟨hg.low, fun hdir => hg.dir (h.keeps.isProcDir.mp hdir),
    fun d i ht => hg.table d i ((h.holds _ _).mp ht).1⟩

/-- A range and then one page more. -/
theorem FreedPages.snoc (h : FreedPages m m' use vaddr cnt)
    (h' : FreedPages m' m'' (fun _ => use (vaddr + cnt)) (vaddr + cnt) 1)
    (hinj : ∀ v, v ≠ vaddr + cnt → use (vaddr + cnt) ≠ use v) :
    FreedPages m m'' use vaddr (cnt + 1) := by
  refine ⟨h.keeps.trans h'.keeps, h'.cr3.trans h.cr3, h'.cur.trans h.cur, fun u g => ?_,
    fun pf g => ?_, fun g hg => (h'.content g (h.plain hg)).trans (h.content g hg)⟩
  · rw [h'.holds, h.holds]
    constructor
    · rintro ⟨⟨hu, hne⟩, hlast⟩
      refine ⟨hu, fun v hlo hhi => ?_⟩
      rcases Nat.eq_or_lt_of_le (Nat.le_of_lt_succ hhi) with heq | hlt
      · exact (show v = vaddr + cnt by omega) ▸ hlast (vaddr + cnt) le_rfl (by omega)
      · exact hne v hlo (by omega)
    · rintro ⟨hu, hne⟩
      exact ⟨⟨hu, fun v hlo hhi => hne v hlo (by omega)⟩,
        fun v _ _ => hne (vaddr + cnt) (by omega) (by omega)⟩
  · rw [h'.alloc, h.alloc]
    constructor
    · rintro ⟨⟨hg, hne⟩, hlast⟩
      refine ⟨hg, fun v hlo hhi hu => ?_⟩
      rcases Nat.lt_or_ge v (vaddr + cnt) with hlt | hge
      · exact hne v hlo hlt hu
      · obtain rfl : v = vaddr + cnt := by omega
        exact hlast (vaddr + cnt) le_rfl (by omega)
          ((h.holds _ g).mpr ⟨hu, fun v _ hhi' => hinj v (by omega)⟩)
    · rintro ⟨hg, hne⟩
      exact ⟨⟨hg, fun v hlo hhi => hne v hlo (by omega)⟩,
        fun v _ _ hu => hne (vaddr + cnt) (by omega) (by omega) ((h.holds _ g).mp hu).1⟩

/-- The loops of `mfree_page`. -/
theorem unmapPages_spec (h : PageInv m) (hmapped : m.Mapped pf vaddr cnt) :
    Exec.Returns (unmapPages (pf = .pfUser) vaddr cnt) m fun _ m' =>
      PageInv m' ∧ FreedPages m m' (pageUse m.cr3 pf) vaddr cnt ∧ m'.task = m.task ∧
        m'.kernelVaddr = m.kernelVaddr := by
  induction cnt with
  | zero => exact ⟨h, .refl m _ vaddr, rfl, rfl⟩
  | succ cnt ih =>
    refine (ih fun v hlo hhi => hmapped v hlo (by omega)).bind
      fun _ m' ⟨h', hfreed, htask, hvaddr⟩ => ?_
    obtain ⟨⟨g, hg⟩, hnot⟩ := hmapped (vaddr + cnt) (by omega) (by omega)
    have hne (v : ℕ) (hv : v ≠ vaddr + cnt) :
        pageUse m.cr3 pf (vaddr + cnt) ≠ pageUse m.cr3 pf v := fun heq => hv (pageUse_inj.mp heq).symm
    have hg' : m'.Holds (pageUse m.cr3 pf (vaddr + cnt)) g :=
      (hfreed.holds _ g).mpr ⟨hg, fun v _ hhi => hne v (by omega)⟩
    have hentry : ∃ frame, PageEntry m' (pageUse m.cr3 pf (vaddr + cnt)) (vaddr + cnt) frame ∧
        entryFrame (m'.phys frame ((vaddr + cnt) % 1024)) = g := by
      cases pf with
      | pfUser =>
        have hu : m'.Holds (.page m'.cr3 (vaddr + cnt)) g := by
          rw [hfreed.cr3]
          exact hg'
        refine ⟨_, ?_, (Memory.walk_eq_some.mp hu.2.2).2.2⟩
        have hentry := h'.pageEntry_user hu
        simpa only [pageUse, hfreed.cr3] using hentry
      | pfKernel =>
        have hentry := h'.pageEntry_kernel hg' fun htask =>
          hnot rfl (hfreed.keeps.isTaskPage.mp htask)
        refine ⟨_, hentry, ?_⟩
        have hwalk : m'.walk m'.cr3 (vaddr + cnt) = some g := by
          rw [h'.walk_kernel (kernelBase_le_of_heap hg'.1) hg'.2.1, hg'.2.2]
        rw [← hentry.table]
        exact (Memory.walk_eq_some.mp hwalk).2.2
    obtain ⟨frame, he, hframe⟩ := hentry
    refine Exec.Returns.post (unmapPage_spec h' hg' he hframe ?_) fun _ m'' heq => ?_
    · cases pf <;> rfl
    · subst heq
      obtain ⟨h'', hdrop⟩ := h'.dropPage hg' he
      exact ⟨h'', hfreed.snoc hdrop hne, (Memory.setPoolBitmap_task _).trans htask,
        (Memory.setPoolBitmap_kernelVaddr _).trans hvaddr⟩

/-- The bits of the kernel heap may change where no page is used. -/
theorem PageInv.of_kernelBitmap (h : PageInv m) {b : Bitmap}
    (hlen : b.btmpBytesLen = m.kernelVaddr.vaddrBitmap.btmpBytesLen)
    (hbits : ∀ v g, m.Holds (.kernelPage v) g → b.scanTest (v - kHeapStart) = true) :
    PageInv (m.setKernelBitmap b) ∧ SameUses m (m.setKernelBitmap b) := by
  have hsame : SameUses m (m.setKernelBitmap b) :=
    .of_phys rfl (fun _ => rfl) (fun pf => by cases pf <;> rfl) (fun pf => by cases pf <;> rfl) rfl hlen
  refine ⟨h.of_keepsDirs hsame.keeps rfl (fun u g hu => ?_)
    (h.unique.mono fun u g => (hsame.holds u g).mp) fun v g hv => ?_, hsame⟩
  · have hown := h.alloc u g ((hsame.holds u g).mp hu)
    exact hown.of_scanTest (hsame.keeps.start _) (hsame.keeps.len _) fun i hi => by
      cases hpf : u.pool <;> rw [hpf] at hi <;> exact hi
  · have hv' := (hsame.holds _ g).mp hv
    exact ⟨(h.bits v g hv').1, hbits v g hv'⟩

/-- The uses after the bits of the range were changed too. -/
theorem FreedPages.of_same (h : FreedPages m m' use vaddr cnt) (hs : SameUses m' m'')
    (hphys : m''.phys = m'.phys) (hpool : m''.pool = m'.pool) (hcr3 : m''.cr3 = m'.cr3)
    (hcur : m''.cur = m'.cur) : FreedPages m m'' use vaddr cnt := by
  refine ⟨h.keeps.trans hs.keeps, hcr3.trans h.cr3, hcur.trans h.cur,
    fun u g => (hs.holds u g).trans (h.holds u g), fun pf g => ?_, fun g hg => ?_⟩
  · rw [← h.alloc]
    unfold Memory.Allocated
    rw [hpool]
  · rw [hphys, h.content g hg]

/-- `mfree_page` of pages of the kernel heap. -/
theorem mfreePage_kernel (h : PageInv m) (hcnt : 1 ≤ cnt) (hmapped : m.Mapped .pfKernel vaddr cnt) :
    Exec.Returns (mfreePage .pfKernel vaddr cnt) m fun _ m' => PageInv m' ∧
      FreedPages m m' (pageUse m.cr3 .pfKernel) vaddr cnt ∧ m'.task = m.task ∧
      m'.kernelVaddr.vaddrBitmap =
        m.kernelVaddr.vaddrBitmap.setRun (vaddr - kHeapStart) false cnt := by
  obtain ⟨⟨g, hg⟩, hnot⟩ := hmapped vaddr le_rfl (by omega)
  have hentry := h.pageEntry_kernel hg (hnot rfl)
  have hwalk : m.walk m.cr3 vaddr = some g := by
    rw [h.walk_kernel (kernelBase_le_of_heap hg.1) hg.2.1, hg.2.2]
  have hframe := (Memory.walk_eq_some.mp hwalk).2.2
  have hpf := h.pfree_pool hg
  have huser : ¬ m.userPool.phyAddrStart ≤ g := fun hle => by
    rw [if_pos hle] at hpf
    cases hpf
  have hbound := (h.holds_bounds hg).1
  simp only [mfreePage, addrV2p, Exec.post_bind, Exec.post_pure, Exec.post_get, post_assert, hcnt,
    h.selfMapped.post_load_ptePtr hentry.lt, hentry.present, hframe, true_implies,
    not_true_eq_false, false_implies, and_true]
  refine ⟨fun _ => ?_, fun hlow => absurd hlow (by omega)⟩
  have hloop := unmapPages_spec h hmapped
  rw [show decide (PoolFlags.pfKernel = .pfUser) = decide (m.userPool.phyAddrStart ≤ g) by
    rw [decide_eq_false huser]; rfl] at hloop
  refine Exec.Returns.post hloop fun _ m' hpost => ?_
  obtain ⟨h', hfreed, htask, hvaddr⟩ := hpost
  have hlast := (hmapped (vaddr + cnt - 1) (by omega) (by omega)).1
  obtain ⟨g', hg'⟩ := hlast
  have hbits := (h.bits _ _ hg').1
  have hlo := hg.1
  simp only [vaddrRemove, Exec.post_bind, Exec.post_get, post_inBounds, Exec.post_set, hvaddr,
    h.layout.vaddrStart]
  refine ⟨fun _ => ?_, fun hout => hout ⟨hlo, by omega⟩⟩
  have hrest : ∀ v g, m'.Holds (.kernelPage v) g →
      (m.kernelVaddr.vaddrBitmap.setRun (vaddr - kHeapStart) false cnt).scanTest
        (v - kHeapStart) = true := by
    intro v g hv
    obtain ⟨hv, hout⟩ := (hfreed.holds _ g).mp hv
    have hset := (h.bits v g hv).2
    have hge := hv.1
    rw [Bitmap.scanTest_setRun, if_neg, hset]
    rintro ⟨hlo', hhi'⟩
    exact hout v (by omega) (by omega) rfl
  obtain ⟨h'', hs⟩ := h'.of_kernelBitmap (by rw [Bitmap.setRun_btmpBytesLen, hvaddr]) hrest
  refine ⟨h'', hfreed.of_same hs rfl ?_ rfl rfl, htask, rfl⟩
  funext pf
  cases pf <;> rfl

/-- `mfree_page` of pages of the running process. -/
theorem mfreePage_user {t : MemTask} (h : PageInv m) (hcnt : 1 ≤ cnt)
    (hcur : m.task m.cur = some t) (hmapped : m.Mapped .pfUser vaddr cnt) :
    Exec.Ensures (mfreePage .pfUser vaddr cnt) m fun _ m' => PageInv m' ∧
      FreedPages m m' (pageUse m.cr3 .pfUser) vaddr cnt ∧ t.userprogVaddr.vaddrStart ≤ vaddr ∧
      m'.kernelVaddr = m.kernelVaddr ∧
      m'.task = Function.update m.task m.cur (some (t.setBitmap (t.userprogVaddr.vaddrBitmap.setRun
        (vaddr - t.userprogVaddr.vaddrStart) false cnt))) := by
  obtain ⟨⟨g, hg⟩, -⟩ := hmapped vaddr le_rfl (by omega)
  have hentry := h.pageEntry_user hg
  have hframe := (Memory.walk_eq_some.mp hg.2.2).2.2
  have hpf := h.pfree_pool hg
  have huser : m.userPool.phyAddrStart ≤ g := by
    by_contra hnot
    rw [if_neg hnot] at hpf
    cases hpf
  simp only [mfreePage, addrV2p, Exec.post_bind, Exec.post_pure, Exec.post_get, post_assert, hcnt,
    h.selfMapped.post_load_ptePtr hentry.lt, hentry.present, hframe, true_implies,
    not_true_eq_false, and_true, implies_true]
  refine fun _ => ?_
  have hloop := unmapPages_spec h hmapped
  rw [show decide (PoolFlags.pfUser = .pfUser) = decide (m.userPool.phyAddrStart ≤ g) by
    rw [decide_eq_true huser]; rfl] at hloop
  refine Exec.Returns.post hloop fun _ m' hpost => ?_
  obtain ⟨h', hfreed, htask, hvaddr⟩ := hpost
  have hcur' : m'.task m'.cur = some t := by
    rw [htask, hfreed.cur, hcur]
  simp only [vaddrRemove, curTask, storeTask, Exec.post_bind, Exec.post_get, post_deref, hcur',
    Option.some.injEq, forall_eq', post_inBounds, Exec.post_modify, and_true, implies_true]
  rintro ⟨hlo, -⟩
  have hs : SameUses m' (m'.setTask m'.cur (some (t.setBitmap (t.userprogVaddr.vaddrBitmap.setRun
      (vaddr - t.userprogVaddr.vaddrStart) false cnt)))) := Memory.sameUses_setTask hcur' rfl
  refine ⟨h'.setTask hcur' rfl, hfreed.of_same hs rfl rfl rfl rfl, hlo, hvaddr, ?_⟩
  rw [Memory.setTask_task, htask, hfreed.cur]

end Free

end Winx
