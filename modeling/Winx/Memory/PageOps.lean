import Winx.Memory.Frames

/-! # The code on page tables

What loads and stores through the last entry of the active directory reach, and
what allocating a frame and adding a page to the page tables do to the uses of
frames.
-/

namespace Winx

/-- The last entry of the active directory is the directory. -/
structure SelfMapped (m : Memory) : Prop where
  self : m.phys m.cr3 1023 = entry m.cr3
  lt : m.cr3 < 2 ^ 20

theorem PageInv.selfMapped {m : Memory} (h : PageInv m) : SelfMapped m := by
  rcases h.cr3 with heq | hproc
  · refine ⟨?_, ?_⟩
    · rw [heq]
      exact h.layout.bootSelf
    · rw [heq]
      decide
  · exact ⟨h.self _ hproc, (h.procDir_bounds hproc).2⟩

/-- The frame that `palloc` returns. -/
def Memory.nextFrame (m : Memory) (pf : PoolFlags) : Option ℕ :=
  ((m.pool pf).poolBitmap.scan 1).map ((m.pool pf).phyAddrStart + ·)

/-- The memory after `palloc`. -/
def Memory.takeFrame (m : Memory) (pf : PoolFlags) : Memory :=
  match (m.pool pf).poolBitmap.scan 1 with
  | none => m
  | some bitIdx => m.setPoolBitmap pf ((m.pool pf).poolBitmap.set bitIdx true)

section Pools

variable {m : Memory} {pf pf' : PoolFlags} {frame i : ℕ}

@[simp] theorem Memory.setPoolBitmap_phys (b : Bitmap) : (m.setPoolBitmap pf b).phys = m.phys := by
  cases pf <;> rfl

@[simp] theorem Memory.setPoolBitmap_cr3 (b : Bitmap) : (m.setPoolBitmap pf b).cr3 = m.cr3 := by
  cases pf <;> rfl

@[simp] theorem Memory.setPoolBitmap_task (b : Bitmap) : (m.setPoolBitmap pf b).task = m.task := by
  cases pf <;> rfl

@[simp] theorem Memory.setPoolBitmap_cur (b : Bitmap) : (m.setPoolBitmap pf b).cur = m.cur := by
  cases pf <;> rfl

@[simp] theorem Memory.setPoolBitmap_kernelVaddr (b : Bitmap) :
    (m.setPoolBitmap pf b).kernelVaddr = m.kernelVaddr := by
  cases pf <;> rfl

@[simp] theorem Memory.setPoolBitmap_start (b : Bitmap) :
    ((m.setPoolBitmap pf b).pool pf').phyAddrStart = (m.pool pf').phyAddrStart := by
  cases pf <;> cases pf' <;> rfl

theorem Memory.setPoolBitmap_poolBitmap (b : Bitmap) :
    ((m.setPoolBitmap pf b).pool pf').poolBitmap = if pf' = pf then b else (m.pool pf').poolBitmap := by
  cases pf <;> cases pf' <;> rfl

@[simp] theorem Memory.takeFrame_phys : (m.takeFrame pf).phys = m.phys := by
  unfold takeFrame
  split <;> simp

@[simp] theorem Memory.takeFrame_cr3 : (m.takeFrame pf).cr3 = m.cr3 := by
  unfold takeFrame
  split <;> simp

@[simp] theorem Memory.takeFrame_task : (m.takeFrame pf).task = m.task := by
  unfold takeFrame
  split <;> simp

@[simp] theorem Memory.takeFrame_cur : (m.takeFrame pf).cur = m.cur := by
  unfold takeFrame
  split <;> simp

@[simp] theorem Memory.takeFrame_kernelVaddr : (m.takeFrame pf).kernelVaddr = m.kernelVaddr := by
  unfold takeFrame
  split <;> simp

@[simp] theorem Memory.takeFrame_start :
    ((m.takeFrame pf).pool pf').phyAddrStart = (m.pool pf').phyAddrStart := by
  unfold takeFrame
  split <;> simp

@[simp] theorem Memory.takeFrame_len : ((m.takeFrame pf).pool pf').poolBitmap.btmpBytesLen =
    (m.pool pf').poolBitmap.btmpBytesLen := by
  unfold takeFrame
  split
  · rfl
  · rw [setPoolBitmap_poolBitmap]
    split
    · rename_i heq
      rw [heq, Bitmap.set_btmpBytesLen]
    · rfl

theorem Memory.takeFrame_eq_self (hnone : m.nextFrame pf = none) :
    m.takeFrame pf = m := by
  unfold takeFrame
  rw [Option.map_eq_none_iff.mp hnone]

/-- `palloc` clears no bit. -/
theorem Memory.takeFrame_scanTest (h : (m.pool pf').poolBitmap.scanTest i = true) :
    ((m.takeFrame pf).pool pf').poolBitmap.scanTest i = true := by
  unfold takeFrame
  split
  · exact h
  · rw [setPoolBitmap_poolBitmap]
    split
    · rename_i heq
      rw [Bitmap.scanTest_set, ← heq, h, ite_self]
    · exact h

@[simp] theorem post_palloc {Q : Option ℕ → Memory → Prop} {E : Fault → Prop} :
    Exec.Post (palloc pf) m Q E ↔ Q (m.nextFrame pf) (m.takeFrame pf) := by
  simp only [palloc, Exec.post_bind, Exec.post_get, Memory.nextFrame, Memory.takeFrame]
  cases (m.pool pf).poolBitmap.scan 1 with
  | none => rfl
  | some bitIdx => simp

theorem Memory.sameUses_takeFrame : SameUses m (m.takeFrame pf) :=
  .of_phys takeFrame_phys (fun _ => by rw [takeFrame_task]) (fun _ => takeFrame_start) (fun _ => takeFrame_len)
    (by rw [takeFrame_kernelVaddr]) (by rw [takeFrame_kernelVaddr])

theorem PageInv.takeFrame (h : PageInv m) : PageInv (m.takeFrame pf) :=
  h.of_sameUses Memory.sameUses_takeFrame Memory.takeFrame_cr3
    (fun _ _ hi => Memory.takeFrame_scanTest hi) fun _ hi => by rwa [Memory.takeFrame_kernelVaddr]

/-- The frame that `palloc` returns is not used for anything. -/
theorem PageInv.not_holds_nextFrame (h : PageInv m) (hf : m.nextFrame pf = some frame)
    (u : FrameUse) : ¬ m.Holds u frame := by
  intro hu
  obtain ⟨bitIdx, hscan, rfl⟩ := Option.map_eq_some_iff.mp hf
  obtain ⟨hlt, hclear, -⟩ := Bitmap.scan_one_eq_some_iff.mp hscan
  have hown := h.alloc u _ hu
  have hpf : u.pool = pf := by
    have h1 := h.layout.userPool
    have h2 := hown.1
    have h3 := hown.2.1
    cases hu' : u.pool <;> cases pf <;> simp only [hu', Memory.pool] at h2 h3 hlt <;>
      first | rfl | omega
  obtain ⟨-, -, hbit⟩ := hown
  rw [hpf, Nat.add_sub_cancel_left, hclear] at hbit
  cases hbit

theorem PageInv.fresh_nextFrame (h : PageInv m) (hf : m.nextFrame pf = some frame) :
    (m.takeFrame pf).Fresh pf frame := by
  refine ⟨?_, fun u hu => h.not_holds_nextFrame hf u ((Memory.sameUses_takeFrame.holds u _).mp hu)⟩
  obtain ⟨bitIdx, hscan, rfl⟩ := Option.map_eq_some_iff.mp hf
  obtain ⟨hlt, -, -⟩ := Bitmap.scan_one_eq_some_iff.mp hscan
  unfold Memory.Allocated
  rw [Memory.takeFrame_start, Memory.takeFrame_len, Nat.add_sub_cancel_left]
  refine ⟨Nat.le_add_right _ _, hlt, ?_⟩
  unfold Memory.takeFrame
  rw [hscan]
  dsimp only
  rw [Memory.setPoolBitmap_poolBitmap, if_pos rfl, Bitmap.scanTest_set, if_pos rfl]

/-- A step that clears no bit. -/
theorem Memory.Allocated.of_scanTest {m' : Memory} (h : m.Allocated pf frame)
    (hstart : (m'.pool pf).phyAddrStart = (m.pool pf).phyAddrStart)
    (hlen : (m'.pool pf).poolBitmap.btmpBytesLen = (m.pool pf).poolBitmap.btmpBytesLen)
    (hbit : ∀ i, (m.pool pf).poolBitmap.scanTest i = true →
      (m'.pool pf).poolBitmap.scanTest i = true) : m'.Allocated pf frame := by
  unfold Memory.Allocated
  rw [hstart, hlen]
  exact ⟨h.1, h.2.1, hbit _ h.2.2⟩

/-- A frame that was allocated is not the one that `palloc` returns. -/
theorem Memory.nextFrame_ne (hl : PageLayout m)
    (hf : m.nextFrame pf = some frame) {g : ℕ} (hg : m.Allocated pf' g) : g ≠ frame := by
  rintro rfl
  obtain ⟨bitIdx, hscan, rfl⟩ := Option.map_eq_some_iff.mp hf
  obtain ⟨hlt, hclear, -⟩ := Bitmap.scan_one_eq_some_iff.mp hscan
  have hpf : pf' = pf := by
    have h1 := hl.userPool
    have h2 := hg.1
    have h3 := hg.2.1
    cases pf' <;> cases pf <;> simp only [Memory.pool] at h2 h3 hlt <;> first | rfl | omega
  obtain ⟨-, -, hbit⟩ := hg
  rw [hpf, Nat.add_sub_cancel_left, hclear] at hbit
  cases hbit

/-- How many frames of a pool are free. -/
def Memory.freeFrames (m : Memory) (pf : PoolFlags) : ℕ := (m.pool pf).poolBitmap.freeCnt

theorem Memory.nextFrame_eq_none : m.nextFrame pf = none ↔ m.freeFrames pf = 0 := by
  rw [nextFrame, Option.map_eq_none_iff, Bitmap.scan_one_eq_none_iff_freeCnt]
  rfl

theorem Memory.freeFrames_takeFrame (hf : m.nextFrame pf = some frame) :
    (m.takeFrame pf).freeFrames pf' + (if pf' = pf then 1 else 0) = m.freeFrames pf' := by
  obtain ⟨bitIdx, hscan, rfl⟩ := Option.map_eq_some_iff.mp hf
  obtain ⟨hlt, hclear, -⟩ := Bitmap.scan_one_eq_some_iff.mp hscan
  unfold takeFrame freeFrames
  rw [hscan]
  dsimp only
  rw [setPoolBitmap_poolBitmap]
  split
  · rename_i heq
    rw [heq]
    exact Bitmap.freeCnt_set hlt hclear
  · rfl

/-- Mapping a page at a given place is one turn of the loop of `malloc_page`. -/
theorem post_getAPageWithoutOpvaddrbitmap {vaddr : ℕ} {Q : Option ℕ → Memory → Prop}
    {E : Fault → Prop} : Exec.Post (getAPageWithoutOpvaddrbitmap pf vaddr) m Q E ↔
      Exec.Post (mapPages pf vaddr 1) m (fun r => Q (if r then some vaddr else none)) E := by
  simp only [getAPageWithoutOpvaddrbitmap, mapPages, Exec.post_bind, post_palloc]
  cases m.nextFrame pf with
  | none => rfl
  | some frame => simp only [Exec.post_bind, Exec.post_pure, if_true]

end Pools

/-- A page table of the active directory, with nothing in it. -/
def Memory.addTable (m : Memory) (i r : ℕ) : Memory :=
  ((m.takeFrame .pfKernel).setWord m.cr3 i (entry r)).setFrame r fun _ => 0

section Access

variable {m : Memory} {vaddr : ℕ} {w : UInt32} {E : Fault → Prop}

/-- The pages above `0xffc00000` are the page tables. -/
theorem SelfMapped.walk_pteBase (hs : SelfMapped m) {i : ℕ} (hi : i < 1024) :
    m.walk m.cr3 (pteBase + i) =
      if entryPresent (m.phys m.cr3 i) then some (entryFrame (m.phys m.cr3 i)) else none := by
  have hdiv : (pteBase + i) / 1024 = 1023 := by
    unfold pteBase
    omega
  have hmod : (pteBase + i) % 1024 = i := by
    unfold pteBase
    omega
  unfold Memory.walk
  dsimp only
  rw [hdiv, hmod, hs.self, entryPresent_entry, if_pos rfl, entryFrame_entry hs.lt]

theorem SelfMapped.post_load_pdePtr (hs : SelfMapped m) (hv : vaddr < 2 ^ 20)
    {Q : UInt32 → Memory → Prop} :
    Exec.Post (load (pdePtr vaddr)) m Q E ↔ Q (m.phys m.cr3 (vaddr / 1024)) m := by
  have hpage : pdePtr vaddr / 1024 = pteBase + 1023 := by
    unfold pdePtr pteBase
    omega
  have hidx : pdePtr vaddr % 1024 = vaddr / 1024 := by
    unfold pdePtr
    omega
  have hwalk : m.walk m.cr3 (pdePtr vaddr / 1024) = some m.cr3 := by
    rw [hpage, hs.walk_pteBase (by decide), hs.self, entryPresent_entry, if_pos rfl,
      entryFrame_entry hs.lt]
  simp only [load, translate, Exec.post_bind, Exec.post_get, post_deref, hwalk, Option.some.injEq,
    forall_eq', Exec.post_pure, hidx, reduceCtorEq, false_implies, and_true]

theorem SelfMapped.post_store_pdePtr (hs : SelfMapped m) (hv : vaddr < 2 ^ 20)
    {Q : Unit → Memory → Prop} :
    Exec.Post (store (pdePtr vaddr) w) m Q E ↔ Q () (m.setWord m.cr3 (vaddr / 1024) w) := by
  have hpage : pdePtr vaddr / 1024 = pteBase + 1023 := by
    unfold pdePtr pteBase
    omega
  have hidx : pdePtr vaddr % 1024 = vaddr / 1024 := by
    unfold pdePtr
    omega
  have hwalk : m.walk m.cr3 (pdePtr vaddr / 1024) = some m.cr3 := by
    rw [hpage, hs.walk_pteBase (by decide), hs.self, entryPresent_entry, if_pos rfl,
      entryFrame_entry hs.lt]
  simp only [store, translate, Exec.post_bind, Exec.post_get, post_deref, hwalk, Option.some.injEq,
    forall_eq', Exec.post_modify, hidx, reduceCtorEq, false_implies, and_true]

/-- The page of `pte_ptr` is the page table. -/
theorem SelfMapped.post_translate_ptePtr (hs : SelfMapped m) (hv : vaddr < 2 ^ 20)
    {Q : ℕ → Memory → Prop} :
    Exec.Post (translate (ptePtr vaddr / 1024)) m Q E ↔
      (entryPresent (m.phys m.cr3 (vaddr / 1024)) = true →
        Q (entryFrame (m.phys m.cr3 (vaddr / 1024))) m) ∧
      (¬ entryPresent (m.phys m.cr3 (vaddr / 1024)) = true → E .badPointer) := by
  have hpage : ptePtr vaddr / 1024 = pteBase + vaddr / 1024 := by
    unfold ptePtr
    omega
  simp only [translate, Exec.post_bind, Exec.post_get, post_deref, hpage,
    hs.walk_pteBase (show vaddr / 1024 < 1024 by omega)]
  by_cases hp : entryPresent (m.phys m.cr3 (vaddr / 1024)) = true
  · simp [hp]
  · simp [hp]

theorem ptePtr_mod (vaddr : ℕ) : ptePtr vaddr % 1024 = vaddr % 1024 := by
  unfold ptePtr
  omega

theorem SelfMapped.post_load_ptePtr (hs : SelfMapped m) (hv : vaddr < 2 ^ 20)
    {Q : UInt32 → Memory → Prop} :
    Exec.Post (load (ptePtr vaddr)) m Q E ↔
      (entryPresent (m.phys m.cr3 (vaddr / 1024)) = true →
        Q (m.phys (entryFrame (m.phys m.cr3 (vaddr / 1024))) (vaddr % 1024)) m) ∧
      (¬ entryPresent (m.phys m.cr3 (vaddr / 1024)) = true → E .badPointer) := by
  simp only [load, Exec.post_bind, hs.post_translate_ptePtr hv, Exec.post_get, Exec.post_pure,
    ptePtr_mod]

theorem SelfMapped.post_store_ptePtr (hs : SelfMapped m) (hv : vaddr < 2 ^ 20)
    {Q : Unit → Memory → Prop} :
    Exec.Post (store (ptePtr vaddr) w) m Q E ↔
      (entryPresent (m.phys m.cr3 (vaddr / 1024)) = true →
        Q () (m.setWord (entryFrame (m.phys m.cr3 (vaddr / 1024))) (vaddr % 1024) w)) ∧
      (¬ entryPresent (m.phys m.cr3 (vaddr / 1024)) = true → E .badPointer) := by
  simp only [store, Exec.post_bind, hs.post_translate_ptePtr hv, Exec.post_modify, ptePtr_mod]

/-- `page_table_add` of a page whose page table is there. -/
theorem SelfMapped.pageTableAdd_present (hs : SelfMapped m) (hv : vaddr < 2 ^ 20) {frame : ℕ}
    (hp : entryPresent (m.phys m.cr3 (vaddr / 1024)) = true) {Q : Unit → Memory → Prop} :
    Exec.Post (pageTableAdd vaddr frame) m Q E ↔
      ((m.walk m.cr3 vaddr = none →
        Q () (m.setWord (entryFrame (m.phys m.cr3 (vaddr / 1024))) (vaddr % 1024) (entry frame))) ∧
      (m.walk m.cr3 vaddr ≠ none → E .assertFailed)) := by
  have hwalk : m.walk m.cr3 vaddr = none ↔
      ¬ entryPresent (m.phys (entryFrame (m.phys m.cr3 (vaddr / 1024))) (vaddr % 1024)) = true := by
    unfold Memory.walk
    simp [hp]
  simp only [pageTableAdd, Exec.post_bind, hs.post_load_pdePtr hv, hp, if_true,
    hs.post_load_ptePtr hv, post_assert, hs.post_store_ptePtr hv, hwalk, ne_eq, not_not,
    true_implies, not_true_eq_false, false_implies, and_true]

/-- `page_table_add` of a page whose page table is not there. -/
theorem SelfMapped.pageTableAdd_absent (hs : SelfMapped m) (hv : vaddr < pteBase) {frame r : ℕ}
    (hp : ¬ entryPresent (m.phys m.cr3 (vaddr / 1024)) = true)
    (hr : (m.nextFrame .pfKernel).getD 0 = r) (hne : r ≠ m.cr3) (hlt : r < 2 ^ 20)
    {Q : Unit → Memory → Prop} :
    Exec.Post (pageTableAdd vaddr frame) m Q E ↔
      Q () ((m.addTable (vaddr / 1024) r).setWord r (vaddr % 1024) (entry frame)) := by
  have hv' : vaddr < 2 ^ 20 := lt_trans hv (by decide)
  have hidx : vaddr / 1024 ≠ 1023 := by
    unfold pteBase at hv
    omega
  have hs₁ : SelfMapped (m.takeFrame .pfKernel) := by
    refine ⟨?_, ?_⟩
    · rw [Memory.takeFrame_phys, Memory.takeFrame_cr3]
      exact hs.self
    · rw [Memory.takeFrame_cr3]
      exact hs.lt
  have hs₂ : SelfMapped ((m.takeFrame .pfKernel).setWord m.cr3 (vaddr / 1024) (entry r)) := by
    refine ⟨?_, hs₁.lt⟩
    rw [Memory.setWord_phys_apply, if_neg fun heq => hidx heq.2.symm]
    exact hs₁.self
  have hcr3 : ((m.takeFrame .pfKernel).setWord m.cr3 (vaddr / 1024) (entry r)).cr3 = m.cr3 :=
    Memory.takeFrame_cr3
  have hpde₂ : ((m.takeFrame .pfKernel).setWord m.cr3 (vaddr / 1024) (entry r)).phys m.cr3
      (vaddr / 1024) = entry r := by
    rw [Memory.setWord_phys_apply, if_pos ⟨rfl, rfl⟩]
  have hkeep (i : ℕ) : (((m.takeFrame .pfKernel).setWord m.cr3 (vaddr / 1024) (entry r)).setFrame r
      fun _ => 0).phys m.cr3 i =
        ((m.takeFrame .pfKernel).setWord m.cr3 (vaddr / 1024) (entry r)).phys m.cr3 i := by
    rw [Memory.setFrame_phys, Function.update_of_ne hne.symm]
  have hs₃ : SelfMapped (((m.takeFrame .pfKernel).setWord m.cr3 (vaddr / 1024) (entry r)).setFrame r
      fun _ => 0) := by
    refine ⟨?_, hs₂.lt⟩
    have hself := hs₂.self
    rw [hcr3] at hself
    change (((m.takeFrame .pfKernel).setWord m.cr3 (vaddr / 1024) (entry r)).setFrame r
      fun _ => 0).phys ((m.takeFrame .pfKernel).setWord m.cr3 (vaddr / 1024) (entry r)).cr3 1023 =
        entry ((m.takeFrame .pfKernel).setWord m.cr3 (vaddr / 1024) (entry r)).cr3
    rw [hcr3, hkeep, hself]
  have hcr3' : (((m.takeFrame .pfKernel).setWord m.cr3 (vaddr / 1024) (entry r)).setFrame r
      fun _ => 0).cr3 = m.cr3 := hcr3
  have hzero (i : ℕ) : (((m.takeFrame .pfKernel).setWord m.cr3 (vaddr / 1024) (entry r)).setFrame r
      fun _ => 0).phys r i = 0 := by
    rw [Memory.setFrame_phys, Function.update_self]
  unfold Memory.addTable
  simp only [pageTableAdd, clearPage, Exec.post_bind, hs.post_load_pdePtr hv', Exec.post_ite, hp,
    false_implies, true_and, not_false_eq_true, true_implies, post_palloc, hr, Bool.false_eq_true,
    SelfMapped.post_store_pdePtr hs₁ hv', Memory.takeFrame_cr3,
    SelfMapped.post_translate_ptePtr hs₂ hv', hcr3, hpde₂, entryPresent_entry, entryFrame_entry hlt,
    Exec.post_modify, SelfMapped.post_load_ptePtr hs₃ hv', hcr3', hkeep, hzero, entryPresent_zero,
    post_assert, SelfMapped.post_store_ptePtr hs₃ hv', not_true_eq_false, and_true]

end Access

/-- A step that only gives out frames: the uses stay, new uses have frames that were free, and what
was there keeps its content. -/
structure GivesFrames (m m' : Memory) : Prop where
  keeps : KeepsDirs m m'
  cr3 : m'.cr3 = m.cr3
  cur : m'.cur = m.cur
  holds : ∀ u g, m.Holds u g → m'.Holds u g
  new : ∀ u g, m'.Holds u g → m.Holds u g ∨ ¬ m.Allocated u.pool g
  alloc : ∀ pf g, m.Allocated pf g → m'.Allocated pf g
  content : ∀ pf g, m.Allocated pf g → PlainFrame m g → m'.phys g = m.phys g

section Growth

variable {m m' m'' : Memory} {frame : ℕ} {pf : PoolFlags}

/-- A frame that was allocated and plain stays plain. -/
theorem GivesFrames.plain (h : GivesFrames m m') (hinv' : PageInv m') (halloc : m.Allocated pf frame)
    (hplain : PlainFrame m frame) : PlainFrame m' frame := by
  refine ⟨hplain.low, fun hdir => hplain.dir (h.keeps.isProcDir.mp hdir), fun d i ht => ?_⟩
  rcases h.new _ _ ht with ht | hnot
  · exact hplain.table d i ht
  · obtain rfl := hinv'.layout.pool_eq (h.alloc pf frame halloc) (hinv'.alloc _ _ ht)
    exact hnot halloc

theorem GivesFrames.trans (h : GivesFrames m m') (hinv' : PageInv m') (h' : GivesFrames m' m'') : GivesFrames m m'' := by
  refine ⟨h.keeps.trans h'.keeps, h'.cr3.trans h.cr3, h'.cur.trans h.cur,
    fun u g hu => h'.holds u g (h.holds u g hu), fun u g hu => ?_,
    fun pf g hg => h'.alloc pf g (h.alloc pf g hg), fun pf g hg hplain => ?_⟩
  · rcases h'.new u g hu with hu | hnot
    · exact h.new u g hu
    · exact Or.inr fun hg => hnot (h.alloc _ g hg)
  · rw [h'.content pf g (h.alloc pf g hg) (h.plain hinv' hg hplain), h.content pf g hg hplain]

theorem GivesFrames.takeFrame : GivesFrames m (m.takeFrame pf) := by
  have hs : SameUses m (m.takeFrame pf) := Memory.sameUses_takeFrame
  refine ⟨hs.keeps, Memory.takeFrame_cr3, Memory.takeFrame_cur, fun u g => (hs.holds u g).mpr,
    fun u g hu => Or.inl ((hs.holds u g).mp hu), fun pf' g hg => ?_, fun _ g _ _ => ?_⟩
  · exact hg.of_scanTest Memory.takeFrame_start Memory.takeFrame_len
      fun i hi => Memory.takeFrame_scanTest hi
  · rw [Memory.takeFrame_phys]

end Growth

/-- What adding a page to the active directory, that of a process, does. -/
structure AddedPage (m m' : Memory) (vaddr frame : ℕ) : Prop where
  keeps : KeepsDirs m m'
  cr3 : m'.cr3 = m.cr3
  cur : m'.cur = m.cur
  task : m'.task = m.task
  userPool : m'.userPool = m.userPool
  kernelVaddr : m'.kernelVaddr = m.kernelVaddr
  absent : m.walk m.cr3 vaddr = none
  page : ∀ d v g, m'.Holds (.page d v) g ↔
    if d = m.cr3 ∧ v = vaddr then g = frame else m.Holds (.page d v) g
  kernelPage : ∀ v g, m'.Holds (.kernelPage v) g ↔ m.Holds (.kernelPage v) g
  table : ∀ d i g, m.Holds (.table d i) g → m'.Holds (.table d i) g
  newTable : ∀ d i g, m'.Holds (.table d i) g →
    m.Holds (.table d i) g ∨ d = m.cr3 ∧ ¬ m.Allocated .pfKernel g
  present : ∀ i, entryPresent (m'.phys m.cr3 i) = true ↔
    entryPresent (m.phys m.cr3 i) = true ∨ i = vaddr / 1024
  tables : m'.freeFrames .pfKernel +
    (if entryPresent (m.phys m.cr3 (vaddr / 1024)) then 0 else 1) = m.freeFrames .pfKernel
  alloc : ∀ pf g, m.Allocated pf g → m'.Allocated pf g
  content : ∀ pf g, m.Allocated pf g → PlainFrame m g → m'.phys g = m.phys g

section Add

variable {m : Memory} {vaddr frame r i : ℕ}

theorem Memory.addTable_phys (h : r ≠ m.cr3) (j : ℕ) :
    (m.addTable i r).phys m.cr3 j = if j = i then entry r else m.phys m.cr3 j := by
  rw [addTable, setFrame_phys, Function.update_of_ne h.symm, setWord_phys_apply, takeFrame_phys]
  simp

theorem Memory.addTable_pool (pf : PoolFlags) :
    (m.addTable i r).pool pf = (m.takeFrame .pfKernel).pool pf := by
  cases pf <;> rfl

theorem PageInv.addTable (h : PageInv m) (hdir : m.IsProcDir m.cr3) (hi : i < 768)
    (hp : ¬ entryPresent (m.phys m.cr3 i) = true) (hr : m.nextFrame .pfKernel = some r) :
    PageInv (m.addTable i r) ∧ Remaps m (m.addTable i r) (.table m.cr3 i) (some r) := by
  have h₁ : PageInv (m.takeFrame .pfKernel) := h.takeFrame
  have hsame : SameUses m (m.takeFrame .pfKernel) := Memory.sameUses_takeFrame
  have hfresh := h.fresh_nextFrame hr
  have hlt := (h₁.layout.allocated_bounds hfresh.1).2
  have hp₁ : ¬ entryPresent ((m.takeFrame .pfKernel).phys m.cr3 i) = true := by
    rwa [Memory.takeFrame_phys]
  have hremap := h₁.remaps_table (hsame.keeps.isProcDir.mpr hdir) hi hp₁ (hfresh.plain h₁) hlt
  refine ⟨h₁.of_give hremap hfresh rfl rfl rfl nofun, hsame.keeps.trans hremap.keeps, fun u g => ?_⟩
  rw [← hsame.holds]
  exact hremap.holds u g

theorem PageInv.fresh_addTable (h : PageInv m) (hdir : m.IsProcDir m.cr3) (hi : i < 768)
    (hp : ¬ entryPresent (m.phys m.cr3 i) = true) (hr : m.nextFrame .pfKernel = some r)
    (hf : m.Fresh .pfUser frame) : (m.addTable i r).Fresh .pfUser frame := by
  obtain ⟨h', hremap⟩ := h.addTable hdir hi hp hr
  obtain ⟨⟨hlo, hhi, hbit⟩, hnot⟩ := hf
  have halloc : (m.addTable i r).Allocated .pfUser frame := by
    unfold Memory.Allocated
    rw [hremap.keeps.start, hremap.keeps.len, Memory.addTable_pool]
    exact ⟨hlo, hhi, Memory.takeFrame_scanTest hbit⟩
  refine ⟨halloc, fun u hu => ?_⟩
  have hu' := (hremap.holds u frame).mp hu
  by_cases heq : u = .table m.cr3 i
  · subst heq
    cases h'.layout.pool_eq (h'.alloc _ _ hu) halloc
  · rw [if_neg heq] at hu'
    exact hnot u hu'

/-- A word of a page table that is there. -/
theorem PageInv.addPage_present (h : PageInv m) (hdir : m.IsProcDir m.cr3) (hv : vaddr < kernelBase)
    (hf : m.Fresh .pfUser frame) (hp : entryPresent (m.phys m.cr3 (vaddr / 1024)) = true)
    (hnone : m.walk m.cr3 vaddr = none) :
    PageInv (m.setWord (entryFrame (m.phys m.cr3 (vaddr / 1024))) (vaddr % 1024) (entry frame)) ∧
    AddedPage m
      (m.setWord (entryFrame (m.phys m.cr3 (vaddr / 1024))) (vaddr % 1024) (entry frame))
      vaddr frame := by
  have hlt := (h.layout.allocated_bounds hf.1).2
  have hremap := h.remaps_user hdir hv hp (entry frame)
  rw [entryPresent_entry, if_pos rfl, entryFrame_entry hlt] at hremap
  have ht : m.Holds (.table m.cr3 (vaddr / 1024)) (entryFrame (m.phys m.cr3 (vaddr / 1024))) := by
    unfold kernelBase at hv
    exact ⟨hdir, by omega, hp, rfl⟩
  refine ⟨h.of_give hremap hf rfl rfl rfl nofun, hremap.keeps, rfl, rfl, rfl, rfl, rfl, hnone,
    fun d v g => ?_, fun v g => ?_, fun d i g => ?_, fun d i g => ?_, fun i => ?_, ?_, fun _ _ => id,
    fun pf g _ hg => ?_⟩
  · rw [hremap.holds]
    by_cases heq : d = m.cr3 ∧ v = vaddr
    · rw [if_pos heq, if_pos (by simpa using heq), Option.some.injEq, eq_comm]
    · rw [if_neg heq, if_neg (by simpa using heq)]
  · rw [hremap.holds, if_neg nofun]
  · rw [hremap.holds, if_neg nofun]
    exact id
  · rw [hremap.holds, if_neg nofun]
    exact Or.inl
  · have hne : m.cr3 ≠ entryFrame (m.phys m.cr3 (vaddr / 1024)) := by
      intro heq
      exact (h.table_ne_dir ht).2 (heq ▸ hdir)
    rw [Memory.setWord_phys_apply, if_neg fun hc => hne hc.1]
    refine ⟨Or.inl, fun hor => hor.elim id fun heq => heq ▸ hp⟩
  · rw [if_pos hp]
    rfl
  · have hne : g ≠ entryFrame (m.phys m.cr3 (vaddr / 1024)) := by
      rintro rfl
      exact hg.table _ _ ht
    exact Function.update_of_ne hne ..

/-- `page_table_add` of a user page, as long as there is a frame for the page table. -/
theorem pageTableAdd_user (h : PageInv m) (hdir : m.IsProcDir m.cr3) (hv : vaddr < kernelBase)
    (hf : m.Fresh .pfUser frame)
    (hroom : entryPresent (m.phys m.cr3 (vaddr / 1024)) = true ∨ m.freeFrames .pfKernel ≠ 0) :
    Exec.Post (pageTableAdd vaddr frame) m
      (fun _ m' => PageInv m' ∧ AddedPage m m' vaddr frame)
      (fun e => e = .assertFailed ∧ m.walk m.cr3 vaddr ≠ none) := by
  have hlt : vaddr < pteBase := lt_trans hv (by decide)
  by_cases hp : entryPresent (m.phys m.cr3 (vaddr / 1024)) = true
  · rw [h.selfMapped.pageTableAdd_present (lt_trans hlt (by decide)) hp]
    exact ⟨fun hnone => h.addPage_present hdir hv hf hp hnone, fun hne => ⟨rfl, hne⟩⟩
  · obtain ⟨r, hr⟩ := Option.ne_none_iff_exists'.mp fun hnone =>
      (hroom.resolve_left hp) (Memory.nextFrame_eq_none.mp hnone)
    have hi : vaddr / 1024 < 768 := by
      unfold kernelBase at hv
      omega
    obtain ⟨h₂, hremap⟩ := h.addTable hdir hi hp hr
    have hfresh := h.fresh_nextFrame hr
    have hplain := hfresh.plain h.takeFrame
    have hne : r ≠ m.cr3 := by
      rintro rfl
      exact hplain.dir (Memory.sameUses_takeFrame.keeps.isProcDir.mpr hdir)
    have hrlt : r < 2 ^ 20 := (h.takeFrame.layout.allocated_bounds hfresh.1).2
    rw [h.selfMapped.pageTableAdd_absent hlt hp (by rw [hr]; rfl) hne hrlt]
    have hcr3 : (m.addTable (vaddr / 1024) r).cr3 = m.cr3 := Memory.takeFrame_cr3
    have hpde : (m.addTable (vaddr / 1024) r).phys m.cr3 (vaddr / 1024) = entry r := by
      rw [Memory.addTable_phys hne, if_pos rfl]
    have hdir₂ : (m.addTable (vaddr / 1024) r).IsProcDir (m.addTable (vaddr / 1024) r).cr3 := by
      rw [hcr3]
      exact hremap.keeps.isProcDir.mpr hdir
    have hp₂ : entryPresent ((m.addTable (vaddr / 1024) r).phys (m.addTable (vaddr / 1024) r).cr3
        (vaddr / 1024)) = true := by
      rw [hcr3, hpde, entryPresent_entry]
    have hnone : m.walk m.cr3 vaddr = none := by
      unfold Memory.walk
      dsimp only
      rw [if_neg hp]
    have hnone₂ : (m.addTable (vaddr / 1024) r).walk (m.addTable (vaddr / 1024) r).cr3 vaddr =
        none := by
      refine Option.eq_none_iff_forall_not_mem.mpr fun g hg => ?_
      have hu := (hremap.holds (.page m.cr3 vaddr) g).mp ⟨hcr3 ▸ hdir₂, hv, hcr3 ▸ hg⟩
      rw [if_neg nofun] at hu
      cases hnone.symm.trans hu.2.2
    have hrnot : ¬ m.Allocated .pfKernel r := fun hall => Memory.nextFrame_ne h.layout hr hall rfl
    obtain ⟨h₃, hadd⟩ := h₂.addPage_present hdir₂ hv (h.fresh_addTable hdir hi hp hr hf) hp₂ hnone₂
    rw [hcr3, hpde, entryFrame_entry hrlt] at h₃ hadd
    refine ⟨h₃, hremap.keeps.trans hadd.keeps, hadd.cr3.trans hcr3, hadd.cur.trans Memory.takeFrame_cur,
      hadd.task.trans Memory.takeFrame_task, ?_, hadd.kernelVaddr.trans Memory.takeFrame_kernelVaddr,
      hnone, fun d v g => ?_, fun v g => ?_, fun d i g hg => ?_, fun d i g hg => ?_, fun i => ?_, ?_,
      fun pf g hg => ?_, fun pf g halloc hg => ?_⟩
    · rw [hadd.userPool]
      change (m.takeFrame .pfKernel).userPool = m.userPool
      unfold Memory.takeFrame
      split <;> rfl
    · have hold : (m.addTable (vaddr / 1024) r).Holds (.page d v) g ↔ m.Holds (.page d v) g := by
        rw [hremap.holds, if_neg nofun]
      rw [hadd.page, hcr3, hold]
    · rw [hadd.kernelPage, hremap.holds, if_neg nofun]
    · refine hadd.table d i g ((hremap.holds _ g).mpr ?_)
      split
      · rename_i heq
        cases heq
        exact absurd hg.2.2.1 hp
      · exact hg
    · rcases hadd.newTable d i g hg with hold | ⟨hd, hnot⟩
      · rw [hremap.holds] at hold
        split at hold
        · rename_i heq
          cases heq
          obtain rfl : r = g := Option.some.inj hold
          exact Or.inr ⟨rfl, hrnot⟩
        · exact Or.inl hold
      · refine Or.inr ⟨hd.trans hcr3, fun hall => hnot ?_⟩
        exact hall.of_scanTest (hremap.keeps.start _) (hremap.keeps.len _) fun i hi => by
          rw [Memory.addTable_pool]
          exact Memory.takeFrame_scanTest hi
    · have hpres := hadd.present i
      rw [hcr3, Memory.addTable_phys hne] at hpres
      rw [hpres]
      by_cases heq : i = vaddr / 1024
      · simp [heq]
      · rw [if_neg heq]
    · have htables := hadd.tables
      rw [if_pos hp₂] at htables
      rw [if_neg hp]
      have htake : (m.takeFrame .pfKernel).freeFrames .pfKernel + (if PoolFlags.pfKernel = .pfKernel
          then 1 else 0) = m.freeFrames .pfKernel := Memory.freeFrames_takeFrame hr
      rw [if_pos rfl] at htake
      have hpool : (m.addTable (vaddr / 1024) r).freeFrames .pfKernel =
          (m.takeFrame .pfKernel).freeFrames .pfKernel := rfl
      omega
    · exact hadd.alloc pf g (hg.of_scanTest (hremap.keeps.start pf) (hremap.keeps.len pf) fun i hi => by
        rw [Memory.addTable_pool]
        exact Memory.takeFrame_scanTest hi)
    · have hgr : g ≠ r := Memory.nextFrame_ne h.layout hr halloc
      have hgd : g ≠ m.cr3 := fun heq => hg.dir (heq ▸ hdir)
      change Function.update _ _ _ _ = _
      rw [Function.update_of_ne hgr]
      change Function.update _ _ _ _ = _
      rw [Function.update_of_ne hgr]
      change Function.update _ _ _ _ = _
      rw [Function.update_of_ne hgd, Memory.takeFrame_phys]

end Add

end Winx
