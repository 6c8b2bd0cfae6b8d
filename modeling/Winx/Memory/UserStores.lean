import Winx.Memory.PageCalls

/-! # What processes store

A process stores to its own half of the address space. Two processes have two
page directories, and no frame is a page of both, so a process reads what it has
stored itself, whatever the others do.
-/

namespace Winx

/-- A store of a process. -/
structure UserStore where
  thread : ℕ
  addr : ℕ
  word : UInt32

/-- The process runs and stores. Without a page at the address there is a page fault. -/
def UserStore.exec (s : UserStore) : MemM Unit := do
  switchTo s.thread
  store s.addr s.word

/-- Stores of processes, one after the other. -/
def userStores : List UserStore → MemM Unit
  | [] => pure ()
  | s :: l => do
    s.exec
    userStores l

/-- The word that a process reads at an address, if it has a page there. -/
def Memory.userWord (m : Memory) (thread addr : ℕ) : Option UInt32 :=
  (m.task thread).bind fun t =>
    (m.walk (m.dirOf t) (addr / 1024)).map fun frame => m.phys frame (addr % 1024)

/-- A thread with a page directory. -/
def Memory.IsProcess (m : Memory) (thread : ℕ) : Prop := ∃ t, m.task thread = some t ∧ t.pgdir ≠ 0

/-- Processes store to the user half. -/
def UserStore.Admitted (m : Memory) (s : UserStore) : Prop :=
  m.IsProcess s.thread ∧ s.addr < 1024 * kernelBase

/-- The word at an address after some stores. -/
def storedWord (addr : ℕ) (l : List UserStore) (w : Option UInt32) : Option UInt32 :=
  l.foldl (fun w s => if s.addr = addr then some s.word else w) w

variable {m m' : Memory} {p q v g addr : ℕ} {t u : MemTask} {s : UserStore}

/-- The pages of a process are the pages of its directory. -/
theorem PageInv.holds_dirOf (h : PageInv m) (ht : m.task p = some t) (hne : t.pgdir ≠ 0) :
    m.Holds (.page (m.dirOf t) v) g ↔ v < kernelBase ∧ m.walk (m.dirOf t) v = some g :=
  and_iff_right (h.isProcDir_dirOf ht hne)

theorem PageInv.dirOf_holds (h : PageInv m) (ht : m.task p = some t) (hne : t.pgdir ≠ 0) :
    m.Holds (.kernelPage t.pgdir) (m.dirOf t) := by
  obtain ⟨hlo, hhi, dir, hdir⟩ := h.pgdir p t ht hne
  refine ⟨hlo, hhi, ?_⟩
  rw [Memory.dirOf, if_neg hne, hdir, Option.getD_some]

/-- Two processes have two directories. -/
theorem PageInv.dirOf_ne (h : PageInv m) (ht : m.task p = some t) (hu : m.task q = some u)
    (hne : t.pgdir ≠ 0) (hne' : u.pgdir ≠ 0) (hpq : p ≠ q) : m.dirOf t ≠ m.dirOf u := by
  intro heq
  have huse := h.unique _ _ _ (h.dirOf_holds ht hne) (heq ▸ h.dirOf_holds hu hne')
  rw [FrameUse.kernelPage.injEq] at huse
  exact hpq (h.pgdirs p q t u ht hu hne huse)

/-- A word of a page of a process is a word of this process and of no other. -/
theorem PageInv.userWord_setWord {w : UInt32} (h : PageInv m) (ht : m.task p = some t)
    (hne : t.pgdir ≠ 0) (haddr : addr < 1024 * kernelBase)
    (hwalk : m.walk (m.dirOf t) (addr / 1024) = some g) (hproc : m.IsProcess q) {a : ℕ}
    (ha : a < 1024 * kernelBase) :
    (m.setWord g (addr % 1024) w).userWord q a =
      if p = q ∧ addr = a then some w else m.userWord q a := by
  have hpage : m.Holds (.page (m.dirOf t) (addr / 1024)) g :=
    (h.holds_dirOf ht hne).mpr ⟨by omega, hwalk⟩
  have hs : SameUses m (m.setWord g (addr % 1024) w) := h.sameUses_setFrame (h.page_plain hpage) _
  obtain ⟨u, hu, hne'⟩ := hproc
  have hwalk' : (m.setWord g (addr % 1024) w).walk (m.dirOf u) (a / 1024) =
      m.walk (m.dirOf u) (a / 1024) := by
    refine h.walk_setFrame (h.page_plain hpage) _ (Or.inr (h.isProcDir_dirOf hu hne')) ?_
    unfold pteBase
    unfold kernelBase at ha
    omega
  have hdir : (m.setWord g (addr % 1024) w).dirOf u = m.dirOf u := hs.keeps.dirOf hu rfl
  have htask : (m.setWord g (addr % 1024) w).task q = some u := hu
  rw [Memory.userWord, Memory.userWord, htask, hu, Option.bind_some, Option.bind_some, hdir, hwalk']
  cases hframe : m.walk (m.dirOf u) (a / 1024) with
  | none =>
    -- the page would be that of the store
    rw [Option.map_none, Option.map_none, if_neg]
    rintro ⟨rfl, rfl⟩
    obtain rfl := Option.some.inj (ht.symm.trans hu)
    cases hwalk.symm.trans hframe
  | some f =>
    rw [Option.map_some, Option.map_some, Memory.setWord_phys_apply]
    by_cases heq : p = q ∧ addr = a
    · obtain ⟨rfl, rfl⟩ := heq
      obtain rfl := Option.some.inj (ht.symm.trans hu)
      rw [if_pos ⟨Option.some.inj (hframe.symm.trans hwalk), rfl⟩, if_pos ⟨rfl, rfl⟩]
    · rw [if_neg heq, if_neg]
      rintro ⟨rfl, hidx⟩
      have hpage' := (h.holds_dirOf hu hne').mpr ⟨by omega, hframe⟩
      have huse := h.unique _ _ _ hpage hpage'
      rw [FrameUse.page.injEq] at huse
      have hpq : p = q := by
        by_contra hpq
        exact h.dirOf_ne ht hu hne hne' hpq huse.1
      exact heq ⟨hpq, by omega⟩

/-- A store is seen by the process that made it, at its address. -/
theorem UserStore.exec_spec (h : MemInv m) (hok : s.Admitted m) :
    Exec.Ensures s.exec m fun _ m' => MemInv m' ∧ m'.task = m.task ∧
      ∀ q, m.IsProcess q → ∀ a < 1024 * kernelBase, m'.userWord q a =
        if s.thread = q ∧ s.addr = a then some s.word else m.userWord q a := by
  obtain ⟨⟨t, ht, hne⟩, haddr⟩ := hok
  rw [UserStore.exec]
  refine Exec.Post.bind (switchTo_spec h) ?_
  rintro - m₁ ⟨h₁, t', ht', rfl⟩
  obtain rfl := Option.some.inj (ht.symm.trans ht')
  simp only [store, translate, Exec.post_bind, Exec.post_get, post_deref, Exec.post_modify, and_true,
    implies_true]
  intro g hg
  have ht₁ : ((m.setCur s.thread).setCr3 (m.dirOf t)).task s.thread = some t := ht
  have hpage : ((m.setCur s.thread).setCr3 (m.dirOf t)).Holds (.page (m.dirOf t) (s.addr / 1024)) g :=
    ⟨h.page.isProcDir_dirOf ht hne, by omega, hg⟩
  have hs := h₁.page.sameUses_setFrame (h₁.page.page_plain hpage) (Function.update
    (((m.setCur s.thread).setCr3 (m.dirOf t)).phys g) (s.addr % 1024) s.word)
  refine ⟨h₁.of_task_eq (h₁.page.of_sameUses hs rfl (fun _ _ => id) fun _ => id) hs.keeps rfl rfl rfl,
    rfl, fun q hq a ha => ?_⟩
  exact h₁.page.userWord_setWord ht₁ hne haddr hg hq ha

/-- After any stores a process reads its own. -/
theorem userStores_spec (l : List UserStore) (h : MemInv m) (hok : ∀ s ∈ l, s.Admitted m) :
    Exec.Ensures (userStores l) m fun _ m' => MemInv m' ∧ m'.task = m.task ∧
      ∀ q, m.IsProcess q → ∀ a < 1024 * kernelBase,
        m'.userWord q a = storedWord a (l.filter (·.thread = q)) (m.userWord q a) := by
  induction l generalizing m with
  | nil => exact ⟨h, rfl, fun q _ a _ => rfl⟩
  | cons s l ih =>
    rw [userStores]
    refine Exec.Post.bind (UserStore.exec_spec h (hok s (List.mem_cons_self ..))) ?_
    rintro - m₁ ⟨h₁, htask₁, hword₁⟩
    have hproc {q : ℕ} (hq : m.IsProcess q) : m₁.IsProcess q := by
      unfold Memory.IsProcess
      rw [htask₁]
      exact hq
    refine Exec.Ensures.mono (ih h₁ fun s' hs' => ?_) ?_
    · obtain ⟨hp, ha⟩ := hok s' (List.mem_cons_of_mem _ hs')
      exact ⟨hproc hp, ha⟩
    · rintro - m₂ ⟨h₂, htask₂, hword₂⟩
      refine ⟨h₂, htask₂.trans htask₁, fun q hq a ha => ?_⟩
      rw [hword₂ q (hproc hq) a ha, hword₁ q hq a ha, List.filter_cons]
      by_cases hthread : s.thread = q
      · simp [hthread, storedWord]
      · simp [hthread]

end Winx
