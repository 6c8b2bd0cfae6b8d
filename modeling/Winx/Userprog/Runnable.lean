import Winx.Userprog.Scheduler

/-! # Threads that may run

No event takes the processor from a thread for longer than the scheduler wants:
a thread that is ready, and is not the one whose code the event is, runs or is
ready after it.
-/

namespace Winx

open TaskStatus

/-- A thread runs or is ready. -/
def Threads.CanRun (s : Threads) (p : ℕ) : Prop := ∃ t, s.pcb p = some t ∧ t.status.Runnable

section Threads

variable {s s' : Threads} {p q : ℕ} {t : TaskStruct}

theorem Threads.CanRun.congr (h : s.CanRun p) (hpcb : s'.pcb p = s.pcb p) : s'.CanRun p := by
  obtain ⟨t, ht, hrun⟩ := h
  exact ⟨t, hpcb.trans ht, hrun⟩

/-- Giving another thread a new PCB. -/
theorem Threads.CanRun.update (h : s.CanRun p) (hpq : p ≠ q) {o : Option TaskStruct}
    (hpcb : s'.pcb = Function.update s.pcb q o) : s'.CanRun p :=
  h.congr (by rw [hpcb, Function.update_of_ne hpq])

/-- Scheduling. -/
theorem Rescheduled.canRun (hrel : Rescheduled s s') (h : s.CanRun p) : s'.CanRun p := by
  obtain ⟨t, ht, hrun⟩ := h
  obtain ⟨st, hst, hmove⟩ := hrel.pcb p t ht
  refine ⟨_, hst, ?_⟩
  rcases hmove with rfl | ⟨-, hrun'⟩
  · exact hrun
  · exact hrun'

/-- Waking a thread. -/
theorem Threads.CanRun.unblocked (h : s.CanRun p) (q : ℕ) (t : TaskStruct) :
    (s.unblocked q t).CanRun p := by
  by_cases hpq : p = q
  · subst hpq
    exact ⟨_, Function.update_self .., Or.inr rfl⟩
  · exact h.update hpq rfl

theorem threadUnblock_canRun (h : s.CanRun p) (q : ℕ) :
    Exec.Ensures (threadUnblock q) s fun _ s' => s'.CanRun p := by
  simp only [threadUnblock, derefPcb, storePcb, Exec.post_bind, Exec.post_get, post_deref,
    post_assert, Exec.post_modify]
  refine ⟨fun t _ => ⟨fun _ => ⟨fun _ => ?_, fun _ => trivial⟩, fun _ => trivial⟩, fun _ => trivial⟩
  exact h.unblocked q t

/-- Blocking the running thread. -/
theorem threadBlock_canRun {stat : TaskStatus} (hready : ReadyInv (some s.cur) s)
    (hp : p ≠ s.cur) (h : s.CanRun p) :
    Exec.Ensures (threadBlock stat) s fun _ s' => s'.CanRun p := by
  obtain ⟨t, ht⟩ := hready.present s.cur rfl
  by_cases hstat : stat = taskBlocked ∨ stat = taskWaiting ∨ stat = taskHanging
  · refine (threadBlock_running hready ht hstat).ensures.mono fun _ s' ⟨_, hrel⟩ => ?_
    exact hrel.canRun (h.update hp rfl)
  · exact Exec.post_bind.mpr (post_assert.mpr ⟨fun h => absurd h hstat, fun _ => trivial⟩)

end Threads

section Kernel

variable {k : Kernel} {p : ℕ}

theorem semaDown_canRun (h : SchedInv k) (hp : p ≠ k.cur) (hrun : k.threads.CanRun p)
    (psema : ℕ) : Exec.Ensures (semaDown psema) k fun _ k' => k'.threads.CanRun p := by
  simp only [semaDown, Exec.post_bind, Exec.post_get, Exec.post_ite, post_assert, Exec.post_modify,
    post_onThreads, Exec.post_pure]
  refine ⟨fun _ => ⟨fun _ => ?_, fun _ => trivial⟩, fun _ => ⟨fun _ => hrun, fun _ => trivial⟩⟩
  exact threadBlock_canRun h.ready hp hrun

theorem ioqWait_canRun (h : SchedInv k) (hp : p ≠ k.cur) (hrun : k.threads.CanRun p) (w : ℕ) :
    Exec.Ensures (ioqWait w) k fun _ k' => k'.threads.CanRun p := by
  simp only [ioqWait, Exec.post_bind, Exec.post_get, post_assert, Exec.post_modify, post_onThreads]
  exact ⟨fun _ => threadBlock_canRun h.ready hp hrun, fun _ => trivial⟩

theorem semaUp_canRun (hrun : k.threads.CanRun p) (psema : ℕ) :
    Exec.Ensures (semaUp psema) k fun _ k' => k'.threads.CanRun p := by
  have hwake : Exec.Ensures (wakeWaiter psema) k fun _ k' => k'.threads.CanRun p := by
    simp only [wakeWaiter, Exec.post_bind, Exec.post_get]
    split
    · exact hrun
    · exact Exec.post_bind.mpr (post_onThreads.mpr (threadUnblock_canRun hrun _))
  simp only [semaUp, Exec.post_bind, Exec.post_get, post_assert, Exec.post_modify]
  refine ⟨fun _ => hwake.mono fun _ k' hk' => ⟨fun _ => hk', fun _ => trivial⟩, fun _ => trivial⟩

theorem wakeup_canRun (hrun : k.threads.CanRun p) (w : ℕ) :
    Exec.Ensures (wakeup w) k fun _ k' => k'.threads.CanRun p := by
  simp only [wakeup, Exec.post_bind, Exec.post_get]
  cases k.waiter w with
  | none => trivial
  | some q =>
    simp only [Exec.post_bind, Exec.post_modify, post_onThreads]
    exact threadUnblock_canRun hrun q

/-- A thread that `sys_wait` reaps hangs. -/
theorem not_runnable_of_hanging {t : TaskStruct} (h : t.status = taskHanging) :
    ¬ t.status.Runnable := by
  rw [h]
  unfold TaskStatus.Runnable
  decide

/-- After every event a thread that was ready, and did not run the event, can run. -/
theorem KernelEvent.run_canRun {e : KernelEvent} (h : SchedInv k) (he : e.Admitted k)
    (hp : p ≠ k.cur) (hrun : k.threads.CanRun p) :
    Exec.Ensures e.run k fun _ k' => k'.threads.CanRun p := by
  obtain ⟨t, ht, hcur⟩ := h.cur_running
  cases e with
  | tick =>
    exact post_onThreads.mpr ((schedule_running h.ready).ensures.mono fun _ _ hs => hs.2.canRun hrun)
  | yield =>
    exact post_onThreads.mpr
      ((threadYield_running h.ready).ensures.mono fun _ _ hs => hs.2.canRun hrun)
  | block stat => exact post_onThreads.mpr (threadBlock_canRun h.ready hp hrun)
  | semaDown psema => exact Exec.post_bind.mpr (semaDown_canRun h hp hrun psema)
  | semaUp psema => exact semaUp_canRun hrun psema
  | ioqWait w => exact ioqWait_canRun h hp hrun w
  | wakeup w => exact wakeup_canRun hrun w
  | forkBegin mem =>
    obtain ⟨-, -, hpg⟩ := he
    refine Exec.post_bind.mpr (post_onThreads.mpr (Exec.Post.mono
      (sysForkBegin_spec ht (by simpa [ht] using hpg)) (fun r s hs => ?_) fun _ _ => trivial))
    cases r with
    | none => exact hs ▸ hrun
    | some pid =>
      obtain ⟨-, -, rfl⟩ := hs
      exact hrun
  | forkEnd mem pid =>
    refine Exec.post_bind.mpr (Exec.post_bind.mpr (post_onThreads.mpr
      ((sysForkEnd_spec ht).ensures.mono fun _ s hs => ?_)))
    rcases hs with rfl | rfl
    · exact hrun
    · have hne : p ≠ k.threads.nextPcb := by
        obtain ⟨u, hu, -⟩ := hrun
        exact (h.ready.lt_nextPcb hu).ne
      exact hrun.update hne rfl
  | exitBegin status =>
    refine Exec.post_bind.mpr (post_onThreads.mpr (Exec.Post.mono (sysExitBegin_spec ht)
      (fun _ s hs => ?_) fun _ _ => trivial))
    obtain ⟨-, rfl⟩ := hs
    obtain ⟨u, hu, hst⟩ := hrun
    obtain ⟨u', hu', hst', -⟩ := Threads.orphaned_status ht status.toInt8 hu
    exact ⟨u', hu', hst' ▸ hst⟩
  | exitEnd =>
    refine post_onThreads.mpr ((sysExitEnd_spec h.ready ht).ensures.mono fun _ s hs => ?_)
    obtain ⟨-, q, u, s₁, -, -, hs₁, hrel⟩ := hs
    refine hrel.canRun (Threads.CanRun.update ?_ hp rfl)
    rcases hs₁ with rfl | ⟨-, rfl⟩
    · exact hrun
    · exact hrun.unblocked q u
  | wait =>
    refine Exec.post_bind.mpr (post_onThreads.mpr ((sysWait_spec h.ready ht).ensures.mono
      fun r s hs => ?_))
    cases r with
    | reaped pid st =>
      obtain ⟨c, u, hfind, hu, -, -, rfl⟩ := hs
      obtain ⟨-, u', hu', hchild⟩ := Threads.traverse_eq_some hfind
      obtain rfl := Option.some.inj (hu.symm.trans hu')
      have hhang : u.parentPid = t.pid ∧ u.status = taskHanging := by simpa using hchild
      have hne : p ≠ c := by
        rintro rfl
        obtain ⟨v, hv, hst⟩ := hrun
        obtain rfl := Option.some.inj (hu.symm.trans hv)
        exact not_runnable_of_hanging hhang.2 hst
      exact Threads.CanRun.update (hrun.update hp rfl) hne rfl
    | noChild =>
      subst hs
      exact hrun.update hp rfl
    | blocked =>
      obtain ⟨-, hrel⟩ := hs
      exact hrel.canRun (hrun.update hp rfl)
  | mainExit =>
    obtain ⟨-, hmain, -⟩ := he
    have hidle : k.cur ≠ k.threads.idleThread := by
      rw [hmain, h.main.1, h.main.2]
      decide
    have hdied : k.threads.leftover k.threads.mainThread t = some (t.setStatus taskDied) := if_pos rfl
    refine Exec.post_bind.mpr (post_onThreads.mpr ?_)
    rw [post_threadExit (hmain ▸ ht), hdied]
    refine ⟨fun _ => ?_, fun hne => absurd rfl hne⟩
    rw [← hmain]
    have hnone := h.ready.unlisted_running ht hidle
    refine (schedule_none hnone (Function.update_self ..)).ensures.mono fun _ s ⟨_, hrel⟩ => ?_
    exact hrel.canRun (hrun.update hp rfl)

end Kernel

end Winx
