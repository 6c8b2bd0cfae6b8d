import Winx.Device.IoqCalls
import Winx.Thread.Lock

/-! # Who waits for the queue

A thread that finds the queue empty or full gets the lock first and waits then.
If it had to queue for the lock, then the queue may have changed meanwhile, and
it waits all the same. Where this does not happen, a thread waits for bytes only
if there are none, and for room only if there is none, and the threads in the
calls are not all blocked while there is something to do.
-/

namespace Winx

open TaskStatus

/-- A thread is blocked. -/
def Threads.Blocked (s : Threads) (p : ℕ) : Prop := ∃ t, s.pcb p = some t ∧ t.status = taskBlocked

/-- A thread that waits for bytes finds none, and one that waits for room finds none. -/
def WaitersInPlace (a : IoqFields) (s : IoqState) : Prop :=
  (s.kernel.waiter a.consumer ≠ none → ioqEmpty s.ioq = true) ∧
  (s.kernel.waiter a.producer ≠ none → ioqFull s.ioq = true)

/-- Threads are in the calls, all of them blocked, though the queue is neither empty nor full. -/
def Stranded (s : IoqState) : Prop :=
  (∃ p, s.point p ≠ .outside) ∧ (∀ p, s.point p ≠ .outside → s.kernel.threads.Blocked p) ∧
    ioqEmpty s.ioq = false ∧ ioqFull s.ioq = false

/-- A thread that had to queue for the lock and gets it now finds the queue as it was: empty, or
full. -/
def IoqEvent.Timely (a : IoqFields) (s : IoqState) (e : IoqEvent) : Prop :=
  e.Admitted s a ∧ match e, s.point s.cur with
    | .step, .lockAcquire c => (s.kernel.semaphore a.lock).value ≠ 0 → c.mustWait s.ioq = true
    | _, _ => True

instance (a : IoqFields) (s : IoqState) (e : IoqEvent) : Decidable (e.Timely a s) := by
  unfold IoqEvent.Timely
  split <;> infer_instance

theorem IoqCall.otherWaiter_ne {a : IoqFields} (c : IoqCall) : c.otherWaiter a ≠ c.waiter a := by
  cases c with
  | ioqGetchar => exact a.ne
  | ioqPutchar byte => exact a.ne.symm

/-- Each of the two pointers is that of a given call or the other one. -/
theorem IoqFields.cases (a : IoqFields) (c : IoqCall) {w : ℕ}
    (hw : w = a.producer ∨ w = a.consumer) : w = c.waiter a ∨ w = c.otherWaiter a := by
  cases c with
  | ioqGetchar => exact hw.symm
  | ioqPutchar byte => exact hw

theorem WaitersInPlace.mustWait {a : IoqFields} {s : IoqState} (h : WaitersInPlace a s)
    {c : IoqCall} (hw : s.kernel.waiter (c.waiter a) ≠ none) : c.mustWait s.ioq = true := by
  cases c with
  | ioqGetchar => exact h.1 hw
  | ioqPutchar byte => exact h.2 hw

/-- It is enough to know it for the two pointers of a call. -/
theorem WaitersInPlace.intro {a : IoqFields} {s : IoqState} (c : IoqCall)
    (h : s.kernel.waiter (c.waiter a) ≠ none → c.mustWait s.ioq = true)
    (h' : s.kernel.waiter (c.otherWaiter a) = none) : WaitersInPlace a s := by
  cases c with
  | ioqGetchar => exact ⟨h, fun hw => absurd h' hw⟩
  | ioqPutchar byte => exact ⟨fun hw => absurd h' hw, h⟩

section Kernel

variable {k : Kernel} {w psema : ℕ}

theorem semaDown_waiter :
    Exec.Ensures (semaDown psema) k fun taken k' => k'.waiter = k.waiter ∧
      (taken = true → (k.semaphore psema).value ≠ 0) := by
  simp only [semaDown, Exec.post_bind, Exec.post_get, Exec.post_ite, post_assert, Exec.post_modify,
    post_onThreads, Exec.post_pure]
  refine ⟨fun _ => ⟨fun _ => Exec.ensures_iff.mpr fun _ s _ => ⟨rfl, by simp⟩, fun _ => trivial⟩,
    fun hne => ⟨fun _ => ⟨rfl, fun _ => hne⟩, fun _ => trivial⟩⟩

theorem semaUp_waiter : Exec.Ensures (semaUp psema) k fun _ k' => k'.waiter = k.waiter := by
  have hwake : Exec.Ensures (wakeWaiter psema) k fun _ k' => k'.waiter = k.waiter := by
    simp only [wakeWaiter, Exec.post_bind, Exec.post_get]
    split
    · exact rfl
    · exact Exec.post_bind.mpr (post_onThreads.mpr (Exec.ensures_iff.mpr fun _ s _ => rfl))
  simp only [semaUp, Exec.post_bind, Exec.post_get, post_assert, Exec.post_modify]
  exact ⟨fun _ => hwake.mono fun _ k' hk' => ⟨fun _ => hk', fun _ => trivial⟩, fun _ => trivial⟩

theorem ioqWait_spec : Exec.Ensures (ioqWait w) k fun _ k' => k.waiter w = none ∧
    k' = ((k.setWaiter w (some k.cur)).setBlockedIn k.cur (some (.ioqWait w))).setThreads
      k'.threads := by
  simp only [ioqWait, Exec.post_bind, Exec.post_get, post_assert, Exec.post_modify, post_onThreads]
  exact ⟨fun hw => Exec.ensures_iff.mpr fun _ s _ => ⟨hw, rfl⟩, fun _ => trivial⟩

theorem wakeup_spec : Exec.Ensures (wakeup w) k fun _ k' => ∃ q, k.waiter w = some q ∧
    k'.threads.CanRun q ∧ k'.cur = k.cur ∧
    k' = ((k.setBlockedIn q none).setWaiter w none).setThreads k'.threads := by
  simp only [wakeup, Exec.post_bind, Exec.post_get]
  cases hw : k.waiter w with
  | none => trivial
  | some q =>
    simp only [Exec.post_bind, Exec.post_modify, post_onThreads, threadUnblock, derefPcb, storePcb,
      Exec.post_get, post_deref, post_assert]
    refine ⟨fun t _ => ⟨fun _ => ⟨fun _ => ⟨q, rfl, ?_, rfl, rfl⟩, fun _ => trivial⟩,
      fun _ => trivial⟩, fun _ => trivial⟩
    exact ⟨_, Function.update_self .., Or.inr rfl⟩

/-- An event that does not use the queue leaves its pointers alone. -/
theorem KernelEvent.run_waiter {a : IoqFields} {e : KernelEvent} (huses : ¬ e.UsesIoq a)
    (hw : w = a.producer ∨ w = a.consumer) :
    Exec.Ensures e.run k fun _ k' => k'.waiter w = k.waiter w := by
  have hthreads {α : Type} (m : ThreadM α) {Q : α → Kernel → Prop}
      (hQ : ∀ a s, Q a (k.setThreads s)) : Exec.Ensures (onThreads m) k Q :=
    post_onThreads.mpr (Exec.ensures_iff.mpr fun a s _ => hQ a s)
  cases e with
  | tick => exact hthreads schedule fun _ _ => rfl
  | block stat => exact hthreads (threadBlock stat) fun _ _ => rfl
  | yield => exact hthreads threadYield fun _ _ => rfl
  | semaDown psema =>
    exact Exec.post_bind.mpr (semaDown_waiter.mono fun _ k' hk' => congrFun hk'.1 w)
  | semaUp psema => exact semaUp_waiter.mono fun _ k' hk' => congrFun hk' w
  | ioqWait w' =>
    have hne : w ≠ w' := by
      rintro rfl
      exact huses hw
    refine ioqWait_spec.mono fun _ k' ⟨_, hk'⟩ => ?_
    rw [hk']
    exact Function.update_of_ne hne ..
  | wakeup w' =>
    have hne : w ≠ w' := by
      rintro rfl
      exact huses hw
    refine wakeup_spec.mono fun _ k' ⟨q, _, _, _, hk'⟩ => ?_
    rw [hk']
    exact Function.update_of_ne hne ..
  | forkBegin mem => exact Exec.post_bind.mpr (hthreads _ fun _ _ => rfl)
  | forkEnd mem pid =>
    exact Exec.post_bind.mpr (Exec.post_bind.mpr (post_onThreads.mpr
      (Exec.ensures_iff.mpr fun _ s _ => rfl)))
  | exitBegin status => exact Exec.post_bind.mpr (hthreads _ fun _ _ => rfl)
  | exitEnd => exact hthreads sysExitEnd fun _ _ => rfl
  | wait => exact Exec.post_bind.mpr (hthreads sysWait fun _ _ => rfl)
  | mainExit => exact Exec.post_bind.mpr (hthreads _ fun _ _ => rfl)

end Kernel

section InPlace

variable {s s' : IoqState} {a : IoqFields} {c : IoqCall}

theorem WaitersInPlace.congr (h : WaitersInPlace a s) (hioq : s'.ioq = s.ioq)
    (hwaiter : ∀ w, w = a.producer ∨ w = a.consumer → s'.kernel.waiter w = s.kernel.waiter w) :
    WaitersInPlace a s' := by
  unfold WaitersInPlace
  rw [hioq, hwaiter _ (Or.inl rfl), hwaiter _ (Or.inr rfl)]
  exact h

/-- A thread starts to wait in the right place. -/
theorem ioqSleep_inPlace (h : WaitersInPlace a s) (hwait : c.mustWait s.ioq = true) :
    Exec.Ensures (ioqSleep a c) s fun _ s' => WaitersInPlace a s' := by
  simp only [ioqSleep, Exec.post_bind, Exec.post_modify, post_inKernel]
  refine ioqWait_spec.mono fun _ k' hpost => ?_
  obtain ⟨_, hk'⟩ := hpost
  have hwaiter : k'.waiter = Function.update s.kernel.waiter (c.waiter a) (some s.cur) := by
    rw [hk']
    rfl
  refine ⟨fun hw => ?_, fun hw => ?_⟩
  · by_cases hc : a.consumer = c.waiter a
    · cases c with
      | ioqGetchar => exact hwait
      | ioqPutchar byte => exact absurd hc a.ne.symm
    · change k'.waiter a.consumer ≠ none at hw
      rw [hwaiter, Function.update_of_ne hc] at hw
      exact h.1 hw
  · by_cases hc : a.producer = c.waiter a
    · cases c with
      | ioqGetchar => exact absurd hc a.ne
      | ioqPutchar byte => exact hwait
    · change k'.waiter a.producer ≠ none at hw
      rw [hwaiter, Function.update_of_ne hc] at hw
      exact h.2 hw

/-- A call that transfers a byte leaves nobody waiting: its own side had nothing to wait for, and it
wakes the other side. -/
theorem ioqFinish_inPlace (h : WaitersInPlace a s) (hwait : c.mustWait s.ioq = false) :
    Exec.Ensures (ioqFinish a c) s fun _ s' => WaitersInPlace a s' := by
  have hown : s.kernel.waiter (c.waiter a) = none := by
    by_contra hne
    rw [h.mustWait hne] at hwait
    cases hwait
  have hkernel : ((c.transfer s).goto .outside).kernel = s.kernel := by
    cases c <;> rfl
  simp only [ioqFinish, Exec.post_bind, Exec.post_modify, Exec.post_get, Exec.post_ite,
    Exec.post_pure, post_inKernel]
  rw [hkernel]
  refine ⟨fun _ => ?_, fun hnone => ?_⟩
  · refine wakeup_spec.mono fun _ k' hpost => ?_
    obtain ⟨q, _, _, _, hk'⟩ := hpost
    have hwaiter : k'.waiter = Function.update s.kernel.waiter (c.otherWaiter a) none := by
      rw [hk']
      rfl
    refine .intro c (fun hw => absurd ?_ hw) ?_
    · change k'.waiter (c.waiter a) = none
      rw [hwaiter, Function.update_of_ne c.otherWaiter_ne.symm, hown]
    · change k'.waiter (c.otherWaiter a) = none
      rw [hwaiter, Function.update_self]
  · refine .intro c (fun hw => absurd ?_ hw) ?_
    · rw [hkernel]
      exact hown
    · rw [hkernel]
      exact not_not.mp hnone

theorem ioqAcquire_inPlace (h : WaitersInPlace a s)
    (hwait : (s.kernel.semaphore a.lock).value ≠ 0 → c.mustWait s.ioq = true) :
    Exec.Ensures (ioqAcquire a c) s fun _ s' => WaitersInPlace a s' := by
  simp only [ioqAcquire, Exec.post_bind, post_inKernel]
  refine semaDown_waiter.mono fun taken k' hpost => ?_
  obtain ⟨hk', htaken⟩ := hpost
  have h' : WaitersInPlace a (s.setKernel k') := h.congr rfl fun w _ => congrFun hk' w
  simp only [Exec.post_ite, Exec.post_bind, Exec.post_modify, Exec.post_get, post_assert,
    Exec.post_set, Exec.post_pure]
  refine ⟨fun ht => ⟨fun _ => ?_, fun _ => trivial⟩, fun _ => h'⟩
  exact ioqSleep_inPlace (h'.congr rfl fun _ _ => rfl) (hwait (htaken ht))

theorem ioqTurn_inPlace (h : WaitersInPlace a s) :
    Exec.Ensures (ioqTurn a c) s fun _ s' => WaitersInPlace a s' := by
  simp only [ioqTurn, Exec.post_bind, Exec.post_get, Exec.post_ite, Exec.post_set]
  refine ⟨fun hwait => ⟨fun _ => ?_, fun _ => ?_⟩, fun hwait => ?_⟩
  · exact ioqAcquire_inPlace (h.congr rfl fun _ _ => rfl) fun _ => hwait
  · exact ioqSleep_inPlace (h.congr rfl fun _ _ => rfl) hwait
  · exact ioqFinish_inPlace h (by simpa using hwait)

theorem ioqRelease_inPlace (h : WaitersInPlace a s) :
    Exec.Ensures (ioqRelease a) s fun _ s' => WaitersInPlace a s' := by
  simp only [ioqRelease, Exec.post_bind, Exec.post_get, post_assert, Exec.post_ite, Exec.post_set,
    post_inKernel]
  refine ⟨fun _ => ⟨fun _ => h.congr rfl fun _ _ => rfl, fun _ => ⟨fun _ => ?_, fun _ => trivial⟩⟩,
    fun _ => trivial⟩
  exact semaUp_waiter.mono fun _ k' hk' => h.congr rfl fun w _ => congrFun hk' w

/-- A timely event leaves the threads that wait in the right place. -/
theorem IoqEvent.run_inPlace {e : IoqEvent} (h : WaitersInPlace a s) (he : e.Timely a s) :
    Exec.Ensures (e.run a) s fun _ s' => WaitersInPlace a s' := by
  cases e with
  | call c => exact ioqTurn_inPlace h
  | other e =>
    refine post_inKernel.mpr (Exec.ensures_iff.mpr fun u k' hrun => h.congr rfl fun w hw => ?_)
    exact (KernelEvent.run_waiter he.1.2.1 hw).of_ok hrun
  | step =>
    simp only [IoqEvent.run, ioqStep, Exec.post_bind, Exec.post_get]
    split
    · exact h
    · rename_i c hpoint
      have htimely := he.2
      rw [hpoint] at htimely
      exact ioqAcquire_inPlace h htimely
    · exact (ioqRelease_inPlace h).bind fun _ s' h' => ioqTurn_inPlace h'

end InPlace

end Winx
