import Winx.Device.IoqWaiters

/-! # Lost wakeups

The lock of the queue is taken only by a thread that goes on to wait, which
keeps it until it is woken. So a thread in `lock_acquire` is queued behind one
that waits, or somebody is on the way to the lock, and the threads in the calls
can all be blocked only if one of them waits for the queue.
-/

namespace Winx

open TaskStatus

/-- Where a thread stands agrees with the lock, the pointers and the scheduler. -/
structure InCall (a : IoqFields) (s : IoqState) (p : ℕ) : Prop where
  inLoop : s.kernel.blockedIn p = some (.semaDown a.lock) ↔ ∃ c, s.point p = .lockAcquire c
  wait : ∀ c, s.point p = .ioqWait c →
    s.kernel.waiter (c.waiter a) = some p ∨ s.kernel.threads.CanRun p
  holder : s.holder = some p → ∃ c, s.point p = .ioqWait c
  idle : p = Threads.boot.idleThread → s.point p = .outside

/-- What also holds in the middle of a call: the scheduler is in order, the lock is not nested, no
thread in `lock_acquire` is stuck, and all threads but the running one are where they seem to be. -/
structure AmidCall (a : IoqFields) (s : IoqState) : Prop where
  sched : SchedInv s.kernel
  repeatNr : s.holderRepeatNr.toNat ≤ 1
  notStuck : NotStuck s.kernel a.lock
  others : ∀ p, p ≠ s.cur → InCall a s p

/-- The lock is taken by a thread that waits. -/
def LockHeld (a : IoqFields) (s : IoqState) : Prop :=
  (s.kernel.semaphore a.lock).value = 0 → ∃ p c, s.point p = .ioqWait c

/-- What holds between the steps of the calls. -/
structure IoqInv (a : IoqFields) (s : IoqState) : Prop where
  amid : AmidCall a s
  current : InCall a s s.cur
  held : LockHeld a s

section Moves

variable {s s' : IoqState} {a : IoqFields} {c : IoqCall} {p : ℕ}

theorem IoqInv.thread (h : IoqInv a s) (p : ℕ) : InCall a s p := by
  by_cases hp : p = s.cur
  · exact hp ▸ h.current
  · exact h.amid.others p hp

/-- A thread stays where it is. -/
theorem InCall.stay (h : InCall a s p) (hpoint : s'.point p = s.point p)
    (hin : s'.kernel.blockedIn p = some (.semaDown a.lock) ↔
      s.kernel.blockedIn p = some (.semaDown a.lock))
    (hwait : ∀ c, s.point p = .ioqWait c → s.kernel.waiter (c.waiter a) = some p →
      s'.kernel.waiter (c.waiter a) = some p ∨ s'.kernel.threads.CanRun p)
    (hrun : s.point p ≠ .outside → s.kernel.threads.CanRun p → s'.kernel.threads.CanRun p)
    (hholder : s'.holder = some p → s.holder = some p) : InCall a s' p := by
  refine ⟨?_, fun c hc => ?_, fun hs' => ?_, fun hp => hpoint.trans (h.idle hp)⟩
  · rw [hin, hpoint]
    exact h.inLoop
  · rw [hpoint] at hc
    rcases h.wait c hc with hw | hcan
    · exact hwait c hc hw
    · exact Or.inr (hrun (by rw [hc]; nofun) hcan)
  · rw [hpoint]
    exact h.holder (hholder hs')

/-- Changes of the fields that only concern the running thread. -/
theorem AmidCall.congr (h : AmidCall a s) (hkernel : s'.kernel = s.kernel)
    (hnr : s'.holderRepeatNr.toNat ≤ 1) (hpoint : ∀ p, p ≠ s.cur → s'.point p = s.point p)
    (hholder : ∀ p, p ≠ s.cur → s'.holder = some p → s.holder = some p) : AmidCall a s' := by
  obtain ⟨hsched, -, hstuck, hothers⟩ := h
  refine ⟨hkernel ▸ hsched, hnr, hkernel ▸ hstuck, fun p hp => ?_⟩
  have hne : p ≠ s.cur := by
    rw [IoqState.cur, hkernel] at hp
    exact hp
  refine (hothers p hne).stay (hpoint p hne) (by rw [hkernel]) (fun c _ hw => Or.inl ?_)
    (fun _ hcan => ?_) (hholder p hne)
  · rw [hkernel]
    exact hw
  · rw [hkernel]
    exact hcan

/-- The running thread moves. -/
theorem AmidCall.goto (h : AmidCall a s) (point : IoqPoint) : AmidCall a (s.goto point) :=
  h.congr rfl h.repeatNr (fun _ hp => Function.update_of_ne hp ..) fun _ _ => id

end Moves

section Steps

variable {s s' : IoqState} {a : IoqFields} {c : IoqCall}

/-- The running thread took the lock and starts to wait. -/
theorem ioqSleep_inv (h : AmidCall a s) (hidle : s.cur ≠ Threads.boot.idleThread)
    (hval : (s.kernel.semaphore a.lock).value = 0) :
    Exec.Ensures (ioqSleep a c) s fun _ s' => IoqInv a s' := by
  have hidle' : s.kernel.cur ≠ s.kernel.threads.idleThread := by
    rw [h.sched.main.2]
    exact hidle
  simp only [ioqSleep, Exec.post_bind, Exec.post_modify, post_inKernel]
  have hcan : Exec.Ensures (ioqWait (c.waiter a)) s.kernel fun _ k' =>
      ∀ p, p ≠ s.cur → s.kernel.threads.CanRun p → k'.threads.CanRun p :=
    Exec.ensures_iff.mpr fun _ k' hrun p hp hp' => (ioqWait_canRun h.sched hp hp' _).of_ok hrun
  refine ((ioqWait_sched h.sched hidle').ensures.and (ioqWait_spec.and hcan)).mono
    fun _ k' hpost => ?_
  obtain ⟨⟨hsched, _⟩, ⟨hnone, hk'⟩, hcan⟩ := hpost
  have hwaiter : k'.waiter = Function.update s.kernel.waiter (c.waiter a) (some s.cur) := by
    rw [hk']
    rfl
  have hblocked : k'.blockedIn =
      Function.update s.kernel.blockedIn s.cur (some (.ioqWait (c.waiter a))) := by
    rw [hk']
    rfl
  have hsema : k'.semaphore = s.kernel.semaphore := by
    rw [hk']
    rfl
  -- the thread that waits, and the others
  have hthread (p : ℕ) : InCall a ((s.goto (.ioqWait c)).setKernel k') p := by
    by_cases hp : p = s.cur
    · subst hp
      have hpoint : ((s.goto (.ioqWait c)).setKernel k').point s.cur = .ioqWait c :=
        Function.update_self ..
      refine ⟨?_, fun c' hc' => ?_, fun _ => ⟨c, hpoint⟩, fun heq => absurd heq hidle⟩
      · rw [hpoint]
        change k'.blockedIn s.cur = _ ↔ _
        rw [hblocked, Function.update_self]
        simp
      · rw [hpoint] at hc'
        cases hc'
        refine Or.inl ?_
        change k'.waiter (c.waiter a) = _
        rw [hwaiter, Function.update_self]
    · refine (h.others p hp).stay (Function.update_of_ne hp ..) ?_ (fun c' _ hw => Or.inl ?_)
        (fun _ => hcan p hp) id
      · change k'.blockedIn p = _ ↔ _
        rw [hblocked, Function.update_of_ne hp]
      · change k'.waiter (c'.waiter a) = _
        have hne : c'.waiter a ≠ c.waiter a := by
          intro heq
          rw [heq, hnone] at hw
          cases hw
        rw [hwaiter, Function.update_of_ne hne]
        exact hw
  refine ⟨⟨hsched, h.repeatNr, notStuck_of_value ?_, fun p _ => hthread p⟩, hthread _, fun _ => ?_⟩
  · rw [IoqState.setKernel_kernel, hsema]
    exact hval
  · exact ⟨s.cur, c, Function.update_self ..⟩

/-- A turn of the loop of `sema_down` in `lock_acquire`. -/
theorem ioqAcquire_inv (h : AmidCall a s) (hidle : s.cur ≠ Threads.boot.idleThread)
    (hpoint : s.point s.cur = .lockAcquire c) (hholder : s.holder ≠ some s.cur)
    (hheld : LockHeld a s)
    (hadm : s.kernel.Interruptible ∨ s.kernel.blockedIn s.cur = some (.semaDown a.lock)) :
    Exec.Ensures (ioqAcquire a c) s fun _ s' => IoqInv a s' := by
  have hidle' : s.kernel.cur ≠ s.kernel.threads.idleThread := by
    rw [h.sched.main.2]
    exact hidle
  have hadm : (KernelEvent.semaDown a.lock).Admitted s.kernel := hadm.imp (⟨·, hidle'⟩) id
  have hcan : Exec.Ensures (semaDown a.lock) s.kernel fun _ k' =>
      ∀ p, p ≠ s.cur → s.kernel.threads.CanRun p → k'.threads.CanRun p :=
    Exec.ensures_iff.mpr fun _ k' hrun p hp hp' => (semaDown_canRun h.sched hp hp' _).of_ok hrun
  simp only [ioqAcquire, Exec.post_bind, post_inKernel]
  refine ((semaDown_sched h.sched hadm).ensures.and ((semaDown_notStuck h.sched hadm).and
    hcan)).mono fun taken k' ⟨⟨hsched, _, hk'⟩, hstuck, hcan⟩ => ?_
  simp only [Exec.post_ite, Exec.post_bind, Exec.post_modify, Exec.post_get, post_assert,
    Exec.post_set, Exec.post_pure]
  refine ⟨fun htaken => ⟨fun _ => ?_, fun _ => trivial⟩, fun htaken => ?_⟩
  · rw [if_pos htaken] at hk'
    obtain ⟨hval, rfl⟩ := hk'
    have hamid : AmidCall a (s.setKernel (s.kernel.taken a.lock)) := by
      refine ⟨hsched, h.repeatNr, hstuck, fun p hp => ?_⟩
      change p ≠ s.cur at hp
      refine (h.others p hp).stay rfl ?_ (fun _ _ hw => Or.inl hw) (fun _ => hcan p hp) id
      change Function.update s.kernel.blockedIn s.cur none p = _ ↔ _
      rw [Function.update_of_ne hp]
    refine ioqSleep_inv (hamid.congr rfl (Nat.le_refl 1) (fun _ _ => rfl) fun p hp hs' => ?_) hidle ?_
    · exact absurd (Option.some.inj hs').symm hp
    · refine Kernel.value_taken.trans ?_
      rw [hval]
      rfl
  · rw [if_neg htaken] at hk'
    obtain ⟨hval, hk'⟩ := hk'
    have hblocked : k'.blockedIn =
        Function.update s.kernel.blockedIn s.cur (some (.semaDown a.lock)) := by
      rw [hk']
      rfl
    have hwaiter : k'.waiter = s.kernel.waiter := by
      rw [hk']
      rfl
    have hthread (p : ℕ) : InCall a (s.setKernel k') p := by
      by_cases hp : p = s.cur
      · subst hp
        refine ⟨?_, fun c' hc' => ?_, fun hs' => absurd hs' hholder, fun heq => absurd heq hidle⟩
        · change k'.blockedIn s.cur = _ ↔ _
          rw [hblocked, Function.update_self]
          exact ⟨fun _ => ⟨c, hpoint⟩, fun _ => rfl⟩
        · rw [IoqState.setKernel_point, hpoint] at hc'
          cases hc'
      · refine (h.others p hp).stay rfl ?_ (fun _ _ hw => Or.inl ?_) (fun _ => hcan p hp) id
        · change k'.blockedIn p = _ ↔ _
          rw [hblocked, Function.update_of_ne hp]
        · change k'.waiter _ = _
          rw [hwaiter]
          exact hw
    exact ⟨⟨hsched, h.repeatNr, hstuck, fun p _ => hthread p⟩, hthread _, fun _ => hheld hval⟩

/-- The rest of a call leaves the lock alone and wakes a thread of the other side. -/
theorem ioqFinish_inv (h : AmidCall a s) (hin : s.kernel.blockedIn s.cur = none)
    (hholder : s.holder ≠ some s.cur)
    (hheld : (s.kernel.semaphore a.lock).value = 0 → ∃ p c, p ≠ s.cur ∧ s.point p = .ioqWait c) :
    Exec.Ensures (ioqFinish a c) s fun _ s' => IoqInv a s' := by
  have hkernel : ((c.transfer s).goto .outside).kernel = s.kernel := by
    cases c <;> rfl
  have hpoint : ((c.transfer s).goto .outside).point = Function.update s.point s.cur .outside := by
    cases c <;> rfl
  have hlock : ((c.transfer s).goto .outside).holder = s.holder ∧
      ((c.transfer s).goto .outside).holderRepeatNr = s.holderRepeatNr := by
    cases c <;> exact ⟨rfl, rfl⟩
  -- what a kernel that differs by a woken thread at most leaves of the invariant
  have hend (k' : Kernel) (hsched : SchedInv k') (hcur : k'.cur = s.cur)
      (hsema : k'.semaphore = s.kernel.semaphore)
      (hblocked : ∀ p, k'.blockedIn p = some (.semaDown a.lock) ↔
        s.kernel.blockedIn p = some (.semaDown a.lock))
      (hwaiter : ∀ w p, s.kernel.waiter w = some p → k'.waiter w = some p ∨ k'.threads.CanRun p)
      (hcan : ∀ p, s.kernel.threads.CanRun p → k'.threads.CanRun p) :
      IoqInv a (((c.transfer s).goto .outside).setKernel k') := by
    have hstuck : NotStuck k' a.lock := by
      intro hval hwaiters
      rw [hsema] at hval hwaiters
      obtain ⟨p, hp, hmem⟩ := h.notStuck hval hwaiters
      exact ⟨p, (hblocked p).mpr hp, hsema ▸ hmem⟩
    have hthread (p : ℕ) : InCall a (((c.transfer s).goto .outside).setKernel k') p := by
      by_cases hp : p = s.cur
      · subst hp
        have hout : (((c.transfer s).goto .outside).setKernel k').point s.cur = .outside := by
          rw [IoqState.setKernel_point, hpoint, Function.update_self]
        refine ⟨?_, fun c' hc' => ?_, fun hs' => absurd (hlock.1.symm.trans hs') hholder,
          fun _ => hout⟩
        · rw [IoqState.setKernel_kernel, hblocked, hin, hout]
          simp
        · rw [hout] at hc'
          cases hc'
      · refine (h.others p hp).stay ?_ (hblocked p) (fun c' _ => hwaiter _ p) (fun _ => hcan p)
          (fun hs' => hlock.1.symm.trans hs')
        rw [IoqState.setKernel_point, hpoint, Function.update_of_ne hp]
    refine ⟨⟨hsched, ?_, hstuck, fun p _ => hthread p⟩, hthread _, fun hval => ?_⟩
    · rw [IoqState.setKernel_holderRepeatNr, hlock.2]
      exact h.repeatNr
    · rw [IoqState.setKernel_kernel, hsema] at hval
      obtain ⟨p, c', hp, hc'⟩ := hheld hval
      refine ⟨p, c', ?_⟩
      rw [IoqState.setKernel_point, hpoint, Function.update_of_ne hp]
      exact hc'
  simp only [ioqFinish, Exec.post_bind, Exec.post_modify, Exec.post_get, Exec.post_ite,
    Exec.post_pure, post_inKernel]
  rw [hkernel]
  refine ⟨fun _ => ?_, fun _ => ?_⟩
  · have hcan : Exec.Ensures (wakeup (c.otherWaiter a)) s.kernel fun _ k' =>
        ∀ p, s.kernel.threads.CanRun p → k'.threads.CanRun p :=
      Exec.ensures_iff.mpr fun _ k' hrun p hp => (wakeup_canRun hp _).of_ok hrun
    refine ((wakeup_sched h.sched).ensures.and (wakeup_spec.and hcan)).mono
      fun _ k' hpost => ?_
    obtain ⟨⟨hsched, _⟩, ⟨q, hq, hqrun, hcur, hk'⟩, hcan⟩ := hpost
    obtain ⟨hqin, -⟩ := (h.sched.wait.thread q).waiter _ hq
    have hblocked : k'.blockedIn = Function.update s.kernel.blockedIn q none := by
      rw [hk']
      rfl
    refine hend k' hsched hcur (by rw [hk']; rfl) (fun p => ?_) (fun w p hw => ?_) hcan
    · rw [hblocked]
      refine blockedIn_update ?_ ?_ p
      · rw [hqin]
        simp
      · simp
    · by_cases hwc : w = c.otherWaiter a
      · rw [hwc, hq, Option.some.injEq] at hw
        exact Or.inr (hw ▸ hqrun)
      · refine Or.inl ?_
        rw [hk']
        exact (Function.update_of_ne hwc ..).trans hw
  · have := hend s.kernel h.sched rfl rfl (fun _ => Iff.rfl) (fun _ _ hw => Or.inl hw) fun _ => id
    rwa [← hkernel] at this

/-- A turn of the loop of a call. -/
theorem ioqTurn_inv (h : AmidCall a s) (hint : s.kernel.Interruptible)
    (hidle : s.cur ≠ Threads.boot.idleThread ∨ c.mustWait s.ioq = false)
    (hholder : s.holder ≠ some s.cur)
    (hheld : (s.kernel.semaphore a.lock).value = 0 → ∃ p c, p ≠ s.cur ∧ s.point p = .ioqWait c) :
    Exec.Ensures (ioqTurn a c) s fun _ s' => IoqInv a s' := by
  simp only [ioqTurn, Exec.post_bind, Exec.post_get, Exec.post_ite, Exec.post_set]
  refine ⟨fun hwait => ⟨fun _ => ?_, fun hnot => absurd hholder hnot⟩, fun _ => ?_⟩
  · have hidle : s.cur ≠ Threads.boot.idleThread :=
      hidle.resolve_right fun hf => by rw [hwait] at hf; cases hf
    refine ioqAcquire_inv (h.goto _) hidle (Function.update_self ..) hholder (fun hval => ?_)
      (Or.inl hint)
    obtain ⟨p, c', hp, hc'⟩ := hheld hval
    exact ⟨p, c', (Function.update_of_ne hp ..).trans hc'⟩
  · exact ioqFinish_inv h hint.1 hholder hheld

/-- `lock_release` frees the lock and puts a thread that is queued for it on its way. -/
theorem ioqRelease_spec (h : IoqInv a s) (hint : s.kernel.Interruptible) :
    Exec.Ensures (ioqRelease a) s fun _ s' => AmidCall a s' ∧ s'.kernel.Interruptible ∧
      s'.cur = s.cur ∧ s'.holder = none ∧ (s'.kernel.semaphore a.lock).value = 1 := by
  have hcan : Exec.Ensures (semaUp a.lock) s.kernel fun _ k' =>
      ∀ p, s.kernel.threads.CanRun p → k'.threads.CanRun p :=
    Exec.ensures_iff.mpr fun _ k' hrun p hp => (semaUp_canRun hp _).of_ok hrun
  simp only [ioqRelease, Exec.post_bind, Exec.post_get, post_assert, Exec.post_ite, Exec.post_set,
    post_inKernel]
  refine ⟨fun _ => ⟨fun hgt => ?_, fun _ => ⟨fun _ => ?_, fun _ => trivial⟩⟩, fun _ => trivial⟩
  · have hlt := UInt32.lt_iff_toNat_lt.mp hgt
    exact absurd h.amid.repeatNr (by simpa using hlt)
  · refine ((semaUp_sched h.amid.sched).ensures.and ((semaUp_notStuck h.amid.sched).and
      hcan)).mono fun _ k' hpost => ?_
    obtain ⟨⟨hsched, hquiet, _, hcur, hk'⟩, hstuck, hcan⟩ := hpost
    have hblocked : k'.blockedIn = s.kernel.blockedIn := by
      rw [hk']
      rfl
    have hwaiter : k'.waiter = s.kernel.waiter := by
      rw [hk']
      rfl
    refine ⟨⟨hsched, Nat.zero_le 1, hstuck, fun p _ => ?_⟩, ?_, hcur, rfl, ?_⟩
    · refine (h.thread p).stay rfl ?_ (fun _ _ hw => Or.inl ?_) (fun _ => hcan p) (by simp)
      · change k'.blockedIn p = _ ↔ _
        rw [hblocked]
      · change k'.waiter _ = _
        rw [hwaiter]
        exact hw
    · obtain ⟨t, ht, -⟩ := h.amid.sched.cur_running
      obtain ⟨st, hst, -⟩ := hquiet.1.pcb _ t ht
      have hwait := hint.2
      rw [ht] at hwait
      refine ⟨?_, ?_⟩
      · change k'.blockedIn k'.cur = none
        rw [hblocked, hcur]
        exact hint.1
      · change (k'.threads.pcb k'.cur).any _ = true
        rw [hcur, hst]
        exact hwait
    · change (k'.semaphore a.lock).value = 1
      rw [hk', Kernel.setThreads_semaphore, Kernel.setSemaphore_semaphore, Function.update_self]

/-- Every event keeps the invariant. -/
theorem IoqEvent.run_inv {e : IoqEvent} (h : IoqInv a s) (he : e.Admitted s a) :
    Exec.Ensures (e.run a) s fun _ s' => IoqInv a s' := by
  have hholder (hpoint : s.point s.cur = .outside ∨ ∃ c, s.point s.cur = .lockAcquire c) :
      s.holder ≠ some s.cur := by
    intro hs
    obtain ⟨c, hc⟩ := h.current.holder hs
    rcases hpoint with hpoint | ⟨_, hpoint⟩ <;>
    · rw [hc] at hpoint
      cases hpoint
  cases e with
  | call c =>
    obtain ⟨hint, hout, hidle⟩ := he
    rw [h.amid.sched.main.2] at hidle
    refine ioqTurn_inv h.amid hint hidle (hholder (Or.inl hout)) fun hval => ?_
    obtain ⟨p, c', hc'⟩ := h.held hval
    refine ⟨p, c', ?_, hc'⟩
    rintro rfl
    rw [hout] at hc'
    cases hc'
  | other e =>
    obtain ⟨hadm, huses, hout⟩ := he
    have hlock : ¬ e.Uses a.lock := by
      intro huse
      cases e <;> first | exact huses huse | exact huse
    have hcan : Exec.Ensures e.run s.kernel fun _ k' =>
        ∀ p, p ≠ s.cur → s.kernel.threads.CanRun p → k'.threads.CanRun p :=
      Exec.ensures_iff.mpr fun _ k' hrun p hp hp' =>
        (KernelEvent.run_canRun h.amid.sched hadm hp hp').of_ok hrun
    have hwaiter : Exec.Ensures e.run s.kernel fun _ k' =>
        ∀ w, w = a.producer ∨ w = a.consumer → k'.waiter w = s.kernel.waiter w :=
      Exec.ensures_iff.mpr fun _ k' hrun w hw => (KernelEvent.run_waiter huses hw).of_ok hrun
    refine post_inKernel.mpr (((e.run_schedInv h.amid.sched hadm).ensures.and
      ((e.run_sameWaiters h.amid.sched hadm hlock).and (hcan.and hwaiter))).mono
        fun _ k' hpost => ?_)
    obtain ⟨hsched, hsame, hcan, hwaiter⟩ := hpost
    have hthread (p : ℕ) : InCall a (s.setKernel k') p := by
      refine (h.thread p).stay rfl (hsame.2 p) (fun c _ hw => Or.inl ?_) (fun hp => hcan p ?_) id
      · refine (hwaiter _ ?_).trans hw
        cases c with
        | ioqGetchar => exact Or.inr rfl
        | ioqPutchar byte => exact Or.inl rfl
      · rintro rfl
        exact hp hout
    refine ⟨⟨hsched, h.amid.repeatNr, h.amid.notStuck.of_sameWaiters hsame, fun p _ => hthread p⟩,
      hthread _, fun hval => h.held ?_⟩
    rwa [IoqState.setKernel_kernel, hsame.1] at hval
  | step =>
    obtain ⟨hin, hadm⟩ := he
    have hidle : s.cur ≠ Threads.boot.idleThread := fun heq => hin (h.current.idle heq)
    simp only [IoqEvent.run, ioqStep, Exec.post_bind, Exec.post_get]
    split
    · exact h
    · rename_i c hpoint
      exact ioqAcquire_inv h.amid hidle hpoint (hholder (Or.inr ⟨c, hpoint⟩)) h.held hadm
    · rename_i c hpoint
      have hint : s.kernel.Interruptible := by
        refine hadm.resolve_right fun hloop => ?_
        obtain ⟨_, hc⟩ := h.current.inLoop.mp hloop
        rw [hc] at hpoint
        cases hpoint
      refine (ioqRelease_spec h hint).bind
        fun _ s' hpost => ?_
      obtain ⟨hamid, hint', hcur, hfree, hval⟩ := hpost
      refine ioqTurn_inv hamid hint' (Or.inl (hcur ▸ hidle)) (by simp [hfree]) fun hzero => ?_
      rw [hval] at hzero
      cases hzero

end Steps

section Run

variable {s : IoqState} {a : IoqFields} {value : ℕ → UInt8} {buf : Bytes}

theorem ioqInv_boot : IoqInv a (IoqState.boot a value buf) := by
  have hthread (p : ℕ) : InCall a (IoqState.boot a value buf) p :=
    ⟨⟨nofun, fun ⟨_, h⟩ => nomatch h⟩, nofun, nofun, fun _ => rfl⟩
  refine ⟨⟨schedInv_boot _, Nat.zero_le 1, fun _ hwaiters => absurd rfl hwaiters,
    fun p _ => hthread p⟩, hthread _, fun hval => ?_⟩
  change Function.update value a.lock 1 a.lock = 0 at hval
  rw [Function.update_self] at hval
  cases hval

theorem IoqState.Run.inv (h : IoqState.Run a value buf s) : IoqInv a s :=
  h.invariant ioqInv_boot fun _ _ hI he => IoqEvent.run_inv hI he

/-- A thread that can run is not blocked. -/
theorem Threads.CanRun.not_blocked {t : Threads} {p : ℕ} (h : t.CanRun p) : ¬ t.Blocked p := by
  obtain ⟨u, hu, hrun⟩ := h
  rintro ⟨v, hv, hblocked⟩
  obtain rfl := Option.some.inj (hu.symm.trans hv)
  rw [hblocked] at hrun
  rcases hrun with hrun | hrun <;> cases hrun

/-- If all threads in the calls are blocked, then one of them waits for the queue. -/
theorem IoqInv.waiter_of_blocked (h : IoqInv a s) (hin : ∃ p, s.point p ≠ .outside)
    (hall : ∀ p, s.point p ≠ .outside → s.kernel.threads.Blocked p) :
    s.kernel.waiter a.consumer ≠ none ∨ s.kernel.waiter a.producer ≠ none := by
  have hwait (p : ℕ) (c : IoqCall) (hc : s.point p = .ioqWait c) :
      s.kernel.waiter a.consumer ≠ none ∨ s.kernel.waiter a.producer ≠ none := by
    rcases (h.thread p).wait c hc with hw | hcan
    · cases c with
      | ioqGetchar => exact Or.inl (by rw [show s.kernel.waiter a.consumer = some p from hw]; nofun)
      | ioqPutchar byte =>
        exact Or.inr (by rw [show s.kernel.waiter a.producer = some p from hw]; nofun)
    · exact absurd (hall p (by rw [hc]; nofun)) hcan.not_blocked
  -- a thread on its way to the lock would not be blocked
  have hpopped (p : ℕ) (hp : Popped s.kernel a.lock p) : False := by
    obtain ⟨c, hc⟩ := (h.thread p).inLoop.mp hp.1
    have hcan : s.kernel.threads.CanRun p := (h.amid.sched.wait.thread p).woken _ hp.1 hp.2
    exact hcan.not_blocked (hall p (by rw [hc]; nofun))
  obtain ⟨p, hp⟩ := hin
  cases hpoint : s.point p with
  | outside => exact absurd hpoint hp
  | ioqWait c => exact hwait p c hpoint
  | lockAcquire c =>
    by_cases hval : (s.kernel.semaphore a.lock).value = 0
    · obtain ⟨q, c', hc'⟩ := h.held hval
      exact hwait q c' hc'
    · by_cases hqueue : (s.kernel.semaphore a.lock).waiters = []
      · refine (hpopped p ⟨(h.thread p).inLoop.mpr ⟨c, hpoint⟩, ?_⟩).elim
        rw [hqueue]
        nofun
      · obtain ⟨q, hq⟩ := h.amid.notStuck hval hqueue
        exact (hpopped q hq).elim

/-- In every run in which each thread that had to queue for the lock finds the queue as it was when
it gets the lock, threads wait for what is not there only, and the threads in the calls are never
all blocked while the queue is neither empty nor full. -/
theorem no_lost_wakeup_of_run
    (h : Exec.Run (IoqEvent.run a) (fun s e => e.Timely a s) (IoqState.boot a value buf) s) :
    WaitersInPlace a s ∧ ¬ Stranded s := by
  have hplace : WaitersInPlace a s :=
    h.invariant ⟨fun hw => absurd rfl hw, fun hw => absurd rfl hw⟩ fun _ _ hI he =>
      IoqEvent.run_inPlace hI he
  refine ⟨hplace, fun ⟨hin, hall, hempty, hfull⟩ => ?_⟩
  have hrun : IoqState.Run a value buf s := h.mono fun _ _ he => he.1
  rcases hrun.inv.waiter_of_blocked hin hall with hw | hw
  · rw [hplace.1 hw] at hempty
    cases hempty
  · rw [hplace.2 hw] at hfull
    cases hfull

/-- `main` waits for a byte, `init` queues for the lock behind it, and no byte has come yet. -/
theorem no_lost_wakeup_of_run_two : ∃ s,
    Exec.Run (IoqEvent.run ⟨0, 0, 1, Nat.zero_ne_one⟩)
      (fun s e => e.Timely ⟨0, 0, 1, Nat.zero_ne_one⟩ s)
      (IoqState.boot ⟨0, 0, 1, Nat.zero_ne_one⟩ (fun _ => 0) Bytes.zero) s ∧
    s.kernel.waiter 1 = some 1 ∧ s.point 0 = .lockAcquire .ioqGetchar ∧
    WaitersInPlace ⟨0, 0, 1, Nat.zero_ne_one⟩ s ∧ ¬ Stranded s := by
  have h : (Exec.runList (IoqEvent.run ⟨0, 0, 1, Nat.zero_ne_one⟩)
      (fun s e => e.Timely ⟨0, 0, 1, Nat.zero_ne_one⟩ s)
      [.call .ioqGetchar, .call .ioqGetchar]
      (IoqState.boot ⟨0, 0, 1, Nat.zero_ne_one⟩ (fun _ => 0) Bytes.zero)).any
        (fun s => s.kernel.waiter 1 == some 1 && s.point 0 == .lockAcquire .ioqGetchar) = true := by
    decide +kernel
  obtain ⟨s, hrun, hs⟩ := Exec.Run.exists_of_any h
  obtain ⟨hwaiter, hpoint⟩ : s.kernel.waiter 1 = some 1 ∧ s.point 0 = .lockAcquire .ioqGetchar := by
    simpa using hs
  exact ⟨s, hrun, hwaiter, hpoint, no_lost_wakeup_of_run hrun⟩

/-- The threads in the calls exist. -/
theorem IoqInv.lt_nextPcb (h : IoqInv a s) {p : ℕ} (hp : s.point p ≠ .outside) :
    p < s.kernel.threads.nextPcb := by
  have hready := h.amid.sched.ready
  cases hpoint : s.point p with
  | outside => exact absurd hpoint hp
  | lockAcquire c =>
    by_contra hle
    have hin := (h.thread p).inLoop.mpr ⟨c, hpoint⟩
    rw [(h.amid.sched.wait.fresh p (by omega)).1] at hin
    cases hin
  | ioqWait c =>
    rcases (h.thread p).wait c hpoint with hw | ⟨t, ht, -⟩
    · obtain ⟨-, t, ht, -⟩ := (h.amid.sched.wait.thread p).waiter _ hw
      exact hready.lt_nextPcb ht
    · exact hready.lt_nextPcb ht

/-- `main` waits for a byte and `init` for the lock. An interrupt inserts two bytes, `main` takes
one, and `init` gets the lock and goes to sleep beside the other. -/
theorem not_no_lost_wakeup_of_run : ∃ s,
    IoqState.Run ⟨0, 0, 1, Nat.zero_ne_one⟩ (fun _ => 0) Bytes.zero s ∧
    s.kernel.waiter 1 ≠ none ∧ ioqEmpty s.ioq = false ∧ Stranded s := by
  have h : (Exec.runList (IoqEvent.run ⟨0, 0, 1, Nat.zero_ne_one⟩)
      (fun s e => e.Admitted s ⟨0, 0, 1, Nat.zero_ne_one⟩)
      [.call .ioqGetchar, .call .ioqGetchar, .call (.ioqPutchar 7), .call (.ioqPutchar 8),
        .other .tick, .step, .other .tick, .step]
      (IoqState.boot ⟨0, 0, 1, Nat.zero_ne_one⟩ (fun _ => 0) Bytes.zero)).any
        (fun s => s.kernel.waiter 1 == some 0 && s.kernel.threads.nextPcb == 3 &&
          (List.range 3).all (fun p => s.point p == .outside ||
            (s.kernel.threads.pcb p).any fun t => t.status == taskBlocked) &&
          s.point 0 == .ioqWait .ioqGetchar && !ioqEmpty s.ioq && !ioqFull s.ioq) = true := by
    decide +kernel
  obtain ⟨s, hrun, hs⟩ := Exec.Run.exists_of_any h
  simp only [Bool.and_eq_true, beq_iff_eq, List.all_eq_true, List.mem_range, Bool.or_eq_true,
    Bool.not_eq_true', Option.any_eq_true_iff_get] at hs
  obtain ⟨⟨⟨⟨⟨hwaiter, hnext⟩, hall⟩, hpoint⟩, hempty⟩, hfull⟩ := hs
  refine ⟨s, hrun, by rw [hwaiter]; nofun, hempty, ⟨0, by rw [hpoint]; nofun⟩, fun p hp => ?_,
    hempty, hfull⟩
  have hlt := (IoqState.Run.inv hrun).lt_nextPcb hp
  rw [hnext] at hlt
  obtain ⟨hsome, hst⟩ := (hall p hlt).resolve_left hp
  exact ⟨_, (Option.some_get hsome).symm, hst⟩

end Run

end Winx
