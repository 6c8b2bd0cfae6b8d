import Winx.Userprog.ProcessCalls

/-! # The scheduler

Between events one thread runs, the ready list holds the ready threads, and a
thread that is queued on a semaphore or noted in a queue is blocked inside of
that call, so its list node is in one list at most. Every event keeps this, and
the assertions of the scheduler hold.
-/

namespace Winx

open TaskStatus

/-- What the waiters of semaphores and queues have to do with a thread. Inside of the loop of
`sema_down`, a thread that is not queued was woken, and runs or is ready. -/
structure WaitOk (k : Kernel) (p : ℕ) : Prop where
  waiters : ∀ psema, p ∈ (k.semaphore psema).waiters →
    k.blockedIn p = some (.semaDown psema) ∧ ∃ t, k.threads.pcb p = some t ∧ t.status = taskBlocked
  woken : ∀ psema, k.blockedIn p = some (.semaDown psema) → p ∉ (k.semaphore psema).waiters →
    ∃ t, k.threads.pcb p = some t ∧ t.status.Runnable
  waiter : ∀ w, k.waiter w = some p →
    k.blockedIn p = some (.ioqWait w) ∧ ∃ t, k.threads.pcb p = some t ∧ t.status = taskBlocked

/-- The waiters of semaphores and queues are in order. -/
structure WaitInv (k : Kernel) : Prop where
  thread : ∀ p, WaitOk k p
  nodup : ∀ psema, (k.semaphore psema).waiters.Nodup
  idle : k.blockedIn k.threads.idleThread = none
  fresh : ∀ p, k.threads.nextPcb ≤ p → k.blockedIn p = none ∧ k.inSyscall p = none

/-- The invariant of the scheduler. The pointers to `main` and the idle thread are set once. -/
structure SchedInv (k : Kernel) : Prop where
  ready : ReadyInv (some k.cur) k.threads
  wait : WaitInv k
  main : k.threads.mainThread = Threads.boot.mainThread ∧
    k.threads.idleThread = Threads.boot.idleThread

/-- An assertion that is not one of the scheduler: those of semaphores and queues about their own
fields, and the panic of a process without parent that exits. -/
def KernelEvent.OwnAssertion (k : Kernel) : KernelEvent → Prop
  | .semaDown psema => 1 < (k.semaphore psema).value
  | .semaUp psema => (k.semaphore psema).value ≠ 0
  | .ioqWait w => k.waiter w ≠ none
  | .wakeup w => k.waiter w = none
  | .exitBegin _ => (k.threads.pcb k.cur).any fun t => t.parentPid = -1
  | _ => False

section Moves

variable {k k' : Kernel} {s s' : Threads} {p : ℕ} {t : TaskStruct}

/-- Changes to the threads that matter to none that is blocked in a call. -/
theorem WaitInv.setThreads (h : WaitInv k) (hidle : s.idleThread = k.threads.idleThread)
    (hnext : k.threads.nextPcb ≤ s.nextPcb)
    (hblocked : ∀ p t, k.threads.pcb p = some t → k.blockedIn p ≠ none → t.status = taskBlocked →
      ∃ u, s.pcb p = some u ∧ u.status = taskBlocked)
    (hrunnable : ∀ p t, k.threads.pcb p = some t → k.blockedIn p ≠ none → t.status.Runnable →
      ∃ u, s.pcb p = some u ∧ u.status.Runnable) : WaitInv (k.setThreads s) where
  thread p := by
    refine ⟨fun psema hp => ?_, fun psema hin hp => ?_, fun w hp => ?_⟩
    · obtain ⟨hin, t, ht, hst⟩ := (h.thread p).waiters psema hp
      exact ⟨hin, hblocked p t ht (by rw [hin]; nofun) hst⟩
    · obtain ⟨t, ht, hst⟩ := (h.thread p).woken psema hin hp
      exact hrunnable p t ht (fun hnone => nomatch hnone.symm.trans hin) hst
    · obtain ⟨hin, t, ht, hst⟩ := (h.thread p).waiter w hp
      exact ⟨hin, hblocked p t ht (by rw [hin]; nofun) hst⟩
  nodup := h.nodup
  idle := by
    rw [Kernel.setThreads_threads, hidle]
    exact h.idle
  fresh p hp := h.fresh p (hnext.trans hp)

theorem WaitInv.rescheduled (h : WaitInv k) (hrel : Rescheduled k.threads s) :
    WaitInv (k.setThreads s) := by
  have hmove (p : ℕ) (t : TaskStruct) (ht : k.threads.pcb p = some t) (hin : k.blockedIn p ≠ none) :
      ∃ u, s.pcb p = some u ∧
        (u.status = t.status ∨ t.status.Runnable ∧ u.status.Runnable) := by
    obtain ⟨st, hst, hmove⟩ := hrel.pcb p t ht
    refine ⟨_, hst, ?_⟩
    rcases hmove with hsame | ⟨hrun | rfl, hrun'⟩
    · exact Or.inl hsame
    · exact Or.inr ⟨hrun, hrun'⟩
    · exact absurd h.idle hin
  refine h.setThreads hrel.idleThread hrel.nextPcb.ge (fun p t ht hin hst => ?_)
    fun p t ht hin hst => ?_
  · obtain ⟨u, hu, hsame | ⟨hrun, -⟩⟩ := hmove p t ht hin
    · exact ⟨u, hu, hsame.trans hst⟩
    · rw [hst] at hrun
      rcases hrun with hrun | hrun <;> cases hrun
  · obtain ⟨u, hu, hsame | ⟨-, hrun⟩⟩ := hmove p t ht hin
    · exact ⟨u, hu, hsame ▸ hst⟩
    · exact ⟨u, hu, hrun⟩

/-- A step that concerns one thread keeps the waiters in order if that thread is. -/
theorem WaitInv.move (h : WaitInv k) (ht : p < k.threads.nextPcb) (hp : WaitOk k' p)
    (hidle : p = k.threads.idleThread → k'.blockedIn p = none)
    (hnodup : ∀ psema, (k'.semaphore psema).waiters.Nodup)
    (hblocked : ∀ q, q ≠ p → k'.blockedIn q = k.blockedIn q)
    (hpcb : ∀ q, q ≠ p → k'.threads.pcb q = k.threads.pcb q)
    (hwaiters : ∀ psema q, q ≠ p →
      (q ∈ (k'.semaphore psema).waiters ↔ q ∈ (k.semaphore psema).waiters))
    (hwaiter : ∀ w q, q ≠ p → k'.waiter w = some q → k.waiter w = some q)
    (hidle' : k'.threads.idleThread = k.threads.idleThread)
    (hnext : k'.threads.nextPcb = k.threads.nextPcb) (hsyscall : k'.inSyscall = k.inSyscall) :
    WaitInv k' where
  thread q := by
    by_cases hq : q = p
    · exact hq ▸ hp
    · obtain ⟨h₁, h₂, h₃⟩ := h.thread q
      refine ⟨fun psema hmem => ?_, fun psema hin hmem => ?_, fun w hw => ?_⟩
      · rw [hblocked q hq, hpcb q hq]
        exact h₁ psema ((hwaiters psema q hq).mp hmem)
      · rw [hpcb q hq]
        exact h₂ psema ((hblocked q hq).symm.trans hin) fun hmem' =>
          hmem ((hwaiters psema q hq).mpr hmem')
      · rw [hblocked q hq, hpcb q hq]
        exact h₃ w (hwaiter w q hq hw)
  nodup := hnodup
  idle := by
    rw [hidle']
    by_cases hq : k.threads.idleThread = p
    · exact hq ▸ hidle hq.symm
    · rw [hblocked _ hq]
      exact h.idle
  fresh q hq := by
    rw [hnext] at hq
    rw [hblocked q (by omega), hsyscall]
    exact h.fresh q hq

end Moves

/-- Kernels between which no system call of a process made progress. -/
def Quiet (k k' : Kernel) : Prop :=
  Shuffled k.threads k'.threads ∧ k'.inSyscall = k.inSyscall

section Specs

variable {k : Kernel} {psema w : ℕ} {p : ℕ} {t : TaskStruct}

theorem SchedInv.cur_running (h : SchedInv k) :
    ∃ t, k.threads.pcb k.cur = some t ∧ t.status = taskRunning := by
  obtain ⟨t, ht⟩ := h.ready.present _ rfl
  exact ⟨t, ht, (h.ready.running _ t ht).mpr rfl⟩

theorem ReadyInv.lt_nextPcb {run : Option ℕ} {s : Threads} (h : ReadyInv run s)
    (ht : s.pcb p = some t) : p < s.nextPcb := by
  by_contra hle
  rw [h.fresh p (by omega)] at ht
  cases ht

/-- The running thread is in no list and waits for no queue. -/
theorem SchedInv.not_blocked (h : SchedInv k) (ht : k.threads.pcb k.cur = some t) :
    t.status ≠ taskBlocked := by
  rw [(h.ready.running _ t ht).mpr rfl]
  decide

theorem SchedInv.notMem_waiters (h : SchedInv k) (psema : ℕ) :
    k.cur ∉ (k.semaphore psema).waiters := by
  intro hmem
  obtain ⟨-, t, ht, hst⟩ := (h.wait.thread _).waiters psema hmem
  exact h.not_blocked ht hst

theorem SchedInv.waiter_ne (h : SchedInv k) (w : ℕ) : k.waiter w ≠ some k.cur := by
  intro hw
  obtain ⟨-, t, ht, hst⟩ := (h.wait.thread _).waiter w hw
  exact h.not_blocked ht hst

/-- The running thread, noted as a waiter in `k'`, blocks. -/
theorem threadBlock_waiter (k' : Kernel) (h : SchedInv k) (ht : k.threads.pcb k.cur = some t)
    (hthreads : k'.threads = k.threads) (hsyscall : k'.inSyscall = k.inSyscall)
    (hwait : WaitInv (k'.setThreads (k.threads.setPcb k.cur (some (t.setStatus taskBlocked))))) :
    Exec.Returns (threadBlock taskBlocked) k'.threads fun _ s =>
      SchedInv (k'.setThreads s) ∧ Quiet k (k'.setThreads s) := by
  rw [hthreads]
  refine (threadBlock_running h.ready ht (Or.inl rfl)).mono fun _ s ⟨hready, hrel⟩ => ?_
  refine ⟨⟨hready, hwait.rescheduled hrel, ?_⟩, ?_, hsyscall⟩
  · rw [Kernel.setThreads_threads, hrel.mainThread, hrel.idleThread]
    exact h.main
  · have hblock : Shuffled k.threads (k.threads.setPcb k.cur (some (t.setStatus taskBlocked))) :=
      .of_update ht ⟨Or.inr (Or.inl ((h.ready.running _ t ht).mpr rfl)), Or.inl rfl⟩
        rfl rfl rfl rfl rfl rfl
    exact hblock.trans hrel.shuffled

/-- The running thread queued on a semaphore, before it blocks. -/
def Kernel.queued (k : Kernel) (psema : ℕ) : Kernel :=
  (k.setSemaphore psema ⟨(k.semaphore psema).value, (k.semaphore psema).waiters ++ [k.cur]⟩).setBlockedIn
    k.cur (some (.semaDown psema))

/-- The running thread has taken a semaphore. -/
def Kernel.taken (k : Kernel) (psema : ℕ) : Kernel :=
  (k.setBlockedIn k.cur none).setSemaphore psema
    ⟨(k.semaphore psema).value - 1, (k.semaphore psema).waiters⟩

theorem Kernel.waiters_queued (psema' : ℕ) : ((k.queued psema).semaphore psema').waiters =
    if psema' = psema then (k.semaphore psema).waiters ++ [k.cur]
    else (k.semaphore psema').waiters := by
  simp only [queued, setBlockedIn_semaphore, setSemaphore_semaphore, Function.update_apply]
  split <;> rfl

theorem Kernel.waiters_taken (psema' : ℕ) :
    ((k.taken psema).semaphore psema').waiters = (k.semaphore psema').waiters := by
  simp only [taken, setSemaphore_semaphore, setBlockedIn_semaphore, Function.update_apply]
  split
  · rename_i heq
    rw [heq]
  · rfl

theorem Kernel.value_queued :
    ((k.queued psema).semaphore psema).value = (k.semaphore psema).value := by
  rw [queued, setBlockedIn_semaphore, setSemaphore_semaphore, Function.update_self]

theorem Kernel.value_taken :
    ((k.taken psema).semaphore psema).value = (k.semaphore psema).value - 1 := by
  rw [taken, setSemaphore_semaphore, Function.update_self]

theorem SchedInv.wait_queued (h : SchedInv k) (ht : k.threads.pcb k.cur = some t)
    (hidle : k.cur ≠ k.threads.idleThread) :
    WaitInv ((k.queued psema).setThreads
      (k.threads.setPcb k.cur (some (t.setStatus taskBlocked)))) := by
  have hin : (k.queued psema).blockedIn k.cur = some (.semaDown psema) := Function.update_self ..
  have hpcb : (k.threads.setPcb k.cur (some (t.setStatus taskBlocked))).pcb k.cur =
      some (t.setStatus taskBlocked) := Function.update_self ..
  refine h.wait.move (p := k.cur) (h.ready.lt_nextPcb ht) ⟨?_, ?_, ?_⟩
    (fun heq => absurd heq hidle) ?_ ?_ ?_ ?_ (fun _ _ _ => id) rfl rfl rfl
  · intro psema' hmem
    rw [Kernel.setThreads_semaphore, Kernel.waiters_queued] at hmem
    by_cases heq : psema' = psema
    · exact ⟨heq ▸ hin, _, hpcb, rfl⟩
    · rw [if_neg heq] at hmem
      exact absurd hmem (h.notMem_waiters psema')
  · intro psema' hin' hmem
    rw [Kernel.setThreads_blockedIn, hin, Option.some.injEq, BlockedIn.semaDown.injEq] at hin'
    rw [Kernel.setThreads_semaphore, Kernel.waiters_queued, if_pos hin'.symm] at hmem
    exact absurd (List.mem_append_right _ List.mem_cons_self) hmem
  · exact fun w hw => absurd hw (h.waiter_ne w)
  · intro psema'
    rw [Kernel.setThreads_semaphore, Kernel.waiters_queued]
    split
    · exact (h.wait.nodup psema).append (List.nodup_singleton _)
        (by simpa using h.notMem_waiters psema)
    · exact h.wait.nodup psema'
  · exact fun q hq => Function.update_of_ne hq ..
  · exact fun q hq => Function.update_of_ne hq ..
  · intro psema' q hq
    rw [Kernel.setThreads_semaphore, Kernel.waiters_queued]
    split
    · rename_i heq
      simp [heq, hq]
    · rfl

theorem SchedInv.wait_taken (h : SchedInv k) (ht : k.threads.pcb k.cur = some t) :
    WaitInv (k.taken psema) := by
  have hin : (k.taken psema).blockedIn k.cur = none := Function.update_self ..
  refine h.wait.move (p := k.cur) (h.ready.lt_nextPcb ht) ⟨?_, ?_, ?_⟩ (fun _ => hin) ?_ ?_
    (fun _ _ => rfl) ?_ (fun _ _ _ => id) rfl rfl rfl
  · intro psema' hmem
    rw [Kernel.waiters_taken] at hmem
    exact absurd hmem (h.notMem_waiters psema')
  · intro psema' hin'
    rw [hin] at hin'
    cases hin'
  · exact fun w hw => absurd hw (h.waiter_ne w)
  · intro psema'
    rw [Kernel.waiters_taken]
    exact h.wait.nodup psema'
  · exact fun q hq => Function.update_of_ne hq ..
  · intro psema' q hq
    rw [Kernel.waiters_taken]

theorem Shuffled.refl (s : Threads) : Shuffled s s := (Rescheduled.refl s).shuffled

theorem semaDown_sched (h : SchedInv k) (hadm : (KernelEvent.semaDown psema).Admitted k) :
    Exec.Post (semaDown psema) k
      (fun taken k' => SchedInv k' ∧ Quiet k k' ∧
        if taken then (k.semaphore psema).value = 1 ∧ k' = k.taken psema
        else (k.semaphore psema).value = 0 ∧ k' = (k.queued psema).setThreads k'.threads)
      (fun _ => 1 < (k.semaphore psema).value) := by
  obtain ⟨t, ht, hrun⟩ := h.cur_running
  have hidle : k.cur ≠ k.threads.idleThread := by
    rcases hadm with ⟨-, hne⟩ | hin
    · exact hne
    · intro heq
      rw [heq, h.wait.idle] at hin
      cases hin
  simp only [semaDown, Exec.post_bind, Exec.post_get, Exec.post_ite, post_assert, Exec.post_modify,
    post_onThreads, Exec.post_pure]
  constructor
  · refine fun hval => ⟨fun hnot => ?_, fun hmem => absurd (h.notMem_waiters psema) hmem⟩
    have hblock := threadBlock_waiter (k.queued psema) h ht rfl rfl (h.wait_queued ht hidle)
    exact hblock.post fun _ _ h' => ⟨h'.1, h'.2, hval, rfl⟩
  · refine fun hval => ⟨fun hone => ⟨⟨?_, h.wait_taken ht, h.main⟩, ⟨.refl _, rfl⟩, ?_, rfl⟩,
      fun hone => ?_⟩
    · exact h.ready
    · rw [← UInt8.sub_add_cancel (k.semaphore psema).value 1, hone]
      rfl
    · have hne : (k.semaphore psema).value ≠ 1 := by
        intro heq
        rw [heq] at hone
        exact hone rfl
      rw [UInt8.lt_iff_toNat_lt]
      have h0 : (k.semaphore psema).value.toNat ≠ 0 := fun h0 => hval (UInt8.toNat_inj.mp h0)
      have h1 : (k.semaphore psema).value.toNat ≠ 1 := fun h1 => hne (UInt8.toNat_inj.mp h1)
      change 1 < (k.semaphore psema).value.toNat
      omega

/-- The first waiter of a semaphore popped and ready. -/
def Kernel.popped (k : Kernel) (psema p : ℕ) (t : TaskStruct) (sema : Semaphore) : Kernel :=
  (k.setSemaphore psema sema).setThreads (k.threads.unblocked p t)

theorem Kernel.waiters_popped {rest : List ℕ} {sema : Semaphore}
    (hw : (k.semaphore psema).waiters = p :: rest) (hrest : sema.waiters = rest) (psema' q : ℕ)
    (hq : q ≠ p) :
    q ∈ ((k.popped psema p t sema).semaphore psema').waiters ↔
      q ∈ (k.semaphore psema').waiters := by
  simp only [popped, setThreads_semaphore, setSemaphore_semaphore, Function.update_apply]
  split
  · rename_i heq
    rw [heq, hw, hrest, List.mem_cons, or_iff_right hq]
  · rfl

theorem SchedInv.wait_popped (h : SchedInv k) {rest : List ℕ} {sema : Semaphore}
    (hw : (k.semaphore psema).waiters = p :: rest) (hrest : sema.waiters = rest)
    (ht : k.threads.pcb p = some t) : WaitInv (k.popped psema p t sema) := by
  have hp : p ∈ (k.semaphore psema).waiters := hw ▸ List.mem_cons_self
  have hnodup := h.wait.nodup psema
  rw [hw, List.nodup_cons] at hnodup
  obtain ⟨hin, -⟩ := (h.wait.thread p).waiters psema hp
  refine h.wait.move (h.ready.lt_nextPcb ht) ⟨?_, ?_, ?_⟩ ?_ ?_ (fun _ _ => rfl) ?_
    (Kernel.waiters_popped hw hrest) (fun _ _ _ => id) rfl rfl rfl
  · intro psema' hmem
    exfalso
    simp only [Kernel.popped, Kernel.setThreads_semaphore, Kernel.setSemaphore_semaphore,
      Function.update_apply] at hmem
    split at hmem
    · exact hnodup.1 (hrest ▸ hmem)
    · rename_i hne
      have hin' := ((h.wait.thread p).waiters psema' hmem).1
      rw [hin, Option.some.injEq, BlockedIn.semaDown.injEq] at hin'
      exact hne hin'.symm
  · exact fun _ _ _ => ⟨_, Function.update_self .., Or.inr rfl⟩
  · intro w hwait
    have hin' := ((h.wait.thread p).waiter w hwait).1
    rw [hin] at hin'
    cases hin'
  · intro heq
    rw [heq, h.wait.idle] at hin
    cases hin
  · intro psema'
    simp only [Kernel.popped, Kernel.setThreads_semaphore, Kernel.setSemaphore_semaphore,
      Function.update_apply]
    split
    · exact hrest ▸ hnodup.2
    · exact h.wait.nodup psema'
  · exact fun q hq => Function.update_of_ne hq ..

/-- A blocked thread is made ready. -/
theorem Shuffled.unblocked (ht : k.threads.pcb p = some t) (hst : t.status = taskBlocked) :
    Shuffled k.threads (k.threads.unblocked p t) :=
  .of_update ht ⟨Or.inl hst, Or.inr (Or.inr rfl)⟩ rfl rfl rfl rfl rfl rfl

theorem semaUp_sched (h : SchedInv k) :
    Exec.Post (semaUp psema) k
      (fun _ k' => SchedInv k' ∧ Quiet k k' ∧ (k.semaphore psema).value = 0 ∧ k'.cur = k.cur ∧
        k' = (k.setSemaphore psema ⟨1, (k.semaphore psema).waiters.tail⟩).setThreads k'.threads)
      (fun _ => (k.semaphore psema).value ≠ 0) := by
  simp only [semaUp, wakeWaiter, Exec.post_bind, Exec.post_get, post_assert]
  refine ⟨fun hval => ?_, id⟩
  cases hw : (k.semaphore psema).waiters with
  | nil =>
    simp only [Exec.post_pure, Exec.post_modify, hval, hw]
    refine ⟨fun _ => ⟨⟨h.ready, ?_, h.main⟩, ⟨.refl _, rfl⟩, trivial, rfl, rfl⟩,
      fun hne => absurd rfl hne⟩
    have hwaiters (psema' : ℕ) : ((k.setSemaphore psema ⟨0 + 1, []⟩).semaphore psema').waiters =
        (k.semaphore psema').waiters := by
      rw [Kernel.setSemaphore_semaphore, Function.update_apply]
      split
      · rename_i heq
        rw [heq, hw]
      · rfl
    obtain ⟨t, ht, -⟩ := h.cur_running
    have hcur := h.wait.thread k.cur
    refine h.wait.move (p := k.cur) (h.ready.lt_nextPcb ht) ⟨?_, ?_, hcur.waiter⟩
      (fun heq => heq ▸ h.wait.idle) ?_ (fun _ _ => rfl) (fun _ _ => rfl) ?_ (fun _ _ _ => id)
      rfl rfl rfl
    · exact fun psema' hmem => hcur.waiters psema' (hwaiters psema' ▸ hmem)
    · exact fun psema' hin hmem => hcur.woken psema' hin (hwaiters psema' ▸ hmem)
    · exact fun psema' => hwaiters psema' ▸ h.wait.nodup psema'
    · exact fun psema' q _ => by rw [hwaiters]
  | cons p rest =>
    obtain ⟨-, t, ht, hst⟩ := (h.wait.thread p).waiters psema (hw ▸ List.mem_cons_self)
    obtain ⟨hcall, hready⟩ := threadUnblock_ready h.ready ht (Or.inl hst)
    simp only [Exec.post_bind, Exec.post_modify, post_onThreads]
    refine (Exec.eq_ok_iff.mp hcall).post fun _ s hs => ?_
    obtain ⟨-, rfl⟩ := hs
    have hsema : ((k.setSemaphore psema ⟨(k.semaphore psema).value, rest⟩).setThreads
        (k.threads.unblocked p t)).semaphore psema = ⟨0, rest⟩ := by
      rw [Kernel.setThreads_semaphore, Kernel.setSemaphore_semaphore, Function.update_self, hval]
    have heq : ((k.setSemaphore psema ⟨(k.semaphore psema).value, rest⟩).setThreads
        (k.threads.unblocked p t)).setSemaphore psema ⟨0 + 1, rest⟩ =
        k.popped psema p t ⟨1, rest⟩ := by
      simp only [Kernel.setSemaphore, Kernel.popped, Kernel.setThreads, Function.update_idem]
      rfl
    rw [hsema, heq]
    refine ⟨fun _ => ⟨⟨hready, h.wait_popped hw rfl ht, h.main⟩, ⟨.unblocked ht hst, rfl⟩, hval,
      rfl, rfl⟩, fun hne => absurd rfl hne⟩

theorem ioqWait_sched (h : SchedInv k) (hidle : k.cur ≠ k.threads.idleThread) :
    Exec.Post (ioqWait w) k (fun _ k' => SchedInv k' ∧ Quiet k k') (fun _ => k.waiter w ≠ none) := by
  obtain ⟨t, ht, -⟩ := h.cur_running
  simp only [ioqWait, Exec.post_bind, Exec.post_get, post_assert, Exec.post_modify, post_onThreads]
  refine ⟨fun hw => ?_, id⟩
  refine Exec.Returns.post (threadBlock_waiter _ h ht rfl rfl ?_) fun _ _ => id
  refine h.wait.move (p := k.cur) (h.ready.lt_nextPcb ht) ⟨?_, ?_, ?_⟩
    (fun heq => absurd heq hidle) h.wait.nodup ?_ ?_ (fun _ _ _ => Iff.rfl) ?_ rfl rfl rfl
  · exact fun psema hmem => absurd hmem (h.notMem_waiters psema)
  · intro psema hin
    have hin' := (Function.update_self ..).symm.trans hin
    cases hin'
  · intro w' hw'
    refine ⟨?_, _, Function.update_self .., rfl⟩
    have heq : w' = w := by
      by_contra hne
      exact h.waiter_ne w' ((Function.update_of_ne hne ..).symm.trans hw')
    exact heq ▸ Function.update_self ..
  · exact fun q hq => Function.update_of_ne hq ..
  · exact fun q hq => Function.update_of_ne hq ..
  · intro w' q hq hw'
    by_cases heq : w' = w
    · subst heq
      have hcur := (Function.update_self ..).symm.trans hw'
      exact absurd (Option.some.inj hcur).symm hq
    · exact (Function.update_of_ne heq ..).symm.trans hw'

theorem wakeup_sched (h : SchedInv k) :
    Exec.Post (wakeup w) k (fun _ k' => SchedInv k' ∧ Quiet k k') (fun _ => k.waiter w = none) := by
  simp only [wakeup, Exec.post_bind, Exec.post_get]
  cases hw : k.waiter w with
  | none => trivial
  | some p =>
    obtain ⟨hin, t, ht, hst⟩ := (h.wait.thread p).waiter w hw
    obtain ⟨hcall, hready⟩ := threadUnblock_ready h.ready ht (Or.inl hst)
    simp only [Exec.post_bind, Exec.post_modify, post_onThreads]
    refine (Exec.eq_ok_iff.mp hcall).post fun _ s hs => ?_
    obtain ⟨-, rfl⟩ := hs
    refine ⟨⟨hready, ?_, h.main⟩, .unblocked ht hst, rfl⟩
    refine h.wait.move (p := p) (h.ready.lt_nextPcb ht) ⟨?_, ?_, ?_⟩ (fun _ => Function.update_self ..)
      h.wait.nodup ?_ ?_ (fun _ _ _ => Iff.rfl) ?_ rfl rfl rfl
    · intro psema hmem
      have hin' := ((h.wait.thread p).waiters psema hmem).1
      rw [hin] at hin'
      cases hin'
    · intro psema hin'
      have hnone := (Function.update_self ..).symm.trans hin'
      cases hnone
    · intro w' hw'
      by_cases heq : w' = w
      · subst heq
        have hnone := (Function.update_self ..).symm.trans hw'
        cases hnone
      · have hin' := ((h.wait.thread p).waiter w' ((Function.update_of_ne heq ..).symm.trans hw')).1
        rw [hin, Option.some.injEq, BlockedIn.ioqWait.injEq] at hin'
        exact absurd hin'.symm heq
    · exact fun q hq => Function.update_of_ne hq ..
    · exact fun q hq => Function.update_of_ne hq ..
    · intro w' q hq hw'
      by_cases heq : w' = w
      · subst heq
        have hnone := (Function.update_self ..).symm.trans hw'
        cases hnone
      · exact (Function.update_of_ne heq ..).symm.trans hw'

/-- Scheduling from threads at which the waiters are in order. -/
theorem SchedInv.rescheduled {s₀ s : Threads} (h : SchedInv k) (hrel : Rescheduled s₀ s)
    (hready : ReadyInv (some s.cur) s) (hmain : s₀.mainThread = k.threads.mainThread)
    (hidle : s₀.idleThread = k.threads.idleThread) (hwait : WaitInv (k.setThreads s₀)) :
    SchedInv (k.setThreads s) := by
  refine ⟨hready, hwait.rescheduled hrel, ?_⟩
  rw [Kernel.setThreads_threads, hrel.mainThread, hrel.idleThread, hmain, hidle]
  exact h.main

/-- A thread that is blocked in no call may change or go away. -/
theorem WaitInv.of_not_blockedIn {s : Threads} (h : WaitInv k) (hin : k.blockedIn p = none)
    (hidle : s.idleThread = k.threads.idleThread) (hnext : s.nextPcb = k.threads.nextPcb)
    (hpcb : ∀ q, q ≠ p → s.pcb q = k.threads.pcb q) : WaitInv (k.setThreads s) := by
  have hne {q : ℕ} (hq : k.blockedIn q ≠ none) : q ≠ p := fun heq => hq (heq ▸ hin)
  refine h.setThreads hidle hnext.ge (fun q t ht hq hst => ⟨t, ?_, hst⟩) fun q t ht hq hst =>
    ⟨t, ?_, hst⟩
  · rw [hpcb q (hne hq), ht]
  · rw [hpcb q (hne hq), ht]

/-- A thread that is neither blocked nor runs nor is ready may change or go away. -/
theorem WaitInv.of_not_live {s : Threads} (h : WaitInv k) (ht : k.threads.pcb p = some t)
    (hst : ¬ t.status.Live) (hidle : s.idleThread = k.threads.idleThread)
    (hnext : s.nextPcb = k.threads.nextPcb) (hpcb : ∀ q, q ≠ p → s.pcb q = k.threads.pcb q) :
    WaitInv (k.setThreads s) := by
  have hne {q : ℕ} {u : TaskStruct} (hu : k.threads.pcb q = some u) (hlive : u.status.Live) : q ≠ p := by
    rintro rfl
    obtain rfl := Option.some.inj (ht.symm.trans hu)
    exact hst hlive
  refine h.setThreads hidle hnext.ge (fun q u hu _ hblocked => ⟨u, ?_, hblocked⟩)
    fun q u hu _ hrun => ⟨u, ?_, hrun⟩
  · rw [hpcb q (hne hu (Or.inl hblocked)), hu]
  · rw [hpcb q (hne hu (Or.inr hrun)), hu]

/-- A change to the PCBs that keeps the statuses. -/
theorem WaitInv.of_status {s : Threads} (h : WaitInv k) (hidle : s.idleThread = k.threads.idleThread)
    (hnext : k.threads.nextPcb ≤ s.nextPcb)
    (hpcb : ∀ p t, k.threads.pcb p = some t → ∃ u, s.pcb p = some u ∧ u.status = t.status) :
    WaitInv (k.setThreads s) := by
  refine h.setThreads hidle hnext (fun p t ht _ hst => ?_) fun p t ht _ hst => ?_
  · obtain ⟨u, hu, heq⟩ := hpcb p t ht
    exact ⟨u, hu, heq.trans hst⟩
  · obtain ⟨u, hu, heq⟩ := hpcb p t ht
    exact ⟨u, hu, heq ▸ hst⟩

theorem WaitInv.setInSyscall (h : WaitInv k) (hp : p < k.threads.nextPcb) (o : Option InSyscall) :
    WaitInv (k.setInSyscall p o) := by
  refine ⟨fun q => ⟨(h.thread q).1, (h.thread q).2, (h.thread q).3⟩, h.nodup, h.idle, fun q hq => ?_⟩
  have hne : q ≠ p := by
    rintro rfl
    exact absurd hp (Nat.not_lt.mpr hq)
  exact ⟨(h.fresh q hq).1, (Function.update_of_ne hne ..).trans (h.fresh q hq).2⟩

theorem SchedInv.setInSyscall (h : SchedInv k) (o : Option InSyscall) :
    SchedInv (k.setInSyscall k.cur o) := by
  obtain ⟨t, ht, -⟩ := h.cur_running
  exact ⟨h.ready, h.wait.setInSyscall (h.ready.lt_nextPcb ht) o, h.main⟩

/-- Every event keeps the invariant, and a failed assertion is not one of the scheduler. -/
theorem KernelEvent.run_schedInv {e : KernelEvent} (h : SchedInv k) (he : e.Admitted k) :
    Exec.Post e.run k (fun _ k' => SchedInv k')
      (fun f => f = .assertFailed → e.OwnAssertion k) := by
  obtain ⟨t, ht, hrun⟩ := h.cur_running
  cases e with
  | tick =>
    refine post_onThreads.mpr ((schedule_running h.ready).post fun _ s ⟨hready, hrel⟩ => ?_)
    exact h.rescheduled hrel hready rfl rfl h.wait
  | yield =>
    refine post_onThreads.mpr ((threadYield_running h.ready).post fun _ s ⟨hready, hrel⟩ => ?_)
    exact h.rescheduled hrel hready rfl rfl h.wait
  | block stat =>
    refine post_onThreads.mpr ((threadBlock_running h.ready ht he.2).post fun _ s ⟨hready, hrel⟩ => ?_)
    refine h.rescheduled hrel hready rfl rfl ?_
    exact h.wait.of_not_blockedIn he.1.1 rfl rfl fun q hq => Function.update_of_ne hq ..
  | semaDown psema =>
    refine Exec.post_bind.mpr (Exec.Post.mono (semaDown_sched h he) (fun _ _ h' => h'.1) fun f hf _ => hf)
  | semaUp psema => exact Exec.Post.mono (semaUp_sched h) (fun _ _ h' => h'.1) fun f hf _ => hf
  | ioqWait w => exact Exec.Post.mono (ioqWait_sched h he.2) (fun _ _ h' => h'.1) fun f hf _ => hf
  | wakeup w => exact Exec.Post.mono (wakeup_sched h) (fun _ _ h' => h'.1) fun f hf _ => hf
  | forkBegin mem =>
    obtain ⟨-, -, hpg⟩ := he
    refine Exec.post_bind.mpr (post_onThreads.mpr (Exec.Post.mono
      (sysForkBegin_spec ht (by simpa [ht] using hpg)) (fun r s hs => ?_) fun f hf hassert => ?_))
    · refine SchedInv.setInSyscall ?_ _
      cases r with
      | none => exact hs ▸ h
      | some pid =>
        obtain ⟨-, -, rfl⟩ := hs
        exact ⟨h.ready.of_eq rfl rfl rfl rfl, h.wait.of_status rfl le_rfl fun p t ht =>
          ⟨t, ht, rfl⟩, h.main⟩
    · rw [hf] at hassert
      cases hassert
  | forkEnd mem pid =>
    have h' := h.setInSyscall none
    refine Exec.post_bind.mpr (Exec.post_bind.mpr (post_onThreads.mpr
      ((sysForkEnd_spec ht).post fun _ s hs => ?_)))
    rcases hs with rfl | rfl
    · exact h'
    · refine ⟨h'.ready.forked t pid, h'.wait.of_status rfl (Nat.le_succ _) fun p u hu => ?_, h.main⟩
      refine ⟨u, (Function.update_of_ne ?_ ..).trans hu, rfl⟩
      exact (h.ready.lt_nextPcb hu).ne
  | exitBegin status =>
    refine Exec.post_bind.mpr (post_onThreads.mpr (Exec.Post.mono (sysExitBegin_spec ht)
      (fun _ s hs => ?_) fun f hf _ => ?_))
    · obtain ⟨-, rfl⟩ := hs
      have hwait : WaitInv (k.setThreads (k.threads.orphaned t status.toInt8)) := by
        refine h.wait.of_status rfl le_rfl fun p u hu => ?_
        obtain ⟨u', hu', hst, -⟩ := Threads.orphaned_status ht status.toInt8 hu
        exact ⟨u', hu', hst⟩
      have h' : SchedInv (k.setThreads (k.threads.orphaned t status.toInt8)) :=
        ⟨h.ready.orphaned ht _, hwait, h.main⟩
      exact h'.setInSyscall _
    · change (k.threads.pcb k.cur).any _ = true
      simp [ht, hf]
  | exitEnd =>
    obtain ⟨⟨hin, -⟩, -⟩ := he
    refine post_onThreads.mpr (Exec.Post.mono (sysExitEnd_spec h.ready ht) (fun _ s hs => ?_)
      fun f hf hassert => ?_)
    · obtain ⟨hready, q, u, s₁, -, hu, hs₁, hrel⟩ := hs
      have hwait : WaitInv (k.setThreads s₁) ∧ s₁.mainThread = k.threads.mainThread ∧
          s₁.idleThread = k.threads.idleThread := by
        rcases hs₁ with rfl | ⟨hst, rfl⟩
        · exact ⟨h.wait, rfl, rfl⟩
        · refine ⟨h.wait.of_not_live hu ?_ rfl rfl fun q hq => Function.update_of_ne hq .., rfl, rfl⟩
          rw [hst]
          unfold TaskStatus.Live TaskStatus.Runnable
          decide
      refine h.rescheduled hrel hready hwait.2.1 hwait.2.2 ?_
      exact hwait.1.of_not_blockedIn hin rfl rfl fun q hq => Function.update_of_ne hq ..
    · rw [hf.1] at hassert
      cases hassert
  | wait =>
    obtain ⟨hin, -⟩ := he
    refine Exec.post_bind.mpr (post_onThreads.mpr ((sysWait_spec h.ready ht).post fun r s hs => ?_))
    have hwait (b : Bool) : WaitInv (k.setThreads (k.threads.setPcb k.cur (some (t.setInWait b)))) :=
      h.wait.of_not_blockedIn hin rfl rfl fun q hq => Function.update_of_ne hq ..
    cases r with
    | reaped pid st =>
      obtain ⟨c, u, hfind, hu, -, -, rfl⟩ := hs
      obtain ⟨-, u', hu', hchild⟩ := Threads.traverse_eq_some hfind
      obtain rfl := Option.some.inj (hu.symm.trans hu')
      obtain ⟨hparent, hhang⟩ : u.parentPid = t.pid ∧ u.status = taskHanging := by
        simpa using hchild
      have hlive : ¬ u.status.Live := by
        rw [hhang]
        unfold TaskStatus.Live TaskStatus.Runnable
        decide
      have hc : (k.threads.setPcb k.cur (some (t.setInWait false))).pcb c = some u := by
        refine (Function.update_of_ne ?_ ..).trans hu
        rintro rfl
        obtain rfl := Option.some.inj (ht.symm.trans hu)
        exact hlive (Or.inr (Or.inl hrun))
      have hidle : c ≠ k.threads.idleThread := by
        rintro rfl
        obtain ⟨v, hv, -, hnone⟩ := h.ready.idle
        obtain rfl := Option.some.inj (hu.symm.trans hv)
        omega
      refine ⟨(h.ready.setInWait ht false).unlisted hc (fun hr => hlive (Or.inr hr)) hidle, ?_, h.main⟩
      exact (hwait false).of_not_live hc hlive rfl rfl fun q hq => Function.update_of_ne hq ..
    | noChild =>
      subst hs
      exact ⟨h.ready.setInWait ht false, hwait false, h.main⟩
    | blocked =>
      obtain ⟨hready, hrel⟩ := hs
      refine h.rescheduled hrel hready rfl rfl ?_
      exact h.wait.of_not_blockedIn hin rfl rfl fun q hq => Function.update_of_ne hq ..
  | mainExit =>
    obtain ⟨⟨hin, -⟩, hcur, -⟩ := he
    have hidle : k.cur ≠ k.threads.idleThread := by
      rw [hcur, h.main.1, h.main.2]
      decide
    have hmain : k.threads.leftover k.threads.mainThread t = some (t.setStatus taskDied) := if_pos rfl
    refine Exec.post_bind.mpr (post_onThreads.mpr ?_)
    rw [post_threadExit (hcur ▸ ht), hmain]
    refine ⟨fun _ => ?_, fun hne => absurd rfl hne⟩
    rw [← hcur]
    have hnone := h.ready.unlisted_running ht hidle
    refine (schedule_none hnone (Function.update_self ..)).post fun _ s ⟨hready, hrel⟩ => ?_
    refine h.rescheduled hrel hready rfl rfl ?_
    exact h.wait.of_not_blockedIn hin rfl rfl fun q hq => Function.update_of_ne hq ..

end Specs

/-- The lists of the scheduler hold the right threads, each of them once, and no event trips an
assertion of the scheduler. -/
structure Scheduled (k : Kernel) : Prop where
  running : ∃! p, ∃ t, k.threads.pcb p = some t ∧ t.status = taskRunning
  cur : ∃ t, k.threads.pcb k.cur = some t ∧ t.status = taskRunning
  ready : ∀ p, p ∈ k.threads.threadReadyList ↔
    ∃ t, k.threads.pcb p = some t ∧ t.status = taskReady
  readyOnce : k.threads.threadReadyList.Nodup
  waitersOnce : ∀ psema, (k.semaphore psema).waiters.Nodup
  notReady : ∀ psema, ∀ p ∈ (k.semaphore psema).waiters, p ∉ k.threads.threadReadyList
  oneSemaphore : ∀ psema psema', ∀ p ∈ (k.semaphore psema).waiters,
    p ∈ (k.semaphore psema').waiters → psema = psema'
  asserts : ∀ e : KernelEvent, e.Admitted k → Exec.Post e.run k (fun _ _ => True)
    (fun f => f = .assertFailed → e.OwnAssertion k)

theorem SchedInv.scheduled {k : Kernel} (h : SchedInv k) : Scheduled k where
  running := by
    obtain ⟨t, ht, hrun⟩ := h.cur_running
    refine ⟨k.cur, ⟨t, ht, hrun⟩, ?_⟩
    rintro p ⟨u, hu, hrun'⟩
    exact (Option.some.inj ((h.ready.running p u hu).mp hrun')).symm
  cur := h.cur_running
  ready := h.ready.ready
  readyOnce := h.ready.nodup
  waitersOnce := h.wait.nodup
  notReady psema p hp := by
    obtain ⟨-, t, ht, hst⟩ := (h.wait.thread p).waiters psema hp
    exact h.ready.notMem ht (by rw [hst]; decide)
  oneSemaphore psema psema' p hp hp' := by
    obtain ⟨hin, -⟩ := (h.wait.thread p).waiters psema hp
    obtain ⟨hin', -⟩ := (h.wait.thread p).waiters psema' hp'
    rw [hin, Option.some.injEq, BlockedIn.semaDown.injEq] at hin'
    exact hin'
  asserts e he := Exec.Post.mono (e.run_schedInv h he) (fun _ _ _ => trivial) fun _ => id

theorem readyInv_boot : ReadyInv (some 1) Threads.boot := by
  have hpcb (p : ℕ) (t : TaskStruct) (ht : Threads.boot.pcb p = some t) :
      p = 0 ∧ t.status = taskReady ∨ p = 1 ∧ t.status = taskRunning ∨
        p = 2 ∧ t.status = taskReady := by
    rcases p with _ | _ | _ | p
    · exact Or.inl ⟨rfl, by obtain rfl := Option.some.inj ht; rfl⟩
    · exact Or.inr (Or.inl ⟨rfl, by obtain rfl := Option.some.inj ht; rfl⟩)
    · exact Or.inr (Or.inr ⟨rfl, by obtain rfl := Option.some.inj ht; rfl⟩)
    · cases ht
  refine ⟨fun p t ht => ?_, fun p hp => ?_, fun p => ⟨fun hp => ?_, ?_⟩, by decide,
    ⟨_, rfl, by decide, rfl⟩, ?_⟩
  · rcases hpcb p t ht with ⟨rfl, hst⟩ | ⟨rfl, hst⟩ | ⟨rfl, hst⟩
    · simp [hst]
    · simp [hst]
    · simp [hst]
  · obtain rfl := Option.some.inj hp
    exact ⟨_, rfl⟩
  · have hp : p = 0 ∨ p = 2 := by simpa [Threads.boot] using hp
    rcases hp with rfl | rfl
    · exact ⟨_, rfl, rfl⟩
    · exact ⟨_, rfl, rfl⟩
  · rintro ⟨t, ht, hst⟩
    rcases hpcb p t ht with ⟨rfl, -⟩ | ⟨-, hrun⟩ | ⟨rfl, -⟩
    · decide
    · rw [hst] at hrun
      cases hrun
    · decide
  · intro p hp
    obtain ⟨n, rfl⟩ := Nat.exists_eq_add_of_le (show 3 ≤ p from hp)
    rw [Nat.add_comm]
    rfl

theorem schedInv_boot (value : ℕ → UInt8) : SchedInv (Kernel.boot value) where
  ready := readyInv_boot
  wait := ⟨fun _ => ⟨nofun, nofun, nofun⟩, fun _ => List.nodup_nil, rfl, fun _ _ => ⟨rfl, rfl⟩⟩
  main := ⟨rfl, rfl⟩

theorem Kernel.Run.schedInv {value : ℕ → UInt8} {k : Kernel} (h : Kernel.Run value k) : SchedInv k :=
  h.invariant (schedInv_boot value) fun _ e hI he => (e.run_schedInv hI he).ensures

/-- After every run from `thread_init` on, the scheduler is in order. -/
theorem scheduled_of_run {value : ℕ → UInt8} {k : Kernel} (h : Kernel.Run value k) : Scheduled k :=
  h.schedInv.scheduled

/-- `init` takes a semaphore and forks a child, which runs and queues itself on the semaphore. -/
theorem scheduled_of_run_queued : ∃ k, Kernel.Run (fun _ => 1) k ∧
    (k.semaphore 0).waiters = [3] ∧ Scheduled k := by
  have h : (Exec.runList KernelEvent.run (fun k e => e.Admitted k)
      [.tick, .semaDown 0, .forkBegin .enough, .forkEnd .enough 4, .tick, .block .taskBlocked,
        .tick, .semaDown 0] (Kernel.boot fun _ => 1)).any
        (fun k => (k.semaphore 0).waiters == [3]) = true := by
    decide +kernel
  obtain ⟨k, hrun, hlen⟩ := Exec.Run.exists_of_any h
  exact ⟨k, hrun, by simpa using hlen, scheduled_of_run hrun⟩

end Winx
