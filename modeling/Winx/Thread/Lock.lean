import Winx.Userprog.Scheduler

/-! # Locks

The threads that use one lock go through `lock_acquire` and `lock_release` one
access to the lock after the other, and another thread may run between any two
of them. `sema_up` hands nothing over: it wakes one waiter, and a thread that
comes first may take the semaphore before that waiter tests it again. No waiter
is stuck all the same.
-/

namespace Winx

open TaskStatus

/-- Where a thread stands in the code of `lock_acquire` and `lock_release`: the access to the lock
that comes next. -/
inductive LockPoint
  | outside
  | acquireTest
  | acquireDown
  | setHolder
  | assertFree
  | setRepeat
  | readRepeat
  | writeRepeat (nr : UInt32)
  | releaseAssert
  | releaseTest
  | readNested
  | writeNested (nr : UInt32)
  | assertLast
  | clearHolder
  | clearRepeat
  | releaseUp
  deriving DecidableEq, Repr

/-- The kernel with a lock, whose semaphore is one of the kernel's. `depth` counts the calls of
`lock_acquire` that a thread returned from without having called `lock_release` for them. -/
structure Locked where
  kernel : Kernel
  holder : Option ℕ
  holderRepeatNr : UInt32
  point : ℕ → LockPoint
  depth : ℕ → ℕ

/-- Code of threads that use the lock. -/
abbrev LockM (α : Type) := Exec Locked Fault α

namespace Locked

variable (l : Locked)

/-- The running thread. -/
abbrev cur : ℕ := l.kernel.cur

/-- Change the kernel. -/
@[simps -fullyApplied] def setKernel (k : Kernel) : Locked := { l with kernel := k }

/-- `plock->holder = p` -/
@[simps -fullyApplied] def setHolder (p : Option ℕ) : Locked := { l with holder := p }

/-- `plock->holder_repeat_nr = nr` -/
@[simps -fullyApplied] def setRepeatNr (nr : UInt32) : Locked := { l with holderRepeatNr := nr }

/-- The running thread goes on to another point. -/
@[simps -fullyApplied] def goto (point : LockPoint) : Locked :=
  { l with point := Function.update l.point l.kernel.cur point }

/-- The running thread has returned from `lock_acquire`. -/
@[simps -fullyApplied] def enter : Locked :=
  { l with depth := Function.update l.depth l.kernel.cur (l.depth l.kernel.cur + 1) }

/-- The running thread has called `lock_release`. -/
@[simps -fullyApplied] def leave : Locked :=
  { l with depth := Function.update l.depth l.kernel.cur (l.depth l.kernel.cur - 1) }

end Locked

/-- Code of the kernel. -/
def onKernel {α : Type} (m : KernelM α) : LockM α := fun l =>
  match m l.kernel with
  | .ok (a, k) => .ok (a, l.setKernel k)
  | .error e => .error e

@[simp] theorem post_onKernel {α : Type} {m : KernelM α} {l : Locked} {Q : α → Locked → Prop}
    {E : Fault → Prop} :
    Exec.Post (onKernel m) l Q E ↔ Exec.Post m l.kernel (fun a k => Q a (l.setKernel k)) E := by
  unfold Exec.Post onKernel
  cases m l.kernel <;> rfl

/-- The next access of the running thread to the lock, in `lock_acquire` or `lock_release`. -/
def lockStep (plock : ℕ) : LockM Unit := do
  let l ← get
  match l.point l.cur with
  | .outside => pure ()
  | .acquireTest =>
    if l.holder ≠ some l.cur then set (l.goto .acquireDown) else set (l.goto .readRepeat)
  | .acquireDown =>
    let taken ← onKernel (semaDown plock)
    if taken then modify fun l => l.goto .setHolder else pure ()
  | .setHolder => set ((l.setHolder (some l.cur)).goto .assertFree)
  | .assertFree =>
    assert (l.holderRepeatNr = 0)
    set (l.goto .setRepeat)
  | .setRepeat => set ((l.setRepeatNr 1).enter.goto .outside)
  | .readRepeat => set (l.goto (.writeRepeat l.holderRepeatNr))
  | .writeRepeat nr => set ((l.setRepeatNr (nr + 1)).enter.goto .outside)
  | .releaseAssert =>
    assert (l.holder = some l.cur)
    set (l.goto .releaseTest)
  | .releaseTest =>
    if l.holderRepeatNr > 1 then set (l.goto .readNested) else set (l.goto .assertLast)
  | .readNested => set (l.goto (.writeNested l.holderRepeatNr))
  | .writeNested nr => set ((l.setRepeatNr (nr - 1)).goto .outside)
  | .assertLast =>
    assert (l.holderRepeatNr = 1)
    set (l.goto .clearHolder)
  | .clearHolder => set ((l.setHolder none).goto .clearRepeat)
  | .clearRepeat => set ((l.setRepeatNr 0).goto .releaseUp)
  | .releaseUp =>
    onKernel (semaUp plock)
    modify fun l => l.goto .outside

/-- An event with a lock: the running thread calls `lock_acquire` or `lock_release` or goes on with
such a call, or something else happens in the kernel. -/
inductive LockEvent
  | acquire
  | release
  | step
  | other (e : KernelEvent)
  deriving DecidableEq, Repr

/-- The code of an event. -/
def LockEvent.run (plock : ℕ) : LockEvent → LockM Unit
  | acquire => modify fun l => l.goto .acquireTest
  | release => modify fun l => l.leave.goto .releaseAssert
  | step => lockStep plock
  | other e => onKernel e.run

/-- Whether an event uses the semaphore of the lock. -/
def KernelEvent.Uses (plock : ℕ) : KernelEvent → Prop
  | .semaDown psema => psema = plock
  | .semaUp psema => psema = plock
  | _ => False

/-- Whether an event can come from an interrupt. -/
def KernelEvent.IsInterrupt : KernelEvent → Prop
  | .tick => True
  | .semaUp _ => True
  | .wakeup _ => True
  | _ => False

instance (plock : ℕ) (e : KernelEvent) : Decidable (e.Uses plock) :=
  match e with
  | .semaDown psema | .semaUp psema => Nat.decEq psema plock
  | .tick | .block _ | .yield | .ioqWait _ | .wakeup _ | .forkBegin _ | .forkEnd _ _ | .exitBegin _
  | .exitEnd | .wait | .mainExit => instDecidableFalse

instance (e : KernelEvent) : Decidable e.IsInterrupt :=
  match e with
  | .tick | .semaUp _ | .wakeup _ => instDecidableTrue
  | .block _ | .yield | .semaDown _ | .ioqWait _ | .forkBegin _ | .forkEnd _ _ | .exitBegin _
  | .exitEnd | .wait | .mainExit => instDecidableFalse

/-- Whether an event can happen. The calls are well nested, only they use the semaphore of the lock,
and inside of them a thread can only be interrupted. -/
def LockEvent.Admitted (plock : ℕ) (l : Locked) : LockEvent → Prop
  | .acquire => l.kernel.Interruptible ∧ l.cur ≠ l.kernel.threads.idleThread ∧
    l.point l.cur = .outside
  | .release => l.kernel.Interruptible ∧ l.point l.cur = .outside ∧ 0 < l.depth l.cur
  | .step => l.point l.cur ≠ .outside ∧
    (l.kernel.Interruptible ∨ l.kernel.blockedIn l.cur = some (.semaDown plock))
  | .other e => e.Admitted l.kernel ∧ ¬ e.Uses plock ∧ (l.point l.cur = .outside ∨ e.IsInterrupt)

instance (plock : ℕ) (l : Locked) (e : LockEvent) : Decidable (e.Admitted plock l) := by
  cases e <;> unfold LockEvent.Admitted <;> infer_instance

/-- The kernel after `thread_init` and `lock_init`. -/
def Locked.boot (plock : ℕ) (value : ℕ → UInt8) : Locked where
  kernel := Kernel.boot (Function.update value plock 1)
  holder := none
  holderRepeatNr := 0
  point _ := .outside
  depth _ := 0

/-- The runs with a lock. -/
abbrev Locked.Run (plock : ℕ) (value : ℕ → UInt8) (l : Locked) : Prop :=
  Exec.Run (LockEvent.run plock) (fun l e => e.Admitted plock l) (Locked.boot plock value) l

/-- A thread was popped from the waiters of a semaphore and has not tested the value again: it is
inside of the loop of `sema_down`, where it queued itself, but not queued any more. -/
def Popped (k : Kernel) (psema p : ℕ) : Prop :=
  k.blockedIn p = some (.semaDown psema) ∧ p ∉ (k.semaphore psema).waiters

/-- If a free semaphore has waiters, then another one was popped and is on its way. -/
def NotStuck (k : Kernel) (psema : ℕ) : Prop :=
  (k.semaphore psema).value ≠ 0 → (k.semaphore psema).waiters ≠ [] → ∃ p, Popped k psema p

section Kernel

variable {k : Kernel} {plock : ℕ}

/-- Two kernels in which a semaphore and the threads inside of its loop are the same. -/
def SameWaiters (plock : ℕ) (k k' : Kernel) : Prop :=
  k'.semaphore plock = k.semaphore plock ∧
    ∀ p, k'.blockedIn p = some (.semaDown plock) ↔ k.blockedIn p = some (.semaDown plock)

/-- Moving a thread that is in no loop of the semaphore to a place outside of it. -/
theorem blockedIn_update {p : ℕ} {o : Option BlockedIn}
    (hp : k.blockedIn p ≠ some (.semaDown plock)) (ho : o ≠ some (.semaDown plock)) (q : ℕ) :
    Function.update k.blockedIn p o q = some (.semaDown plock) ↔
      k.blockedIn q = some (.semaDown plock) := by
  by_cases hq : q = p
  · subst hq
    rw [Function.update_self]
    exact ⟨fun h => absurd h ho, fun h => absurd h hp⟩
  · rw [Function.update_of_ne hq]

/-- The place of the running thread, when it calls `sema_down` or goes on with it. -/
theorem Kernel.not_inLoop {psema : ℕ} (he : (KernelEvent.semaDown psema).Admitted k)
    (hne : psema ≠ plock) : k.blockedIn k.cur ≠ some (.semaDown plock) := by
  rcases he with ⟨⟨hin, -⟩, -⟩ | hin
  · rw [hin]
    nofun
  · rw [hin, Ne, Option.some.injEq, BlockedIn.semaDown.injEq]
    exact hne

/-- An event that does not use a semaphore leaves it and its waiters alone. -/
theorem KernelEvent.run_sameWaiters {e : KernelEvent} (h : SchedInv k) (he : e.Admitted k)
    (huses : ¬ e.Uses plock) : Exec.Ensures e.run k fun _ k' => SameWaiters plock k k' := by
  have hthreads {α : Type} (m : ThreadM α) {Q : α → Kernel → Prop}
      (hQ : ∀ a s, Q a (k.setThreads s)) : Exec.Ensures (onThreads m) k Q :=
    post_onThreads.mpr (Exec.ensures_iff.mpr fun a s _ => hQ a s)
  have hsame (s : Threads) : SameWaiters plock k (k.setThreads s) := ⟨rfl, fun _ => Iff.rfl⟩
  cases e with
  | tick => exact hthreads schedule fun _ => hsame
  | block stat => exact hthreads (threadBlock stat) fun _ => hsame
  | yield => exact hthreads threadYield fun _ => hsame
  | semaDown psema =>
    have hne : psema ≠ plock := huses
    have hin := Kernel.not_inLoop he hne
    refine Exec.post_bind.mpr (Exec.Post.mono (semaDown_sched h he) (fun taken k' hk' => ?_)
      fun _ _ => trivial)
    obtain ⟨-, -, hk'⟩ := hk'
    cases taken with
    | true =>
      obtain ⟨-, rfl⟩ := hk'
      exact ⟨Function.update_of_ne hne.symm .., blockedIn_update hin (by simp)⟩
    | false =>
      obtain ⟨-, hk'⟩ := hk'
      rw [hk']
      refine ⟨Function.update_of_ne hne.symm .., blockedIn_update hin ?_⟩
      rw [Ne, Option.some.injEq, BlockedIn.semaDown.injEq]
      exact hne
  | semaUp psema =>
    have hne : psema ≠ plock := huses
    refine Exec.Post.mono (semaUp_sched h) (fun _ k' hk' => ?_) fun _ _ => trivial
    obtain ⟨-, -, -, -, hk'⟩ := hk'
    rw [hk']
    exact ⟨Function.update_of_ne hne.symm .., fun _ => Iff.rfl⟩
  | ioqWait w =>
    have hin : k.blockedIn k.cur ≠ some (.semaDown plock) := by
      rw [he.1.1]
      simp
    simp only [KernelEvent.run, Winx.ioqWait, Exec.post_bind, Exec.post_get, post_assert,
      Exec.post_modify, post_onThreads]
    refine ⟨fun _ => Exec.ensures_iff.mpr fun _ s _ => ⟨rfl, blockedIn_update hin (by simp)⟩,
      fun _ => trivial⟩
  | wakeup w =>
    simp only [KernelEvent.run, Winx.wakeup, Exec.post_bind, Exec.post_get]
    cases hw : k.waiter w with
    | none => trivial
    | some p =>
      obtain ⟨hin, -⟩ := (h.wait.thread p).waiter w hw
      have hne : k.blockedIn p ≠ some (.semaDown plock) := by
        rw [hin]
        simp
      simp only [Exec.post_bind, Exec.post_modify, post_onThreads]
      exact Exec.ensures_iff.mpr fun _ s _ => ⟨rfl, blockedIn_update hne (by simp)⟩
  | forkBegin mem => exact Exec.post_bind.mpr (hthreads _ fun _ => hsame)
  | forkEnd mem pid =>
    exact Exec.post_bind.mpr (Exec.post_bind.mpr (post_onThreads.mpr
      (Exec.ensures_iff.mpr fun _ s _ => hsame s)))
  | exitBegin status => exact Exec.post_bind.mpr (hthreads _ fun _ => hsame)
  | exitEnd => exact hthreads sysExitEnd fun _ => hsame
  | wait => exact Exec.post_bind.mpr (hthreads sysWait fun _ => hsame)
  | mainExit => exact Exec.post_bind.mpr (hthreads _ fun _ => hsame)

/-- Such an event strands no waiter. -/
theorem NotStuck.of_sameWaiters {k' : Kernel} (h : NotStuck k plock) (hk' : SameWaiters plock k k') :
    NotStuck k' plock := by
  intro hval hwaiters
  rw [hk'.1] at hval hwaiters
  obtain ⟨p, hin, hp⟩ := h hval hwaiters
  exact ⟨p, (hk'.2 p).mpr hin, hk'.1 ▸ hp⟩

/-- A taken semaphore has nobody stuck. -/
theorem notStuck_of_value (h : (k.semaphore plock).value = 0) : NotStuck k plock :=
  fun hval => absurd h hval

/-- `sema_down` leaves the semaphore taken. -/
theorem semaDown_notStuck (h : SchedInv k) (he : (KernelEvent.semaDown plock).Admitted k) :
    Exec.Ensures (semaDown plock) k fun _ k' => NotStuck k' plock := by
  refine Exec.Post.mono (semaDown_sched h he) (fun taken k' hk' => ?_) fun _ _ => trivial
  obtain ⟨-, -, hk'⟩ := hk'
  cases taken with
  | true =>
    obtain ⟨hval, rfl⟩ := hk'
    refine notStuck_of_value ?_
    rw [Kernel.value_taken, hval]
    rfl
  | false =>
    obtain ⟨hval, hk'⟩ := hk'
    rw [hk']
    exact notStuck_of_value (Kernel.value_queued.trans hval)

/-- `sema_up` pops one waiter, if there is any, and that one is on its way. -/
theorem semaUp_notStuck (h : SchedInv k) :
    Exec.Ensures (semaUp plock) k fun _ k' => NotStuck k' plock := by
  refine Exec.Post.mono (semaUp_sched h) (fun _ k' hk' => ?_) fun _ _ => trivial
  obtain ⟨-, -, -, -, heq⟩ := hk'
  have hsema : k'.semaphore plock = ⟨1, (k.semaphore plock).waiters.tail⟩ := by
    rw [heq, Kernel.setThreads_semaphore, Kernel.setSemaphore_semaphore, Function.update_self]
  intro _ hwaiters
  rw [hsema] at hwaiters
  cases hw : (k.semaphore plock).waiters with
  | nil => rw [hw] at hwaiters; exact absurd rfl hwaiters
  | cons p rest =>
    have hnodup := h.wait.nodup plock
    rw [hw, List.nodup_cons] at hnodup
    obtain ⟨hin, -⟩ := (h.wait.thread p).waiters plock (hw ▸ List.mem_cons_self)
    refine ⟨p, ?_, ?_⟩
    · rw [heq]
      exact hin
    · rw [hsema, hw]
      exact hnodup.1

end Kernel

/-- What holds of every run with a lock: the scheduler is in order, the idle thread uses no lock, a
thread in the loop of the semaphore is in `lock_acquire`, and no waiter is stuck. -/
structure LockBase (plock : ℕ) (l : Locked) : Prop where
  sched : SchedInv l.kernel
  idle : l.point Threads.boot.idleThread = .outside ∧ l.depth Threads.boot.idleThread = 0
  inLoop : ∀ p, l.kernel.blockedIn p = some (.semaDown plock) → l.point p = .acquireDown
  notStuck : NotStuck l.kernel plock

section Base

variable {l : Locked} {plock : ℕ}

/-- The running thread goes on to another point of the code. -/
theorem LockBase.goto {l' : Locked} {point : LockPoint} {depth : ℕ} (h : LockBase plock l)
    (hidle : l.cur ≠ l.kernel.threads.idleThread)
    (hin : l.kernel.blockedIn l.cur ≠ some (.semaDown plock)) (hkernel : l'.kernel = l.kernel)
    (hpoint : l'.point = Function.update l.point l.cur point)
    (hdepth : l'.depth = Function.update l.depth l.cur depth) : LockBase plock l' := by
  obtain ⟨hsched, hidle', hloop, hstuck⟩ := h
  rw [hsched.main.2] at hidle
  refine ⟨hkernel ▸ hsched, ?_, fun p hp => ?_, hkernel ▸ hstuck⟩
  · rw [hpoint, hdepth, Function.update_of_ne hidle.symm, Function.update_of_ne hidle.symm]
    exact hidle'
  · rw [hkernel] at hp
    have hne : p ≠ l.cur := by
      rintro rfl
      exact hin hp
    rw [hpoint, Function.update_of_ne hne]
    exact hloop p hp

/-- A thread inside of the calls is not the idle thread. -/
theorem LockBase.ne_idle (h : LockBase plock l) (hpoint : l.point l.cur ≠ .outside) :
    l.cur ≠ l.kernel.threads.idleThread := by
  rw [h.sched.main.2]
  intro heq
  rw [heq] at hpoint
  exact hpoint h.idle.1

/-- `sema_down`, or another turn of its loop. -/
theorem LockBase.acquireDown (h : LockBase plock l) (he : LockEvent.step.Admitted plock l)
    (hpoint : l.point l.cur = .acquireDown) :
    Exec.Ensures (lockStep plock) l fun _ l' => LockBase plock l' := by
  have hidle := h.ne_idle he.1
  have hadm : (KernelEvent.semaDown plock).Admitted l.kernel :=
    he.2.imp (fun hfree => ⟨hfree, hidle⟩) id
  rw [h.sched.main.2] at hidle
  simp only [lockStep, Exec.post_bind, Exec.post_get, hpoint, post_onKernel]
  refine ((semaDown_sched h.sched hadm).ensures.and (semaDown_notStuck h.sched hadm)).mono
    fun taken k' hpost => ?_
  obtain ⟨⟨hsched, _, hk'⟩, hstuck⟩ := hpost
  cases taken with
  | true =>
    obtain ⟨-, rfl⟩ := hk'
    refine ⟨hsched, ?_, fun p hp => ?_, hstuck⟩
    · exact ⟨(Function.update_of_ne hidle.symm ..).trans h.idle.1, h.idle.2⟩
    · have hne : p ≠ l.cur := by
        rintro rfl
        cases (Function.update_self ..).symm.trans hp
      refine (Function.update_of_ne hne ..).trans (h.inLoop p ?_)
      exact (Function.update_of_ne hne ..).symm.trans hp
  | false =>
    obtain ⟨-, hk'⟩ := hk'
    refine ⟨hsched, h.idle, fun p hp => ?_, hstuck⟩
    by_cases hne : p = l.cur
    · exact hne ▸ hpoint
    · change k'.blockedIn p = _ at hp
      rw [hk'] at hp
      exact h.inLoop p ((Function.update_of_ne hne ..).symm.trans hp)

/-- `sema_up`, which ends `lock_release`. -/
theorem LockBase.releaseUp (h : LockBase plock l) (he : LockEvent.step.Admitted plock l)
    (hpoint : l.point l.cur = .releaseUp) :
    Exec.Ensures (lockStep plock) l fun _ l' => LockBase plock l' := by
  have hidle := h.ne_idle he.1
  rw [h.sched.main.2] at hidle
  simp only [lockStep, Exec.post_bind, Exec.post_get, hpoint, post_onKernel, Exec.post_modify]
  refine ((semaUp_sched h.sched).ensures.and (semaUp_notStuck h.sched)).mono
    fun _ k' hpost => ?_
  obtain ⟨⟨hsched, _, _, hcur, hk'⟩, hstuck⟩ := hpost
  refine ⟨hsched, ?_, fun p hp => ?_, hstuck⟩
  · refine ⟨(Function.update_of_ne ?_ ..).trans h.idle.1, h.idle.2⟩
    rw [Locked.setKernel_kernel, hcur]
    exact hidle.symm
  · change k'.blockedIn p = _ at hp
    rw [hk'] at hp
    have hp := h.inLoop p hp
    have hne : p ≠ k'.cur := by
      rw [hcur]
      rintro rfl
      rw [hpoint] at hp
      cases hp
    exact (Function.update_of_ne hne ..).trans hp

/-- The other steps concern the fields of the lock and the place of the running thread. -/
theorem lockStep_local (hdown : l.point l.cur ≠ .acquireDown) (hup : l.point l.cur ≠ .releaseUp)
    (hout : l.point l.cur ≠ .outside) :
    Exec.Ensures (lockStep plock) l fun _ l' => l'.kernel = l.kernel ∧
      (∃ point, l'.point = Function.update l.point l.cur point) ∧
      ∃ depth, l'.depth = Function.update l.depth l.cur depth := by
  have hsame : ∃ depth, l.depth = Function.update l.depth l.cur depth :=
    ⟨_, (Function.update_eq_self _ _).symm⟩
  cases hp : l.point l.cur with
  | outside => exact absurd hp hout
  | acquireDown => exact absurd hp hdown
  | releaseUp => exact absurd hp hup
  | acquireTest =>
    simp only [lockStep, Exec.post_bind, Exec.post_get, hp, Exec.post_ite, Exec.post_set]
    exact ⟨fun _ => ⟨rfl, ⟨_, rfl⟩, hsame⟩, fun _ => ⟨rfl, ⟨_, rfl⟩, hsame⟩⟩
  | releaseTest =>
    simp only [lockStep, Exec.post_bind, Exec.post_get, hp, Exec.post_ite, Exec.post_set]
    exact ⟨fun _ => ⟨rfl, ⟨_, rfl⟩, hsame⟩, fun _ => ⟨rfl, ⟨_, rfl⟩, hsame⟩⟩
  | assertFree =>
    simp only [lockStep, Exec.post_bind, Exec.post_get, hp, post_assert, Exec.post_set]
    exact ⟨fun _ => ⟨rfl, ⟨_, rfl⟩, hsame⟩, fun _ => trivial⟩
  | releaseAssert =>
    simp only [lockStep, Exec.post_bind, Exec.post_get, hp, post_assert, Exec.post_set]
    exact ⟨fun _ => ⟨rfl, ⟨_, rfl⟩, hsame⟩, fun _ => trivial⟩
  | assertLast =>
    simp only [lockStep, Exec.post_bind, Exec.post_get, hp, post_assert, Exec.post_set]
    exact ⟨fun _ => ⟨rfl, ⟨_, rfl⟩, hsame⟩, fun _ => trivial⟩
  | setHolder =>
    simp only [lockStep, Exec.post_bind, Exec.post_get, hp, Exec.post_set]
    exact ⟨rfl, ⟨_, rfl⟩, hsame⟩
  | setRepeat =>
    simp only [lockStep, Exec.post_bind, Exec.post_get, hp, Exec.post_set]
    exact ⟨rfl, ⟨_, rfl⟩, ⟨_, rfl⟩⟩
  | readRepeat =>
    simp only [lockStep, Exec.post_bind, Exec.post_get, hp, Exec.post_set]
    exact ⟨rfl, ⟨_, rfl⟩, hsame⟩
  | writeRepeat nr =>
    simp only [lockStep, Exec.post_bind, Exec.post_get, hp, Exec.post_set]
    exact ⟨rfl, ⟨_, rfl⟩, ⟨_, rfl⟩⟩
  | readNested =>
    simp only [lockStep, Exec.post_bind, Exec.post_get, hp, Exec.post_set]
    exact ⟨rfl, ⟨_, rfl⟩, hsame⟩
  | writeNested nr =>
    simp only [lockStep, Exec.post_bind, Exec.post_get, hp, Exec.post_set]
    exact ⟨rfl, ⟨_, rfl⟩, hsame⟩
  | clearHolder =>
    simp only [lockStep, Exec.post_bind, Exec.post_get, hp, Exec.post_set]
    exact ⟨rfl, ⟨_, rfl⟩, hsame⟩
  | clearRepeat =>
    simp only [lockStep, Exec.post_bind, Exec.post_get, hp, Exec.post_set]
    exact ⟨rfl, ⟨_, rfl⟩, hsame⟩

/-- Every event keeps the base invariant. -/
theorem LockEvent.run_lockBase {e : LockEvent} (h : LockBase plock l) (he : e.Admitted plock l) :
    Exec.Ensures (e.run plock) l fun _ l' => LockBase plock l' := by
  cases e with
  | acquire =>
    obtain ⟨hfree, hidle, -⟩ := he
    refine h.goto hidle (by rw [hfree.1]; nofun) rfl rfl (Function.update_eq_self _ _).symm
  | release =>
    obtain ⟨hfree, -, hdepth⟩ := he
    refine h.goto (fun hidle => ?_) (by rw [hfree.1]; nofun) rfl rfl rfl
    rw [hidle, h.sched.main.2, h.idle.2] at hdepth
    exact hdepth.false
  | other e =>
    refine post_onKernel.mpr ?_
    refine ((e.run_schedInv h.sched he.1).ensures.and
      (e.run_sameWaiters h.sched he.1 he.2.1)).mono fun _ k' ⟨hsched, hsame⟩ => ?_
    exact ⟨hsched, h.idle, fun p hp => h.inLoop p ((hsame.2 p).mp hp), h.notStuck.of_sameWaiters hsame⟩
  | step =>
    by_cases hdown : l.point l.cur = .acquireDown
    · exact h.acquireDown he hdown
    · by_cases hup : l.point l.cur = .releaseUp
      · exact h.releaseUp he hup
      · refine (lockStep_local hdown hup he.1).mono fun _ l' ⟨hkernel, ⟨_, hpoint⟩, _, hdepth⟩ => ?_
        exact h.goto (h.ne_idle he.1) (fun hin => hdown (h.inLoop _ hin)) hkernel hpoint hdepth

theorem lockBase_boot (value : ℕ → UInt8) : LockBase plock (Locked.boot plock value) where
  sched := schedInv_boot _
  idle := ⟨rfl, rfl⟩
  inLoop := nofun
  notStuck _ hwaiters := absurd rfl hwaiters

theorem Locked.Run.lockBase {value : ℕ → UInt8} (h : Locked.Run plock value l) :
    LockBase plock l :=
  h.invariant (lockBase_boot value) fun _ _ hI he => LockEvent.run_lockBase hI he

/-- In every run, if the semaphore of the lock is free and has waiters, then a thread that was
popped from them runs or is ready inside of the loop of `sema_down`, and has not tested the value
again; and no thread is queued twice. -/
theorem lock_not_stuck_of_run {value : ℕ → UInt8} (h : Locked.Run plock value l) :
    ((l.kernel.semaphore plock).value = 1 → (l.kernel.semaphore plock).waiters ≠ [] →
      ∃ p t, Popped l.kernel plock p ∧ l.kernel.threads.pcb p = some t ∧ t.status.Runnable) ∧
    (l.kernel.semaphore plock).waiters.Nodup := by
  obtain ⟨hsched, -, -, hstuck⟩ := h.lockBase
  refine ⟨fun hval hwaiters => ?_, hsched.wait.nodup plock⟩
  obtain ⟨p, hp⟩ := hstuck (by rw [hval]; decide) hwaiters
  obtain ⟨t, ht, hst⟩ := (hsched.wait.thread p).woken plock hp.1 hp.2
  exact ⟨p, t, hp, ht, hst⟩

/-- `main` holds the lock, `init` and a child of it wait for it, and `main` releases it. -/
theorem lock_not_stuck_of_run_three : ∃ l, Locked.Run 0 (fun _ => 0) l ∧
    (l.kernel.semaphore 0).waiters = [3] ∧
    (∃ p t, Popped l.kernel 0 p ∧ l.kernel.threads.pcb p = some t ∧ t.status.Runnable) ∧
    (l.kernel.semaphore 0).waiters.Nodup := by
  have h : (Exec.runList (LockEvent.run 0) (fun l e => e.Admitted 0 l)
      [.acquire, .step, .step, .step, .step, .step, .other .tick, .other (.forkBegin .enough),
        .other (.forkEnd .enough 4), .acquire, .step, .step, .other (.block .taskBlocked),
        .other .tick, .acquire, .step, .step, .release, .step, .step, .step, .step, .step, .step]
      (Locked.boot 0 fun _ => 0)).any
        (fun l => (l.kernel.semaphore 0).waiters == [3] && (l.kernel.semaphore 0).value == 1) =
      true := by
    decide +kernel
  obtain ⟨l, hrun, hl⟩ := Exec.Run.exists_of_any h
  obtain ⟨hwaiters, hval⟩ : (l.kernel.semaphore 0).waiters = [3] ∧
      (l.kernel.semaphore 0).value = 1 := by
    simpa using hl
  have hne : (l.kernel.semaphore 0).waiters ≠ [] := by
    rw [hwaiters]
    exact List.cons_ne_nil _ _
  exact ⟨l, hrun, hwaiters, (lock_not_stuck_of_run hrun).1 hval hne, (lock_not_stuck_of_run hrun).2⟩

end Base

end Winx
