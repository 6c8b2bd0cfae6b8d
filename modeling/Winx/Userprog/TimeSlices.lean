import Winx.Lib.Path
import Winx.Userprog.Scheduler

/-! # Time slices

The timer counts down the ticks of the running thread and calls `schedule` when
they are used up. A ready thread waits for the threads before it in the ready
list, each of which has a slice of at most 31 ticks left, and for the threads
that are woken meanwhile, which are put in front.
-/

namespace Winx

open TaskStatus

/-- The fields of `struct task_struct` that the timer uses. -/
structure TimeSlice where
  priority : UInt8
  ticks : UInt8
  elapsedTicks : UInt32

/-- The kernel with the time slices of the threads and the count of timer interrupts. -/
structure TimedKernel where
  kernel : Kernel
  slice : ℕ → TimeSlice
  ticks : UInt32

/-- Code that keeps time. -/
abbrev TimedM (α : Type) := Exec TimedKernel Fault α

namespace TimedKernel

variable (k : TimedKernel)

/-- The running thread. -/
abbrev cur : ℕ := k.kernel.threads.cur

/-- `thread_ready_list` -/
abbrev ready : List ℕ := k.kernel.threads.threadReadyList

/-- Change the kernel. -/
@[simps -fullyApplied] def setKernel (s : Kernel) : TimedKernel := { k with kernel := s }

/-- Change the time slice of a thread. -/
@[simps -fullyApplied] def setSlice (p : ℕ) (t : TimeSlice) : TimedKernel :=
  { k with slice := Function.update k.slice p t }

/-- Count a timer interrupt. -/
@[simps -fullyApplied] def countTick : TimedKernel := { k with ticks := k.ticks + 1 }

@[simp] theorem setSlice_cur (p : ℕ) (t : TimeSlice) : (k.setSlice p t).cur = k.cur := rfl

@[simp] theorem countTick_cur : k.countTick.cur = k.cur := rfl

end TimedKernel

/-- Code of the kernel that keeps no time. -/
def liftKernel {α : Type} (m : KernelM α) : TimedM α := fun k =>
  match m k.kernel with
  | .ok (a, s) => .ok (a, k.setKernel s)
  | .error e => .error e

@[simp] theorem post_liftKernel {α : Type} {m : KernelM α} {k : TimedKernel} {Q : α → TimedKernel → Prop}
    {E : Fault → Prop} :
    Exec.Post (liftKernel m) k Q E ↔ Exec.Post m k.kernel (fun a s => Q a (k.setKernel s)) E := by
  unfold Exec.Post liftKernel
  cases m k.kernel <;> rfl

/-- Change fields of the time slice of a thread. -/
def modifySlice (p : ℕ) (f : TimeSlice → TimeSlice) : TimedM Unit :=
  modify fun k => k.setSlice p (f (k.slice p))

/-- `schedule`, called by the timer. It gives a running thread its next slice. The other callers of
`schedule` do not run any more. -/
def scheduleSlice : TimedM Unit := do
  let k ← get
  let cur ← liftKernel (onThreads curThread)
  if cur.status = taskRunning then modifySlice k.cur fun t => { t with ticks := t.priority }
  liftKernel (onThreads schedule)

/-- `intr_timer_handler` -/
def intrTimerHandler : TimedM Unit := do
  let k ← get
  modifySlice k.cur fun t => { t with elapsedTicks := t.elapsedTicks + 1 }
  modify TimedKernel.countTick
  if (k.slice k.cur).ticks = 0 then scheduleSlice
  else modifySlice k.cur fun t => { t with ticks := t.ticks - 1 }

/-- The slice that `copy_pcb_vaddrbitmap_stack0` gives a child. -/
def TimeSlice.forkChild (parent : TimeSlice) : TimeSlice :=
  { parent with elapsedTicks := 0, ticks := parent.priority }

/-- Whether an event makes a child. -/
def KernelEvent.forks : KernelEvent → Bool
  | .forkEnd mem _ => mem ≠ .noCopy
  | _ => false

/-- Whether an event may wake a thread. -/
def KernelEvent.wakes : KernelEvent → Bool
  | .semaUp _ | .wakeup _ | .exitEnd => true
  | _ => false

/-- An event of the kernel, in which the timer is not called by hand. -/
inductive TimedEvent
  | timer
  | call (e : KernelEvent)
  deriving DecidableEq, Repr

namespace TimedEvent

/-- The code of an event. -/
def run : TimedEvent → TimedM Unit
  | timer => intrTimerHandler
  | call e => do
    if e.forks then
      modify fun k => k.setSlice k.kernel.threads.nextPcb (k.slice k.cur).forkChild
    liftKernel e.run

/-- Whether an event can happen. -/
def Admitted (k : TimedKernel) : TimedEvent → Prop
  | timer => KernelEvent.tick.Admitted k.kernel
  | call e => e ≠ .tick ∧ e.Admitted k.kernel

instance (k : TimedKernel) (e : TimedEvent) : Decidable (e.Admitted k) := by
  cases e <;> unfold TimedEvent.Admitted <;> infer_instance

/-- The timer interrupts. -/
def timers : TimedEvent → ℕ
  | timer => 1
  | call _ => 0

/-- The wakeups. -/
def wakeups : TimedEvent → ℕ
  | timer => 0
  | call e => if e.wakes then 1 else 0

end TimedEvent

/-- The kernel after `thread_init`. -/
def TimedKernel.boot (value : ℕ → UInt8) : TimedKernel where
  kernel := Kernel.boot value
  slice p := if p = Threads.boot.idleThread then ⟨10, 10, 0⟩ else ⟨31, 31, 0⟩
  ticks := 0

/-- The runs of the kernel with its timer. -/
abbrev TimedKernel.Run (value : ℕ → UInt8) (k : TimedKernel) : Prop :=
  Exec.Run TimedEvent.run (fun k e => e.Admitted k) (TimedKernel.boot value) k

/-! ## The ready list of an event -/

/-- `w` was put in front of the ready list and something behind it, and then the first thread may have
been taken to run. -/
def Requeued (s s' : Threads) (w : List ℕ) : Prop :=
  ∃ x, s'.cur = s.cur ∧ s'.threadReadyList = w ++ s.threadReadyList ++ x ∨
    s'.cur :: s'.threadReadyList = w ++ s.threadReadyList ++ x

section Requeue

variable {s s' : Threads} {p : ℕ} {t : TaskStruct} {stat : TaskStatus}

theorem Requeued.refl (s : Threads) : Requeued s s [] := ⟨[], Or.inl ⟨rfl, by simp⟩⟩

/-- With a ready thread the idle thread is not needed. -/
theorem switchToNext_requeued (hne : s.threadReadyList ≠ []) :
    Exec.Ensures (wakeIdle >>= fun _ => switchToNext) s fun _ s' =>
      s'.cur :: s'.threadReadyList = s.threadReadyList := by
  obtain ⟨next, rest, hlist⟩ := List.exists_cons_of_ne_nil hne
  simp only [wakeIdle, Exec.Ensures, Exec.post_bind, Exec.post_get, Exec.post_ite, hne, false_implies,
    not_false_eq_true, true_implies, true_and, Exec.post_pure]
  simp only [switchToNext, Exec.post_bind, Exec.post_get, hlist, derefPcb, storePcb, post_deref,
    Exec.post_modify, implies_true, and_true]
  exact fun _ _ => rfl

theorem schedule_requeued (hne : s.threadReadyList ≠ []) :
    Exec.Ensures schedule s fun _ s' => ∃ x, s'.cur :: s'.threadReadyList = s.threadReadyList ++ x := by
  rw [schedule]
  refine Exec.Post.bind (Q := fun _ s₁ => ∃ x, s₁.threadReadyList = s.threadReadyList ++ x) ?_ ?_
  · simp only [preemptCur, curThread, derefPcb, storePcb, Exec.post_bind, Exec.post_get, post_deref,
      Exec.post_ite, post_assert, Exec.post_modify, Exec.post_pure, implies_true, and_true]
    exact fun t _ => ⟨fun _ _ => ⟨[s.cur], rfl⟩, fun _ => ⟨[], (List.append_nil _).symm⟩⟩
  · rintro _ s₁ ⟨x, hx⟩
    have hne₁ : s₁.threadReadyList ≠ [] := by simp [hx, hne]
    exact Exec.Ensures.mono (switchToNext_requeued hne₁) fun _ s₂ h => ⟨x, h.trans hx⟩

theorem threadBlock_requeued (hne : s.threadReadyList ≠ []) :
    Exec.Ensures (threadBlock stat) s fun _ s' =>
      ∃ x, s'.cur :: s'.threadReadyList = s.threadReadyList ++ x := by
  simp only [threadBlock, curThread, derefPcb, storePcb, Exec.Ensures, Exec.post_bind, Exec.post_get,
    post_deref, post_assert, Exec.post_modify, implies_true, and_true]
  exact fun _ t _ => schedule_requeued hne

theorem threadYield_requeued :
    Exec.Ensures threadYield s fun _ s' =>
      ∃ x, s'.cur :: s'.threadReadyList = s.threadReadyList ++ x := by
  simp only [threadYield, curThread, derefPcb, storePcb, Exec.Ensures, Exec.post_bind, Exec.post_get,
    post_deref, post_assert, Exec.post_modify, implies_true, and_true]
  intro t _ _
  refine Exec.Ensures.mono (schedule_requeued ?_) ?_
  · simp
  · rintro _ s' ⟨x, hx⟩
    exact ⟨s.cur :: x, by simpa using hx⟩

theorem threadUnblock_requeued : Exec.Ensures (threadUnblock p) s fun _ s' =>
    s'.cur = s.cur ∧ s'.threadReadyList = p :: s.threadReadyList := by
  simp only [threadUnblock, derefPcb, storePcb, Exec.Ensures, Exec.post_bind, Exec.post_get,
    post_deref, post_assert, Exec.post_modify, implies_true, and_true]
  exact fun _ _ _ _ => ⟨rfl, rfl⟩

theorem sysExitEnd_requeued (hne : s.threadReadyList ≠ []) :
    Exec.Ensures sysExitEnd s fun _ s' => ∃ w, w.length ≤ 1 ∧ Requeued s s' w := by
  simp only [sysExitEnd, wakeParent, curThread, derefPcb, Exec.Ensures, Exec.post_bind, Exec.post_get,
    post_deref, Exec.post_ite, Exec.post_pure, implies_true, and_true]
  intro t _ q _ u _
  refine ⟨fun _ => ?_, fun _ => ?_⟩
  · refine Exec.Ensures.mono threadUnblock_requeued ?_
    rintro _ s₁ ⟨-, hlist⟩
    refine Exec.Ensures.mono (threadBlock_requeued (by simp [hlist])) ?_
    rintro _ s₂ ⟨x, hx⟩
    exact ⟨[q], le_rfl, x, Or.inr (by rw [hx, hlist]; rfl)⟩
  · refine Exec.Ensures.mono (threadBlock_requeued hne) ?_
    rintro _ s₂ ⟨x, hx⟩
    exact ⟨[], Nat.zero_le _, x, Or.inr hx⟩

theorem sysWait_requeued (h : ReadyInv (some s.cur) s) (hne : s.threadReadyList ≠ []) :
    Exec.Ensures sysWait s fun _ s' => Requeued s s' [] := by
  obtain ⟨t, ht⟩ := h.present s.cur rfl
  simp only [sysWait, curThread, derefPcb, storePcb, Exec.Ensures, Exec.post_bind, Exec.post_get,
    post_deref, Exec.post_modify, implies_true, and_true, ht, Option.some.injEq, forall_eq']
  cases hfind : findHangingChild s t.pid with
  | some child =>
    obtain ⟨-, u, hu, htest⟩ := Threads.traverse_eq_some hfind
    have hhang : u.status = taskHanging := (by simpa using htest : _ ∧ u.status = taskHanging).2
    have hnot : child ∉ s.threadReadyList := h.notMem hu (by rw [hhang]; decide)
    simp only [threadExit, releasePid, derefPcb, storePcb, Exec.post_bind, Exec.post_get, post_deref,
      Exec.post_modify, Exec.post_ite, Exec.post_pure, implies_true, and_true, Bool.false_eq_true,
      false_implies, not_false_eq_true, true_implies, true_and]
    intro _ _ _ _
    have hlist : s.threadReadyList.erase child = [] ++ s.threadReadyList ++ [] := by
      rw [List.erase_of_not_mem hnot, List.nil_append, List.append_nil]
    exact ⟨fun _ => ⟨[], Or.inl ⟨rfl, hlist⟩⟩, fun _ => ⟨[], Or.inl ⟨rfl, hlist⟩⟩⟩
  | none =>
    cases findChild s t.pid with
    | none => exact ⟨[], Or.inl ⟨rfl, by simp⟩⟩
    | some child =>
      simp only [Exec.post_bind, Exec.post_modify, Exec.post_pure]
      refine Exec.Ensures.mono (threadBlock_requeued hne) ?_
      rintro _ s' ⟨x, hx⟩
      exact ⟨x, Or.inr hx⟩

end Requeue

section Events

variable {k k' : Kernel} {e : KernelEvent}

/-- How an event changes the ready list. -/
theorem KernelEvent.run_requeued (h : SchedInv k) (he : e.Admitted k)
    (hne : k.threads.threadReadyList ≠ []) : Exec.Ensures e.run k fun _ k' =>
      ∃ w, w.length ≤ (if e.wakes then 1 else 0) ∧ Requeued k.threads k'.threads w := by
  obtain ⟨t, ht, hrun⟩ := h.cur_running
  cases e with
  | tick =>
    refine post_onThreads.mpr (Exec.Ensures.mono (schedule_requeued hne) ?_)
    rintro _ s ⟨x, hx⟩
    exact ⟨[], le_rfl, x, Or.inr hx⟩
  | block stat =>
    refine post_onThreads.mpr (Exec.Ensures.mono (threadBlock_requeued hne) ?_)
    rintro _ s ⟨x, hx⟩
    exact ⟨[], le_rfl, x, Or.inr hx⟩
  | yield =>
    refine post_onThreads.mpr (Exec.Ensures.mono threadYield_requeued ?_)
    rintro _ s ⟨x, hx⟩
    exact ⟨[], le_rfl, x, Or.inr hx⟩
  | semaDown psema =>
    simp only [KernelEvent.run, Winx.semaDown, Exec.Ensures, Exec.post_bind, Exec.post_get, Exec.post_ite,
      post_assert, Exec.post_modify, Exec.post_pure, post_onThreads, implies_true, and_true]
    refine ⟨fun _ _ => Exec.Ensures.mono (threadBlock_requeued hne) ?_,
      fun _ _ => ⟨[], le_rfl, Requeued.refl _⟩⟩
    rintro _ s ⟨x, hx⟩
    exact ⟨[], le_rfl, x, Or.inr hx⟩
  | semaUp psema =>
    simp only [KernelEvent.run, Winx.semaUp, wakeWaiter, Exec.Ensures, Exec.post_bind, Exec.post_get,
      post_assert, implies_true, and_true]
    intro _
    cases (k.semaphore psema).waiters with
    | nil => exact fun _ => ⟨[], Nat.zero_le _, Requeued.refl _⟩
    | cons p rest =>
      simp only [Exec.post_bind, Exec.post_modify, post_onThreads]
      refine Exec.Ensures.mono threadUnblock_requeued ?_
      rintro _ s ⟨hcur, hlist⟩ _
      exact ⟨[p], le_rfl, [], Or.inl ⟨hcur, by rw [List.append_nil]; exact hlist⟩⟩
  | ioqWait w =>
    simp only [KernelEvent.run, Winx.ioqWait, Exec.Ensures, Exec.post_bind, Exec.post_get, post_assert,
      Exec.post_modify, post_onThreads, implies_true, and_true]
    refine fun _ => Exec.Ensures.mono (threadBlock_requeued hne) ?_
    rintro _ s ⟨x, hx⟩
    exact ⟨[], le_rfl, x, Or.inr hx⟩
  | wakeup w =>
    simp only [KernelEvent.run, Winx.wakeup, Exec.Ensures, Exec.post_bind, Exec.post_get]
    cases k.waiter w with
    | none => trivial
    | some p =>
      simp only [Exec.post_bind, Exec.post_modify, post_onThreads]
      refine Exec.Ensures.mono threadUnblock_requeued ?_
      rintro _ s ⟨hcur, hlist⟩
      exact ⟨[p], le_rfl, [], Or.inl ⟨hcur, by rw [List.append_nil]; exact hlist⟩⟩
  | forkBegin mem =>
    refine Exec.post_bind.mpr (post_onThreads.mpr (Exec.Post.mono
      (sysForkBegin_spec ht (by simpa [ht] using he.2.2)) ?_ fun _ _ => trivial))
    intro r s hs
    cases r with
    | none => exact ⟨[], le_rfl, hs ▸ Requeued.refl _⟩
    | some pid =>
      obtain ⟨-, -, rfl⟩ := hs
      exact ⟨[], le_rfl, Requeued.refl _⟩
  | forkEnd mem pid =>
    refine Exec.post_bind.mpr (Exec.post_bind.mpr (post_onThreads.mpr ((sysForkEnd_spec ht).post ?_)))
    rintro _ s (rfl | rfl)
    · exact ⟨[], le_rfl, Requeued.refl _⟩
    · exact ⟨[], le_rfl, [k.threads.nextPcb], Or.inl ⟨rfl, rfl⟩⟩
  | exitBegin status =>
    refine Exec.post_bind.mpr (post_onThreads.mpr (Exec.Post.mono (sysExitBegin_spec ht) ?_
      fun _ _ => trivial))
    rintro _ s ⟨-, rfl⟩
    exact ⟨[], le_rfl, Requeued.refl _⟩
  | exitEnd => exact post_onThreads.mpr (sysExitEnd_requeued hne)
  | wait =>
    refine Exec.post_bind.mpr (post_onThreads.mpr (Exec.Ensures.mono (sysWait_requeued h.ready hne) ?_))
    exact fun _ s hs => ⟨[], le_rfl, hs⟩
  | mainExit =>
    refine Exec.post_bind.mpr (post_onThreads.mpr ?_)
    rw [post_threadExit (he.2.1 ▸ ht)]
    refine ⟨fun _ => ?_, fun hfalse => absurd rfl hfalse⟩
    have hnot : k.threads.mainThread ∉ k.threads.threadReadyList := by
      rw [← he.2.1]
      exact h.ready.notMem ht (by rw [hrun]; decide)
    have hlist : (k.threads.unlisted k.threads.mainThread t
        (k.threads.leftover k.threads.mainThread t)).threadReadyList = k.threads.threadReadyList :=
      List.erase_of_not_mem hnot
    refine Exec.Ensures.mono (schedule_requeued (hlist ▸ hne)) ?_
    rintro _ s ⟨x, hx⟩
    exact ⟨[], Nat.zero_le _, x, Or.inr (hx.trans (by rw [hlist]; rfl))⟩

end Events

/-! ## Waiting for the processor -/

/-- The invariant of the kernel with its timer. -/
structure TimeInv (k : TimedKernel) : Prop where
  sched : SchedInv k.kernel
  slice : ∀ p, (k.slice p).ticks ≤ (k.slice p).priority ∧ (k.slice p).priority ≤ 31

namespace TimedKernel

variable (k : TimedKernel)

/-- The timer interrupts until a thread that runs is preempted. -/
def credit (p : ℕ) : ℕ := (k.slice p).ticks.toNat + 1

/-- The threads before a ready thread. -/
def ahead (p : ℕ) : List ℕ := k.ready.takeWhile (· ≠ p)

/-- The timer interrupts until a ready thread runs, if all threads use up their slices and none is
woken. -/
def wait (p : ℕ) : ℕ := k.credit k.cur + ((k.ahead p).map k.credit).sum

end TimedKernel

section Lists

variable {p : ℕ} {l r : List ℕ} {c : ℕ → ℕ}

theorem exists_takeWhile_append (hp : p ∈ l) : ∃ r, l = l.takeWhile (· ≠ p) ++ p :: r := by
  induction l with
  | nil => cases hp
  | cons q l ih =>
    by_cases hq : q = p
    · exact ⟨l, by simp [hq]⟩
    · obtain ⟨r, hr⟩ := ih ((List.mem_cons.mp hp).resolve_left (Ne.symm hq))
      refine ⟨r, ?_⟩
      rw [List.takeWhile_cons_of_pos (by simpa using hq), List.cons_append, ← hr]

theorem sum_takeWhile_le (c : ℕ → ℕ) (l r : List ℕ) :
    (((l ++ p :: r).takeWhile (· ≠ p)).map c).sum ≤ (l.map c).sum := by
  induction l with
  | nil => simp
  | cons q l ih =>
    by_cases hq : q = p
    · simp [hq]
    · rw [List.cons_append, List.takeWhile_cons_of_pos (by simpa using hq), List.map_cons,
        List.map_cons, List.sum_cons, List.sum_cons]
      exact Nat.add_le_add_left ih _

end Lists

section Wait

variable {k k' : TimedKernel} {p : ℕ} {w x : List ℕ} {e : TimedEvent}

/-- A thread that is not the first one still waits after the first one was taken. -/
theorem wait_of_popped (h : k'.cur :: k'.ready = w ++ k.ready ++ x) (hp : p ∈ k.ready)
    (hne : k'.cur ≠ p) : p ∈ k'.ready ∧
      k'.wait p ≤ (w.map k'.credit).sum + ((k.ahead p).map k'.credit).sum := by
  obtain ⟨r, hr⟩ := exists_takeWhile_append hp
  have hlist : k'.cur :: k'.ready = (w ++ k.ahead p) ++ p :: (r ++ x) := by
    rw [h]
    conv_lhs => rw [hr]
    simp [TimedKernel.ahead]
  cases hahead : w ++ k.ahead p with
  | nil =>
    rw [hahead, List.nil_append, List.cons.injEq] at hlist
    exact absurd hlist.1 hne
  | cons q a =>
    rw [hahead, List.cons_append, List.cons.injEq] at hlist
    obtain ⟨hcur, hready⟩ := hlist
    refine ⟨by rw [hready]; simp, ?_⟩
    rw [← List.sum_append, ← List.map_append, hahead, List.map_cons, List.sum_cons, TimedKernel.wait, hcur,
      TimedKernel.ahead, hready]
    exact Nat.add_le_add_left (sum_takeWhile_le _ _ _) _

theorem wait_of_requeued (h : Requeued k.kernel.threads k'.kernel.threads w) (hp : p ∈ k.ready)
    (hne : k'.cur ≠ p) : p ∈ k'.ready ∧
      k'.wait p ≤ k'.credit k.cur + (w.map k'.credit).sum + ((k.ahead p).map k'.credit).sum := by
  obtain ⟨x, ⟨hcur, hready⟩ | hlist⟩ := h
  · obtain ⟨r, hr⟩ := exists_takeWhile_append hp
    have hlist : k'.ready = (w ++ k.ahead p) ++ p :: (r ++ x) := by
      refine hready.trans ?_
      change w ++ k.ready ++ x = _
      conv_lhs => rw [hr]
      simp [TimedKernel.ahead]
    refine ⟨by rw [hlist]; simp, ?_⟩
    have hle := sum_takeWhile_le (p := p) k'.credit (w ++ k.ahead p) (r ++ x)
    rw [← hlist, List.map_append, List.sum_append] at hle
    have hcredit : k'.credit k'.cur = k'.credit k.cur := congrArg k'.credit hcur
    rw [TimedKernel.wait, TimedKernel.ahead, hcredit]
    omega
  · obtain ⟨hready, hle⟩ := wait_of_popped hlist hp hne
    exact ⟨hready, by omega⟩

/-- The running thread gets its next slice and another one runs. -/
theorem scheduleSlice_spec (h : SchedInv k.kernel) : Exec.Ensures scheduleSlice k fun _ k' =>
    SchedInv k'.kernel ∧ k'.slice = Function.update k.slice k.cur
        { k.slice k.cur with ticks := (k.slice k.cur).priority } ∧
      (k.ready ≠ [] → ∃ x, k'.cur :: k'.ready = k.ready ++ x) := by
  obtain ⟨u, hu, hrun⟩ := h.cur_running
  have hpost : Exec.Ensures (onThreads schedule) k.kernel fun _ s => SchedInv s ∧
      (k.ready ≠ [] → ∃ x, s.cur :: s.threads.threadReadyList = k.ready ++ x) := by
    refine Exec.Ensures.and ?_ ?_
    · refine post_onThreads.mpr ((schedule_running h.ready).post ?_)
      rintro _ s ⟨hready, hrel⟩
      exact h.rescheduled hrel hready rfl rfl h.wait
    · by_cases hne : k.ready = []
      · exact Exec.Ensures.mono Exec.ensures_true fun _ _ _ h => absurd hne h
      · exact post_onThreads.mpr (Exec.Ensures.mono (schedule_requeued hne) fun _ s hs _ => hs)
  have hcur : liftKernel (onThreads curThread) k = .ok (u, k) := by
    rw [Exec.eq_ok_iff, Exec.Returns, post_liftKernel, post_onThreads]
    simp only [curThread, derefPcb, Exec.post_bind, Exec.post_get, post_deref, hu, Option.some.injEq,
      forall_eq', reduceCtorEq, false_implies, and_true]
    exact ⟨trivial, rfl⟩
  rw [scheduleSlice, Exec.Ensures, Exec.post_bind, Exec.post_get, Exec.post_bind_of_ok hcur, if_pos hrun,
    Exec.post_bind, modifySlice, Exec.post_modify, post_liftKernel]
  exact Exec.Ensures.mono hpost fun _ s hs => ⟨hs.1, rfl, hs.2⟩

/-- A timer interrupt uses up a tick of the running thread, or its slice is over. -/
theorem intrTimerHandler_spec (h : SchedInv k.kernel) : Exec.Ensures intrTimerHandler k fun _ k' =>
    SchedInv k'.kernel ∧ ∃ t, k'.slice = Function.update k.slice k.cur t ∧
      t.priority = (k.slice k.cur).priority ∧
        ((k.slice k.cur).ticks = 0 ∧ t.ticks = t.priority ∧
            (k.ready ≠ [] → ∃ x, k'.cur :: k'.ready = k.ready ++ x) ∨
          (k.slice k.cur).ticks ≠ 0 ∧ t.ticks = (k.slice k.cur).ticks - 1 ∧ k'.kernel = k.kernel) := by
  simp only [intrTimerHandler, modifySlice, Exec.Ensures, Exec.post_bind, Exec.post_get, Exec.post_modify,
    Exec.post_ite]
  refine ⟨fun hzero => ?_, fun hne => ?_⟩
  · refine Exec.Ensures.mono (scheduleSlice_spec ?_) ?_
    · exact h
    · rintro _ k' ⟨hs, hslice, hlist⟩
      refine ⟨hs, _, hslice.trans (Function.update_idem ..), ?_, Or.inl ⟨hzero, rfl, hlist⟩⟩
      simp
  · refine ⟨h, _, Function.update_idem .., ?_, Or.inr ⟨hne, ?_, rfl⟩⟩
    · simp
    · simp

/-- Threads whose slices are the same have the same credit. -/
theorem credit_congr {q : ℕ} (h : k'.slice q = k.slice q) : k'.credit q = k.credit q := by
  rw [TimedKernel.credit, TimedKernel.credit, h]

theorem TimeInv.credit_le (h : TimeInv k) (q : ℕ) : k.credit q ≤ 32 := by
  have hq := h.slice q
  have h₁ := UInt8.le_iff_toNat_le.mp hq.1
  have h₂ := UInt8.le_iff_toNat_le.mp hq.2
  have h₃ : (31 : UInt8).toNat = 31 := rfl
  unfold TimedKernel.credit
  omega

theorem TimeInv.sum_credit_le (h : TimeInv k) (l : List ℕ) : (l.map k.credit).sum ≤ 32 * l.length := by
  induction l with
  | nil => simp
  | cons q l ih =>
    have hq := h.credit_le q
    rw [List.map_cons, List.sum_cons, List.length_cons]
    omega

/-- The running thread is not ready. -/
theorem SchedInv.cur_notMem {k : Kernel} (h : SchedInv k) : k.cur ∉ k.threads.threadReadyList := by
  obtain ⟨t, ht, hrun⟩ := h.cur_running
  exact h.ready.notMem ht (by rw [hrun]; decide)

/-- The PCB of a child is at a fresh address. -/
theorem SchedInv.nextPcb_ne {k : Kernel} (h : SchedInv k) :
    k.cur ≠ k.threads.nextPcb ∧ k.threads.nextPcb ∉ k.threads.threadReadyList := by
  have hnone := h.ready.fresh k.threads.nextPcb le_rfl
  constructor
  · obtain ⟨t, ht, -⟩ := h.cur_running
    intro heq
    rw [heq, hnone] at ht
    cases ht
  · intro hmem
    obtain ⟨t, ht, -⟩ := (h.ready.ready _).mp hmem
    rw [hnone] at ht
    cases ht

theorem mem_ahead {q : ℕ} (hq : q ∈ k.ahead p) : q ∈ k.ready :=
  (List.takeWhile_sublist _).subset hq

/-- A change of one slice keeps the bounds if the new slice is within them. -/
theorem TimeInv.update {t : TimeSlice} {q : ℕ} (h : TimeInv k) (hs : SchedInv k'.kernel)
    (hslice : k'.slice = Function.update k.slice q t) (ht : t.ticks ≤ t.priority ∧ t.priority ≤ 31) :
    TimeInv k' := by
  refine ⟨hs, fun p => ?_⟩
  rw [hslice, Function.update_apply]
  split
  · exact ht
  · exact h.slice p

theorem timer_spec (h : TimeInv k) : Exec.Ensures intrTimerHandler k fun _ k' => TimeInv k' ∧
    (p ∈ k.ready → k'.cur ≠ p → p ∈ k'.ready ∧ 1 + k'.wait p ≤ k.wait p) := by
  refine Exec.Ensures.mono (intrTimerHandler_spec h.sched) ?_
  rintro _ k' ⟨hs, t, hslice, hprio, hcase⟩
  have hcur := h.slice k.cur
  -- the threads before `p` keep their slices
  have hahead : (k.ahead p).map k'.credit = (k.ahead p).map k.credit := by
    refine List.map_congr_left fun q hq => credit_congr ?_
    rw [hslice, Function.update_of_ne]
    rintro rfl
    exact h.sched.cur_notMem (mem_ahead hq)
  rcases hcase with ⟨hzero, hticks, hlist⟩ | ⟨hne, hticks, hkernel⟩
  · refine ⟨h.update hs hslice ⟨hticks ▸ UInt8.le_refl _, hprio ▸ hcur.2⟩, fun hp hne => ?_⟩
    obtain ⟨x, hx⟩ := hlist (List.ne_nil_of_mem hp)
    obtain ⟨hmem, hle⟩ := wait_of_popped (w := []) hx hp hne
    refine ⟨hmem, ?_⟩
    have hone : k.credit k.cur = 1 := by
      rw [TimedKernel.credit, hzero]
      rfl
    rw [hahead, List.map_nil, List.sum_nil, Nat.zero_add] at hle
    calc 1 + k'.wait p ≤ 1 + ((k.ahead p).map k.credit).sum := Nat.add_le_add_left hle 1
      _ = k.wait p := by rw [TimedKernel.wait, hone]
  · have hpos : (k.slice k.cur).ticks.toNat ≠ 0 := fun heq => hne (UInt8.toNat_inj.mp heq)
    have hone : (1 : UInt8).toNat = 1 := rfl
    have hle : (1 : UInt8) ≤ (k.slice k.cur).ticks := by
      rw [UInt8.le_iff_toNat_le]
      omega
    have htick : t.ticks.toNat = (k.slice k.cur).ticks.toNat - 1 := by
      rw [hticks, UInt8.toNat_sub_of_le _ _ hle, hone]
    have hcur' : k'.cur = k.cur := congrArg Kernel.cur hkernel
    have hready : k'.ready = k.ready := congrArg (fun k => k.threads.threadReadyList) hkernel
    refine ⟨h.update hs hslice ⟨?_, hprio ▸ hcur.2⟩, fun hp _ => ⟨hready ▸ hp, ?_⟩⟩
    · have := UInt8.le_iff_toNat_le.mp hcur.1
      rw [UInt8.le_iff_toNat_le, hprio]
      omega
    · have hself : k'.credit k.cur + 1 = k.credit k.cur := by
        unfold TimedKernel.credit
        rw [hslice, Function.update_self, htick]
        omega
      have hahead' : k'.ahead p = k.ahead p := by rw [TimedKernel.ahead, hready, TimedKernel.ahead]
      rw [TimedKernel.wait, TimedKernel.wait, hahead', hahead, hcur']
      omega

/-- An event of the kernel, from slices that may differ at the PCB of a child. -/
theorem onKernel_spec {k₁ : TimedKernel} {e : KernelEvent} (h : TimeInv k) (h₁ : TimeInv k₁)
    (hkernel : k₁.kernel = k.kernel)
    (hslice : ∀ q, q ≠ k.kernel.threads.nextPcb → k₁.slice q = k.slice q) (he : e.Admitted k.kernel) :
    Exec.Ensures (liftKernel e.run) k₁ fun _ k' => TimeInv k' ∧
      (p ∈ k.ready → k'.cur ≠ p → p ∈ k'.ready ∧
        k'.wait p ≤ k.wait p + 32 * (if e.wakes then 1 else 0)) := by
  rw [Exec.Ensures, post_liftKernel, hkernel]
  have hlists : Exec.Ensures e.run k.kernel fun _ s => k.ready ≠ [] →
      ∃ w : List ℕ, w.length ≤ (if e.wakes then 1 else 0) ∧ Requeued k.kernel.threads s.threads w := by
    by_cases hne : k.ready = []
    · exact Exec.Ensures.mono Exec.ensures_true fun _ _ _ h => absurd hne h
    · exact Exec.Ensures.mono (e.run_requeued h.sched he hne) fun _ s hs _ => hs
  refine Exec.Ensures.mono (Exec.Ensures.and (e.run_schedInv h.sched he).ensures hlists) ?_
  rintro _ s ⟨hs, hlist⟩
  have h' : TimeInv (k₁.setKernel s) := ⟨hs, h₁.slice⟩
  refine ⟨h', fun hp hne => ?_⟩
  obtain ⟨w, hw, hrequeued⟩ := hlist (List.ne_nil_of_mem hp)
  have hlists' : Requeued k.kernel.threads (k₁.setKernel s).kernel.threads w := hrequeued
  obtain ⟨hmem, hle⟩ := wait_of_requeued hlists' hp hne
  obtain ⟨hcur, hready⟩ := h.sched.nextPcb_ne
  have hself : (k₁.setKernel s).credit k.cur = k.credit k.cur := credit_congr (hslice _ hcur)
  have hahead : (k.ahead p).map (k₁.setKernel s).credit = (k.ahead p).map k.credit := by
    refine List.map_congr_left fun q hq => credit_congr (hslice q ?_)
    rintro rfl
    exact hready (mem_ahead hq)
  have hwoken := h'.sum_credit_le w
  refine ⟨hmem, ?_⟩
  rw [hself, hahead] at hle
  rw [TimedKernel.wait.eq_1 k]
  omega

theorem call_spec {e : KernelEvent} (h : TimeInv k) (he : e.Admitted k.kernel) :
    Exec.Ensures (TimedEvent.call e).run k fun _ k' => TimeInv k' ∧
      (p ∈ k.ready → k'.cur ≠ p → p ∈ k'.ready ∧
        k'.wait p ≤ k.wait p + 32 * (if e.wakes then 1 else 0)) := by
  simp only [TimedEvent.run, Exec.Ensures, Exec.post_ite, Exec.post_bind, Exec.post_modify]
  refine ⟨fun _ => ?_, fun _ => onKernel_spec h h rfl (fun _ _ => rfl) he⟩
  refine onKernel_spec h ?_ rfl (fun q hq => Function.update_of_ne hq ..) he
  exact TimeInv.update h h.sched rfl ⟨UInt8.le_refl _, (h.slice k.cur).2⟩

theorem timeInv_boot {value : ℕ → UInt8} : TimeInv (TimedKernel.boot value) := by
  refine ⟨schedInv_boot value, fun p => ?_⟩
  unfold TimedKernel.boot
  dsimp only
  split
  · decide
  · decide

/-- One event, for a thread that is ready before and does not run after it. -/
theorem TimedEvent.run_spec {e : TimedEvent} (h : TimeInv k) (he : e.Admitted k) :
    Exec.Ensures e.run k fun _ k' => TimeInv k' ∧ (p ∈ k.ready → k'.cur ≠ p →
      p ∈ k'.ready ∧ e.timers + k'.wait p ≤ k.wait p + 32 * e.wakeups) := by
  cases e with
  | timer => exact timer_spec h
  | call e =>
    refine Exec.Ensures.mono (call_spec (p := p) h he.2) ?_
    rintro _ k' ⟨h', hwait⟩
    refine ⟨h', fun hp hne => ?_⟩
    obtain ⟨hready, hle⟩ := hwait hp hne
    exact ⟨hready, (Nat.zero_add _).trans_le hle⟩

theorem TimedKernel.Run.timeInv {value : ℕ → UInt8} (h : TimedKernel.Run value k) : TimeInv k :=
  h.invariant timeInv_boot fun k _ hk he =>
    Exec.Ensures.mono (TimedEvent.run_spec (p := k.cur) hk he) fun _ _ h' => h'.1

/-- A ready thread runs before there are as many timer interrupts as the slices of the threads before it
and of those that are woken meanwhile. -/
theorem waitBounded_of_run {value : ℕ → UInt8} {l : List TimedEvent} (hrun : TimedKernel.Run value k)
    (hp : p ∈ k.ready)
    (hpath : Exec.Path TimedEvent.run (fun k e => e.Admitted k) (fun k => k.cur ≠ p) k l k') :
    (l.map TimedEvent.timers).sum < 32 * ((k.ahead p).length + 1 + (l.map TimedEvent.wakeups).sum) := by
  have hinv := hrun.timeInv
  have hle := hpath.amortized (I := fun k => TimeInv k ∧ p ∈ k.ready) (fun k => k.wait p)
    TimedEvent.timers (fun e => 32 * e.wakeups) ?_ ⟨hinv, hp⟩
  · have hcur := hinv.credit_le k.cur
    have hahead := hinv.sum_credit_le (k.ahead p)
    have hpos : 0 < k'.wait p := by
      unfold TimedKernel.wait TimedKernel.credit
      omega
    have hwakeups : (l.map fun e => 32 * e.wakeups).sum = 32 * (l.map TimedEvent.wakeups).sum :=
      List.sum_map_mul_left ..
    rw [TimedKernel.wait.eq_1 k, hwakeups] at hle
    omega
  · rintro k e b k' ⟨hk, hp⟩ he hcall hne
    obtain ⟨hk', hwait⟩ := (TimedEvent.run_spec hk he).of_ok hcall
    obtain ⟨hready, hle⟩ := hwait hp hne
    exact ⟨⟨hk', hready⟩, hle⟩

/-- The idle thread waits at the start for the slices of `main` and `init`. -/
theorem waitBounded_of_run_idle : ∃ k', Exec.Path TimedEvent.run (fun k e => e.Admitted k) (fun k => k.cur ≠ 2)
    (TimedKernel.boot fun _ => 1) (List.replicate 63 .timer) k' ∧
      ((List.replicate 63 TimedEvent.timer).map TimedEvent.timers).sum < 32 *
        (((TimedKernel.boot fun _ => 1).ahead 2).length + 1 +
          ((List.replicate 63 TimedEvent.timer).map TimedEvent.wakeups).sum) := by
  have h : (Exec.pathList TimedEvent.run (fun k e => e.Admitted k) (fun k => k.cur != 2)
      (List.replicate 63 .timer) (TimedKernel.boot fun _ => 1)).isSome = true := by
    decide +kernel
  obtain ⟨k', hk'⟩ := Option.isSome_iff_exists.mp h
  have hpath := (Exec.Path.of_pathList hk').mono fun k hne => bne_iff_ne.mp hne
  exact ⟨k', hpath, waitBounded_of_run .refl (by decide) hpath⟩

end Wait

end Winx
