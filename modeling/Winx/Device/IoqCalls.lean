import Winx.Device.Ioqueue
import Winx.Userprog.Runnable

/-! # Calls on the queue

Threads call `ioq_getchar` and `ioq_putchar` with interrupts off, so that another
thread runs only where a call blocks: in the `sema_down` of `lock_acquire`, and in
`ioq_wait`. A thread that is woken there goes on with the loop of its call.
-/

namespace Winx

/-- A call on the queue. -/
inductive IoqCall
  | ioqGetchar
  | ioqPutchar (byte : UInt8)
  deriving DecidableEq, Repr

/-- Where a thread stands: in no call, or blocked or woken in `lock_acquire` or in `ioq_wait`. -/
inductive IoqPoint
  | outside
  | lockAcquire (c : IoqCall)
  | ioqWait (c : IoqCall)
  deriving DecidableEq, Repr

/-- The addresses of the semaphore of `ioq->lock` and of `ioq->producer` and `ioq->consumer`. -/
structure IoqFields where
  lock : ℕ
  producer : ℕ
  consumer : ℕ
  ne : producer ≠ consumer

/-- The kernel with a queue. The lists hold the bytes that were inserted and removed so far. -/
structure IoqState where
  kernel : Kernel
  holder : Option ℕ
  holderRepeatNr : UInt32
  ioq : Ioqueue
  point : ℕ → IoqPoint
  inserted : List UInt8
  removed : List UInt8

/-- Code of threads that use the queue. -/
abbrev IoqM (α : Type) := Exec IoqState Fault α

namespace IoqState

variable (s : IoqState)

/-- The running thread. -/
abbrev cur : ℕ := s.kernel.cur

/-- Change the kernel. -/
@[simps -fullyApplied] def setKernel (k : Kernel) : IoqState := { s with kernel := k }

/-- `ioq->lock.holder = p` -/
@[simps -fullyApplied] def setHolder (p : Option ℕ) : IoqState := { s with holder := p }

/-- `ioq->lock.holder_repeat_nr = nr` -/
@[simps -fullyApplied] def setRepeatNr (nr : UInt32) : IoqState := { s with holderRepeatNr := nr }

/-- The running thread moves to another point. -/
@[simps -fullyApplied] def goto (point : IoqPoint) : IoqState :=
  { s with point := Function.update s.point s.kernel.cur point }

/-- A byte is written to the queue. -/
@[simps -fullyApplied] def insert (byte : UInt8) : IoqState :=
  { s with ioq := s.ioq.insert byte, inserted := s.inserted ++ [byte] }

/-- A byte is read from the queue. -/
@[simps -fullyApplied] def remove : IoqState :=
  { s with ioq := s.ioq.remove, removed := s.removed ++ [s.ioq.first] }

end IoqState

/-- Code of the kernel. -/
def inKernel {α : Type} (m : KernelM α) : IoqM α := fun s =>
  match m s.kernel with
  | .ok (a, k) => .ok (a, s.setKernel k)
  | .error e => .error e

@[simp] theorem post_inKernel {α : Type} {m : KernelM α} {s : IoqState} {Q : α → IoqState → Prop}
    {E : Fault → Prop} :
    Exec.Post (inKernel m) s Q E ↔ Exec.Post m s.kernel (fun a k => Q a (s.setKernel k)) E := by
  unfold Exec.Post inKernel
  cases m s.kernel <;> rfl

/-- The condition of the loop of a call: `ioq_empty` or `ioq_full`. -/
def IoqCall.mustWait : IoqCall → Ioqueue → Bool
  | ioqGetchar, ioq => ioqEmpty ioq
  | ioqPutchar _, ioq => ioqFull ioq

/-- The pointer by which a call waits. -/
def IoqCall.waiter (a : IoqFields) : IoqCall → ℕ
  | ioqGetchar => a.consumer
  | ioqPutchar _ => a.producer

/-- The pointer by which the other side waits. -/
def IoqCall.otherWaiter (a : IoqFields) : IoqCall → ℕ
  | ioqGetchar => a.producer
  | ioqPutchar _ => a.consumer

/-- What a call does to the ring after its loop. -/
def IoqCall.transfer : IoqCall → IoqState → IoqState
  | ioqGetchar, s => s.remove
  | ioqPutchar byte, s => s.insert byte

/-- The rest of a call after its loop. -/
def ioqFinish (a : IoqFields) (c : IoqCall) : IoqM Unit := do
  modify c.transfer
  modify fun s => s.goto .outside
  let s ← get
  if s.kernel.waiter (c.otherWaiter a) ≠ none then inKernel (wakeup (c.otherWaiter a)) else pure ()

/-- `ioq_wait`, inside of the loop of a call. -/
def ioqSleep (a : IoqFields) (c : IoqCall) : IoqM Unit := do
  modify fun s => s.goto (.ioqWait c)
  inKernel (ioqWait (c.waiter a))

/-- A turn of the loop of `sema_down` in `lock_acquire`, and what follows. -/
def ioqAcquire (a : IoqFields) (c : IoqCall) : IoqM Unit := do
  let taken ← inKernel (semaDown a.lock)
  if taken then
    modify fun s => s.setHolder (some s.cur)
    let s ← get
    assert (s.holderRepeatNr = 0)
    set (s.setRepeatNr 1)
    ioqSleep a c
  else pure ()

/-- A turn of the loop of a call. -/
def ioqTurn (a : IoqFields) (c : IoqCall) : IoqM Unit := do
  let s ← get
  if c.mustWait s.ioq then
    if s.holder ≠ some s.cur then
      set (s.goto (.lockAcquire c))
      ioqAcquire a c
    else
      set (s.setRepeatNr (s.holderRepeatNr + 1))
      ioqSleep a c
  else ioqFinish a c

/-- `lock_release` -/
def ioqRelease (a : IoqFields) : IoqM Unit := do
  let s ← get
  assert (s.holder = some s.cur)
  if s.holderRepeatNr > 1 then set (s.setRepeatNr (s.holderRepeatNr - 1))
  else
    assert (s.holderRepeatNr = 1)
    set ((s.setHolder none).setRepeatNr 0)
    inKernel (semaUp a.lock)

/-- A thread goes on with its call. -/
def ioqStep (a : IoqFields) : IoqM Unit := do
  let s ← get
  match s.point s.cur with
  | .outside => pure ()
  | .lockAcquire c => ioqAcquire a c
  | .ioqWait c => do
    ioqRelease a
    ioqTurn a c

/-- An event with a queue: the running thread calls `ioq_getchar` or `ioq_putchar` or goes on with
such a call, or something else happens in the kernel. -/
inductive IoqEvent
  | call (c : IoqCall)
  | step
  | other (e : KernelEvent)
  deriving DecidableEq, Repr

/-- The code of an event, up to where another thread may run. -/
def IoqEvent.run (a : IoqFields) : IoqEvent → IoqM Unit
  | call c => ioqTurn a c
  | step => ioqStep a
  | other e => inKernel e.run

/-- Whether an event uses the fields of the queue. -/
def KernelEvent.UsesIoq (a : IoqFields) : KernelEvent → Prop
  | .semaDown psema => psema = a.lock
  | .semaUp psema => psema = a.lock
  | .ioqWait w => w = a.producer ∨ w = a.consumer
  | .wakeup w => w = a.producer ∨ w = a.consumer
  | _ => False

instance (a : IoqFields) (e : KernelEvent) : Decidable (e.UsesIoq a) :=
  match e with
  | .semaDown psema | .semaUp psema => Nat.decEq psema a.lock
  | .ioqWait w | .wakeup w => @instDecidableOr _ _ (Nat.decEq w a.producer) (Nat.decEq w a.consumer)
  | .tick | .block _ | .yield | .forkBegin _ | .forkEnd _ _ | .exitBegin _ | .exitEnd | .wait
  | .mainExit => instDecidableFalse

/-- Whether an event can happen. Only the calls use the fields of the queue, a thread inside of them
is not interrupted, and the idle thread, in which an interrupt may insert, never waits. -/
def IoqEvent.Admitted (s : IoqState) (a : IoqFields) : IoqEvent → Prop
  | .call c => s.kernel.Interruptible ∧ s.point s.cur = .outside ∧
    (s.cur ≠ s.kernel.threads.idleThread ∨ c.mustWait s.ioq = false)
  | .step => s.point s.cur ≠ .outside ∧
    (s.kernel.Interruptible ∨ s.kernel.blockedIn s.cur = some (.semaDown a.lock))
  | .other e => e.Admitted s.kernel ∧ ¬ e.UsesIoq a ∧ s.point s.cur = .outside

instance IoqEvent.decidableAdmitted (s : IoqState) (a : IoqFields) (e : IoqEvent) :
    Decidable (e.Admitted s a) := by
  cases e <;> unfold IoqEvent.Admitted <;> infer_instance

/-- The kernel after `thread_init` and `ioqueue_init`. -/
def IoqState.boot (a : IoqFields) (value : ℕ → UInt8) (buf : Bytes) : IoqState where
  kernel := Kernel.boot (Function.update value a.lock 1)
  holder := none
  holderRepeatNr := 0
  ioq := Ioqueue.init buf
  point _ := .outside
  inserted := []
  removed := []

/-- The runs with a queue. -/
abbrev IoqState.Run (a : IoqFields) (value : ℕ → UInt8) (buf : Bytes) (s : IoqState) : Prop :=
  Exec.Run (IoqEvent.run a) (fun s e => e.Admitted s a) (IoqState.boot a value buf) s

/-- What was inserted and not removed is what the ring holds. -/
def Conserved (s : IoqState) : Prop := ∃ l, s.inserted = s.removed ++ l ∧ s.ioq.Holds l

section Conserved

variable {s s' : IoqState} {a : IoqFields} {c : IoqCall}

theorem Conserved.congr (h : Conserved s) (hioq : s'.ioq = s.ioq) (hin : s'.inserted = s.inserted)
    (hout : s'.removed = s.removed) : Conserved s' := by
  obtain ⟨l, hl, hholds⟩ := h
  exact ⟨l, by rw [hin, hout, hl], hioq ▸ hholds⟩

/-- After the loop of a call, the ring has room for a byte or a byte to read. -/
theorem Conserved.transfer (h : Conserved s) (hwait : c.mustWait s.ioq = false) :
    Conserved (c.transfer s) := by
  obtain ⟨l, hl, hholds⟩ := h
  cases c with
  | ioqGetchar =>
    obtain ⟨hfirst, hrest⟩ := hholds.remove hwait
    refine ⟨l.tail, ?_, hrest⟩
    calc s.inserted = s.removed ++ l := hl
      _ = s.removed ++ s.ioq.first :: l.tail := by rw [← hfirst]
      _ = s.removed ++ [s.ioq.first] ++ l.tail := by rw [List.append_assoc]; rfl
  | ioqPutchar byte =>
    refine ⟨l ++ [byte], ?_, hholds.insert hwait byte⟩
    calc s.inserted ++ [byte] = s.removed ++ l ++ [byte] := by rw [hl]
      _ = s.removed ++ (l ++ [byte]) := List.append_assoc ..

theorem inKernel_conserved {α : Type} (m : KernelM α) (h : Conserved s) :
    Exec.Ensures (inKernel m) s fun _ s' => Conserved s' :=
  post_inKernel.mpr (Exec.ensures_iff.mpr fun _ _ _ => h.congr rfl rfl rfl)

theorem ioqFinish_conserved (h : Conserved s) (hwait : c.mustWait s.ioq = false) :
    Exec.Ensures (ioqFinish a c) s fun _ s' => Conserved s' := by
  have h' : Conserved ((c.transfer s).goto .outside) := (h.transfer hwait).congr rfl rfl rfl
  simp only [ioqFinish, Exec.post_bind, Exec.post_modify, Exec.post_get, Exec.post_ite,
    Exec.post_pure]
  exact ⟨fun _ => inKernel_conserved _ h', fun _ => h'⟩

theorem ioqSleep_conserved (h : Conserved s) :
    Exec.Ensures (ioqSleep a c) s fun _ s' => Conserved s' := by
  simp only [ioqSleep, Exec.post_bind, Exec.post_modify]
  exact inKernel_conserved _ (h.congr rfl rfl rfl)

theorem ioqAcquire_conserved (h : Conserved s) :
    Exec.Ensures (ioqAcquire a c) s fun _ s' => Conserved s' := by
  refine (inKernel_conserved _ h).bind fun taken s' h' => ?_
  simp only [Exec.post_ite, Exec.post_bind, Exec.post_modify, Exec.post_get, post_assert,
    Exec.post_set, Exec.post_pure]
  exact ⟨fun _ => ⟨fun _ => ioqSleep_conserved (h'.congr rfl rfl rfl), fun _ => trivial⟩, fun _ => h'⟩

/-- A turn of the loop. -/
theorem ioqTurn_conserved (h : Conserved s) :
    Exec.Ensures (ioqTurn a c) s fun _ s' => Conserved s' := by
  simp only [ioqTurn, Exec.post_bind, Exec.post_get, Exec.post_ite, Exec.post_set]
  refine ⟨fun _ => ⟨fun _ => ?_, fun _ => ?_⟩, fun hwait => ?_⟩
  · exact ioqAcquire_conserved (h.congr rfl rfl rfl)
  · exact ioqSleep_conserved (h.congr rfl rfl rfl)
  · exact ioqFinish_conserved h (by simpa using hwait)

theorem ioqRelease_conserved (h : Conserved s) :
    Exec.Ensures (ioqRelease a) s fun _ s' => Conserved s' := by
  simp only [ioqRelease, Exec.post_bind, Exec.post_get, post_assert, Exec.post_ite, Exec.post_set]
  refine ⟨fun _ => ⟨fun _ => h.congr rfl rfl rfl, fun _ => ⟨fun _ => ?_, fun _ => trivial⟩⟩,
    fun _ => trivial⟩
  exact inKernel_conserved _ (h.congr rfl rfl rfl)

/-- Every event conserves the bytes. -/
theorem IoqEvent.run_conserved (e : IoqEvent) (h : Conserved s) :
    Exec.Ensures (e.run a) s fun _ s' => Conserved s' := by
  cases e with
  | call c => exact ioqTurn_conserved h
  | other e => exact inKernel_conserved _ h
  | step =>
    simp only [IoqEvent.run, ioqStep, Exec.post_bind, Exec.post_get]
    split
    · exact h
    · exact ioqAcquire_conserved h
    · exact (ioqRelease_conserved h).bind fun _ s' h' => ioqTurn_conserved h'

theorem IoqState.Run.conserved {value : ℕ → UInt8} {buf : Bytes}
    (h : IoqState.Run a value buf s) : Conserved s :=
  h.invariant ⟨[], rfl, Ioqueue.holds_init buf⟩ fun _ e hI _ => e.run_conserved hI

/-- In every run the queue is a bounded queue that gives the bytes out in the order in which they
came. -/
theorem ioq_fifo_of_run {value : ℕ → UInt8} {buf : Bytes} (h : IoqState.Run a value buf s) :
    s.removed <+: s.inserted ∧
    (0 ≤ s.ioq.head.toInt ∧ s.ioq.head.toInt < 2048) ∧
    (0 ≤ s.ioq.tail.toInt ∧ s.ioq.tail.toInt < 2048) ∧
    (ioqLength s.ioq).toNat = s.inserted.length - s.removed.length ∧
    (ioqLength s.ioq).toNat ≤ 2047 ∧
    (ioqEmpty s.ioq = true ↔ s.inserted.length - s.removed.length = 0) ∧
    (ioqFull s.ioq = true ↔ s.inserted.length - s.removed.length = 2047) := by
  obtain ⟨l, hl, hholds⟩ := h.conserved
  have hlen : s.inserted.length - s.removed.length = l.length := by
    rw [hl, List.length_append, Nat.add_sub_cancel_left]
  have hbound := hholds.length
  rw [hlen, hholds.ioqLength_eq]
  exact ⟨⟨l, hl.symm⟩, hholds.head_mem, hholds.tail, rfl, by omega, hholds.ioqEmpty_iff,
    hholds.ioqFull_iff⟩

/-- `main` waits for a byte, `init` inserts two, and `main` gets the first of them. -/
theorem ioq_fifo_of_run_two : ∃ s, IoqState.Run ⟨0, 0, 1, Nat.zero_ne_one⟩ (fun _ => 0) Bytes.zero s ∧
    s.inserted = [7, 8] ∧ s.removed = [7] ∧ s.removed <+: s.inserted := by
  have h : (Exec.runList (IoqEvent.run ⟨0, 0, 1, Nat.zero_ne_one⟩)
      (fun s e => e.Admitted s ⟨0, 0, 1, Nat.zero_ne_one⟩)
      [.call .ioqGetchar, .call (.ioqPutchar 7), .call (.ioqPutchar 8), .other .tick, .step]
      (IoqState.boot ⟨0, 0, 1, Nat.zero_ne_one⟩ (fun _ => 0) Bytes.zero)).any
        (fun s => s.inserted == [7, 8] && s.removed == [7]) = true := by
    decide +kernel
  obtain ⟨s, hrun, hs⟩ := Exec.Run.exists_of_any h
  obtain ⟨hin, hout⟩ : s.inserted = [7, 8] ∧ s.removed = [7] := by simpa using hs
  exact ⟨s, hrun, hin, hout, (ioq_fifo_of_run hrun).1⟩

end Conserved

end Winx
