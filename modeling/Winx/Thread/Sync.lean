import Winx.Thread.Thread

/-! # Semaphores and the waits of the queues

A thread that finds a semaphore taken queues itself and blocks inside of the
loop of `sema_down`; woken, it goes through the loop again, with interrupts
off. A thread that waits for a queue blocks on a pointer that the other side
clears. The state notes where the kernel stacks of such threads stand.
-/

namespace Winx

/-- `struct semaphore` -/
structure Semaphore where
  value : UInt8
  waiters : List ℕ

/-- The call inside of which a thread is blocked: the loop of `sema_down`, or `ioq_wait`. -/
inductive BlockedIn
  | semaDown (psema : ℕ)
  | ioqWait (waiter : ℕ)
  deriving DecidableEq, Repr

/-- The system call that a process is in the middle of: `sys_fork` once the number of the child is
taken, `sys_exit` once the children are adopted. -/
inductive InSyscall
  | fork (pid : ℕ)
  | exit
  deriving DecidableEq, Repr

/-- The state of the kernel, as far as threads block and run. Semaphores and the fields `producer`
and `consumer` of the queues are named by their addresses, threads by those of their PCBs. -/
structure Kernel where
  threads : Threads
  semaphore : ℕ → Semaphore
  waiter : ℕ → Option ℕ
  blockedIn : ℕ → Option BlockedIn
  inSyscall : ℕ → Option InSyscall

/-- Code of the kernel. -/
abbrev KernelM (α : Type) := Exec Kernel Fault α

namespace Kernel

variable (k : Kernel)

/-- The running thread. -/
abbrev cur : ℕ := k.threads.cur

/-- Change the threads. -/
@[simps -fullyApplied] def setThreads (s : Threads) : Kernel := { k with threads := s }

/-- Change a semaphore. -/
@[simps -fullyApplied] def setSemaphore (psema : ℕ) (s : Semaphore) : Kernel :=
  { k with semaphore := Function.update k.semaphore psema s }

/-- Change the thread that waits on a queue. -/
@[simps -fullyApplied] def setWaiter (w : ℕ) (o : Option ℕ) : Kernel :=
  { k with waiter := Function.update k.waiter w o }

/-- Move the kernel stack of a thread into or out of a call that blocks. -/
@[simps -fullyApplied] def setBlockedIn (p : ℕ) (o : Option BlockedIn) : Kernel :=
  { k with blockedIn := Function.update k.blockedIn p o }

/-- Move the kernel stack of a process into or out of a system call. -/
@[simps -fullyApplied] def setInSyscall (p : ℕ) (o : Option InSyscall) : Kernel :=
  { k with inSyscall := Function.update k.inSyscall p o }

end Kernel

/-- Code on threads is code of the kernel. -/
def onThreads {α : Type} (m : ThreadM α) : KernelM α := fun k =>
  match m k.threads with
  | .ok (a, s) => .ok (a, k.setThreads s)
  | .error e => .error e

@[simp] theorem post_onThreads {α : Type} {m : ThreadM α} {k : Kernel} {Q : α → Kernel → Prop}
    {E : Fault → Prop} :
    Exec.Post (onThreads m) k Q E ↔ Exec.Post m k.threads (fun a s => Q a (k.setThreads s)) E := by
  unfold Exec.Post onThreads
  cases m k.threads <;> rfl

/-- A turn of the loop of `sema_down`, with what follows the loop. Returns whether the semaphore
was taken; if not, the thread blocks and takes another turn when it runs next. -/
def semaDown (psema : ℕ) : KernelM Bool := do
  let k ← get
  let sema := k.semaphore psema
  if sema.value = 0 then
    assert (k.cur ∉ sema.waiters)
    modify fun k => k.setSemaphore psema ⟨sema.value, sema.waiters ++ [k.cur]⟩
    modify fun k => k.setBlockedIn k.cur (some (.semaDown psema))
    onThreads (threadBlock .taskBlocked)
    pure false
  else
    modify fun k => k.setBlockedIn k.cur none
    modify fun k => k.setSemaphore psema ⟨sema.value - 1, sema.waiters⟩
    assert (sema.value - 1 = 0)
    pure true

/-- The part of `sema_up` that wakes the first waiter. -/
def wakeWaiter (psema : ℕ) : KernelM Unit := do
  let k ← get
  let sema := k.semaphore psema
  match sema.waiters with
  | [] => pure ()
  | threadBlocked :: rest =>
    modify fun k => k.setSemaphore psema ⟨sema.value, rest⟩
    onThreads (threadUnblock threadBlocked)

/-- `sema_up` -/
def semaUp (psema : ℕ) : KernelM Unit := do
  let k ← get
  assert ((k.semaphore psema).value = 0)
  wakeWaiter psema
  let k ← get
  let sema := k.semaphore psema
  modify fun k => k.setSemaphore psema ⟨sema.value + 1, sema.waiters⟩
  assert (sema.value + 1 = 1)

/-- `ioq_wait` -/
def ioqWait (waiter : ℕ) : KernelM Unit := do
  let k ← get
  assert (k.waiter waiter = none)
  modify fun k => k.setWaiter waiter (some k.cur)
  modify fun k => k.setBlockedIn k.cur (some (.ioqWait waiter))
  onThreads (threadBlock .taskBlocked)

/-- `wakeup`. The thread has nothing left to do in `ioq_wait`. -/
def wakeup (waiter : ℕ) : KernelM Unit := do
  let k ← get
  match k.waiter waiter with
  | none => throw .assertFailed
  | some thread =>
    onThreads (threadUnblock thread)
    modify fun k => k.setBlockedIn thread none
    modify fun k => k.setWaiter waiter none

end Winx
