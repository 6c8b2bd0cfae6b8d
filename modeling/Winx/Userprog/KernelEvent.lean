import Winx.Thread.Sync
import Winx.Userprog.WaitExit

/-! # Events of the kernel

What happens in the kernel from one point where another thread may run to the
next. `sys_fork` and `sys_exit` can block for the locks of the memory pools and
for the disk once the number of the child is taken or the children are adopted,
so they are split there.
-/

namespace Winx

open TaskStatus

/-- `sys_fork` up to the number of the child. -/
def sysForkBegin (mem : ForkMemory) : ThreadM (Option ℕ) := do
  let parent ← curThread
  if mem = .noPcb then pure none
  else
    assert (parent.pgdir = true)
    let pid ← allocatePid
    pure (some pid)

/-- The rest of `sys_fork`. -/
def sysForkEnd (mem : ForkMemory) (pid : ℕ) : ThreadM Int := do
  let parent ← curThread
  if mem = .noCopy then pure (-1)
  else
    let s ← get
    let child := s.nextPcb
    modify Threads.bumpPcb
    storePcb child (parent.forkChild pid)
    modify fun s => s.setReadyList (s.threadReadyList ++ [child])
    modify fun s => s.setAllList (s.threadAllList ++ [child])
    pure pid

/-- `sys_exit` up to the adoption of the children. -/
def sysExitBegin (status : Int32) : ThreadM Unit := do
  let s ← get
  let childThread ← curThread
  storePcb s.cur (childThread.setExitStatus status.toInt8)
  assert (childThread.parentPid ≠ -1)
  adoptChildren childThread.pid

/-- The rest of `sys_exit`. -/
def sysExitEnd : ThreadM Unit := do
  let childThread ← curThread
  let s ← get
  let parentThread ← deref (pid2thread s childThread.parentPid)
  wakeParent parentThread
  threadBlock taskHanging

/-- The parts make up the system calls. -/
theorem sysExitProcess_eq (status : Int32) :
    sysExitProcess status = sysExitBegin status >>= fun _ => sysExitEnd := by
  simp only [sysExitProcess, sysExitBegin, sysExitEnd, bind_assoc]

theorem sysForkProcess_eq (mem : ForkMemory) :
    sysForkProcess mem = sysForkBegin mem >>= fun pid =>
      match pid with
      | none => pure (-1)
      | some pid => sysForkEnd mem pid := by
  funext s
  refine Exec.eq_of_post fun Q E h => ?_
  simp only [sysForkProcess, sysForkBegin, sysForkEnd, curThread, derefPcb, storePcb, allocatePid,
    Exec.post_bind, Exec.post_get, post_deref, Exec.post_ite, post_assert, Exec.post_pure,
    Exec.post_modify] at h ⊢
  refine ⟨fun t ht => ⟨(h.1 t ht).1, fun hmem => ⟨fun hpg => ?_, ((h.1 t ht).2 hmem).2⟩⟩, h.2⟩
  have h' := ((h.1 t ht).2 hmem).1 hpg
  cases hscan : s.pidBitmap.scan 1 with
  | none => rw [hscan] at h'; exact h'
  | some i =>
    rw [hscan] at h'
    simp only [Exec.post_bind, Exec.post_set, Exec.post_pure] at h' ⊢
    refine ⟨fun u hu => ?_, fun hnone => ?_⟩
    · obtain rfl := Option.some.inj (ht.symm.trans hu)
      exact h'
    · rw [Threads.setPidBitmap_pcb, Threads.setPidBitmap_cur, ht] at hnone
      cases hnone

/-- An event: a timer tick, a call by the running thread or by an interrupt in its context, or a
part of a system call. -/
inductive KernelEvent
  | tick
  | block (stat : TaskStatus)
  | yield
  | semaDown (psema : ℕ)
  | semaUp (psema : ℕ)
  | ioqWait (waiter : ℕ)
  | wakeup (waiter : ℕ)
  | forkBegin (mem : ForkMemory)
  | forkEnd (mem : ForkMemory) (pid : ℕ)
  | exitBegin (status : Int32)
  | exitEnd
  | wait
  | mainExit
  deriving DecidableEq, Repr

namespace KernelEvent

/-- The code of an event. -/
def run : KernelEvent → KernelM Unit
  | tick => onThreads schedule
  | block stat => onThreads (threadBlock stat)
  | yield => onThreads threadYield
  | semaDown psema => do let _ ← Winx.semaDown psema
  | semaUp psema => Winx.semaUp psema
  | ioqWait waiter => Winx.ioqWait waiter
  | wakeup waiter => Winx.wakeup waiter
  | forkBegin mem => do
    let pid ← onThreads (sysForkBegin mem)
    modify fun k => k.setInSyscall k.cur (pid.map .fork)
  | forkEnd mem pid => do
    modify fun k => k.setInSyscall k.cur none
    let _ ← onThreads (sysForkEnd mem pid)
  | exitBegin status => do
    onThreads (sysExitBegin status)
    modify fun k => k.setInSyscall k.cur (some .exit)
  | exitEnd => onThreads sysExitEnd
  | wait => do let _ ← onThreads sysWait
  | mainExit => do
    let k ← get
    onThreads (threadExit k.threads.mainThread true)

end KernelEvent

/-- The running thread is not inside of a loop that goes on with interrupts off. -/
def Kernel.Interruptible (k : Kernel) : Prop :=
  k.blockedIn k.cur = none ∧ (k.threads.pcb k.cur).any fun t => !t.inWait

/-- The running thread is a process that is in no system call. -/
def Kernel.InUser (k : Kernel) : Prop :=
  k.Interruptible ∧ k.inSyscall k.cur = none ∧ (k.threads.pcb k.cur).any fun t => t.pgdir

instance (k : Kernel) : Decidable k.Interruptible := by
  unfold Kernel.Interruptible; infer_instance

instance (k : Kernel) : Decidable k.InUser := by
  unfold Kernel.InUser; infer_instance

/-- Whether an event can happen. A thread inside of the loops of `sema_down` and `sys_wait` goes on
with the loop, and the idle thread, which runs `idle`, waits for nothing. -/
def KernelEvent.Admitted (k : Kernel) : KernelEvent → Prop
  | .tick => k.Interruptible
  | .block stat =>
    k.Interruptible ∧ (stat = taskBlocked ∨ stat = taskWaiting ∨ stat = taskHanging)
  | .yield => k.Interruptible
  | .semaDown psema => k.Interruptible ∧ k.cur ≠ k.threads.idleThread ∨
    k.blockedIn k.cur = some (.semaDown psema)
  | .semaUp _ => k.Interruptible
  | .ioqWait _ => k.Interruptible ∧ k.cur ≠ k.threads.idleThread
  | .wakeup _ => k.Interruptible
  | .forkBegin _ => k.InUser
  | .forkEnd _ pid => k.Interruptible ∧ k.inSyscall k.cur = some (.fork pid)
  | .exitBegin _ => k.InUser
  | .exitEnd => k.Interruptible ∧ k.inSyscall k.cur = some .exit
  | .wait => k.blockedIn k.cur = none ∧ k.inSyscall k.cur = none ∧
    (k.threads.pcb k.cur).any fun t => t.pgdir
  | .mainExit => k.Interruptible ∧ k.cur = k.threads.mainThread ∧
    k.threads.mainThread ∈ k.threads.threadAllList

instance (k : Kernel) (e : KernelEvent) : Decidable (e.Admitted k) := by
  cases e <;> unfold KernelEvent.Admitted <;> infer_instance

/-- The kernel after `thread_init`, with semaphores that have some values and no waiters. -/
def Kernel.boot (value : ℕ → UInt8) : Kernel where
  threads := Threads.boot
  semaphore psema := ⟨value psema, []⟩
  waiter _ := none
  blockedIn _ := none
  inSyscall _ := none

/-- The runs of the kernel. -/
abbrev Kernel.Run (value : ℕ → UInt8) (k : Kernel) : Prop :=
  Exec.Run KernelEvent.run (fun k e => e.Admitted k) (Kernel.boot value) k

end Winx
