import Winx.Lib.Run
import Winx.Thread.Thread

/-! # Fork, exit and wait

The system calls that make, end and reap processes. A process that waits for a
child blocks inside the loop of `sys_wait` and goes through the loop again when
it runs next; the orphans of a process that exits are adopted by `init`.
-/

namespace Winx

open TaskStatus

/-- Whether the memory a fork asks for is there: all of it, no page for the PCB, or not enough for
the copy of the process. -/
inductive ForkMemory
  | enough
  | noPcb
  | noCopy
  deriving DecidableEq, Repr

/-- The PCB that `copy_pcb_vaddrbitmap_stack0` makes for the child. -/
def TaskStruct.forkChild (parent : TaskStruct) (pid : ℕ) : TaskStruct :=
  { parent with pid := pid, status := taskReady, parentPid := parent.pid }

/-- `sys_fork` -/
def sysForkProcess (mem : ForkMemory) : ThreadM Int := do
  let s ← get
  let parent ← curThread
  if mem = .noPcb then pure (-1)
  else
    assert (parent.pgdir = true)
    let pid ← allocatePid
    if mem = .noCopy then pure (-1)
    else
      let child := s.nextPcb
      modify Threads.bumpPcb
      storePcb child (parent.forkChild pid)
      modify fun s => s.setReadyList (s.threadReadyList ++ [child])
      modify fun s => s.setAllList (s.threadAllList ++ [child])
      pure pid

/-- `find_child` -/
def findChild (s : Threads) (ppid : ℕ) : Option ℕ := s.traverse fun t => t.parentPid = ppid

/-- `find_hanging_child` -/
def findHangingChild (s : Threads) (ppid : ℕ) : Option ℕ :=
  s.traverse fun t => t.parentPid = ppid ∧ t.status = taskHanging

/-- `init_adopt_a_child` -/
def initAdoptAChild (pid : ℕ) (t : TaskStruct) : TaskStruct :=
  if t.parentPid = pid then { t with parentPid := 1 } else t

/-- How a turn of the loop of `sys_wait` ends. -/
inductive WaitResult
  | reaped (pid : ℕ) (status : Int8)
  | noChild
  | blocked
  deriving DecidableEq, Repr

/-- One turn of the loop of `sys_wait`. -/
def sysWait : ThreadM WaitResult := do
  let s ← get
  let parentThread ← curThread
  storePcb s.cur (parentThread.setInWait false)
  match findHangingChild s parentThread.pid with
  | some child =>
    let childThread ← derefPcb child
    threadExit child false
    pure (.reaped childThread.pid childThread.exitStatus)
  | none =>
    match findChild s parentThread.pid with
    | none => pure .noChild
    | some _ =>
      storePcb s.cur (parentThread.setInWait true)
      threadBlock taskWaiting
      pure .blocked

/-- `t->exit_status = status` -/
@[simps -fullyApplied] def TaskStruct.setExitStatus (t : TaskStruct) (status : Int8) :
    TaskStruct := { t with exitStatus := status }

/-- The loop of `sys_exit` over the orphans. -/
def adoptChildren (pid : ℕ) : ThreadM Unit :=
  modify fun s => s.mapAll (initAdoptAChild pid)

/-- The part of `sys_exit` that wakes the parent. -/
def wakeParent (parentThread : ℕ) : ThreadM Unit := do
  let t ← derefPcb parentThread
  if t.status = taskWaiting then threadUnblock parentThread else pure ()

/-- `sys_exit`. What `release_prog_resource` frees is not part of this state. -/
def sysExitProcess (status : Int32) : ThreadM Unit := do
  let s ← get
  let childThread ← curThread
  storePcb s.cur (childThread.setExitStatus status.toInt8)
  assert (childThread.parentPid ≠ -1)
  adoptChildren childThread.pid
  let childThread ← curThread
  let s ← get
  let parentThread ← deref (pid2thread s childThread.parentPid)
  wakeParent parentThread
  threadBlock taskHanging

/-- What can happen between two points where no thread is inside of a system call: a system call
of the running process, a switch by the timer, the running thread blocking for an event or ending
its wait, and the end of `main`, which happens once. -/
inductive ThreadEvent
  | fork (mem : ForkMemory)
  | exit (status : Int32)
  | wait
  | tick
  | block
  | unblock (p : ℕ)
  | mainExit
  deriving DecidableEq, Repr

/-- The code of an event. -/
def ThreadEvent.run : ThreadEvent → ThreadM Unit
  | .fork mem => do let _ ← sysForkProcess mem
  | .exit status => sysExitProcess status
  | .wait => do let _ ← sysWait
  | .tick => schedule
  | .block => threadBlock taskBlocked
  | .unblock p => threadUnblock p
  | .mainExit => do
    let s ← get
    threadExit s.mainThread true

/-- Whether an event is a `sys_exit`. -/
def ThreadEvent.IsExit : ThreadEvent → Prop
  | .exit _ => True
  | _ => False

instance (e : ThreadEvent) : Decidable e.IsExit := by
  cases e <;> unfold ThreadEvent.IsExit <;> infer_instance

/-- Whether an event can happen. A thread inside of the loop of `sys_wait` goes on with the loop,
only processes make system calls, and only blocked threads are unblocked. -/
def ThreadEvent.Admitted (s : Threads) : ThreadEvent → Prop
  | .fork _ => (s.pcb s.cur).any fun t => t.pgdir && !t.inWait
  | .exit _ => (s.pcb s.cur).any fun t => t.pgdir && !t.inWait
  | .wait => (s.pcb s.cur).any fun t => t.pgdir
  | .tick => (s.pcb s.cur).any fun t => !t.inWait
  | .block => (s.pcb s.cur).any fun t => !t.inWait
  | .unblock p => (s.pcb s.cur).any (fun t => !t.inWait) ∧ (s.pcb p).any fun t => t.status = taskBlocked
  | .mainExit => s.cur = s.mainThread ∧ s.mainThread ∈ s.threadAllList

instance (s : Threads) (e : ThreadEvent) : Decidable (e.Admitted s) := by
  cases e <;> unfold ThreadEvent.Admitted <;> infer_instance

end Winx
