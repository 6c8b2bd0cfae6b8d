import Winx.Kernel.Bitmap
import Winx.Kernel.Fault

/-! # Threads

The PCBs, the list of all threads, the ready list and the pool of process
numbers. The code runs with interrupts off, so it is a computation over this
state; the thread that runs changes in `schedule` only.
-/

namespace Winx

/-- `enum task_status` -/
inductive TaskStatus
  | taskRunning
  | taskReady
  | taskBlocked
  | taskWaiting
  | taskHanging
  | taskDied
  deriving DecidableEq, Repr

/-- `struct task_struct`, as far as scheduling and the process tree use it. `inWait` says whether
the kernel stack of the thread stands in the loop of `sys_wait`. -/
structure TaskStruct where
  pid : ℕ
  status : TaskStatus
  parentPid : Int
  exitStatus : Int8
  pgdir : Bool
  inWait : Bool

/-- `t->status = status` -/
@[simps -fullyApplied] def TaskStruct.setStatus (t : TaskStruct) (status : TaskStatus) :
    TaskStruct := { t with status := status }

/-- Move the kernel stack of a thread into or out of the loop of `sys_wait`. -/
@[simps -fullyApplied] def TaskStruct.setInWait (t : TaskStruct) (b : Bool) : TaskStruct :=
  { t with inWait := b }

/-- The state of the threads. A thread is named by the address of its PCB. -/
structure Threads where
  pcb : ℕ → Option TaskStruct
  nextPcb : ℕ
  threadAllList : List ℕ
  threadReadyList : List ℕ
  cur : ℕ
  mainThread : ℕ
  idleThread : ℕ
  pidBitmap : Bitmap

/-- Code on threads. -/
abbrev ThreadM (α : Type) := Exec Threads Fault α

namespace Threads

variable (s : Threads)

/-- Change the PCB at an address. -/
@[simps -fullyApplied] def setPcb (p : ℕ) (o : Option TaskStruct) : Threads :=
  { s with pcb := Function.update s.pcb p o }

/-- Use up the address of a fresh PCB. -/
@[simps -fullyApplied] def bumpPcb : Threads := { s with nextPcb := s.nextPcb + 1 }

/-- Change `thread_all_list`. -/
@[simps -fullyApplied] def setAllList (l : List ℕ) : Threads := { s with threadAllList := l }

/-- Change `thread_ready_list`. -/
@[simps -fullyApplied] def setReadyList (l : List ℕ) : Threads := { s with threadReadyList := l }

/-- Change the running thread. -/
@[simps -fullyApplied] def setCur (p : ℕ) : Threads := { s with cur := p }

/-- Change the map of used process numbers. -/
@[simps -fullyApplied] def setPidBitmap (b : Bitmap) : Threads := { s with pidBitmap := b }

/-- Change the PCB of every thread on `thread_all_list`. -/
@[simps -fullyApplied] def mapAll (f : TaskStruct → TaskStruct) : Threads :=
  { s with pcb := fun p => if p ∈ s.threadAllList then (s.pcb p).map f else s.pcb p }

/-- The threads on `thread_all_list`. -/
def threadAll : List TaskStruct := s.threadAllList.filterMap s.pcb

/-- The first thread on `thread_all_list` that passes a test: `list_traversal`. -/
def traverse (f : TaskStruct → Bool) : Option ℕ :=
  s.threadAllList.find? fun p => (s.pcb p).any f

end Threads

/-- The PCB at an address. -/
def derefPcb (p : ℕ) : ThreadM TaskStruct := do
  let s ← get
  deref (s.pcb p)

/-- Store to the PCB at an address. -/
def storePcb (p : ℕ) (t : TaskStruct) : ThreadM Unit :=
  modify fun s => s.setPcb p (some t)

/-- The PCB of `running_thread`. -/
def curThread : ThreadM TaskStruct := do
  let s ← get
  derefPcb s.cur

/-- `thread_unblock` -/
def threadUnblock (p : ℕ) : ThreadM Unit := do
  let t ← derefPcb p
  assert (t.status = .taskBlocked ∨ t.status = .taskWaiting ∨ t.status = .taskHanging)
  let s ← get
  assert (p ∉ s.threadReadyList)
  modify fun s => s.setReadyList (p :: s.threadReadyList)
  storePcb p (t.setStatus .taskReady)

/-- The part of `schedule` that queues a thread whose time is up. -/
def preemptCur : ThreadM Unit := do
  let s ← get
  let cur ← curThread
  if cur.status = .taskRunning then
    assert (s.cur ∉ s.threadReadyList)
    modify fun s => s.setReadyList (s.threadReadyList ++ [s.cur])
    storePcb s.cur (cur.setStatus .taskReady)
  else pure ()

/-- The part of `schedule` that wakes the idle thread when no other is ready. -/
def wakeIdle : ThreadM Unit := do
  let s ← get
  if s.threadReadyList = [] then threadUnblock s.idleThread else pure ()

/-- The part of `schedule` that runs the first ready thread. -/
def switchToNext : ThreadM Unit := do
  let s ← get
  match s.threadReadyList with
  | [] => throw .assertFailed
  | next :: rest =>
    modify fun s => s.setReadyList rest
    let t ← derefPcb next
    storePcb next (t.setStatus .taskRunning)
    modify fun s => s.setCur next

/-- `schedule` -/
def schedule : ThreadM Unit := do
  preemptCur
  wakeIdle
  switchToNext

/-- `thread_block` -/
def threadBlock (stat : TaskStatus) : ThreadM Unit := do
  assert (stat = .taskBlocked ∨ stat = .taskWaiting ∨ stat = .taskHanging)
  let s ← get
  let cur ← curThread
  storePcb s.cur (cur.setStatus stat)
  schedule

/-- `thread_yield` -/
def threadYield : ThreadM Unit := do
  let s ← get
  let cur ← curThread
  assert (s.cur ∉ s.threadReadyList)
  modify fun s => s.setReadyList (s.threadReadyList ++ [s.cur])
  storePcb s.cur (cur.setStatus .taskReady)
  schedule

/-- `allocate_pid`. Without a free number it sets a bit outside of the bitmap. -/
def allocatePid : ThreadM ℕ := do
  let s ← get
  match s.pidBitmap.scan 1 with
  | none => throw .outOfBounds
  | some bitIdx =>
    set (s.setPidBitmap (s.pidBitmap.set bitIdx true))
    pure (bitIdx + 1)

/-- `release_pid` -/
def releasePid (pid : ℕ) : ThreadM Unit :=
  modify fun s => s.setPidBitmap (s.pidBitmap.set (pid - 1) false)

/-- `pid2thread` -/
def pid2thread (s : Threads) (pid : Int) : Option ℕ := s.traverse fun t => t.pid = pid

/-- `thread_exit`. A thread that gives up the processor for good does not come back. -/
def threadExit (threadOver : ℕ) (needSchedule : Bool) : ThreadM Unit := do
  let t ← derefPcb threadOver
  storePcb threadOver (t.setStatus .taskDied)
  modify fun s => s.setReadyList (s.threadReadyList.erase threadOver)
  modify fun s => s.setAllList (s.threadAllList.erase threadOver)
  let s ← get
  if threadOver ≠ s.mainThread then modify fun s => s.setPcb threadOver none else pure ()
  releasePid t.pid
  if needSchedule then schedule else pure ()

/-- The threads after `thread_init`: `init`, `main`, which runs, and `idle`. -/
def Threads.boot : Threads where
  pcb
    | 0 => some ⟨1, .taskReady, -1, 0, true, false⟩
    | 1 => some ⟨2, .taskRunning, -1, 0, false, false⟩
    | 2 => some ⟨3, .taskReady, -1, 0, false, false⟩
    | _ => none
  nextPcb := 3
  threadAllList := [0, 1, 2]
  threadReadyList := [0, 2]
  cur := 1
  mainThread := 1
  idleThread := 2
  pidBitmap := (((⟨128, Bytes.zero⟩ : Bitmap).set 0 true).set 1 true).set 2 true

end Winx
