import Winx.Fs.Isolation

/-! # Pipes

A pipe is an entry of the global file table whose `fd_inode` is the address of a
kernel page with a queue. `sys_fork` and `sys_exit` tell such entries by their
flag and count the descriptors in `fd_pos`. `sys_write`, `sys_read` and
`sys_close` do not: they call the routines for regular files, which take the page
for a `struct inode`. No system call uses `pipe_read` and `pipe_write`.
-/

namespace Winx

/-- The file system with the pages of the pipes. The lists note the pages that were allocated for
pipes and released so far. -/
structure PipeState where
  fs : Fs
  pages : ℕ → Option Bytes
  allocated : List ℕ
  released : List ℕ

/-- Code that may use pipes. -/
abbrev PipeM (α : Type) := Exec PipeState Fault α

namespace PipeState

variable (s : PipeState)

/-- Change the state of the file system. -/
@[simps -fullyApplied] def setFs (fs : Fs) : PipeState := { s with fs := fs }

/-- Change the page at an address. -/
@[simps -fullyApplied] def setPage (p : ℕ) (o : Option Bytes) : PipeState :=
  { s with pages := Function.update s.pages p o }

/-- A page is allocated with some contents. -/
@[simps -fullyApplied] def allocate (p : ℕ) (page : Bytes) : PipeState :=
  { s with pages := Function.update s.pages p (some page), allocated := p :: s.allocated }

/-- A page is released. -/
@[simps -fullyApplied] def release (p : ℕ) : PipeState :=
  { s with pages := Function.update s.pages p none, released := p :: s.released }

/-- Another process runs. -/
@[simps -fullyApplied] def setCur (pid : ℕ) : PipeState := { s with fs := { s.fs with cur := pid } }

end PipeState

/-- Code of the file system. -/
def onFs {α : Type} (m : FsM α) : PipeM α := fun s =>
  match m s.fs with
  | .ok (a, fs) => .ok (a, s.setFs fs)
  | .error e => .error e

@[simp] theorem post_onFs {α : Type} {m : FsM α} {s : PipeState} {Q : α → PipeState → Prop}
    {E : Fault → Prop} :
    Exec.Post (onFs m) s Q E ↔ Exec.Post m s.fs (fun a fs => Q a (s.setFs fs)) E := by
  unfold Exec.Post onFs
  cases m s.fs <;> rfl

/-- The page after `ioqueue_init`: the value of the semaphore, and the two ends of its list of
waiters, which point to each other. -/
def ioqueueInit (addr : ℕ) : Bytes :=
  Bytes.ofWords fun
    | 1 => 1
    | 3 => UInt32.ofNat (addr + 16)
    | 4 => UInt32.ofNat (addr + 8)
    | _ => 0

/-- `sys_pipe`, where `get_kernel_pages` returns `page`: its result and the two descriptors. Without a
free entry it writes before the table, and without a page to the address zero. -/
def sysPipe (page : Option ℕ) : PipeM (Int × Int × Int) := do
  match ← onFs getFreeSlotInGlobal with
  | none => throw .outOfBounds
  | some globalFd =>
    match page with
    | none => throw .badPointer
    | some p =>
      modify fun s => s.allocate p (ioqueueInit p)
      onFs (modify fun fs => fs.setFile globalFd ⟨2, pipeFlag, some p⟩)
      let fd₀ ← onFs (pcbFdInstall globalFd)
      let fd₁ ← onFs (pcbFdInstall globalFd)
      pure (0, fd₀, fd₁)

/-- `file_close` of an entry whose `fd_inode` is a page: `write_deny` and `i_open_cnts` are bytes of
the ring, and if the counter gets zero, other bytes of it are taken for pointers. -/
def closePage (globalFd p : ℕ) (page : Bytes) : PipeM Int := do
  let page := page.splice 44 1 Bytes.zero
  let cnt := page.word 40 - 1
  modify fun s => s.setPage p (some (page.splice 40 4 fun i => Bytes.byteOf cnt i))
  if cnt = 0 then throw .badPointer
  else
    onFs (modify fun fs => fs.setFile globalFd { fs.fileTable globalFd with fdInode := none })
    pure 0

/-- `file_close` of any entry. -/
def closeEntry (globalFd : ℕ) : PipeM Int := do
  let s ← get
  match (s.fs.fileTable globalFd).fdInode with
  | none => throw .badPointer
  | some p =>
    match s.pages p with
    | none => onFs (fileClose globalFd)
    | some page => closePage globalFd p page

/-- `sys_close` -/
def pipeSysClose (fd : Int) : PipeM Int := do
  if fd > 2 then
    let globalFd ← onFs (fdLocal2global fd)
    let ret ← closeEntry globalFd
    onFs (modifyThread fun t => { t with fdTable := Function.update t.fdTable fd.toNat (-1) })
    pure ret
  else pure (-1)

/-- `release_prog_resource` of a descriptor of a pipe. -/
def releasePipe (globalFd : ℕ) : PipeM Unit := do
  let s ← get
  let file := s.fs.fileTable globalFd
  onFs (modify fun fs => fs.setFile globalFd { file with fdPos := file.fdPos - 1 })
  if file.fdPos - 1 = 0 then
    let p ← deref file.fdInode
    modify fun s => s.release p
    onFs (modify fun fs => fs.setFile globalFd ⟨file.fdPos - 1, file.fdFlag, none⟩)
  else pure ()

/-- The loop of `release_prog_resource` over `n` descriptors. -/
def releasePipeFds : ℕ → ℕ → PipeM Unit
  | 0, _ => pure ()
  | n + 1, localFd => do
    let cur ← onFs runningThread
    if cur.fdTable localFd ≠ -1 then
      let pipe ← onFs (isPipe localFd)
      if pipe then
        let globalFd ← onFs (fdLocal2global localFd)
        releasePipe globalFd
      else
        let _ ← pipeSysClose localFd
        pure ()
    else pure ()
    releasePipeFds n (localFd + 1)

/-- `sys_exit`, as far as descriptors go. -/
def pipeSysExit : PipeM Unit := do
  releasePipeFds (maxFilesOpenPerProc - 3) 3
  onFs (modify fun fs => fs.setTasks (fs.tasks.filter (·.pid ≠ fs.cur)))

/-- A system call with its arguments: for `sys_pipe` the page it gets, for `sys_fork` the number of
the child. -/
inductive PipeCall
  | sysPipe (page : Option ℕ)
  | sysFork (childPid : ℕ)
  | sysClose (fd : Int)
  | sysExit
  | sysWrite (fd : Int) (buf : Bytes) (count : UInt32)
  | sysRead (keys : Bytes) (fd : Int) (buf : Bytes) (count : UInt32)

/-- The code of a system call of process `pid`: what it returns, and the buffer of `sys_read`. -/
def PipeCall.run (pid : ℕ) (c : PipeCall) : PipeM (Int × Bytes) := do
  modify fun s => s.setCur pid
  match c with
  | sysPipe page => do
    let r ← Winx.sysPipe page
    pure (r.1, Bytes.zero)
  | sysFork childPid => do
    let r ← onFs (Winx.sysFork childPid)
    pure (r, Bytes.zero)
  | sysClose fd => do
    let r ← pipeSysClose fd
    pure (r, Bytes.zero)
  | sysExit => do
    pipeSysExit
    pure (0, Bytes.zero)
  | sysWrite fd buf count => do
    let r ← onFs (Winx.sysWrite fd buf count)
    pure (r, Bytes.zero)
  | sysRead keys fd buf count => onFs (Winx.sysRead keys fd buf count)

end Winx
