import Winx.Shell.Pipe

/-! # Pipes behind descriptors

Whatever a system call does through the descriptor of a pipe, it does with the
routines for regular files. So pipes work only as long as nobody writes to them,
reads from them or closes them.
-/

namespace Winx

/-- The routines for regular files. -/
inductive FileRoutine
  | fileWrite
  | fileRead
  | fileClose
  | inodeClose
  deriving DecidableEq, Repr

namespace PipeCall

/-- The descriptor that a call translates. -/
def descriptor : PipeCall → Option Int
  | sysClose fd => if fd > 2 then some fd else none
  | sysWrite fd _ _ => if fd < 0 ∨ fd = 1 then none else some fd
  | sysRead _ fd _ _ => if fd < 0 ∨ fd = 1 ∨ fd = 2 ∨ fd = 0 then none else some fd
  | _ => none

/-- The entry of the file table for the descriptor of a call by process `pid`. -/
def entry (pid : ℕ) (s : PipeState) (c : PipeCall) : Option ℕ :=
  c.descriptor.bind fun fd => (fdLocal2global fd (s.setCur pid).fs).toOption.map Prod.fst

/-- The entries of regular files that `sys_exit` of process `pid` closes. -/
def exitEntries (pid : ℕ) (s : PipeState) : List ℕ :=
  match s.fs.tasks.find? (·.pid = pid) with
  | none => []
  | some t => ((List.range' 3 (maxFilesOpenPerProc - 3)).filter fun k => t.fdTable k ≠ -1 ∧
      (s.fs.fileTable (t.fdTable k).toNat).fdFlag ≠ pipeFlag).map fun k => (t.fdTable k).toNat

/-- The routines for regular files that a call by process `pid` applies, and the entries it applies
them to. -/
def routines (pid : ℕ) (s : PipeState) (c : PipeCall) : List (FileRoutine × ℕ) :=
  match c, c.entry pid s with
  | sysWrite _ _ _, some globalFd =>
    if wantsWrite (s.fs.fileTable globalFd).fdFlag then [(.fileWrite, globalFd)] else []
  | sysRead _ _ _ _, some globalFd => [(.fileRead, globalFd)]
  | sysClose _, some globalFd => [(.fileClose, globalFd), (.inodeClose, globalFd)]
  | sysExit, _ =>
    (exitEntries pid s).flatMap fun globalFd => [(.fileClose, globalFd), (.inodeClose, globalFd)]
  | _, _ => []

/-- A call goes to a pipe. -/
def OnPipe (pid : ℕ) (s : PipeState) (c : PipeCall) : Prop :=
  ∃ globalFd, c.entry pid s = some globalFd ∧ (s.fs.fileTable globalFd).fdFlag = pipeFlag

/-- The bytes a call returns from the pipe with a given entry, if it returns `r` and leaves `buf` in
the buffer. -/
def returned (pid globalFd : ℕ) (s : PipeState) (c : PipeCall) (r : Int) (buf : Bytes) :
    List UInt8 :=
  match c with
  | sysRead _ _ _ _ =>
    if c.entry pid s = some globalFd ∧ (s.fs.fileTable globalFd).fdFlag = pipeFlag then
      (List.range r.toNat).map buf
    else []
  | _ => []

end PipeCall

section Routines

variable {pid globalFd : ℕ} {s : PipeState} {c : PipeCall} {fd : Int} {keys buf : Bytes}
  {count : UInt32}

/-- A call that is translated to an entry translates its descriptor so. -/
theorem PipeCall.entry_eq (h : c.entry pid s = some globalFd) :
    ∃ fd, c.descriptor = some fd ∧
      fdLocal2global fd (s.setCur pid).fs = .ok (globalFd, (s.setCur pid).fs) := by
  obtain ⟨fd, hfd, h⟩ := Option.bind_eq_some_iff.mp h
  refine ⟨fd, hfd, ?_⟩
  have hstate : Exec.Ensures (fdLocal2global fd) (s.setCur pid).fs
      fun _ fs => fs = (s.setCur pid).fs := by
    simp only [fdLocal2global, runningThread, Exec.post_bind, Exec.post_get, post_deref,
      post_inBounds, post_assert, Exec.post_pure, implies_true, and_true]
  cases hcall : fdLocal2global fd (s.setCur pid).fs with
  | error e =>
    rw [hcall] at h
    cases h
  | ok r =>
    rw [hcall] at h
    obtain rfl : r.1 = globalFd := Option.some.inj h
    have heq := hstate.of_ok hcall
    exact congrArg Except.ok (Prod.ext rfl heq)

/-- The routine a write applies is what it runs. -/
theorem sysWrite_of_routine
    (h : (.fileWrite, globalFd) ∈ (PipeCall.sysWrite fd buf count).routines pid s) :
    sysWrite fd buf count (s.setCur pid).fs = fileWrite globalFd buf count (s.setCur pid).fs := by
  cases hentry : (PipeCall.sysWrite fd buf count).entry pid s with
  | none => simp [PipeCall.routines, hentry] at h
  | some g =>
    obtain ⟨fd', hfd', hcall⟩ := PipeCall.entry_eq hentry
    simp only [PipeCall.descriptor, Option.ite_none_left_eq_some, Option.some.injEq] at hfd'
    obtain ⟨hnot, rfl⟩ := hfd'
    rw [not_or] at hnot
    simp only [PipeCall.routines, hentry] at h
    split at h
    · rename_i hwants
      obtain rfl : globalFd = g := by simpa using h
      rw [sysWrite, if_neg hnot.1, if_neg hnot.2, Exec.bind_eq_ok hcall,
        Exec.bind_eq_ok (a := (s.setCur pid).fs) rfl]
      exact congrFun (if_pos hwants) _
    · cases h

/-- The routine a read applies is what it runs. -/
theorem sysRead_of_routine
    (h : (.fileRead, globalFd) ∈ (PipeCall.sysRead keys fd buf count).routines pid s) :
    sysRead keys fd buf count (s.setCur pid).fs = fileRead globalFd buf count (s.setCur pid).fs := by
  cases hentry : (PipeCall.sysRead keys fd buf count).entry pid s with
  | none => simp [PipeCall.routines, hentry] at h
  | some g =>
    obtain ⟨fd', hfd', hcall⟩ := PipeCall.entry_eq hentry
    simp only [PipeCall.descriptor, Option.ite_none_left_eq_some, Option.some.injEq] at hfd'
    obtain ⟨hnot, rfl⟩ := hfd'
    obtain rfl : globalFd = g := by simpa [PipeCall.routines, hentry] using h
    have hconsole : ¬ (fd < 0 ∨ fd = 1 ∨ fd = 2) := by omega
    have hkeys : ¬ fd = 0 := by omega
    rw [sysRead, if_neg hconsole, if_neg hkeys, Exec.bind_eq_ok hcall]

/-- The routine a close applies first is what it starts with. -/
theorem pipeSysClose_of_routine
    (h : (.fileClose, globalFd) ∈ (PipeCall.sysClose fd).routines pid s) :
    pipeSysClose fd (s.setCur pid) = (do
      let ret ← closeEntry globalFd
      onFs (modifyThread fun t => { t with fdTable := Function.update t.fdTable fd.toNat (-1) })
      pure ret : PipeM Int) (s.setCur pid) := by
  cases hentry : (PipeCall.sysClose fd).entry pid s with
  | none => simp [PipeCall.routines, hentry] at h
  | some g =>
    obtain ⟨fd', hfd', hcall⟩ := PipeCall.entry_eq hentry
    simp only [PipeCall.descriptor, Option.ite_none_right_eq_some, Option.some.injEq] at hfd'
    obtain ⟨hgt, rfl⟩ := hfd'
    obtain rfl : globalFd = g := by simpa [PipeCall.routines, hentry] using h
    have hpipe : onFs (fdLocal2global fd) (s.setCur pid) = .ok (globalFd, s.setCur pid) := by
      unfold onFs
      rw [hcall]
      rfl
    rw [pipeSysClose, if_pos hgt, Exec.bind_eq_ok hpipe]

end Routines

section Runs

variable {s : PipeState} {globalFd : ℕ}

end Runs

end Winx
