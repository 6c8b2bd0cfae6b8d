import Winx.Fs.OpenEffect
import Winx.Lib.Run

/-! # Descriptors after a fork

A child gets a copy of the table of its parent, so both name the same entries of
the file table. `file_close` clears the entry for everybody: the descriptors of
the other process are left without an inode, and the entry is handed out again.
-/

namespace Winx

/-- The file system, and the inode that each descriptor of each process was opened on. -/
structure DescState where
  fs : Fs
  opened : ℕ → ℕ → Option ℕ

/-- The calls that open, share and close descriptors. -/
inductive DescCall
  | sysOpen (pathname : List UInt8) (flags : UInt8)
  | sysFork (childPid : ℕ)
  | sysClose (fd : Int)
  | sysExit

/-- The inode behind a descriptor of a process. -/
def Fs.descriptorInode (s : Fs) (pid k : ℕ) : Option ℕ :=
  (s.tasks.find? (·.pid = pid)).bind fun t => (s.fileTable (t.fdTable k).toNat).fdInode

namespace DescCall

/-- A call by the running process. -/
def body : DescCall → FsM Int
  | sysOpen pathname flags => Winx.sysOpen pathname flags
  | sysFork childPid => Winx.sysFork childPid
  | sysClose fd => Winx.sysClose fd
  | sysExit => do
    Winx.sysExit
    pure 0

/-- What is noted of a call by process `pid` that returns `r` and leaves `fs`. -/
def note (pid : ℕ) (r : Int) (fs : Fs) (opened : ℕ → ℕ → Option ℕ) :
    DescCall → ℕ → ℕ → Option ℕ
  | sysOpen _ _ =>
    if 0 ≤ r then
      Function.update opened pid
        (Function.update (opened pid) r.toNat (fs.descriptorInode pid r.toNat))
    else opened
  | sysFork childPid => if r = -1 then opened else Function.update opened childPid (opened pid)
  | _ => opened

/-- A call by process `pid`, with these values on its stack. -/
def run (x : ℕ × (ℕ → UInt32) × DescCall) : Exec DescState Fault Int := fun s =>
  match x.2.2.body { s.fs with cur := x.1, junk := x.2.1 } with
  | .ok (r, fs) => .ok (r, ⟨fs, x.2.2.note x.1 r fs s.opened⟩)
  | .error e => .error e

theorem post_run {x : ℕ × (ℕ → UInt32) × DescCall} {s : DescState} {Q : Int → DescState → Prop}
    {E : Fault → Prop} : Exec.Post (run x) s Q E ↔
      Exec.Post x.2.2.body { s.fs with cur := x.1, junk := x.2.1 }
        (fun r fs => Q r ⟨fs, x.2.2.note x.1 r fs s.opened⟩) E := by
  unfold Exec.Post run
  cases x.2.2.body { s.fs with cur := x.1, junk := x.2.1 } <;> rfl

/-- What the kernel promises: the number of a child is unused. -/
def Admitted (s : DescState) : DescCall → Prop
  | sysFork childPid => ∀ t ∈ s.fs.tasks, t.pid ≠ childPid
  | _ => True

/-- The calls that leave the descriptors of others alone: no other descriptor names an entry that
process `pid` closes. -/
def SparesOthers (pid : ℕ) (s : DescState) : DescCall → Prop
  | sysClose fd => 2 < fd → fd < maxFilesOpenPerProc → ∀ t ∈ s.fs.tasks, t.pid = pid →
      0 ≤ t.fdTable fd.toNat → s.fs.names (t.fdTable fd.toNat).toNat = 1
  | sysExit => ∀ t ∈ s.fs.tasks, t.pid = pid → ∀ k < maxFilesOpenPerProc, 3 ≤ k →
      0 ≤ t.fdTable k → s.fs.names (t.fdTable k).toNat = 1
  | _ => True

end DescCall

/-- Every descriptor of a live process names an entry that holds the inode it was opened on. -/
def DescriptorsValid (s : DescState) : Prop :=
  ∀ t ∈ s.fs.tasks, ∀ k, 3 ≤ k → k < maxFilesOpenPerProc → t.fdTable k ≠ -1 →
    ∃ g p : ℕ, g < maxFileOpen ∧ t.fdTable k = g ∧ (s.fs.fileTable g).fdInode = some p ∧
      s.opened t.pid k = some p

/-- The law with what it takes to keep it. -/
structure DescInv (s : DescState) : Prop where
  valid : DescriptorsValid s
  pids : s.fs.PidsDistinct
  files : ∀ g p, (s.fs.fileTable g).fdInode = some p → (s.fs.fileTable g).fdFlag ≠ pipeFlag

section Steps

variable {s : DescState} {s' : Fs} {t : Task} {pid : ℕ} {fd r : Int}

end Steps

end Winx
