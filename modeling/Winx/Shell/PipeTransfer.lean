import Winx.Device.Ioqueue
import Winx.Fs.Isolation

/-! # Transferring bytes through a pipe

`pipe_read` and `pipe_write` move as many bytes at once as the queue has to give or
room for, so that they need not wait. But the room is taken to be all 2048 cells,
while one of them always stays free: a write that would fill the last cell waits.
-/

namespace Winx

/-- The file system with the queues in the pages of the pipes. -/
structure PipeQueues where
  fs : Fs
  queue : ℕ → Option Ioqueue

/-- Why a transfer does not return: a fault, or it waits for the other side. -/
inductive Stop
  | fault (e : Fault)
  | waits
  deriving DecidableEq, Repr

/-- Code that transfers bytes. -/
abbrev TransferM (α : Type) := Exec PipeQueues Stop α

/-- Change the queue at an address. -/
@[simps -fullyApplied] def PipeQueues.setQueue (s : PipeQueues) (p : ℕ) (ioq : Ioqueue) : PipeQueues :=
  { s with queue := Function.update s.queue p (some ioq) }

/-- The queue behind a descriptor: `file_table[fd_local2global(fd)].fd_inode` -/
def pipeQueue (fd : Int) : TransferM ℕ := fun s =>
  match fdLocal2global fd s.fs with
  | .ok (globalFd, _) =>
    match (s.fs.fileTable globalFd).fdInode with
    | some p => .ok (p, s)
    | none => .error (.fault .badPointer)
  | .error e => .error (.fault e)

/-- The queue at an address. -/
def derefQueue (p : ℕ) : TransferM Ioqueue := do
  let s ← get
  match s.queue p with
  | some ioq => pure ioq
  | none => throw (.fault .badPointer)

/-- `ioq_getchar`, which waits while the queue is empty. -/
def ioqGetchar (p : ℕ) : TransferM UInt8 := do
  let ioq ← derefQueue p
  if ioqEmpty ioq then throw .waits
  else
    modify fun s => s.setQueue p ioq.remove
    pure ioq.first

/-- `ioq_putchar`, which waits while the queue is full. -/
def ioqPutchar (p : ℕ) (byte : UInt8) : TransferM Unit := do
  let ioq ← derefQueue p
  if ioqFull ioq then throw .waits
  else modify fun s => s.setQueue p (ioq.insert byte)

/-- The loop of `pipe_read` for `n` more bytes. -/
def readPipe (p : ℕ) : ℕ → TransferM (List UInt8)
  | 0 => pure []
  | n + 1 => do
    let byte ← ioqGetchar p
    let bytes ← readPipe p n
    pure (byte :: bytes)

/-- `pipe_read`: its result and what it stores to the buffer. -/
def pipeRead (fd : Int) (count : UInt32) : TransferM (UInt32 × List UInt8) := do
  let p ← pipeQueue fd
  let ioq ← derefQueue p
  let ioqLen := ioqLength ioq
  let size := if ioqLen > count then count else ioqLen
  let bytes ← readPipe p size.toNat
  pure (size, bytes)

/-- The loop of `pipe_write` for the bytes of a list. -/
def writePipe (p : ℕ) : List UInt8 → TransferM Unit
  | [] => pure ()
  | byte :: bytes => do
    ioqPutchar p byte
    writePipe p bytes

/-- `pipe_write` -/
def pipeWrite (fd : Int) (buf : Bytes) (count : UInt32) : TransferM UInt32 := do
  let p ← pipeQueue fd
  let ioq ← derefQueue p
  let ioqLeft := bufsize.toUInt32 - ioqLength ioq
  let size := if ioqLeft > count then count else ioqLeft
  writePipe p ((List.range size.toNat).map buf)
  pure size

/-- A descriptor stands for the pipe at an address, whose queue holds some bytes. -/
structure PipeAt (s : PipeQueues) (fd : Int) (p : ℕ) (l : List UInt8) : Prop where
  behind : pipeQueue fd s = .ok (p, s)
  queue : ∃ ioq, s.queue p = some ioq ∧ ioq.Holds l

/-- The cells of a queue that can be filled. -/
def freeSpace (l : List UInt8) : ℕ := 2047 - l.length

/-- `pipe_read` removes as many bytes as it can, without waiting, and returns how many. -/
def ReadsExactly (s : PipeQueues) (fd : Int) (count : UInt32) (p : ℕ) (l : List UInt8) : Prop :=
  Exec.Returns (pipeRead fd count) s fun r s' => r.1.toNat = min count.toNat l.length ∧
    r.2 = l.take r.1.toNat ∧
      ∃ ioq, s' = s.setQueue p ioq ∧ ioq.Holds (l.drop r.1.toNat)

/-- `pipe_write` inserts as many bytes as there is room for, without waiting, and returns how many. -/
def WritesExactly (s : PipeQueues) (fd : Int) (buf : Bytes) (count : UInt32) (p : ℕ)
    (l : List UInt8) : Prop :=
  Exec.Returns (pipeWrite fd buf count) s fun r s' => r.toNat = min count.toNat (freeSpace l) ∧
    ∃ ioq, s' = s.setQueue p ioq ∧ ioq.Holds (l ++ (List.range r.toNat).map buf)

section Loops

variable {s : PipeQueues} {p : ℕ} {ioq : Ioqueue} {l : List UInt8} {E : Stop → Prop}

@[simp] theorem post_derefQueue {Q : Ioqueue → PipeQueues → Prop} (h : s.queue p = some ioq) :
    Exec.Post (derefQueue p) s Q E ↔ Q ioq s := by
  rw [derefQueue, Exec.post_bind, Exec.post_get, h]
  rfl

@[simp] theorem PipeQueues.setQueue_setQueue (s : PipeQueues) (ioq ioq' : Ioqueue) :
    (s.setQueue p ioq).setQueue p ioq' = s.setQueue p ioq' := by
  simp [setQueue]

theorem PipeQueues.setQueue_self (h : s.queue p = some ioq) : s.setQueue p ioq = s := by
  rw [setQueue, ← h, Function.update_eq_self]

/-- Reading what is there. -/
theorem readPipe_spec (h : s.queue p = some ioq) (hl : ioq.Holds l) {n : ℕ} (hn : n ≤ l.length) :
    Exec.Returns (readPipe p n) s fun bytes s' => bytes = l.take n ∧
      ∃ ioq', s' = s.setQueue p ioq' ∧ ioq'.Holds (l.drop n) := by
  induction n generalizing s ioq l with
  | zero => exact ⟨rfl, ioq, (PipeQueues.setQueue_self h).symm, hl⟩
  | succ n ih =>
    have hempty : ioqEmpty ioq = false := by
      rw [← Bool.not_eq_true, hl.ioqEmpty_iff]
      omega
    obtain ⟨hfirst, hrest⟩ := hl.remove hempty
    rw [Exec.Returns, readPipe, Exec.post_bind, ioqGetchar, Exec.post_bind, post_derefQueue h, hempty]
    simp only [Bool.false_eq_true, if_false, Exec.post_bind, Exec.post_modify, Exec.post_pure]
    have hlen : n ≤ l.tail.length := by
      rw [List.length_tail]
      omega
    have hq : (s.setQueue p ioq.remove).queue p = some ioq.remove := Function.update_self ..
    refine (ih hq hrest hlen).mono fun bytes s' hs' => ?_
    obtain ⟨rfl, ioq', rfl, hioq'⟩ := hs'
    refine ⟨?_, ioq', PipeQueues.setQueue_setQueue .., ?_⟩
    · conv_rhs => rw [hfirst]
      rfl
    · conv => arg 2; rw [hfirst]
      exact hioq'

/-- Writing goes on until the queue is full, and then waits. -/
theorem writePipe_spec (bytes : List UInt8) (h : s.queue p = some ioq) (hl : ioq.Holds l) :
    Exec.Post (writePipe p bytes) s
      (fun _ s' => bytes.length ≤ freeSpace l ∧
        ∃ ioq', s' = s.setQueue p ioq' ∧ ioq'.Holds (l ++ bytes))
      fun e => e = .waits ∧ freeSpace l < bytes.length := by
  induction bytes generalizing s ioq l with
  | nil =>
    refine ⟨Nat.zero_le _, ioq, (PipeQueues.setQueue_self h).symm, ?_⟩
    rw [List.append_nil]
    exact hl
  | cons byte bytes ih =>
    have hlt := hl.length
    rw [writePipe, Exec.post_bind, ioqPutchar, Exec.post_bind, post_derefQueue h]
    cases hfull : ioqFull ioq with
    | true =>
      rw [hl.ioqFull_iff] at hfull
      refine ⟨rfl, ?_⟩
      rw [freeSpace, hfull, List.length_cons]
      omega
    | false =>
      have hroom : l.length ≠ 2047 := by
        rw [Ne, ← hl.ioqFull_iff, hfull]
        decide
      simp only [Bool.false_eq_true, if_false, Exec.post_modify]
      have hq : (s.setQueue p (ioq.insert byte)).queue p = some (ioq.insert byte) :=
        Function.update_self ..
      have hspace : freeSpace (l ++ [byte]) + 1 = freeSpace l := by
        rw [freeSpace, freeSpace, List.length_append, List.length_singleton]
        omega
      refine (ih hq (hl.insert hfull byte)).mono ?_ ?_
      · rintro _ s' ⟨hle, ioq', rfl, hioq'⟩
        refine ⟨by rw [List.length_cons]; omega, ioq', PipeQueues.setQueue_setQueue .., ?_⟩
        rw [List.append_assoc] at hioq'
        exact hioq'
      · rintro e ⟨rfl, hwaits⟩
        exact ⟨rfl, by rw [List.length_cons]; omega⟩

end Loops

section Transfers

variable {s : PipeQueues} {fd : Int} {p : ℕ} {l : List UInt8} {count : UInt32} {buf : Bytes}

/-- The smaller one of two words, as it is computed. -/
theorem toNat_clamp (a b : UInt32) : (if a > b then b else a).toNat = min b.toNat a.toNat := by
  split
  · rename_i h
    have := UInt32.lt_iff_toNat_lt.mp h
    omega
  · rename_i h
    have := mt UInt32.lt_iff_toNat_lt.mpr h
    omega

/-- `pipe_read` never waits. -/
theorem readsExactly (h : PipeAt s fd p l) : ReadsExactly s fd count p l := by
  obtain ⟨hbehind, ioq, hq, hl⟩ := h
  rw [ReadsExactly, Exec.Returns, pipeRead, Exec.post_bind_of_ok hbehind, Exec.post_bind,
    post_derefQueue hq]
  dsimp only
  have hsize := toNat_clamp (ioqLength ioq) count
  rw [hl.ioqLength_eq] at hsize
  generalize (if ioqLength ioq > count then count else ioqLength ioq) = size at hsize ⊢
  refine Exec.Returns.bind (readPipe_spec hq hl (n := size.toNat) (by omega)) fun bytes s' hs' => ?_
  exact ⟨hsize, hs'⟩

/-- `pipe_write` does not wait exactly if there is room for all it has to write. -/
theorem writesExactly_iff (h : PipeAt s fd p l) :
    WritesExactly s fd buf count p l ↔ count.toNat ≤ freeSpace l := by
  obtain ⟨hbehind, ioq, hq, hl⟩ := h
  have hlen := hl.length
  have hleft : (bufsize.toUInt32 - ioqLength ioq).toNat = 2048 - l.length := by
    have hsize : bufsize.toUInt32.toNat = 2048 := rfl
    rw [Word.toNat_sub, hl.ioqLength_eq, hsize]
    rw [hl.ioqLength_eq, hsize]
    exact hlen.le
  have hsize := toNat_clamp (bufsize.toUInt32 - ioqLength ioq) count
  rw [hleft] at hsize
  rw [WritesExactly, Exec.Returns, pipeWrite, Exec.post_bind_of_ok hbehind, Exec.post_bind,
    post_derefQueue hq]
  dsimp only
  generalize (if bufsize.toUInt32 - ioqLength ioq > count then count
    else bufsize.toUInt32 - ioqLength ioq) = size at hsize ⊢
  have hcnt : ((List.range size.toNat).map buf).length = size.toNat := by
    rw [List.length_map, List.length_range]
  have hwrite := writePipe_spec ((List.range size.toNat).map buf) hq hl
  rw [hcnt] at hwrite
  rw [Exec.post_bind]
  constructor
  · intro hexact
    by_contra hlt
    have hwaits : freeSpace l < size.toNat := by
      unfold freeSpace at *
      omega
    obtain ⟨_, s', hrun, -⟩ := Exec.returns_iff.mp hexact
    have hle := (hwrite.ensures.of_ok hrun).1
    omega
  · intro hle
    refine hwrite.mono ?_ fun e he => by unfold freeSpace at *; omega
    rintro _ s' ⟨-, ioq', rfl, hioq'⟩
    refine ⟨?_, ioq', rfl, hioq'⟩
    unfold freeSpace at *
    omega

/-- Transfers through a pipe never wait, and move what can be moved, exactly if there is room for all
that is to be written. -/
theorem pipeNeverBlocks_iff (h : PipeAt s fd p l) (readCount : UInt32) :
    (WritesExactly s fd buf count p l ∧ ReadsExactly s fd readCount p l) ↔
      count.toNat ≤ freeSpace l := by
  rw [writesExactly_iff h]
  exact and_iff_left (readsExactly h)

end Transfers

/-- A file system whose running process has a pipe as descriptor 3. -/
def pipeFs : Fs :=
  ((Fs.unmounted Bytes.zero).setTasks [⟨1, fun k => if k ≤ 3 then k else -1, 0, []⟩]).setFile 3
    ⟨2, pipeFlag, some 0⟩

/-- The pipe with an empty queue in its page. -/
def pipeQueues : PipeQueues := ⟨pipeFs, fun p => if p = 0 then some (Ioqueue.init Bytes.zero) else none⟩

theorem pipeAt_pipeQueues : PipeAt pipeQueues 3 0 [] :=
  ⟨rfl, Ioqueue.init Bytes.zero, rfl, Ioqueue.holds_init _⟩

/-- Writing 2047 bytes into an empty pipe. -/
theorem pipeNeverBlocks_iff_2047 : WritesExactly pipeQueues 3 Bytes.zero 2047 0 [] ∧
    ReadsExactly pipeQueues 3 1 0 [] :=
  (pipeNeverBlocks_iff pipeAt_pipeQueues 1).mpr (by decide)

/-- Writing 2048 bytes into an empty pipe waits, although a part of them could be written. -/
theorem not_pipeNeverBlocks : ∃ s fd buf count p l, PipeAt s fd p l ∧
    ¬ WritesExactly s fd buf count p l := by
  refine ⟨pipeQueues, 3, Bytes.zero, 2048, 0, [], pipeAt_pipeQueues, ?_⟩
  rw [writesExactly_iff pipeAt_pipeQueues]
  decide

end Winx
