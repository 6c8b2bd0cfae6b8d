import Winx.Kernel.PutInt
import Winx.Thread.CriticalSection

/-! # The console

The functions of the console print with its lock held. `put_char` works on the
screen in many steps and `put_int` on a buffer of its own, but no thread does so
while another one is at it, so that the texts of several threads are printed one
after the other and none is torn.
-/

namespace Winx

open Stdio

/-- A call of `console_put_str`, `console_put_char` or `console_put_int`. -/
inductive ConsoleCall
  | consolePutStr (str : CStr)
  | consolePutChar (charAsci : UInt8)
  | consolePutInt (num : UInt32)

namespace ConsoleCall

/-- What a call does between `console_acquire` and `console_release`, with its string at an offset. -/
def body (mem : Bytes) (off : ℕ) : ConsoleCall → PrintM Unit
  | consolePutStr _ => Printer.putStr mem off
  | consolePutChar charAsci => Printer.callPutChar charAsci
  | consolePutInt num => Printer.putInt num

/-- The characters that a call prints. -/
def text : ConsoleCall → List UInt8
  | consolePutStr str => str.chars
  | consolePutChar charAsci => [charAsci]
  | consolePutInt num => numeral 16 num.toNat

/-- The string of a call lies in memory. -/
def Holds (mem : Bytes) (off : ℕ) : ConsoleCall → Prop
  | consolePutStr str => mem.Holds off str.chars ∧ str.chars.length < 2 ^ 32
  | consolePutChar _ => True
  | consolePutInt _ => True

/-- A call prints its text, and returns. -/
theorem body_spec {mem : Bytes} {off : ℕ} (c : ConsoleCall) (h : c.Holds mem off) (p : Printer) :
    Exec.Returns (c.body mem off) p fun _ p' => p'.screen = p.screen.putChars c.text := by
  cases c with
  | consolePutStr str => exact (Exec.post_of_ok (Printer.putStr_eq h.1 str.no_zero h.2)).mpr rfl
  | consolePutChar charAsci => rfl
  | consolePutInt num => exact (Exec.post_of_ok (Printer.putInt_eq num p)).mpr rfl

end ConsoleCall

/-- An event with the console: the running thread calls it, goes on with its lock, prints a character
or releases the lock; or something else happens in the kernel. -/
inductive ConsoleEvent
  | call (c : ConsoleCall)
  | step
  | putChar
  | release
  | other (e : KernelEvent)

/-- The console is data that a lock protects, one character after the other. -/
def ConsoleEvent.toGuard : ConsoleEvent → GuardEvent UInt8
  | call c => .call c.text
  | step => .step
  | putChar => .act
  | release => .leave
  | other e => .other e

/-- The runs of threads that print on the console. -/
abbrev Console.Run (consoleLock : ℕ) (value : ℕ → UInt8) (screen : Screen) (g : Guarded Screen UInt8) : Prop :=
  Exec.Run (fun e : ConsoleEvent => e.toGuard.run (fun c s => s.putChar c) consoleLock)
    (fun g e => e.toGuard.Admitted consoleLock g) (Guarded.boot consoleLock value screen) g

section Runs

variable {consoleLock : ℕ} {value : ℕ → UInt8} {screen : Screen} {g : Guarded Screen UInt8}

/-- A run of the console is a run of threads that share data. -/
theorem Console.Run.guarded (h : Console.Run consoleLock value screen g) :
    Guarded.Run (fun c s => s.putChar c) consoleLock value screen g :=
  h.map (φ := ConsoleEvent.toGuard) (fun _ => rfl) fun _ _ => id

/-- What the threads are called for are texts of the console. -/
theorem Console.Run.called (h : Console.Run consoleLock value screen g) :
    ∀ p, ∀ w ∈ g.called p, ∃ c : ConsoleCall, w = c.text := by
  refine h.invariant (I := fun g => ∀ p, ∀ w ∈ g.called p, ∃ c : ConsoleCall, w = c.text) ?_ ?_
  · intro p w hw
    cases hw
  · intro g e hg _
    cases e with
    | call c =>
      refine Exec.post_bind.mpr (Exec.post_modify _ |>.mpr (post_onLocked.mpr
        (Exec.ensures_iff.mpr fun _ l' _ => ?_)))
      intro p w hw
      by_cases hp : p = g.cur
      · subst hp
        have hw' : w ∈ g.called g.cur ++ [c.text] := by
          simpa only [Guarded.setLocked_called, Guarded.begin_called, Function.update_self] using hw
        rcases List.mem_append.mp hw' with hold | hnew
        · exact hg _ w hold
        · exact ⟨c, List.mem_singleton.mp hnew⟩
      · simp only [Guarded.setLocked_called, Guarded.begin_called, Function.update_of_ne hp] at hw
        exact hg p w hw
    | step => exact post_onLocked.mpr (Exec.ensures_iff.mpr fun _ _ _ => hg)
    | putChar =>
      intro p w hw
      refine hg p w ?_
      simpa only [Guarded.act_called] using hw
    | release =>
      refine Exec.post_bind.mpr (Exec.post_modify _ |>.mpr (post_onLocked.mpr
        (Exec.ensures_iff.mpr fun _ l' _ => ?_)))
      intro p w hw
      refine hg p w ?_
      simpa only [Guarded.setLocked_called, Guarded.finish_called] using hw
    | other e => exact post_onLocked.mpr (Exec.ensures_iff.mpr fun _ _ _ => hg)

/-- The screen shows whole texts of the console, one after the other, and after them a part of at most
one more. Those of a thread are in the order of its calls, none is lost or printed twice, and no
assertion in the lock fails. -/
structure PrintsWhole (consoleLock : ℕ) (screen : Screen) (g : Guarded Screen UInt8) : Prop where
  screen : ∃ part, g.data = screen.putChars ((g.finished.flatMap Prod.snd) ++ part) ∧
    (part = [] ∨ ∃ p left, g.doing p = some (part, left))
  texts : ∀ w ∈ g.finished, ∃ c : ConsoleCall, w.2 = c.text
  calls : ∀ p, (g.finished.filter fun c => c.1 = p).map Prod.snd ++
    (g.doing p).toList.map (fun w => w.1 ++ w.2) = g.called p
  asserts : ∀ e : ConsoleEvent, e.toGuard.Admitted consoleLock g → (∀ e', e ≠ .other e') →
    Exec.Returns (e.toGuard.run (fun c s => s.putChar c) consoleLock) g fun _ _ => True

/-- In every run the console prints whole texts. -/
theorem printsWhole_of_run (h : Console.Run consoleLock value screen g) :
    PrintsWhole consoleLock screen g := by
  have hturns := h.guarded.takesTurns
  refine ⟨hturns.data, fun w hw => ?_, hturns.calls, fun e he hother => hturns.asserts _ he fun e' heq => ?_⟩
  · refine h.called w.1 w.2 ?_
    rw [← hturns.calls w.1]
    exact List.mem_append_left _ (List.mem_map.mpr ⟨w, by simpa using hw, rfl⟩)
  · cases e with
    | other e => exact hother e rfl
    | _ => cases heq

/-- `main` prints two characters, and `init` wants to print after the first one. -/
theorem printsWhole_of_run_two : ∃ g, Console.Run 0 (fun _ => 0) (Screen.clearAt 0) g ∧
    g.finished = [(1, [0x68, 0x69])] ∧ PrintsWhole 0 (Screen.clearAt 0) g := by
  have h : (Exec.runList (fun e : ConsoleEvent => e.toGuard.run (fun c s => Screen.putChar c s) 0)
      (fun g e => e.toGuard.Admitted 0 g)
      [.call (.consolePutStr ⟨[0x68, 0x69], by decide⟩), .step, .step, .step, .step, .step, .putChar,
        .other .tick, .call (.consolePutInt 10), .step, .step, .other .tick, .putChar, .release, .step,
        .step, .step, .step, .step, .step, .other .tick, .step, .step, .step, .step, .putChar]
      (Guarded.boot 0 (fun _ => 0) (Screen.clearAt 0))).any
        (fun g => g.finished == [(1, [0x68, 0x69])]) = true := by
    decide +kernel
  obtain ⟨g, hrun, hg⟩ := Exec.Run.exists_of_any h
  exact ⟨g, hrun, by simpa using hg, printsWhole_of_run hrun⟩

end Runs

end Winx
