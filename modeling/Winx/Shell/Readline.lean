import Mathlib.Data.List.Infix
import Winx.Impl.String

/-! # The line editor of the shell

`readline` stores every key at the cursor before it looks at it, and finds out by the first
byte of the buffer whether there is something to take back. While the line leaves room for
one more byte this is the editing of a list. The shell passes a count that is larger than
its buffer, so that a longer line is stored behind it.
-/

namespace Winx

namespace Shell

/-- `cmd_len` -/
def cmdLen : ℕ := 128

/-- `MAX_PATH_LEN` -/
def maxPathLen : ℕ := 512

/-- The keys that `readline` knows: `'\\b'`, `'l' - 'a'` and `'u' - 'a'`. -/
def backspace : UInt8 := 8
def ctrlL : UInt8 := 11
def ctrlU : UInt8 := 20

/-- `'\\n'` and `'\\r'`. -/
def Enter (k : UInt8) : Prop := k = 10 ∨ k = 13

instance : DecidablePred Enter := fun k => inferInstanceAs (Decidable (k = 10 ∨ k = 13))

/-- How `readline` ends: with a line, waiting for a key, or with the message that no
enter key came. -/
inductive LineRead
  | entered (rest : List UInt8)
  | waiting
  | noEnterKey
  deriving DecidableEq

/-- `while (buf != pos) *(pos--) = 0` -/
def clearLine (size : ℕ) : ℕ → BufM Unit
  | 0 => pure ()
  | pos + 1 => do
    Str.store size (pos + 1) 0
    clearLine size pos

/-- The loop of `readline` on a buffer of `size` bytes. What it prints is left out. -/
def readLoop (size count : ℕ) : List UInt8 → ℕ → BufM LineRead
  | [], _ => return .waiting
  | k :: keys, pos => do
    Str.store size pos k
    if pos < count then
      if Enter k then
        Str.store size pos 0
        return .entered keys
      else if k = backspace then
        if (← Str.load size 0) ≠ backspace then
          inBounds (0 < pos)
          readLoop size count keys (pos - 1)
        else readLoop size count keys pos
      else if k = ctrlL then
        Str.store size pos 0
        readLoop size count keys pos
      else if k = ctrlU then
        clearLine size pos
        readLoop size count keys 0
      else readLoop size count keys (pos + 1)
    else return .noEnterKey

/-- `readline` with the keys that are going to be typed. -/
def readline (size count : ℕ) (keys : List UInt8) : BufM LineRead := do
  assert (0 < count)
  readLoop size count keys 0

/-- What a key does to a line. -/
def editKey (line : List UInt8) (k : UInt8) : List UInt8 :=
  if k = backspace then line.dropLast
  else if k = ctrlL then line
  else if k = ctrlU then []
  else line ++ [k]

/-- The line that is edited by some keys. -/
def edit (line keys : List UInt8) : List UInt8 := keys.foldl editKey line

/-- The first enter key splits the keys. -/
def EnterAt (keys pre rest : List UInt8) : Prop := ∃ e, Enter e ∧ keys = pre ++ e :: rest ∧ ∀ k ∈ pre, ¬ Enter k

/-- If an enter key comes, the buffer holds the edited line. -/
def ReadsLine (line keys : List UInt8) (r : LineRead) (b : Bytes) : Prop :=
  ∀ pre rest, EnterAt keys pre rest → r = .entered rest ∧ b.Holds 0 (edit line pre)

/-- Every key finds room in the buffer, up to the first enter key. -/
def Fits (line keys : List UInt8) : Prop :=
  ∀ pre k, pre ++ [k] <+: keys → (∀ k ∈ pre, ¬ Enter k) → (edit line pre).length < cmdLen

variable {line keys pre rest : List UInt8} {k : UInt8} {b : Bytes} {r : LineRead}

/-! ## One key -/

theorem enterAt_nil : ¬ EnterAt [] pre rest := by
  rintro ⟨e, -, h, -⟩
  exact absurd h (by simp)

theorem enterAt_cons_enter (hk : Enter k) : EnterAt (k :: keys) pre rest ↔ pre = [] ∧ rest = keys := by
  constructor
  · rintro ⟨e, -, h, hpre⟩
    cases pre with
    | nil => exact ⟨rfl, (List.cons.inj h).2.symm⟩
    | cons a pre =>
      obtain ⟨rfl, -⟩ := List.cons.inj h
      exact absurd hk (hpre _ List.mem_cons_self)
  · rintro ⟨rfl, rfl⟩
    exact ⟨k, hk, rfl, fun a ha => absurd ha List.not_mem_nil⟩

theorem enterAt_cons (hk : ¬ Enter k) :
    EnterAt (k :: keys) pre rest ↔ ∃ pre', pre = k :: pre' ∧ EnterAt keys pre' rest := by
  constructor
  · rintro ⟨e, he, h, hpre⟩
    cases pre with
    | nil =>
      obtain ⟨rfl, -⟩ := List.cons.inj h
      exact absurd he hk
    | cons a pre =>
      obtain ⟨rfl, hkeys⟩ := List.cons.inj h
      exact ⟨pre, rfl, e, he, hkeys, fun c hc => hpre c (List.mem_cons_of_mem _ hc)⟩
  · rintro ⟨pre', rfl, e, he, rfl, hpre⟩
    exact ⟨e, he, rfl, List.forall_mem_cons.mpr ⟨hk, hpre⟩⟩

theorem readsLine_cons_enter (hk : Enter k) :
    ReadsLine line (k :: keys) r b ↔ r = .entered keys ∧ b.Holds 0 line := by
  constructor
  · exact fun h => h [] keys ((enterAt_cons_enter hk).mpr ⟨rfl, rfl⟩)
  · intro h pre rest hat
    obtain ⟨rfl, rfl⟩ := (enterAt_cons_enter hk).mp hat
    exact h

theorem readsLine_cons (hk : ¬ Enter k) :
    ReadsLine line (k :: keys) r b ↔ ReadsLine (editKey line k) keys r b := by
  constructor
  · exact fun h pre rest hat => h (k :: pre) rest ((enterAt_cons hk).mpr ⟨pre, rfl, hat⟩)
  · intro h pre rest hat
    obtain ⟨pre', rfl, hat'⟩ := (enterAt_cons hk).mp hat
    exact h pre' rest hat'

theorem fits_nil : Fits line [] := by
  intro pre k hpre
  exact absurd (List.prefix_nil.mp hpre) (by simp)

/-- One key needs room, and so do those that follow it. -/
theorem fits_cons : Fits line (k :: keys) ↔
    line.length < cmdLen ∧ (¬ Enter k → Fits (editKey line k) keys) := by
  constructor
  · intro h
    constructor
    · exact h [] k ⟨keys, rfl⟩ fun a ha => absurd ha List.not_mem_nil
    · intro hk pre a hpre hnone
      exact h (k :: pre) a (List.cons_prefix_cons.mpr ⟨rfl, hpre⟩) (List.forall_mem_cons.mpr ⟨hk, hnone⟩)
  · rintro ⟨hlen, hrest⟩ pre a hpre hnone
    cases pre with
    | nil => exact hlen
    | cons c pre =>
      obtain ⟨rfl, htail⟩ := List.cons_prefix_cons.mp hpre
      obtain ⟨hk, hnone⟩ := List.forall_mem_cons.mp hnone
      exact hrest hk pre a htail hnone

/-! ## The loop -/

theorem clearLine_returns {size pos : ℕ} (h : pos < size) :
    Exec.Returns (clearLine size pos) b fun _ _ => True := by
  induction pos generalizing b with
  | zero => trivial
  | succ pos ih =>
    rw [clearLine, Exec.Returns, Exec.post_bind_of_ok (Str.store_eq h 0 b)]
    exact ih (Nat.lt_of_succ_lt h)

/-- The loop edits the line in the buffer as long as every key finds room. -/
theorem readLoop_iff (hline : b.Reads 0 line) (hback : backspace ∉ line) :
    Exec.Returns (readLoop cmdLen maxPathLen keys line.length) b (ReadsLine line keys) ↔ Fits line keys := by
  induction keys generalizing line b with
  | nil =>
    apply iff_of_true _ fits_nil
    intro pre rest hat
    exact absurd hat enterAt_nil
  | cons k keys ih =>
    rw [fits_cons]
    by_cases hlen : line.length < cmdLen
    · have hcount : line.length < maxPathLen := hlen.trans (by decide)
      have hstored : (b.set line.length k).Reads 0 line := hline.set (.inr (Nat.zero_add _).le) k
      rw [and_iff_right hlen, readLoop, Exec.Returns, Exec.post_bind_of_ok (Str.store_eq hlen k b),
        if_pos hcount]
      by_cases hk : Enter k
      · rw [if_pos hk, Exec.post_bind_of_ok (Str.store_eq hlen 0 _)]
        apply iff_of_true _ fun h => absurd hk h
        apply (readsLine_cons_enter hk).mpr
        refine ⟨rfl, hstored.set (.inr (Nat.zero_add _).le) 0, ?_⟩
        rw [Nat.zero_add]
        exact Bytes.set_self ..
      · have hpost : ReadsLine line (k :: keys) = ReadsLine (editKey line k) keys := by
          funext r b
          exact propext (readsLine_cons hk)
        rw [if_neg hk, hpost, imp_iff_right hk]
        by_cases hkback : k = backspace
        · subst hkback
          have hedit : editKey line backspace = line.dropLast := if_pos rfl
          rw [if_pos rfl, hedit, Exec.post_bind_of_ok (Str.load_eq (by decide) _)]
          cases line with
          | nil =>
            -- The byte that was just stored is the first one: there is nothing to take back.
            have hfirst : (b.set 0 backspace) 0 = backspace := Bytes.set_self ..
            rw [List.length_nil, hfirst, if_neg (not_not.mpr rfl)]
            exact ih Bytes.reads_nil List.not_mem_nil
          | cons c line =>
            have hc : c ≠ backspace := (List.ne_of_not_mem_cons hback).symm
            rw [hstored.1, if_pos hc, Exec.post_bind, post_inBounds, ← List.length_dropLast]
            have hpre := List.dropLast_prefix (c :: line)
            have hrec := ih (hstored.of_prefix hpre) fun h => hback (hpre.subset h)
            rw [← hrec]
            exact ⟨fun h => h.1 (Nat.succ_pos _), fun h => ⟨fun _ => h, fun hpos => absurd (Nat.succ_pos _) hpos⟩⟩
        · rw [if_neg hkback]
          by_cases hkl : k = ctrlL
          · have hedit : editKey line k = line := (if_neg hkback).trans (if_pos hkl)
            rw [if_pos hkl, hedit, Exec.post_bind_of_ok (Str.store_eq hlen 0 _)]
            exact ih (hstored.set (.inr (Nat.zero_add _).le) 0) hback
          · rw [if_neg hkl]
            by_cases hku : k = ctrlU
            · have hedit : editKey line k = [] := (if_neg hkback).trans ((if_neg hkl).trans (if_pos hku))
              obtain ⟨_, b', hclear, -⟩ := Exec.returns_iff.mp (clearLine_returns hlen (b := b.set line.length k))
              rw [if_pos hku, hedit, Exec.post_bind_of_ok hclear]
              exact ih Bytes.reads_nil List.not_mem_nil
            · have hedit : editKey line k = line ++ [k] :=
                (if_neg hkback).trans ((if_neg hkl).trans (if_neg hku))
              have hreads : (b.set line.length k).Reads 0 (line ++ [k]) := by
                rw [Bytes.reads_append, Nat.zero_add]
                exact ⟨hstored, Bytes.set_self .., trivial⟩
              have hrec := ih hreads (by
                rw [List.mem_append, List.mem_singleton, not_or]
                exact ⟨hback, Ne.symm hkback⟩)
              rw [List.length_append, List.length_singleton] at hrec
              rw [if_neg hku, hedit]
              exact hrec
    · apply iff_of_false _ fun h => hlen h.1
      rw [readLoop, Exec.Returns, Exec.post_bind, Str.post_store]
      exact fun h => h.2 hlen

theorem readline_eq (keys : List UInt8) :
    readline cmdLen maxPathLen keys = readLoop cmdLen maxPathLen keys ([] : List UInt8).length := by
  rw [readline, assert, if_pos (by decide)]
  rfl

theorem fits_of_readline (h : Exec.Returns (readline cmdLen maxPathLen keys) b (ReadsLine [] keys)) :
    Fits [] keys := by
  rw [readline_eq] at h
  exact (readLoop_iff Bytes.reads_nil List.not_mem_nil).mp h

/-- As the shell calls it, `readline` keeps to the buffer and reads the edited line exactly when
the line has at most 127 bytes whenever a key arrives. -/
theorem readline_iff (keys : List UInt8) (b : Bytes) :
    Exec.Returns (readline cmdLen maxPathLen keys) b (ReadsLine [] keys) ↔ Fits [] keys := by
  constructor
  · exact fits_of_readline
  · intro h
    rw [readline_eq]
    exact (readLoop_iff Bytes.reads_nil List.not_mem_nil).mpr h

/-- Keys that are no commands are appended. -/
theorem edit_replicate (n : ℕ) (hback : k ≠ backspace) (hl : k ≠ ctrlL) (hu : k ≠ ctrlU) :
    edit line (List.replicate n k) = line ++ List.replicate n k := by
  induction n generalizing line with
  | zero => exact (List.append_nil line).symm
  | succ n ih =>
    have hedit : editKey line k = line ++ [k] := (if_neg hback).trans ((if_neg hl).trans (if_neg hu))
    change edit (editKey line k) (List.replicate n k) = _
    rw [ih, hedit, List.append_assoc]
    rfl

theorem not_fits_replicate (hback : k ≠ backspace) (hl : k ≠ ctrlL) (hu : k ≠ ctrlU) (hk : ¬ Enter k) :
    ¬ Fits [] (List.replicate (cmdLen + 1) k) := by
  intro h
  have hpre : List.replicate cmdLen k ++ [k] <+: List.replicate (cmdLen + 1) k :=
    (List.replicate_succ' ▸ List.prefix_rfl)
  have hlen := h (List.replicate cmdLen k) k hpre fun c hc => List.eq_of_mem_replicate hc ▸ hk
  rw [edit_replicate cmdLen hback hl hu, List.nil_append, List.length_replicate] at hlen
  exact Nat.lt_irrefl cmdLen hlen

/-- A line of 129 letters. -/
theorem readline_overrun :
    ¬ Exec.Returns (readline cmdLen maxPathLen (List.replicate 129 0x61)) Bytes.zero
      (ReadsLine [] (List.replicate 129 0x61)) := by
  have hfits : ¬ Fits [] (List.replicate 129 0x61) :=
    not_fits_replicate (by decide) (by decide) (by decide) (by decide)
  generalize List.replicate 129 (0x61 : UInt8) = keys at hfits ⊢
  exact fun h => hfits (fits_of_readline h)

end Shell
end Winx
