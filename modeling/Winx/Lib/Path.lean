import Winx.Lib.Run
import Mathlib.Algebra.BigOperators.Group.List.Basic
import Mathlib.Algebra.Ring.Nat

/-! # Paths

A path is a run together with the list of its calls, all of whose states satisfy
a condition. Costs of calls are bounded along a path by a potential: each call
costs what the potential falls, up to a credit that the call brings along.
-/

namespace Exec

variable {σ ε α β : Type}

/-- `u` is reached from `s` by the calls `l`, each admitted by `ok` and each to a state in `P`. -/
inductive Path (f : α → Exec σ ε β) (ok : σ → α → Prop) (P : σ → Prop) : σ → List α → σ → Prop
  | nil {s : σ} : Path f ok P s [] s
  | cons {s t u : σ} {a : α} {b : β} {l : List α} : ok s a → f a s = .ok (b, t) → P t →
    Path f ok P t l u → Path f ok P s (a :: l) u

variable {f : α → Exec σ ε β} {ok : σ → α → Prop} {P : σ → Prop} {s u : σ} {l : List α}

theorem Path.mono {P' : σ → Prop} (hP : ∀ s, P s → P' s) (h : Path f ok P s l u) :
    Path f ok P' s l u := by
  induction h with
  | nil => exact .nil
  | cons hok hcall hs _ ih => exact .cons hok hcall (hP _ hs) ih

/-- The costs of the calls of a path are at most what the potential falls and the credits. -/
theorem Path.amortized {I : σ → Prop} (v : σ → ℕ) (cost credit : α → ℕ)
    (hstep : ∀ s a b t, I s → ok s a → f a s = .ok (b, t) → P t →
      I t ∧ cost a + v t ≤ v s + credit a)
    (hs : I s) (h : Path f ok P s l u) :
    (l.map cost).sum + v u ≤ v s + (l.map credit).sum := by
  induction h with
  | nil => simp
  | cons hok hcall hP _ ih =>
    obtain ⟨hI, hle⟩ := hstep _ _ _ _ hs hok hcall hP
    have hrest := ih hI
    simp only [List.map_cons, List.sum_cons]
    omega

/-- The state after a list of calls, if all of them are admitted and return to a state that passes
a test. -/
def pathList (f : α → Exec σ ε β) (ok : σ → α → Prop) [∀ s a, Decidable (ok s a)] (p : σ → Bool) :
    List α → σ → Option σ
  | [], s => some s
  | a :: l, s =>
    if ok s a then
      match f a s with
      | .ok (_, t) => if p t then pathList f ok p l t else none
      | .error _ => none
    else none

theorem Path.of_pathList [∀ s a, Decidable (ok s a)] {p : σ → Bool}
    (h : pathList f ok p l s = some u) : Path f ok (fun s => p s = true) s l u := by
  induction l generalizing s with
  | nil =>
    obtain rfl : s = u := Option.some.inj h
    exact .nil
  | cons a l ih =>
    rw [pathList] at h
    split at h
    · rename_i hok
      split at h
      · rename_i hcall
        split at h
        · rename_i hp
          exact .cons hok hcall hp (ih h)
        · cases h
      · cases h
    · cases h

end Exec
