import Winx.Lib.Exec

/-! # Runs

A run calls computations one after the other, each from the state the one
before left, wherever a side condition admits the call. Only calls that return
belong to a run. An invariant of runs is a property that every admitted call
keeps; a concrete run is found by evaluation.
-/

namespace Exec

variable {σ ε α β : Type} {f : α → Exec σ ε β} {ok ok' : σ → α → Prop} {s t u : σ} {a : α}

/-- `u` is reached from `s` by calls of `f`, each admitted by `ok` in its state. -/
inductive Run (f : α → Exec σ ε β) (ok : σ → α → Prop) (s : σ) : σ → Prop
  | refl : Run f ok s s
  | tail {t u : σ} {a : α} {b : β} : Run f ok s t → ok t a → f a t = .ok (b, u) → Run f ok s u

/-- What every admitted call keeps holds after every run. -/
theorem Run.invariant {I : σ → Prop} (hstart : I s)
    (hstep : ∀ t a, I t → ok t a → Ensures (f a) t fun _ u => I u) (h : Run f ok s u) : I u := by
  induction h with
  | refl => exact hstart
  | tail _ hok hcall ih => exact (hstep _ _ ih hok).of_ok hcall

theorem Run.mono (hok : ∀ t a, ok t a → ok' t a) (h : Run f ok s u) : Run f ok' s u := by
  induction h with
  | refl => exact .refl
  | tail _ ha hcall ih => exact .tail ih (hok _ _ ha) hcall

/-- A run of calls that are calls of `g`. -/
theorem Run.map {γ : Type} {g : γ → Exec σ ε β} {q : σ → γ → Prop} {φ : α → γ}
    (hcall : ∀ a, g (φ a) = f a) (hok : ∀ t a, ok t a → q t (φ a)) (h : Run f ok s u) :
    Run g q s u := by
  induction h with
  | refl => exact .refl
  | tail _ ha hc ih => exact .tail ih (hok _ _ ha) ((congrFun (hcall _) _).trans hc)

theorem Run.head {b : β} (hok : ok s a) (hcall : f a s = .ok (b, t)) (h : Run f ok t u) :
    Run f ok s u := by
  induction h with
  | refl => exact .tail .refl hok hcall
  | tail _ ha hc ih => exact .tail ih ha hc

/-- The state after a list of calls, if all of them are admitted and return. -/
def runList (f : α → Exec σ ε β) (ok : σ → α → Prop) [∀ s a, Decidable (ok s a)] :
    List α → σ → Option σ
  | [], s => some s
  | a :: l, s =>
    if ok s a then
      match f a s with
      | .ok (_, t) => runList f ok l t
      | .error _ => none
    else none

theorem Run.of_runList [∀ s a, Decidable (ok s a)] {l : List α} (h : runList f ok l s = some u) :
    Run f ok s u := by
  induction l generalizing s with
  | nil =>
    obtain rfl : s = u := Option.some.inj h
    exact .refl
  | cons a l ih =>
    rw [runList] at h
    split at h
    · rename_i hok
      split at h
      · rename_i hcall
        exact .head hok hcall (ih h)
      · cases h
    · cases h

/-- A list of calls after which a test succeeds gives a run to a state that passes it. -/
theorem Run.exists_of_any [∀ s a, Decidable (ok s a)] {l : List α} {p : σ → Bool}
    (h : (runList f ok l s).any p = true) : ∃ u, Run f ok s u ∧ p u = true := by
  cases hu : runList f ok l s with
  | none => rw [hu] at h; cases h
  | some u => rw [hu] at h; exact ⟨u, .of_runList hu, h⟩

end Exec
