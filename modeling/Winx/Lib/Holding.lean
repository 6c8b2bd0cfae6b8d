import Mathlib.Tactic.Common

/-! # Who holds what

A relation between holders and things, in which no thing is held twice. It stays
so when holders let go, and when one holder gets a thing that nobody held.
-/

/-- No thing has two holders. -/
def Exclusive {U F : Type} (holds : U → F → Prop) : Prop :=
  ∀ u v f, holds u f → holds v f → u = v

namespace Exclusive

variable {U F : Type} {holds holds' : U → F → Prop} {u : U} {f : F}

theorem mono (h : Exclusive holds) (hsub : ∀ u f, holds' u f → holds u f) : Exclusive holds' :=
  fun u v f hu hv => h u v f (hsub u f hu) (hsub v f hv)

/-- A thing that nobody holds may be given out. -/
theorem give (h : Exclusive holds) (hfree : ∀ v, ¬ holds v f)
    (hnew : ∀ v g, holds' v g → holds v g ∨ v = u ∧ g = f) : Exclusive holds' := by
  intro v w g hv hw
  rcases hnew v g hv with hv | ⟨rfl, rfl⟩ <;> rcases hnew w g hw with hw | ⟨rfl, hg⟩
  · exact h v w g hv hw
  · exact absurd (hg ▸ hv) (hfree v)
  · exact absurd hw (hfree w)
  · rfl

end Exclusive
