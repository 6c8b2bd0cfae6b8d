import Winx.Lib.Exec

/-! # Faults of the kernel

A failed assertion, a panic and an access that C leaves undefined are faults:
the call does not complete.
-/

namespace Winx

/-- Why a call does not complete. -/
inductive Fault
  | assertFailed
  | outOfBounds
  | badPointer
  | diverged
  deriving DecidableEq, Repr

variable {σ α : Type}

/-- `ASSERT`, `assert` and `PANIC`. -/
def assert (c : Prop) [Decidable c] : Exec σ Fault Unit :=
  if c then pure () else throw .assertFailed

/-- An access that is undefined unless `c` holds. -/
def inBounds (c : Prop) [Decidable c] : Exec σ Fault Unit :=
  if c then pure () else throw .outOfBounds

/-- The object behind a pointer. -/
def deref : Option α → Exec σ Fault α
  | some a => pure a
  | none => throw .badPointer

variable {s : σ} {E : Fault → Prop}

@[simp] theorem post_assert {c : Prop} [Decidable c] {Q : Unit → σ → Prop} :
    Exec.Post (assert c) s Q E ↔ (c → Q () s) ∧ (¬ c → E .assertFailed) := by
  unfold assert; simp

@[simp] theorem post_inBounds {c : Prop} [Decidable c] {Q : Unit → σ → Prop} :
    Exec.Post (inBounds c) s Q E ↔ (c → Q () s) ∧ (¬ c → E .outOfBounds) := by
  unfold inBounds; simp

@[simp] theorem post_deref {o : Option α} {Q : α → σ → Prop} :
    Exec.Post (deref o) s Q E ↔ (∀ a, o = some a → Q a s) ∧ (o = none → E .badPointer) := by
  cases o <;> simp [deref]

end Winx
