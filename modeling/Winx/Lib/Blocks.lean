import Mathlib.Algebra.Order.Group.Nat
import Mathlib.Tactic.Common
import Mathlib.Data.Nat.Notation

/-! # Consecutive blocks

Blocks of varying lengths lie one after the other from 0 on. Every number is at one place
of one block, and counting the blocks off from a number finds them.
-/

namespace Blocks

variable {len : ℕ → ℕ} {n k m r r' : ℕ}

/-- Where block `k` starts. -/
def start (len : ℕ → ℕ) : ℕ → ℕ
  | 0 => 0
  | k + 1 => start len k + len k

/-- The number `n` is at place `r` of block `k`. -/
structure At (len : ℕ → ℕ) (n k r : ℕ) : Prop where
  eq : start len k + r = n
  lt : r < len k

@[simp] theorem start_zero (len : ℕ → ℕ) : start len 0 = 0 := rfl

theorem start_succ (len : ℕ → ℕ) (k : ℕ) : start len (k + 1) = start len k + len k := rfl

/-- The first block on its own. -/
theorem start_succ_left (len : ℕ → ℕ) (k : ℕ) :
    start len (k + 1) = len 0 + start (fun i => len (i + 1)) k := by
  induction k with
  | zero => rw [start_succ, start_zero, start_zero, Nat.zero_add, Nat.add_zero]
  | succ k ih => rw [start_succ, ih, start_succ, Nat.add_assoc]

theorem start_mono (h : k ≤ m) : start len k ≤ start len m := by
  induction h with
  | refl => exact Nat.le_refl _
  | step _ ih => exact ih.trans (Nat.le_add_right _ _)

theorem lt_of_start_lt (h : start len k < start len m) : k < m := by
  by_contra hle
  have hstart : start len m ≤ start len k := start_mono (Nat.le_of_not_lt hle)
  exact Nat.not_lt.mpr hstart h

theorem mul_le_start {l : ℕ} (h : ∀ k, l ≤ len k) (k : ℕ) : l * k ≤ start len k := by
  induction k with
  | zero => exact Nat.le_refl _
  | succ k ih =>
    rw [Nat.mul_succ, start_succ]
    exact Nat.add_le_add ih (h k)

/-- A number before the start of a block is in an earlier one. -/
theorem At.lt_of_lt_start (h : At len n k r) (hn : n < start len m) : k < m := by
  have heq := h.eq
  have hlt : start len k < start len m := by omega
  exact lt_of_start_lt hlt

theorem At.lt_start_succ (h : At len n k r) : n < start len (k + 1) := by
  rw [← h.eq, start_succ]
  exact Nat.add_lt_add_left h.lt _

theorem At.unique (h : At len n k r) (h' : At len n m r') : k = m ∧ r = r' := by
  have hkm : k = m := by
    have hlt := h.lt_of_lt_start h'.lt_start_succ
    have hgt := h'.lt_of_lt_start h.lt_start_succ
    omega
  subst hkm
  have heq := h.eq
  have heq' := h'.eq
  exact ⟨rfl, by omega⟩

end Blocks
