import Mathlib.Tactic.Common
import Mathlib.Data.Nat.Notation
import Mathlib.Logic.Function.Basic

/-! # Ring buffers

A ring of `n` cells holds a list in consecutive cells, wrapping around at the
end. Appending writes the cell after the last one, and removing moves the start
by one cell.
-/

namespace Ring

variable {α : Type} (n : ℕ) (buf : ℕ → α) (start len : ℕ)

/-- The `len` elements from the cell `start` on. -/
def contents : List α := (List.range len).map fun i => buf ((start + i) % n)

@[simp] theorem length_contents : (contents n buf start len).length = len := by
  rw [contents, List.length_map, List.length_range]

variable {n buf start len}

/-- Two cells that are less than a turn apart are different. -/
theorem cell_ne {i j : ℕ} (hij : i < j) (hj : j < n) : (start + i) % n ≠ (start + j) % n := by
  intro heq
  have hdvd : n ∣ (start + j) - (start + i) :=
    Nat.dvd_of_mod_eq_zero (Nat.sub_mod_eq_zero_of_mod_eq heq.symm)
  have hle := Nat.le_of_dvd (by omega) hdvd
  omega

/-- Writing the cell after the last one appends. -/
theorem contents_append (a : α) (h : len < n) :
    contents n (Function.update buf ((start + len) % n) a) start (len + 1) =
      contents n buf start len ++ [a] := by
  rw [contents, List.range_succ, List.map_append, List.map_singleton, Function.update_self, contents]
  congr 1
  refine List.map_congr_left fun i hi => ?_
  exact Function.update_of_ne (cell_ne (List.mem_range.mp hi) h) ..

/-- The first element is in the first cell, and the others follow. -/
theorem contents_succ (h : start < n) :
    contents n buf start (len + 1) = buf start :: contents n buf ((start + 1) % n) len := by
  rw [contents, List.range_succ_eq_map, List.map_cons, Nat.add_zero, Nat.mod_eq_of_lt h,
    List.map_map]
  congr 1
  refine List.map_congr_left fun i _ => ?_
  simp only [Function.comp_apply, Nat.mod_add_mod]
  congr 2
  omega

end Ring
