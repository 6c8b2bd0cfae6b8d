import Mathlib.Algebra.Order.Group.Nat
import Mathlib.Tactic.Common
import Mathlib.Tactic.Ring
import Mathlib.Data.Nat.ModEq
import Mathlib.Data.Nat.Notation

/-! # Long division in a register

The bits of a dividend are shifted one by one into a register of `M` values; where the
divisor fits, it is taken off and the bit of the quotient is one. Starting from an empty
register this is division with remainder. Started from something else, the register is off
by the shifted initial value, and the division comes out right as long as that changes
no comparison.
-/

namespace LongDivision

variable {M n d i e : ℕ}

/-- The quotient and the remainder after the last `i` bits of `n` are shifted into `r`. -/
def run (M n d : ℕ) : ℕ → ℕ → ℕ × ℕ
  | 0, r => (0, r)
  | i + 1, r =>
    let x := (2 * r + n / 2 ^ i % 2) % M
    if d ≤ x then ((run M n d i (x - d)).1 + 2 ^ i, (run M n d i (x - d)).2) else run M n d i x

/-- The register of the exact division when bit `i` has been shifted in. -/
def shifted (n d i : ℕ) : ℕ := 2 * (n / 2 ^ (i + 1) % d) + n / 2 ^ i % 2

theorem run_fst_lt (r : ℕ) : (run M n d i r).1 < 2 ^ i := by
  induction i generalizing r with
  | zero => exact Nat.one_pos
  | succ i ih =>
    rw [run, Nat.pow_succ]
    split
    · have := ih ((2 * r + n / 2 ^ i % 2) % M - d)
      omega
    · have := ih ((2 * r + n / 2 ^ i % 2) % M)
      omega

theorem shifted_lt (hd : 0 < d) : shifted n d i < 2 * d := by
  have := Nat.mod_lt (n / 2 ^ (i + 1)) hd
  unfold shifted
  omega

/-- What the register stands for, up to a multiple of the divisor. -/
theorem div_pow_eq (n d i : ℕ) :
    n / 2 ^ i = shifted n d i + d * (2 * (n / 2 ^ (i + 1) / d)) := by
  have hbit : n / 2 ^ i = 2 * (n / 2 ^ (i + 1)) + n / 2 ^ i % 2 := by
    rw [Nat.pow_succ, ← Nat.div_div_eq_div_mul]
    omega
  have hdiv := Nat.div_add_mod (n / 2 ^ (i + 1)) d
  unfold shifted
  calc n / 2 ^ i = 2 * (d * (n / 2 ^ (i + 1) / d) + n / 2 ^ (i + 1) % d) + n / 2 ^ i % 2 := by
        rw [hdiv, ← hbit]
    _ = _ := by ring

theorem div_pow_mod (hd : 0 < d) :
    n / 2 ^ i % d = if d ≤ shifted n d i then shifted n d i - d else shifted n d i := by
  have hlt := shifted_lt (n := n) (i := i) hd
  rw [div_pow_eq n d i, Nat.add_mul_mod_self_left]
  split
  · rename_i hle
    rw [Nat.mod_eq_sub_mod hle]
    exact Nat.mod_eq_of_lt (by omega)
  · rename_i hle
    exact Nat.mod_eq_of_lt (by omega)

/-- The bit of the quotient. -/
theorem div_div_pow_mod_two (hd : 0 < d) :
    n / d / 2 ^ i % 2 = if d ≤ shifted n d i then 1 else 0 := by
  have hlt := shifted_lt (n := n) (i := i) hd
  have hdiv : n / d / 2 ^ i = shifted n d i / d + 2 * (n / 2 ^ (i + 1) / d) := by
    rw [Nat.div_div_eq_div_mul, Nat.mul_comm d, ← Nat.div_div_eq_div_mul, div_pow_eq n d i,
      Nat.add_mul_div_left _ _ hd]
  rw [hdiv, Nat.add_mul_mod_self_left]
  split
  · rename_i hle
    rw [Nat.div_eq_of_lt_le (k := 1)]
    · omega
    · omega
  · rename_i hle
    rw [Nat.div_eq_of_lt (by omega)]

/-- Started from an exact remainder, the loop divides. -/
theorem run_exact (hd : 0 < d) (hM : 2 * d ≤ M) :
    run M n d i (n / 2 ^ i % d) = (n / d % 2 ^ i, n % d) := by
  induction i with
  | zero =>
    rw [run, Nat.pow_zero, Nat.div_one, Nat.mod_one]
  | succ i ih =>
    have hlt := shifted_lt (n := n) (i := i) hd
    have hx : (2 * (n / 2 ^ (i + 1) % d) + n / 2 ^ i % 2) % M = shifted n d i :=
      Nat.mod_eq_of_lt (by unfold shifted at hlt; omega)
    rw [run, hx, Nat.mod_pow_succ, div_div_pow_mod_two hd]
    rw [div_pow_mod hd] at ih
    split
    · rename_i hle
      rw [if_pos hle] at ih
      rw [ih, Nat.mul_one]
    · rename_i hle
      rw [if_neg hle] at ih
      rw [ih, Nat.mul_zero, Nat.add_zero]

/-- An empty register divides. -/
theorem run_zero (hd : 0 < d) (hM : 2 * d ≤ M) (hn : n < 2 ^ i) : run M n d i 0 = (n / d, n % d) := by
  have h := run_exact (n := n) (i := i) hd hM
  rw [Nat.div_eq_of_lt hn, Nat.zero_mod] at h
  rw [h, Nat.mod_eq_of_lt ((Nat.div_le_self n d).trans_lt hn)]

/-- The next value of a register that is off by `e`. -/
theorem step_error (n d i e : ℕ) :
    (2 * ((n / 2 ^ (i + 1) % d + e) % M) + n / 2 ^ i % 2) % M = (shifted n d i + 2 * e) % M := by
  have hmod : 2 * ((n / 2 ^ (i + 1) % d + e) % M) + n / 2 ^ i % 2 ≡
      2 * (n / 2 ^ (i + 1) % d + e) + n / 2 ^ i % 2 [MOD M] :=
    ((Nat.mod_modEq _ _).mul_left 2).add_right _
  rw [hmod]
  unfold shifted
  congr 1
  ring

theorem sub_error {x : ℕ} (hx : d ≤ x) (hle : d ≤ (x + e) % M) (hM : 0 < M) :
    (x + e) % M - d = (x - d + e) % M := by
  have hlt := Nat.mod_lt (x + e) hM
  have hdiv := Nat.div_add_mod (x + e) M
  have hsum : x - d + e = (x + e) % M - d + M * ((x + e) / M) := by omega
  rw [hsum, Nat.add_mul_mod_self_left]
  exact (Nat.mod_eq_of_lt (by omega)).symm

/-- A register that is off by `e` gives the same division exactly when the error changes no
comparison and is shifted out in the end. -/
theorem run_error_iff (hd : 0 < d) (hM : 2 * d ≤ M) :
    run M n d i ((n / 2 ^ i % d + e) % M) = (n / d % 2 ^ i, n % d) ↔
      (∀ j < i, d ≤ shifted n d j ↔ d ≤ (shifted n d j + e * 2 ^ (i - j)) % M) ∧
        e * 2 ^ i % M = 0 := by
  induction i generalizing e with
  | zero =>
    have hmod := Nat.mod_lt n hd
    rw [run, Nat.pow_zero, Nat.div_one, Nat.mod_one, Nat.mul_one]
    constructor
    · intro h
      have hr := congrArg Prod.snd h
      have hdiv := Nat.div_add_mod (n % d + e) M
      refine ⟨fun j hj => absurd hj (Nat.not_lt_zero j), ?_⟩
      have he : e = M * ((n % d + e) / M) := by
        dsimp only at hr
        omega
      rw [he, Nat.mul_mod_right]
    · rintro ⟨-, he⟩
      rw [Nat.add_mod, he, Nat.add_zero, Nat.mod_mod, Nat.mod_eq_of_lt (by omega)]
  | succ i ih =>
    have hlow : (∀ j < i, d ≤ shifted n d j ↔ d ≤ (shifted n d j + e * 2 ^ (i + 1 - j)) % M) ↔
        ∀ j < i, d ≤ shifted n d j ↔ d ≤ (shifted n d j + 2 * e * 2 ^ (i - j)) % M := by
      apply forall₂_congr
      intro j hj
      rw [Nat.succ_sub hj.le, Nat.pow_succ, Nat.mul_comm 2 e, Nat.mul_assoc e 2, Nat.mul_comm 2]
    have hlast : e * 2 ^ (i + 1) = 2 * e * 2 ^ i := by
      rw [Nat.pow_succ]
      ring
    have ih := ih (e := 2 * e)
    rw [div_pow_mod hd] at ih
    rw [Nat.forall_lt_succ_right, hlow, hlast, and_right_comm, ← ih, run, step_error,
      Nat.mod_pow_succ, div_div_pow_mod_two hd, Nat.add_sub_cancel_left, Nat.pow_one,
      Nat.mul_comm e 2]
    have hM0 : 0 < M := by omega
    have hq := run_fst_lt (M := M) (n := n) (d := d) (i := i)
    have hbits : n / d % 2 ^ i < 2 ^ i := Nat.mod_lt _ (Nat.two_pow_pos i)
    by_cases hx : d ≤ shifted n d i
    · by_cases hy : d ≤ (shifted n d i + 2 * e) % M
      · rw [if_pos hy, if_pos hx, if_pos hx, ← sub_error hx hy hM0, Nat.mul_one, Prod.ext_iff,
          Prod.ext_iff, Nat.add_right_cancel_iff]
        exact (and_iff_left ⟨fun _ => hy, fun _ => hx⟩).symm
      · rw [if_neg hy, if_pos hx, Nat.mul_one]
        constructor
        · intro h
          have hfst := congrArg Prod.fst h
          have := hq ((shifted n d i + 2 * e) % M)
          omega
        · rintro ⟨-, hiff⟩
          exact absurd (hiff.mp hx) hy
    · by_cases hy : d ≤ (shifted n d i + 2 * e) % M
      · rw [if_pos hy, if_neg hx, Nat.mul_zero]
        constructor
        · intro h
          have hfst := congrArg Prod.fst h
          dsimp only at hfst
          omega
        · rintro ⟨-, hiff⟩
          exact absurd (hiff.mpr hy) hx
      · rw [if_neg hy, if_neg hx, if_neg hx, Nat.mul_zero, Nat.add_zero]
        exact (and_iff_left ⟨fun h => absurd h hx, fun h => absurd h hy⟩).symm

/-- What the register holds at the start does no harm exactly when it changes no comparison. -/
theorem run_start_iff {r : ℕ} (hd : 0 < d) (hM : 2 * d ≤ M) (hn : n < 2 ^ i) (hi : 2 ^ i % M = 0)
    (hr : r < M) :
    run M n d i r = (n / d, n % d) ↔
      ∀ j < i, d ≤ shifted n d j ↔ d ≤ (shifted n d j + r * 2 ^ (i - j)) % M := by
  have h := run_error_iff (n := n) (i := i) (e := r) hd hM
  have hout : r * 2 ^ i % M = 0 := by
    rw [Nat.mul_mod, hi, Nat.mul_zero, Nat.zero_mod]
  rw [Nat.div_eq_of_lt hn, Nat.zero_mod, Nat.zero_add, Nat.mod_eq_of_lt hr,
    Nat.mod_eq_of_lt ((Nat.div_le_self n d).trans_lt hn), and_iff_left hout] at h
  exact h

end LongDivision
