import Mathlib.Algebra.Group.Nat.Defs
import Mathlib.Tactic.Common
import Mathlib.Data.Nat.Notation

/-! # Words without wrap around

Sums and differences of 32-bit words are those of the numbers they stand for as
long as nothing wraps around.
-/

namespace Word

variable {a b : UInt32}

theorem toNat_add (h : a.toNat + b.toNat < 2 ^ 32) : (a + b).toNat = a.toNat + b.toNat := by
  rw [UInt32.toNat_add]
  exact Nat.mod_eq_of_lt h

/-- A sum that wraps around once. -/
theorem toNat_add_of_wrap (h : 2 ^ 32 ≤ a.toNat + b.toNat) :
    (a + b).toNat = a.toNat + b.toNat - 2 ^ 32 := by
  have := a.toNat_lt
  have := b.toNat_lt
  rw [UInt32.toNat_add]
  omega

theorem toNat_sub (h : b.toNat ≤ a.toNat) : (a - b).toNat = a.toNat - b.toNat :=
  UInt32.toNat_sub_of_le _ _ (UInt32.le_iff_toNat_le.mpr h)

theorem toNat_mul (h : a.toNat * b.toNat < 2 ^ 32) : (a * b).toNat = a.toNat * b.toNat := by
  rw [UInt32.toNat_mul]
  exact Nat.mod_eq_of_lt h

theorem toNat_ofNat {n : ℕ} (h : n < 2 ^ 32) : (UInt32.ofNat n).toNat = n := by
  rw [UInt32.toNat_ofNat']
  exact Nat.mod_eq_of_lt h

theorem eq_ofNat {n : ℕ} (h : a.toNat = n) : a = UInt32.ofNat n := by
  rw [← h, UInt32.ofNat_toNat]

theorem ofNat_add (m n : ℕ) : UInt32.ofNat m + UInt32.ofNat n = UInt32.ofNat (m + n) :=
  (UInt32.ofNat_add m n).symm

theorem ofNat_sub {m n : ℕ} (h : n ≤ m) (hm : m < 2 ^ 32) :
    UInt32.ofNat m - UInt32.ofNat n = UInt32.ofNat (m - n) := by
  apply UInt32.toNat_inj.mp
  rw [toNat_sub, toNat_ofNat hm, toNat_ofNat (by omega), toNat_ofNat (by omega)]
  rw [toNat_ofNat hm, toNat_ofNat (by omega)]
  exact h

theorem ne_zero_iff : a ≠ 0 ↔ 0 < a.toNat := by
  rw [ne_eq, ← UInt32.toNat_inj, UInt32.toNat_zero]
  omega

end Word
