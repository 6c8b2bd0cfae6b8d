import Mathlib.Tactic.NormNum
import Winx.Lib.LongDivision

/-! # 64-bit division

The kernel divides 64-bit words by 32-bit ones with three copies of one loop. Two of them
keep the running remainder in a variable of their own that starts at zero. The third one
keeps it in the caller's `*remainder` and never clears it, so that it depends on what the
caller left there.
-/

namespace Winx

namespace Math

/-- The turns of the loop for the bits below `i`. -/
def divideLoop (dividend : UInt64) (divisor : UInt32) : ℕ → UInt64 → UInt64 → UInt64 × UInt64
  | 0, remainder, quotient => (quotient, remainder)
  | i + 1, remainder, quotient =>
    let remainder := remainder <<< 1
    let bit := (dividend >>> UInt64.ofNat i) &&& 1
    let remainder := remainder ||| bit
    if remainder ≥ divisor.toUInt64 then
      divideLoop dividend divisor i (remainder - divisor.toUInt64) (quotient ||| 1 <<< UInt64.ofNat i)
    else divideLoop dividend divisor i remainder quotient

/-- `divide_u64_u32`: the quotient and what is left in `*remainder`. -/
def divideU64U32 (dividend : UInt64) (divisor : UInt32) (remainder : UInt64) : UInt64 × UInt64 :=
  if divisor = 0 then (0, remainder) else divideLoop dividend divisor 64 remainder 0

/-- `divide_u64_u32_no_mod`. -/
def divideU64U32NoMod (dividend : UInt64) (divisor : UInt32) : UInt64 :=
  if divisor = 0 then 0 else (divideLoop dividend divisor 64 0 0).1

/-- `mod_u64_u32`. -/
def modU64U32 (dividend : UInt64) (divisor : UInt32) : UInt64 :=
  if divisor = 0 then 0 else (divideLoop dividend divisor 64 0 0).2

variable {dividend remainder quotient : UInt64} {divisor : UInt32} {i : ℕ}

/-- Shifting a bit in. -/
theorem toNat_shiftIn (dividend remainder : UInt64) (hi : i < 64) :
    (remainder <<< 1 ||| (dividend >>> UInt64.ofNat i) &&& 1).toNat =
      (2 * remainder.toNat + dividend.toNat / 2 ^ i % 2) % 2 ^ 64 := by
  have hbit : ((dividend >>> UInt64.ofNat i) &&& 1).toNat = dividend.toNat / 2 ^ i % 2 := by
    rw [UInt64.toNat_and, UInt64.toNat_shiftRight, UInt64.toNat_ofNat_of_lt' (by norm_num [UInt64.size]; omega),
      Nat.mod_eq_of_lt hi, Nat.shiftRight_eq_div_pow]
    exact Nat.and_one_is_mod _
  have hshl : (remainder <<< 1).toNat = 2 ^ 1 * (remainder.toNat % 2 ^ 63) := by
    rw [UInt64.toNat_shiftLeft]
    change remainder.toNat <<< 1 % 2 ^ 64 = _
    rw [Nat.shiftLeft_eq]
    omega
  rw [UInt64.toNat_or, hbit, hshl, ← Nat.two_pow_add_eq_or_of_lt (by omega)]
  omega

/-- Setting a bit below all others. -/
theorem toNat_setBit (hi : i < 64) (hq : quotient.toNat % 2 ^ (i + 1) = 0) :
    (quotient ||| 1 <<< UInt64.ofNat i).toNat = quotient.toNat + 2 ^ i := by
  have hbit : ((1 : UInt64) <<< UInt64.ofNat i).toNat = 2 ^ i := by
    rw [UInt64.toNat_shiftLeft, UInt64.toNat_ofNat_of_lt' (by norm_num [UInt64.size]; omega),
      Nat.mod_eq_of_lt hi, Nat.shiftLeft_eq]
    change 1 * 2 ^ i % 2 ^ 64 = _
    rw [Nat.one_mul]
    exact Nat.mod_eq_of_lt (Nat.pow_lt_pow_right Nat.one_lt_two hi)
  have hquot : quotient.toNat = 2 ^ (i + 1) * (quotient.toNat / 2 ^ (i + 1)) := by
    have := Nat.div_add_mod quotient.toNat (2 ^ (i + 1))
    omega
  have hlt : 2 ^ i < 2 ^ (i + 1) := Nat.pow_lt_pow_right Nat.one_lt_two i.lt_succ_self
  rw [UInt64.toNat_or, hbit, hquot]
  exact (Nat.two_pow_add_eq_or_of_lt hlt _).symm

/-- The loop is long division in a 64-bit register. -/
theorem toNat_divideLoop (dividend : UInt64) (divisor : UInt32) (remainder quotient : UInt64)
    (hi : i ≤ 64) (hq : quotient.toNat % 2 ^ i = 0) :
    (divideLoop dividend divisor i remainder quotient).1.toNat = quotient.toNat +
        (LongDivision.run (2 ^ 64) dividend.toNat divisor.toNat i remainder.toNat).1 ∧
      (divideLoop dividend divisor i remainder quotient).2.toNat =
        (LongDivision.run (2 ^ 64) dividend.toNat divisor.toNat i remainder.toNat).2 := by
  induction i generalizing remainder quotient with
  | zero => exact ⟨rfl, rfl⟩
  | succ i ih =>
    have hshift := toNat_shiftIn dividend remainder hi
    have hdivisor : divisor.toUInt64.toNat = divisor.toNat := UInt32.toNat_toUInt64 divisor
    have hle : remainder <<< 1 ||| (dividend >>> UInt64.ofNat i) &&& 1 ≥ divisor.toUInt64 ↔
        divisor.toNat ≤ (2 * remainder.toNat + dividend.toNat / 2 ^ i % 2) % 2 ^ 64 := by
      rw [ge_iff_le, UInt64.le_iff_toNat_le, hshift, hdivisor]
    have hdvd : quotient.toNat % 2 ^ i = 0 :=
      Nat.mod_eq_zero_of_dvd ((Nat.pow_dvd_pow 2 i.le_succ).trans (Nat.dvd_of_mod_eq_zero hq))
    rw [divideLoop, LongDivision.run]
    by_cases hfits : divisor.toNat ≤ (2 * remainder.toNat + dividend.toNat / 2 ^ i % 2) % 2 ^ 64
    · rw [if_pos hfits, if_pos (hle.mpr hfits)]
      have hset := toNat_setBit hi hq
      have hlow : (quotient ||| 1 <<< UInt64.ofNat i).toNat % 2 ^ i = 0 := by
        rw [hset, Nat.add_mod_right, hdvd]
      rw [(ih _ _ (Nat.le_of_succ_le hi) hlow).1, (ih _ _ (Nat.le_of_succ_le hi) hlow).2, UInt64.toNat_sub_of_le _ _ (hle.mpr hfits), hshift, hdivisor, hset]
      refine ⟨?_, rfl⟩
      dsimp only
      omega
    · rw [if_neg hfits, if_neg (fun h => hfits (hle.mp h))]
      rw [(ih _ _ (Nat.le_of_succ_le hi) hdvd).1, (ih _ _ (Nat.le_of_succ_le hi) hdvd).2, hshift]
      exact ⟨rfl, rfl⟩

theorem divisor_pos (hd : divisor ≠ 0) : 0 < divisor.toNat :=
  Nat.pos_of_ne_zero fun h => hd (UInt32.toNat_inj.mp h)

/-- The register is wide enough for twice the divisor. -/
theorem two_mul_divisor_le (divisor : UInt32) : 2 * divisor.toNat ≤ 2 ^ 64 := by
  have := divisor.toNat_lt
  omega

theorem toNat_divideLoop_zero (hd : divisor ≠ 0) :
    (divideLoop dividend divisor 64 0 0).1.toNat = dividend.toNat / divisor.toNat ∧
      (divideLoop dividend divisor 64 0 0).2.toNat = dividend.toNat % divisor.toNat := by
  have hrun := LongDivision.run_zero (divisor_pos hd) (two_mul_divisor_le divisor) dividend.toNat_lt
  have hloop := toNat_divideLoop dividend divisor 0 0 (le_refl 64) rfl
  rw [UInt64.toNat_zero, hrun, Nat.zero_add] at hloop
  exact hloop

/-- The quotient. -/
theorem toNat_divideU64U32NoMod (hd : divisor ≠ 0) :
    (divideU64U32NoMod dividend divisor).toNat = dividend.toNat / divisor.toNat := by
  rw [divideU64U32NoMod, if_neg hd]
  exact (toNat_divideLoop_zero hd).1

/-- The remainder. -/
theorem toNat_modU64U32 (hd : divisor ≠ 0) :
    (modU64U32 dividend divisor).toNat = dividend.toNat % divisor.toNat := by
  rw [modU64U32, if_neg hd]
  exact (toNat_divideLoop_zero hd).2

/-! ## The iterations -/

/-- One iteration of the loop, on the quotient and the remainder. -/
def divideStep (dividend : UInt64) (divisor : UInt32) (i : ℕ) (state : UInt64 × UInt64) :
    UInt64 × UInt64 :=
  let remainder := state.2 <<< 1
  let bit := (dividend >>> UInt64.ofNat i) &&& 1
  let remainder := remainder ||| bit
  if remainder ≥ divisor.toUInt64 then
    (state.1 ||| 1 <<< UInt64.ofNat i, remainder - divisor.toUInt64)
  else (state.1, remainder)

/-- The quotient and the remainder after `k` iterations. -/
def divideAfter (dividend : UInt64) (divisor : UInt32) : ℕ → UInt64 × UInt64
  | 0 => (0, 0)
  | k + 1 => divideStep dividend divisor (63 - k) (divideAfter dividend divisor k)

theorem divideLoop_succ (dividend : UInt64) (divisor : UInt32) (i : ℕ) (state : UInt64 × UInt64) :
    divideLoop dividend divisor (i + 1) state.2 state.1 =
      divideLoop dividend divisor i (divideStep dividend divisor i state).2
        (divideStep dividend divisor i state).1 := by
  rw [divideLoop, divideStep]
  split
  · rfl
  · rfl

/-- The loop goes on from where the iterations are. -/
theorem divideLoop_after {k : ℕ} (hk : k ≤ 64) :
    divideLoop dividend divisor (64 - k) (divideAfter dividend divisor k).2
        (divideAfter dividend divisor k).1 = divideLoop dividend divisor 64 0 0 := by
  induction k with
  | zero => rfl
  | succ k ih =>
    rw [← ih (Nat.le_of_succ_le hk), show 64 - k = 63 - k + 1 by omega, divideLoop_succ,
      show 64 - (k + 1) = 63 - k by omega]
    rfl

theorem divideAfter_64 (dividend : UInt64) (divisor : UInt32) :
    divideAfter dividend divisor 64 = divideLoop dividend divisor 64 0 0 :=
  divideLoop_after (le_refl 64)

/-- The remainder is the one of the bits that were shifted in. -/
theorem toNat_divideAfter (dividend : UInt64) (hd : divisor ≠ 0) {k : ℕ} (hk : k ≤ 64) :
    (divideAfter dividend divisor k).2.toNat = dividend.toNat / 2 ^ (64 - k) % divisor.toNat := by
  induction k with
  | zero =>
    rw [Nat.sub_zero, Nat.div_eq_of_lt dividend.toNat_lt, Nat.zero_mod]
    rfl
  | succ k ih =>
    have ih := ih (Nat.le_of_succ_le hk)
    have hpos := divisor_pos hd
    have hwide := two_mul_divisor_le divisor
    have hlt := LongDivision.shifted_lt (n := dividend.toNat) (i := 63 - k) hpos
    have hexp : 64 - k = 63 - k + 1 := by omega
    have hshift := toNat_shiftIn dividend (divideAfter dividend divisor k).2 (show 63 - k < 64 by omega)
    rw [ih, hexp] at hshift
    have hx := hshift.trans (Nat.mod_eq_of_lt (hlt.trans_le hwide))
    change _ = LongDivision.shifted dividend.toNat divisor.toNat (63 - k) at hx
    have hdivisor : divisor.toUInt64.toNat = divisor.toNat := UInt32.toNat_toUInt64 divisor
    rw [show 64 - (k + 1) = 63 - k by omega, LongDivision.div_pow_mod hpos, divideAfter, divideStep]
    split
    · rename_i hge
      have hge' := UInt64.le_iff_toNat_le.mp hge
      rw [hx, hdivisor] at hge'
      rw [if_pos hge', UInt64.toNat_sub_of_le _ _ hge, hx, hdivisor]
    · rename_i hnot
      rw [if_neg, hx]
      intro hle
      refine hnot (UInt64.le_iff_toNat_le.mpr ?_)
      rw [hx, hdivisor]
      exact hle

theorem toNat_divideAfter_lt (dividend : UInt64) (hd : divisor ≠ 0) {k : ℕ} (hk : k ≤ 64) :
    (divideAfter dividend divisor k).2.toNat < divisor.toNat := by
  rw [toNat_divideAfter dividend hd hk]
  exact Nat.mod_lt _ (divisor_pos hd)

/-- The loops divide. After every iteration the remainder is below the divisor, and shifting it
loses no bit. -/
theorem divideU64U32_exact (dividend : UInt64) (divisor : UInt32) (hd : divisor ≠ 0) :
    divideU64U32NoMod dividend divisor = dividend / divisor.toUInt64 ∧
      modU64U32 dividend divisor = dividend % divisor.toUInt64 ∧
      (divideU64U32NoMod dividend divisor, modU64U32 dividend divisor) =
        divideAfter dividend divisor 64 ∧
      ∀ k < 64, ((divideAfter dividend divisor k).2 <<< 1).toNat =
          2 * (divideAfter dividend divisor k).2.toNat ∧
        (divideAfter dividend divisor (k + 1)).2.toNat < divisor.toNat := by
  refine ⟨?_, ?_, ?_, fun k hk => ⟨?_, toNat_divideAfter_lt dividend hd hk⟩⟩
  · apply UInt64.toNat_inj.mp
    rw [toNat_divideU64U32NoMod hd, UInt64.toNat_div, UInt32.toNat_toUInt64]
  · apply UInt64.toNat_inj.mp
    rw [toNat_modU64U32 hd, UInt64.toNat_mod, UInt32.toNat_toUInt64]
  · rw [divideAfter_64, divideU64U32NoMod, modU64U32, if_neg hd, if_neg hd]
  · have hlt := toNat_divideAfter_lt dividend hd hk.le
    have hd32 := divisor.toNat_lt
    rw [UInt64.toNat_shiftLeft, Nat.shiftLeft_eq]
    change (divideAfter dividend divisor k).2.toNat * 2 % 2 ^ 64 = _
    omega

/-- The largest dividend by a divisor near 2^32. -/
theorem divideU64U32_exact_max : divideU64U32NoMod (-1) 0xfffffffb = (-1) / 0xfffffffb ∧
    modU64U32 (-1) 0xfffffffb = (-1) % 0xfffffffb := by
  obtain ⟨hdiv, hmod, -⟩ := divideU64U32_exact (-1) 0xfffffffb (by decide)
  exact ⟨hdiv, hmod⟩

/-! ## The remainder of the caller -/

theorem prod_eq_iff {p : UInt64 × UInt64} {q r : UInt64} :
    p = (q, r) ↔ (p.1.toNat, p.2.toNat) = (q.toNat, r.toNat) := by
  rw [Prod.ext_iff, Prod.ext_iff, UInt64.toNat_inj, UInt64.toNat_inj]

/-- The variants agree exactly when what the caller left in `*remainder` changes none of the 64
comparisons with the divisor. -/
theorem divideU64U32_eq_iff (dividend : UInt64) (divisor : UInt32) (remainder : UInt64)
    (hd : divisor ≠ 0) :
    divideU64U32 dividend divisor remainder =
        (divideU64U32NoMod dividend divisor, modU64U32 dividend divisor) ↔
      ∀ i < 64, divisor.toNat ≤ LongDivision.shifted dividend.toNat divisor.toNat i ↔
        divisor.toNat ≤ (LongDivision.shifted dividend.toNat divisor.toNat i +
          remainder.toNat * 2 ^ (64 - i)) % 2 ^ 64 := by
  have hloop := toNat_divideLoop dividend divisor remainder 0 (le_refl 64) rfl
  have hstart := LongDivision.run_start_iff (divisor_pos hd) (two_mul_divisor_le divisor)
    dividend.toNat_lt (by norm_num) remainder.toNat_lt
  rw [← hstart, prod_eq_iff, toNat_divideU64U32NoMod hd, toNat_modU64U32 hd, divideU64U32, if_neg hd,
    hloop.1, hloop.2, UInt64.toNat_zero, Nat.zero_add]

/-- For 7 and a divisor 3 an empty `*remainder` changes nothing. -/
theorem divideU64U32_eq_of_empty :
    divideU64U32 7 3 0 = (divideU64U32NoMod 7 3, modU64U32 7 3) := by
  apply (divideU64U32_eq_iff 7 3 0 (by decide)).mpr
  intro i _
  have hlt : LongDivision.shifted 7 3 i < 2 * 3 := LongDivision.shifted_lt (by norm_num)
  change 3 ≤ _ ↔ 3 ≤ (LongDivision.shifted 7 3 i + 0 * 2 ^ (64 - i)) % 2 ^ 64
  rw [Nat.zero_mul, Nat.add_zero, Nat.mod_eq_of_lt (by omega)]
  rfl

/-- With one in `*remainder` the quotient of 0 by 1 is not 0. -/
theorem divideU64U32_ne_of_one :
    divideU64U32 0 1 1 ≠ (divideU64U32NoMod 0 1, modU64U32 0 1) := by
  decide

/-- The variants agree on all divisions exactly for the two values of `*remainder` that the
first shift clears. -/
theorem forall_divideU64U32_eq_iff (remainder : UInt64) :
    (∀ dividend divisor, divisor ≠ 0 → divideU64U32 dividend divisor remainder =
        (divideU64U32NoMod dividend divisor, modU64U32 dividend divisor)) ↔
      remainder.toNat % 2 ^ 63 = 0 := by
  constructor
  · intro hall
    -- The last bit of 0 divided by 1 meets a register of twice the initial value.
    have hlast := (divideU64U32_eq_iff 0 1 remainder (by decide)).mp (hall 0 1 (by decide)) 63
      (by norm_num)
    have hshifted : LongDivision.shifted (0 : UInt64).toNat (1 : UInt32).toNat 63 = 0 := by decide
    rw [hshifted, UInt32.toNat_one] at hlast
    omega
  · intro hr dividend divisor hd
    apply (divideU64U32_eq_iff dividend divisor remainder hd).mpr
    intro i hi
    have hlt := LongDivision.shifted_lt (n := dividend.toNat) (i := i) (divisor_pos hd)
    have hout : remainder.toNat * 2 ^ (64 - i) = 2 ^ 64 * (remainder.toNat / 2 ^ 63 * 2 ^ (63 - i)) := by
      have hdiv := Nat.div_add_mod remainder.toNat (2 ^ 63)
      rw [hr, Nat.add_zero] at hdiv
      rw [← hdiv, Nat.mul_div_cancel_left _ (Nat.two_pow_pos 63), show 64 - i = 63 - i + 1 by omega,
        Nat.pow_succ 2 (63 - i)]
      ring
    have := two_mul_divisor_le divisor
    rw [hout, Nat.add_mul_mod_self_left, Nat.mod_eq_of_lt (by omega)]

end Math
end Winx
