import Winx.Kernel.Bitmap
import Winx.Kernel.Fault
import Winx.Lib.Word

/-! # First fit

`bitmap_scan` counts in 32-bit words. As long as its result can name all bits it finds
the first run of clear bits inside of the bitmap, whatever lies behind it: the bit
that ends a run which is too short is in all the runs that are passed over.
-/

namespace Winx

namespace Bitmap

variable {btmp : Bitmap} {cnt s : ℕ}

/-! ## The loops on words -/

/-- The loop of `bitmap_scan` over set bits. It looks at a bit before it looks at the length. -/
def bitmapScanSkip (bitmap : Bitmap) : ℕ → UInt32 → Except Fault UInt32
  | 0, _ => throw .diverged
  | fuel + 1, areaStart =>
    if bitmap.scanTest areaStart.toNat = true ∧ (areaStart / 8).toNat < bitmap.btmpBytesLen then
      bitmapScanSkip bitmap fuel (areaStart + 1)
    else pure areaStart

/-- The loop of `bitmap_scan` over clear bits: `none` where the function returns `-1`. -/
def bitmapScanGrow (bitmap : Bitmap) (areaStart cnt : UInt32) :
    ℕ → UInt32 → Except Fault (Option UInt32)
  | 0, _ => throw .diverged
  | fuel + 1, areaSize =>
    if areaSize < cnt then
      if ((areaStart + areaSize) / 8).toNat < bitmap.btmpBytesLen then
        if bitmap.scanTest (areaStart + areaSize).toNat = false then
          bitmapScanGrow bitmap areaStart cnt fuel (areaSize + 1)
        else pure (some areaSize)
      else pure none
    else pure (some areaSize)

/-- The outer loop of `bitmap_scan`. -/
def bitmapScanLoop (bitmap : Bitmap) (cnt : UInt32) (fuel : ℕ) : ℕ → UInt32 → Except Fault Int
  | 0, _ => throw .diverged
  | turns + 1, areaStart => do
    let areaStart ← bitmapScanSkip bitmap fuel areaStart
    if (areaStart / 8).toNat ≥ bitmap.btmpBytesLen then pure (-1)
    else
      match ← bitmapScanGrow bitmap areaStart cnt fuel 1 with
      | none => pure (-1)
      | some areaSize =>
        if areaSize = cnt then pure areaStart.toBitVec.toInt
        else bitmapScanLoop bitmap cnt fuel turns (areaStart + (areaSize + 1))

/-- `bitmap_scan` -/
def bitmapScan (bitmap : Bitmap) (cnt : UInt32) (fuel : ℕ) : Except Fault Int :=
  bitmapScanLoop bitmap cnt fuel fuel 0

/-! ## Runs of clear bits -/

/-- The bits of a run are inside of the bitmap and clear. -/
def Fits (btmp : Bitmap) (cnt s : ℕ) : Prop :=
  ∀ j < cnt, s + j < 8 * btmp.btmpBytesLen ∧ btmp.scanTest (s + j) = false

/-- The first run of clear bits. -/
def FirstFit (btmp : Bitmap) (cnt s : ℕ) : Prop := btmp.Fits cnt s ∧ ∀ t < s, ¬ btmp.Fits cnt t

theorem not_fits_of_used {i : ℕ} (hle : s ≤ i) (hlt : i < s + cnt) (hused : btmp.scanTest i = true) :
    ¬ btmp.Fits cnt s := by
  intro h
  obtain ⟨-, hclear⟩ := h (i - s) (by omega)
  rw [Nat.add_sub_cancel' hle, hused] at hclear
  cases hclear

theorem not_fits_of_end (hcnt : 0 < cnt) (h : 8 * btmp.btmpBytesLen < s + cnt) : ¬ btmp.Fits cnt s := by
  intro hfits
  obtain ⟨hlt, -⟩ := hfits (cnt - 1) (by omega)
  omega

/-- Where the loop over clear bits ends: at the end of the bitmap, with enough of them, or at a set
bit. -/
theorem growArea_end (btmp : Bitmap) (areaStart fuel : ℕ) {areaSize : ℕ} (hle : areaSize ≤ cnt)
    (hfuel : cnt ≤ areaSize + fuel) :
    (btmp.growArea areaStart cnt fuel areaSize = none → 8 * btmp.btmpBytesLen < areaStart + cnt) ∧
    ∀ k, btmp.growArea areaStart cnt fuel areaSize = some k → k = cnt ∨
      k < cnt ∧ areaStart + k < 8 * btmp.btmpBytesLen ∧ btmp.scanTest (areaStart + k) = true := by
  induction fuel generalizing areaSize with
  | zero =>
    rw [growArea]
    refine ⟨by simp, fun k hk => .inl ?_⟩
    have := Option.some.inj hk
    omega
  | succ fuel ih =>
    rw [growArea]
    split
    · rename_i hlt
      split
      · rename_i hin
        split
        · exact ih (by omega) (by omega)
        · rename_i hused
          refine ⟨by simp, fun k hk => .inr ?_⟩
          obtain rfl := Option.some.inj hk
          exact ⟨hlt, by omega, Bool.not_eq_false _ ▸ hused⟩
      · exact ⟨fun _ => by omega, by simp⟩
    · refine ⟨by simp, fun k hk => .inl ?_⟩
      have := Option.some.inj hk
      omega

/-- The search goes on where no run before fits. -/
theorem scanFrom_firstFit (hcnt : 0 < cnt) (fuel : ℕ) (hbelow : ∀ t < s, ¬ btmp.Fits cnt t)
    (hfuel : 8 * btmp.btmpBytesLen < s + fuel) :
    (btmp.scanFrom cnt fuel s = none → ∀ t, ¬ btmp.Fits cnt t) ∧
      ∀ i, btmp.scanFrom cnt fuel s = some i → btmp.FirstFit cnt i := by
  induction fuel generalizing s with
  | zero =>
    refine ⟨fun _ t => ?_, fun i hi => by cases hi⟩
    rcases Nat.lt_or_ge t s with hlt | hge
    · exact hbelow t hlt
    · exact not_fits_of_end hcnt (by omega)
  | succ fuel ih =>
    obtain ⟨hle, hset, hend⟩ := skipUsed_spec btmp (8 * btmp.btmpBytesLen) s (by omega)
    rw [scanFrom]
    generalize btmp.skipUsed (8 * btmp.btmpBytesLen) s = r at hle hset hend
    have hbelow' : ∀ t < r, ¬ btmp.Fits cnt t := by
      intro t ht
      rcases Nat.lt_or_ge t s with hlt | hge
      · exact hbelow t hlt
      · exact not_fits_of_used le_rfl (by omega) (hset t hge ht)
    -- past the last start there is no room
    have hnone (h : 8 * btmp.btmpBytesLen < r + cnt) (t : ℕ) : ¬ btmp.Fits cnt t := by
      rcases Nat.lt_or_ge t r with hlt | hge
      · exact hbelow' t hlt
      · exact not_fits_of_end hcnt (by omega)
    split
    · exact ⟨fun _ => hnone (by omega), by simp⟩
    · rename_i hin
      have hclear := hend.resolve_right hin
      obtain ⟨hmeets, hstops⟩ := growArea_end btmp r cnt hcnt (by omega)
      cases hgrow : btmp.growArea r cnt cnt 1 with
      | none => exact ⟨fun _ => hnone (hmeets hgrow), by simp⟩
      | some k =>
        obtain ⟨hk, hrun⟩ := growArea_spec hgrow
        dsimp only
        rcases hstops k hgrow with rfl | ⟨hlt, -, hused⟩
        · rw [if_pos rfl]
          refine ⟨by simp, fun i hi => ?_⟩
          obtain rfl := Option.some.inj hi
          refine ⟨fun j hj => ?_, hbelow'⟩
          rcases Nat.eq_zero_or_pos j with rfl | hpos
          · exact ⟨by omega, hclear⟩
          · obtain ⟨hclear', hlt'⟩ := hrun j hpos hj
            exact ⟨by omega, hclear'⟩
        · rw [if_neg hlt.ne]
          refine ih (fun t ht => ?_) (by omega)
          rcases Nat.lt_or_ge t r with hlt' | hge
          · exact hbelow' t hlt'
          · exact not_fits_of_used (by omega) (by omega) hused

/-- The scan is first fit. -/
theorem scan_firstFit (btmp : Bitmap) (hcnt : 0 < cnt) :
    (btmp.scan cnt = none → ∀ t, ¬ btmp.Fits cnt t) ∧
      ∀ i, btmp.scan cnt = some i → btmp.FirstFit cnt i :=
  scanFrom_firstFit hcnt _ (fun t ht => absurd ht t.not_lt_zero) (by omega)

/-! ## Words do not wrap around -/

variable {w v : UInt32} {fuel m : ℕ}

theorem toNat_div_eight (w : UInt32) : (w / 8).toNat = w.toNat / 8 := by
  rw [UInt32.toNat_div]
  rfl

theorem bitmapScanSkip_eq (hbits : 8 * btmp.btmpBytesLen < 2 ^ 31)
    (hle : w.toNat ≤ 8 * btmp.btmpBytesLen) (hfuel : 8 * btmp.btmpBytesLen < w.toNat + fuel)
    (hm : 8 * btmp.btmpBytesLen ≤ w.toNat + m) : ∃ r, btmp.bitmapScanSkip fuel w = .ok r ∧
      r.toNat = btmp.skipUsed m w.toNat ∧ r.toNat ≤ 8 * btmp.btmpBytesLen := by
  induction fuel generalizing w m with
  | zero => omega
  | succ fuel ih =>
    rw [bitmapScanSkip, toNat_div_eight]
    by_cases hset : btmp.scanTest w.toNat = true ∧ w.toNat / 8 < btmp.btmpBytesLen
    · obtain ⟨m, rfl⟩ := Nat.exists_eq_add_one.mpr (show 0 < m by omega)
      have hnext : (w + 1).toNat = w.toNat + 1 := by
        rw [Word.toNat_add (by rw [UInt32.toNat_one]; omega), UInt32.toNat_one]
      have ih := ih (w := w + 1) (m := m) (by omega) (by omega) (by omega)
      rw [hnext] at ih
      rw [if_pos hset, skipUsed, if_pos hset]
      exact ih
    · rw [if_neg hset]
      refine ⟨w, rfl, ?_, hle⟩
      cases m with
      | zero => rfl
      | succ m => rw [skipUsed, if_neg hset]

theorem bitmapScanGrow_eq (cnt : UInt32) (fuel : ℕ) (hbits : 8 * btmp.btmpBytesLen < 2 ^ 31)
    (hle : w.toNat + v.toNat ≤ 8 * btmp.btmpBytesLen)
    (hfuel : 8 * btmp.btmpBytesLen < w.toNat + v.toNat + fuel) (hm : cnt.toNat ≤ v.toNat + m) :
    ∃ r, btmp.bitmapScanGrow w cnt fuel v = .ok r ∧
      r.map UInt32.toNat = btmp.growArea w.toNat cnt.toNat m v.toNat := by
  induction fuel generalizing v m with
  | zero => omega
  | succ fuel ih =>
    have hsum : (w + v).toNat = w.toNat + v.toNat := Word.toNat_add (by omega)
    rw [bitmapScanGrow, toNat_div_eight, hsum]
    by_cases hlt : v < cnt
    · have hlt' := UInt32.lt_iff_toNat_lt.mp hlt
      obtain ⟨m, rfl⟩ := Nat.exists_eq_add_one.mpr (show 0 < m by omega)
      rw [if_pos hlt, growArea, if_pos hlt']
      by_cases hin : (w.toNat + v.toNat) / 8 < btmp.btmpBytesLen
      · rw [if_pos hin, if_pos hin]
        by_cases hclear : btmp.scanTest (w.toNat + v.toNat) = false
        · have hnext : (v + 1).toNat = v.toNat + 1 := by
            rw [Word.toNat_add (by rw [UInt32.toNat_one]; omega), UInt32.toNat_one]
          have ih := ih (v := v + 1) (m := m) (by omega) (by omega) (by omega)
          rw [hnext] at ih
          rw [if_pos hclear, if_pos hclear]
          exact ih
        · rw [if_neg hclear, if_neg hclear]
          exact ⟨some v, rfl, rfl⟩
      · rw [if_neg hin, if_neg hin]
        exact ⟨none, rfl, rfl⟩
    · have hlt' : ¬ v.toNat < cnt.toNat := fun h => hlt (UInt32.lt_iff_toNat_lt.mpr h)
      rw [if_neg hlt]
      refine ⟨some v, rfl, ?_⟩
      cases m with
      | zero => rfl
      | succ m =>
        rw [growArea, if_neg hlt']
        rfl

theorem ok_bind {α β : Type} (a : α) (f : α → Except Fault β) : (Except.ok a >>= f) = f a := rfl

/-- The result on words is the one on numbers. -/
theorem bitmapScanLoop_eq {cnt : UInt32} (hbits : 8 * btmp.btmpBytesLen < 2 ^ 31)
    (hfuel : 8 * btmp.btmpBytesLen < fuel) (turns : ℕ) (hle : w.toNat ≤ 8 * btmp.btmpBytesLen)
    (hturns : 8 * btmp.btmpBytesLen < w.toNat + turns) (hm : 8 * btmp.btmpBytesLen < w.toNat + m)
    (hcnt : 0 < cnt.toNat) : btmp.bitmapScanLoop cnt fuel turns w =
      .ok ((btmp.scanFrom cnt.toNat m w.toNat).elim (-1) fun i => (i : Int)) := by
  induction turns generalizing w m with
  | zero => omega
  | succ turns ih =>
    obtain ⟨m, rfl⟩ := Nat.exists_eq_add_one.mpr (show 0 < m by omega)
    obtain ⟨r, hskip, hr, hrle⟩ := bitmapScanSkip_eq (m := 8 * btmp.btmpBytesLen) hbits hle
      (show 8 * btmp.btmpBytesLen < w.toNat + fuel by omega) (by omega)
    obtain ⟨hge, -, -⟩ := skipUsed_spec btmp (8 * btmp.btmpBytesLen) w.toNat (by omega)
    rw [← hr] at hge
    rw [bitmapScanLoop, hskip, scanFrom, ← hr, ok_bind, toNat_div_eight]
    by_cases hin : btmp.btmpBytesLen ≤ r.toNat / 8
    · rw [if_pos hin, if_pos hin]
      rfl
    · obtain ⟨size, hgrow, hsize⟩ := bitmapScanGrow_eq (w := r) (v := 1) (m := cnt.toNat) cnt fuel
        hbits (by rw [UInt32.toNat_one]; omega) (by omega) (by omega)
      rw [UInt32.toNat_one] at hsize
      rw [if_neg hin, if_neg hin, hgrow, ← hsize, ok_bind]
      cases size with
      | none => rfl
      | some size =>
        rw [Option.map_some]
        dsimp only
        by_cases hall : size = cnt
        · rw [if_pos hall, if_pos (congrArg UInt32.toNat hall)]
          have hint : r.toBitVec.toInt = r.toNat := BitVec.toInt_eq_toNat_of_lt (by
            change 2 * r.toNat < 2 ^ 32
            omega)
          rw [hint]
          rfl
        · have hall' : size.toNat ≠ cnt.toNat := fun h => hall (UInt32.toNat_inj.mp h)
          obtain ⟨-, hstops⟩ := growArea_end btmp r.toNat cnt.toNat hcnt
            (show cnt.toNat ≤ 1 + cnt.toNat by omega)
          obtain ⟨-, hlt, -⟩ := (hstops size.toNat hsize.symm).resolve_left hall'
          have hone : (size + 1).toNat = size.toNat + 1 := by
            rw [Word.toNat_add (by rw [UInt32.toNat_one]; omega), UInt32.toNat_one]
          have hnext : (r + (size + 1)).toNat = r.toNat + (size.toNat + 1) := by
            rw [Word.toNat_add (by omega), hone]
          rw [if_neg hall, if_neg hall', ← hnext]
          exact ih (by omega) (by omega) (by omega)

theorem bitmapScan_eq {cnt : UInt32} (hbits : 8 * btmp.btmpBytesLen < 2 ^ 31) (hcnt : cnt ≠ 0)
    (hfuel : 8 * btmp.btmpBytesLen < fuel) :
    btmp.bitmapScan cnt fuel = .ok ((btmp.scan cnt.toNat).elim (-1) fun i => (i : Int)) :=
  bitmapScanLoop_eq hbits hfuel fuel (Nat.zero_le _) (by omega) (by rw [UInt32.toNat_zero]; omega)
    (Word.ne_zero_iff.mp hcnt)

/-- `bitmap_scan` ends with the first run of clear bits inside of the bitmap, or with -1 if there is
none. -/
theorem bitmapScan_firstFit (btmp : Bitmap) (cnt : UInt32) (hbits : 8 * btmp.btmpBytesLen < 2 ^ 31)
    (hcnt : cnt ≠ 0) : ∃ r, (∀ fuel, 8 * btmp.btmpBytesLen < fuel → btmp.bitmapScan cnt fuel = .ok r) ∧
      (r = -1 ↔ ∀ s, ¬ btmp.Fits cnt.toNat s) ∧
      (r ≠ -1 → ∃ s : ℕ, r = s ∧ btmp.FirstFit cnt.toNat s) := by
  refine ⟨_, fun fuel hfuel => bitmapScan_eq hbits hcnt hfuel, ?_⟩
  obtain ⟨hnone, hsome⟩ := scan_firstFit btmp (Word.ne_zero_iff.mp hcnt)
  cases hscan : btmp.scan cnt.toNat with
  | none =>
    rw [hscan] at hnone
    exact ⟨iff_of_true rfl (hnone rfl), fun hne => absurd rfl hne⟩
  | some i =>
    have hfit := hsome i hscan
    have hne : (i : Int) ≠ -1 := by omega
    exact ⟨iff_of_false hne fun hall => hall i hfit.1, fun _ => ⟨i, rfl, hfit⟩⟩

/-- Two bytes whose first clear run is too short for three bits. -/
theorem bitmapScan_firstFit_three :
    ∃ r, (∀ fuel, 16 < fuel → Bitmap.bitmapScan ⟨2, fun x => if x = 0 then 0xf9 else 0xf1⟩ 3 fuel = .ok r) ∧
      (r ≠ -1 → ∃ s : ℕ, r = s ∧ Bitmap.FirstFit ⟨2, fun x => if x = 0 then 0xf9 else 0xf1⟩ 3 s) := by
  obtain ⟨r, hrun, -, hfit⟩ :=
    bitmapScan_firstFit ⟨2, fun x => if x = 0 then 0xf9 else 0xf1⟩ 3 (by decide) (by decide)
  exact ⟨r, hrun, hfit⟩

end Bitmap

end Winx
