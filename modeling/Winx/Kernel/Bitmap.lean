import Winx.Lib.Bytes
import Mathlib.Tactic

/-! # Bitmaps

The bitmaps of the kernel: frame pools, virtual addresses, process numbers and
the block and inode maps of a partition. Bit `i` is bit `i % 8` of byte
`i / 8`, and a scan returns the first run of clear bits.
-/

namespace Winx

/-- A bitmap: its length in bytes, and the memory its bits start at. -/
structure Bitmap where
  btmpBytesLen : ℕ
  bits : Bytes

namespace Bitmap

/-- The byte `BITMAP_MASK << bit_odd` that selects one bit. -/
def mask (bitIdx : ℕ) : UInt8 := UInt8.ofNat (2 ^ (bitIdx % 8))

/-- `bitmap_scan_test` -/
def scanTest (btmp : Bitmap) (bitIdx : ℕ) : Bool :=
  btmp.bits (bitIdx / 8) &&& mask bitIdx != 0

/-- `bitmap_set` -/
def set (btmp : Bitmap) (bitIdx : ℕ) (value : Bool) : Bitmap :=
  { btmp with
    bits := fun byteIdx =>
      if byteIdx = bitIdx / 8 then
        if value then btmp.bits byteIdx ||| mask bitIdx else btmp.bits byteIdx &&& ~~~mask bitIdx
      else btmp.bits byteIdx }

/-- The first loop of `bitmap_scan`: step over the set bits. -/
def skipUsed (btmp : Bitmap) : ℕ → ℕ → ℕ
  | 0, areaStart => areaStart
  | fuel + 1, areaStart =>
    if btmp.scanTest areaStart = true ∧ areaStart / 8 < btmp.btmpBytesLen then
      btmp.skipUsed fuel (areaStart + 1)
    else areaStart

/-- The second loop of `bitmap_scan`: grow the run of clear bits up to `cnt`. The result is
`none` when the run meets the end of the bitmap. -/
def growArea (btmp : Bitmap) (areaStart cnt : ℕ) : ℕ → ℕ → Option ℕ
  | 0, areaSize => some areaSize
  | fuel + 1, areaSize =>
    if areaSize < cnt then
      if (areaStart + areaSize) / 8 < btmp.btmpBytesLen then
        if btmp.scanTest (areaStart + areaSize) = false then
          btmp.growArea areaStart cnt fuel (areaSize + 1)
        else some areaSize
      else none
    else some areaSize

/-- The outer loop of `bitmap_scan`. -/
def scanFrom (btmp : Bitmap) (cnt : ℕ) : ℕ → ℕ → Option ℕ
  | 0, _ => none
  | fuel + 1, areaStart =>
    let areaStart := btmp.skipUsed (8 * btmp.btmpBytesLen) areaStart
    if btmp.btmpBytesLen ≤ areaStart / 8 then none
    else
      match btmp.growArea areaStart cnt cnt 1 with
      | none => none
      | some areaSize =>
        if areaSize = cnt then some areaStart
        else btmp.scanFrom cnt fuel (areaStart + (areaSize + 1))

/-- `bitmap_scan`, with `none` for its result `-1`. -/
def scan (btmp : Bitmap) (cnt : ℕ) : Option ℕ :=
  btmp.scanFrom cnt (8 * btmp.btmpBytesLen + 1) 0

/-- The loop that sets `cnt` bits from `bitIdx` on. -/
def setRun (btmp : Bitmap) (bitIdx : ℕ) (value : Bool) : ℕ → Bitmap
  | 0 => btmp
  | cnt + 1 => (btmp.setRun bitIdx value cnt).set (bitIdx + cnt) value

variable {btmp : Bitmap} {i j : ℕ}

@[simp] theorem set_btmpBytesLen (v : Bool) : (btmp.set i v).btmpBytesLen = btmp.btmpBytesLen := rfl

theorem testBit_mask (i k : ℕ) : (mask i).toNat.testBit k = decide (k = i % 8) := by
  have hlt : i % 8 < 8 := Nat.mod_lt _ (by omega)
  rw [mask, UInt8.toNat_ofNat', Nat.mod_eq_of_lt (Nat.pow_lt_pow_right (by omega) hlt),
    Nat.testBit_two_pow]
  simp [eq_comm]

/-- A bit is set when it is a set bit of its byte. -/
theorem scanTest_eq_testBit (btmp : Bitmap) (i : ℕ) :
    btmp.scanTest i = (btmp.bits (i / 8)).toNat.testBit (i % 8) := by
  have hone : ∀ k, ((btmp.bits (i / 8) &&& mask i).toNat.testBit k) =
      (decide (k = i % 8) && (btmp.bits (i / 8)).toNat.testBit (i % 8)) := by
    intro k
    rw [UInt8.toNat_and, Nat.testBit_and, testBit_mask]
    by_cases hk : k = i % 8 <;> simp [hk]
  cases hb : (btmp.bits (i / 8)).toNat.testBit (i % 8) with
  | true =>
    have h := hone (i % 8)
    rw [hb] at h
    simp only [scanTest, bne_iff_ne, ne_eq]
    intro h0
    rw [h0] at h
    simp at h
  | false =>
    simp only [scanTest, bne_eq_false_iff_eq]
    apply UInt8.toNat.inj
    apply Nat.eq_of_testBit_eq
    intro k
    rw [hone k, hb]
    simp

/-- Setting a bit changes that bit and no other. -/
theorem scanTest_set (btmp : Bitmap) (i j : ℕ) (v : Bool) :
    (btmp.set i v).scanTest j = if j = i then v else btmp.scanTest j := by
  simp only [scanTest_eq_testBit, set]
  by_cases hbyte : j / 8 = i / 8
  · have hji : j = i ↔ j % 8 = i % 8 := by omega
    cases v <;>
      simp only [hbyte, if_true, Bool.false_eq_true, if_false, UInt8.toNat_or, UInt8.toNat_and,
        UInt8.toNat_not, Nat.testBit_or, Nat.testBit_and, testBit_mask, hji]
    · have hnot : (UInt8.size - 1 - (mask i).toNat).testBit (j % 8) = decide (j % 8 ≠ i % 8) := by
        have h8 : j % 8 < 8 := Nat.mod_lt _ (by omega)
        have hi : (mask i).toNat < 2 ^ 8 := (mask i).toNat_lt
        rw [show UInt8.size - 1 - (mask i).toNat = 2 ^ 8 - ((mask i).toNat + 1) by
          simp only [UInt8.size]; omega, Nat.testBit_two_pow_sub_succ hi, testBit_mask]
        simp [h8]
      rw [hnot]
      by_cases h : j % 8 = i % 8 <;> simp [h]
    · by_cases h : j % 8 = i % 8 <;> simp [h]
  · have : j ≠ i := fun h => hbyte (by rw [h])
    simp [hbyte, this]

/-- A bitmap is its bits. -/
theorem ext_scanTest {btmp' : Bitmap} (hlen : btmp.btmpBytesLen = btmp'.btmpBytesLen)
    (h : ∀ j, btmp.scanTest j = btmp'.scanTest j) : btmp = btmp' := by
  obtain ⟨len, bits⟩ := btmp
  obtain ⟨len', bits'⟩ := btmp'
  obtain rfl : len = len' := hlen
  congr 1
  funext b
  refine UInt8.toNat.inj (Nat.eq_of_testBit_eq fun k => ?_)
  rcases Nat.lt_or_ge k 8 with hk | hk
  · have hj := h (8 * b + k)
    rw [scanTest_eq_testBit, scanTest_eq_testBit] at hj
    have hdiv : (8 * b + k) / 8 = b := by omega
    have hmod : (8 * b + k) % 8 = k := by omega
    rwa [hdiv, hmod] at hj
  · have hpow : 2 ^ 8 ≤ 2 ^ k := Nat.pow_le_pow_right (by decide) hk
    rw [Nat.testBit_lt_two_pow ((bits b).toNat_lt.trans_le hpow),
      Nat.testBit_lt_two_pow ((bits' b).toNat_lt.trans_le hpow)]

/-- Setting a clear bit and clearing it again changes nothing. -/
theorem set_true_set_false (h : btmp.scanTest i = false) : (btmp.set i true).set i false = btmp := by
  refine ext_scanTest rfl fun j => ?_
  rw [scanTest_set, scanTest_set]
  split
  · rename_i hj
    rw [hj, h]
  · rfl

/-- Setting a bit that is set changes nothing. -/
theorem set_of_scanTest (h : btmp.scanTest i = true) : btmp.set i true = btmp := by
  obtain ⟨len, bits⟩ := btmp
  rw [scanTest_eq_testBit] at h
  simp only [set, if_true]
  congr 1
  funext byteIdx
  split
  · rename_i hbyte
    subst hbyte
    refine UInt8.toNat.inj (Nat.eq_of_testBit_eq fun k => ?_)
    rw [UInt8.toNat_or, Nat.testBit_or, testBit_mask]
    by_cases hk : k = i % 8
    · simp [hk, h]
    · simp [hk]
  · rfl

/-- The first loop stops at the next clear bit or at the end, having passed set bits only. -/
theorem skipUsed_spec (btmp : Bitmap) (fuel s : ℕ) (hf : 8 * btmp.btmpBytesLen ≤ s + fuel) :
    s ≤ btmp.skipUsed fuel s ∧ (∀ i, s ≤ i → i < btmp.skipUsed fuel s → btmp.scanTest i = true) ∧
      (btmp.scanTest (btmp.skipUsed fuel s) = false ∨
        btmp.btmpBytesLen ≤ btmp.skipUsed fuel s / 8) := by
  induction fuel generalizing s with
  | zero => exact ⟨le_rfl, fun i h h' => absurd h' (by simpa [skipUsed] using h),
      Or.inr (by simp only [skipUsed]; omega)⟩
  | succ fuel ih =>
    rw [skipUsed]
    split
    · rename_i h
      obtain ⟨hle, hset, hend⟩ := ih (s + 1) (by omega)
      refine ⟨by omega, fun i hi hi' => ?_, hend⟩
      rcases Nat.eq_or_lt_of_le hi with rfl | hlt
      · exact h.1
      · exact hset i hlt hi'
    · rename_i h
      refine ⟨le_rfl, fun i hi hi' => absurd hi' (by omega), ?_⟩
      cases hs : btmp.scanTest s with
      | false => exact Or.inl rfl
      | true => exact Or.inr (by simpa [hs] using h)

/-- Scanning for a single bit returns the bit the first loop stops at. -/
theorem scan_one_eq (btmp : Bitmap) : btmp.scan 1 =
    if btmp.btmpBytesLen ≤ btmp.skipUsed (8 * btmp.btmpBytesLen) 0 / 8 then none
    else some (btmp.skipUsed (8 * btmp.btmpBytesLen) 0) := by
  simp [scan, scanFrom, growArea]

/-- Scanning for a single bit finds the least clear bit. -/
theorem scan_one_eq_some_iff :
    btmp.scan 1 = some i ↔
      i < 8 * btmp.btmpBytesLen ∧ btmp.scanTest i = false ∧ ∀ j < i, btmp.scanTest j = true := by
  obtain ⟨-, hset, hend⟩ := skipUsed_spec btmp (8 * btmp.btmpBytesLen) 0 (by omega)
  rw [scan_one_eq]
  generalize btmp.skipUsed (8 * btmp.btmpBytesLen) 0 = r at hset hend
  constructor
  · intro h
    split_ifs at h with hr
    obtain rfl := Option.some.inj h
    exact ⟨by omega, hend.resolve_right hr, fun j hj => hset j (by omega) hj⟩
  · rintro ⟨hi, hclear, hbelow⟩
    have hri : r ≤ i := by
      by_contra hlt
      have := hset i (by omega) (by omega)
      simp [hclear] at this
    have hir : i ≤ r := by
      by_contra hlt
      have hlt' : r < i := by omega
      rcases hend with h | h
      · simp [hbelow r hlt'] at h
      · omega
    obtain rfl : i = r := le_antisymm hir hri
    rw [if_neg (by omega)]

/-- Scanning for a single bit fails exactly when every bit is set. -/
theorem scan_one_eq_none_iff :
    btmp.scan 1 = none ↔ ∀ i < 8 * btmp.btmpBytesLen, btmp.scanTest i = true := by
  obtain ⟨-, hset, hend⟩ := skipUsed_spec btmp (8 * btmp.btmpBytesLen) 0 (by omega)
  rw [scan_one_eq]
  generalize btmp.skipUsed (8 * btmp.btmpBytesLen) 0 = r at hset hend
  constructor
  · intro h i hi
    split_ifs at h with hr
    exact hset i (by omega) (by omega)
  · intro h
    rw [if_pos]
    rcases hend with hc | hr
    · by_contra hlt
      simp [h r (by omega)] at hc
    · exact hr

/-- How many bits are clear. -/
def freeCnt (btmp : Bitmap) : ℕ :=
  ((Finset.range (8 * btmp.btmpBytesLen)).filter fun i => btmp.scanTest i = false).card

theorem scan_one_eq_none_iff_freeCnt : btmp.scan 1 = none ↔ btmp.freeCnt = 0 := by
  simp [scan_one_eq_none_iff, freeCnt, Finset.filter_eq_empty_iff]

/-- Setting a clear bit leaves one clear bit less. -/
theorem freeCnt_set (hi : i < 8 * btmp.btmpBytesLen) (hclear : btmp.scanTest i = false) :
    (btmp.set i true).freeCnt + 1 = btmp.freeCnt := by
  have hmem : i ∈ (Finset.range (8 * btmp.btmpBytesLen)).filter fun j => btmp.scanTest j = false := by
    simp [hi, hclear]
  have herase : (Finset.range (8 * btmp.btmpBytesLen)).filter
      (fun j => (btmp.set i true).scanTest j = false) =
        ((Finset.range (8 * btmp.btmpBytesLen)).filter fun j => btmp.scanTest j = false).erase i := by
    ext j
    by_cases hj : j = i <;> simp [scanTest_set, hj]
  rw [freeCnt, set_btmpBytesLen, herase, Finset.card_erase_of_mem hmem]
  exact Nat.sub_add_cancel (Finset.card_pos.mpr ⟨i, hmem⟩)

@[simp] theorem setRun_btmpBytesLen (v : Bool) (cnt : ℕ) :
    (btmp.setRun i v cnt).btmpBytesLen = btmp.btmpBytesLen := by
  induction cnt with
  | zero => rfl
  | succ cnt ih => rw [setRun, set_btmpBytesLen, ih]

/-- Setting a run of bits changes those bits and no others. -/
theorem scanTest_setRun (btmp : Bitmap) (i cnt j : ℕ) (v : Bool) :
    (btmp.setRun i v cnt).scanTest j = if i ≤ j ∧ j < i + cnt then v else btmp.scanTest j := by
  induction cnt with
  | zero =>
    rw [setRun, if_neg]
    omega
  | succ cnt ih =>
    rw [setRun, scanTest_set, ih]
    split_ifs <;> first | rfl | omega

/-- The second loop passes clear bits only. -/
theorem growArea_spec {areaStart cnt fuel areaSize r : ℕ}
    (h : btmp.growArea areaStart cnt fuel areaSize = some r) :
    areaSize ≤ r ∧ ∀ j, areaSize ≤ j → j < r →
      btmp.scanTest (areaStart + j) = false ∧ (areaStart + j) / 8 < btmp.btmpBytesLen := by
  induction fuel generalizing areaSize with
  | zero =>
    obtain rfl := Option.some.inj h
    exact ⟨le_rfl, fun j hj hj' => absurd hj' (by omega)⟩
  | succ fuel ih =>
    rw [growArea] at h
    split at h
    · split at h
      · rename_i hlen
        split at h
        · rename_i hclear
          obtain ⟨hle, hrun⟩ := ih h
          refine ⟨by omega, fun j hj hj' => ?_⟩
          rcases Nat.eq_or_lt_of_le hj with rfl | hlt
          · exact ⟨hclear, hlen⟩
          · exact hrun j hlt hj'
        · obtain rfl := Option.some.inj h
          exact ⟨le_rfl, fun j hj hj' => absurd hj' (by omega)⟩
      · cases h
    · obtain rfl := Option.some.inj h
      exact ⟨le_rfl, fun j hj hj' => absurd hj' (by omega)⟩

/-- A scan returns a run of clear bits inside of the bitmap. -/
theorem scan_eq_some {cnt : ℕ} (h : btmp.scan cnt = some i) :
    ∀ j < cnt, btmp.scanTest (i + j) = false ∧ i + j < 8 * btmp.btmpBytesLen := by
  have hfrom : ∀ fuel s, btmp.scanFrom cnt fuel s = some i →
      ∀ j < cnt, btmp.scanTest (i + j) = false ∧ i + j < 8 * btmp.btmpBytesLen := by
    intro fuel
    induction fuel with
    | zero => nofun
    | succ fuel ih =>
      intro s hs j hj
      rw [scanFrom] at hs
      obtain ⟨-, -, hend⟩ := skipUsed_spec btmp (8 * btmp.btmpBytesLen) s (by omega)
      generalize btmp.skipUsed (8 * btmp.btmpBytesLen) s = r at hs hend
      split at hs
      · cases hs
      · rename_i hlen
        split at hs
        · cases hs
        · rename_i areaSize hgrow
          obtain ⟨-, hrun⟩ := growArea_spec hgrow
          split at hs
          · rename_i hcnt
            obtain rfl := Option.some.inj hs
            rcases Nat.eq_zero_or_pos j with rfl | hpos
            · exact ⟨hend.resolve_right hlen, by omega⟩
            · obtain ⟨hclear, hlt⟩ := hrun j hpos (hcnt ▸ hj)
              exact ⟨hclear, by omega⟩
          · exact ih _ hs j hj
  exact hfrom _ _ h

end Bitmap

end Winx
