import Mathlib.Data.Nat.Digits.Lemmas
import Winx.Impl.String
import Winx.Lib.Word

/-! # Formatted printing

`vsprintf` goes through the format and writes the literal characters and the renderings of
the arguments one after the other. Only the string conversion stores a zero behind what it
writes; nothing else ends the text, so that the result is right exactly when the last
conversion is one of a string or the destination happened to hold a zero there.
-/

namespace Winx

namespace Stdio

/-- A string in memory: its characters up to the zero. -/
structure CStr where
  chars : List UInt8
  no_zero : 0 ∉ chars

/-- What a `va_list` points to. -/
inductive Arg
  | ptr (s : CStr)
  | char (c : UInt8)
  | int (w : UInt32)

/-- The last digit of `itoa`. -/
def digit (m : UInt32) : UInt8 := if m < 10 then (m + 0x30).toUInt8 else (m - 10 + 0x41).toUInt8

/-- `itoa`, with the pointer before and after. -/
def itoa (size : ℕ) : ℕ → UInt32 → ℕ → UInt8 → BufM ℕ
  | 0, _, _, _ => throw .diverged
  | fuel + 1, value, bufPtr, base => do
    inBounds (base ≠ 0)
    let m := value % base.toUInt32
    let i := value / base.toUInt32
    let bufPtr ← if i ≠ 0 then itoa size fuel i bufPtr base else pure bufPtr
    Str.store size bufPtr (digit m)
    return bufPtr + 1

/-- A conversion and its argument, with the pointer before and after. An argument of another
kind than the conversion's is not read. -/
def convert (size : ℕ) (indexChar : UInt8) (arg : Arg) (bufPtr : ℕ) : BufM ℕ :=
  match indexChar, arg with
  | 0x73, .ptr argStr => do
    Str.strcpy size bufPtr argStr.chars
    return bufPtr + argStr.chars.length
  | 0x63, .char c => do
    Str.store size bufPtr c
    return bufPtr + 1
  | 0x64, .int argInt => do
    if argInt.toBitVec.toInt < 0 then
      Str.store size bufPtr 0x2d
      itoa size 32 (0 - argInt) (bufPtr + 1) 10
    else itoa size 32 argInt bufPtr 10
  | 0x78, .int argInt => itoa size 32 argInt bufPtr 16
  | _, _ => throw .badPointer

/-- The characters that take an argument. -/
def Converts (c : UInt8) : Prop := c = 0x73 ∨ c = 0x63 ∨ c = 0x64 ∨ c = 0x78

instance : DecidablePred Converts := fun c =>
  inferInstanceAs (Decidable (c = 0x73 ∨ c = 0x63 ∨ c = 0x64 ∨ c = 0x78))

/-- The loop of `vsprintf`: a character behind `%` that is no conversion is met again. -/
def vsprintfLoop (size : ℕ) : List UInt8 → List Arg → ℕ → BufM ℕ
  | [], _, bufPtr => return bufPtr
  | c :: format, ap, bufPtr =>
    if c ≠ 0x25 then do
      Str.store size bufPtr c
      vsprintfLoop size format ap (bufPtr + 1)
    else
      match format with
      | [] => return bufPtr
      | indexChar :: format' =>
        if Converts indexChar then
          match ap with
          | [] => throw .badPointer
          | arg :: ap => do
            let bufPtr ← convert size indexChar arg bufPtr
            vsprintfLoop size format' ap bufPtr
        else vsprintfLoop size (indexChar :: format') ap bufPtr

/-- `vsprintf` with a destination of `size` bytes. -/
def vsprintf (size : ℕ) (format : CStr) (ap : List Arg) : BufM ℕ := do
  let _ ← vsprintfLoop size format.chars ap 0
  Str.strlen size 0

/-! ## Numerals -/

/-- The numeral of a number: its digits, and one zero for 0. -/
def numeral (base n : ℕ) : List UInt8 :=
  if n = 0 then [0x30] else ((Nat.digits base n).map fun m => digit (UInt32.ofNat m)).reverse

/-- The numeral of a signed word. -/
def signedNumeral (w : UInt32) : List UInt8 :=
  if w.toBitVec.toInt < 0 then 0x2d :: numeral 10 w.toBitVec.toInt.natAbs else numeral 10 w.toNat

variable {size p base n : ℕ} {b : Bytes} {w : UInt32}

theorem numeral_of_lt (h : n < base) : numeral base n = [digit (UInt32.ofNat n)] := by
  unfold numeral
  split
  · rename_i h0
    rw [h0]
    rfl
  · rename_i h0
    rw [Nat.digits_of_lt base n h0 h]
    rfl

/-- The last digit comes off. -/
theorem numeral_of_le (hbase : 1 < base) (h : base ≤ n) :
    numeral base n = numeral base (n / base) ++ [digit (UInt32.ofNat (n % base))] := by
  have hn : 0 < n := by omega
  have hdiv : n / base ≠ 0 := (Nat.div_pos h (by omega)).ne'
  rw [numeral, if_neg hn.ne', numeral, if_neg hdiv, Nat.digits_def' hbase hn, List.map_cons, List.reverse_cons]

theorem digit_ne_zero {m : ℕ} (h : m < 16) : digit (UInt32.ofNat m) ≠ 0 := by
  revert m
  decide

theorem numeral_ne_nil (base n : ℕ) : numeral base n ≠ [] := by
  unfold numeral
  split
  · exact List.cons_ne_nil _ _
  · rename_i h0
    rw [ne_eq, List.reverse_eq_nil_iff, List.map_eq_nil_iff, Nat.digits_eq_nil_iff_eq_zero]
    exact h0

theorem signedNumeral_ne_nil (w : UInt32) : signedNumeral w ≠ [] := by
  unfold signedNumeral
  split
  · exact List.cons_ne_nil _ _
  · exact numeral_ne_nil _ _

/-- A numeral has no zero byte. -/
theorem zero_not_mem_numeral (hbase : 1 < base) (hle : base ≤ 16) : 0 ∉ numeral base n := by
  unfold numeral
  split
  · decide
  · rw [List.mem_reverse, List.mem_map]
    rintro ⟨m, hm, hdigit⟩
    exact digit_ne_zero ((Nat.digits_lt_base hbase hm).trans_le hle) hdigit

theorem zero_not_mem_signedNumeral (w : UInt32) : 0 ∉ signedNumeral w := by
  unfold signedNumeral
  split
  · rw [List.mem_cons, not_or]
    exact ⟨by decide, zero_not_mem_numeral (by norm_num) (by norm_num)⟩
  · exact zero_not_mem_numeral (by norm_num) (by norm_num)

variable {fuel : ℕ} {b8 : UInt8}

theorem mod_toUInt32 (w : UInt32) (b8 : UInt8) :
    w % b8.toUInt32 = UInt32.ofNat (w.toNat % b8.toNat) := by
  apply Word.eq_ofNat
  rw [UInt32.toNat_mod, UInt8.toNat_toUInt32]

theorem toNat_div_toUInt32 (w : UInt32) (b8 : UInt8) : (w / b8.toUInt32).toNat = w.toNat / b8.toNat := by
  rw [UInt32.toNat_div, UInt8.toNat_toUInt32]

/-- One call of `itoa`. -/
theorem itoa_succ (hbase : 1 < b8.toNat) : itoa size (fuel + 1) w p b8 = (do
    let p ← if w / b8.toUInt32 ≠ 0 then itoa size fuel (w / b8.toUInt32) p b8 else pure p
    Str.store size p (digit (UInt32.ofNat (w.toNat % b8.toNat)))
    return p + 1) := by
  have hne : b8 ≠ 0 := by
    rintro rfl
    exact absurd hbase (by decide)
  rw [itoa, inBounds, if_pos hne, mod_toUInt32]
  rfl

/-- The last call of `itoa`. -/
theorem itoa_of_lt (hbase : 1 < b8.toNat) (hlt : w.toNat < b8.toNat) (hsize : p < size) :
    itoa size (fuel + 1) w p b8 b = .ok (p + 1, b.put p [digit (UInt32.ofNat w.toNat)]) := by
  have hzero : w / b8.toUInt32 = 0 :=
    UInt32.toNat_inj.mp ((toNat_div_toUInt32 w b8).trans (Nat.div_eq_of_lt hlt))
  rw [itoa_succ hbase, if_neg (not_not.mpr hzero), pure_bind, Nat.mod_eq_of_lt hlt]
  exact Exec.bind_eq_ok (Str.store_eq hsize _ b)

/-- `itoa` writes the numeral. -/
theorem itoa_eq (hbase : 1 < b8.toNat) (hfuel : w.toNat < 2 ^ (fuel + 1))
    (hsize : p + (numeral b8.toNat w.toNat).length ≤ size) :
    itoa size (fuel + 1) w p b8 b =
      .ok (p + (numeral b8.toNat w.toNat).length, b.put p (numeral b8.toNat w.toNat)) := by
  induction fuel generalizing w with
  | zero =>
    have hlt : w.toNat < b8.toNat := by omega
    rw [numeral_of_lt hlt] at hsize ⊢
    exact itoa_of_lt hbase hlt hsize
  | succ fuel ih =>
    by_cases hlt : w.toNat < b8.toNat
    · rw [numeral_of_lt hlt] at hsize ⊢
      exact itoa_of_lt hbase hlt hsize
    · have hle : b8.toNat ≤ w.toNat := Nat.le_of_not_lt hlt
      have hquot := toNat_div_toUInt32 w b8
      have hpos : w / b8.toUInt32 ≠ 0 := by
        rw [Word.ne_zero_iff, hquot]
        exact Nat.div_pos hle (by omega)
      have hhalf : w.toNat / b8.toNat ≤ w.toNat / 2 := Nat.div_le_div_left hbase (by omega)
      rw [numeral_of_le hbase hle, List.length_append, List.length_singleton] at hsize
      have ih := ih (w := w / b8.toUInt32) (by rw [hquot, Nat.pow_succ] at *; omega) (by rw [hquot]; omega)
      rw [hquot] at ih
      rw [itoa_succ hbase, if_pos hpos, Exec.bind_eq_ok ih, numeral_of_le hbase hle, List.length_append,
        List.length_singleton, Bytes.put_append, ← Nat.add_assoc]
      exact Exec.bind_eq_ok (Str.store_eq (by omega) _ _)

/-- What a character of a numeral stands for. -/
def digitValue (c : UInt8) : ℕ := if c ≤ 0x39 then c.toNat - 0x30 else c.toNat - 0x41 + 10

/-- The canonical text of a number: digits of the base, the most significant first, and no zero in
front of others, from which the number can be read back. -/
structure IsNumeral (base n : ℕ) (text : List UInt8) : Prop where
  digits : ∀ c ∈ text, (0x30 ≤ c ∧ c ≤ 0x39 ∨ 0x41 ≤ c ∧ c ≤ 0x46) ∧ digitValue c < base
  nonempty : text ≠ []
  leading : text.head? = some 0x30 → text = [0x30]
  value : Nat.ofDigits base (text.reverse.map digitValue) = n

theorem digit_spec {m : ℕ} (h : m < 16) :
    (0x30 ≤ digit (UInt32.ofNat m) ∧ digit (UInt32.ofNat m) ≤ 0x39 ∨
      0x41 ≤ digit (UInt32.ofNat m) ∧ digit (UInt32.ofNat m) ≤ 0x46) ∧
    digitValue (digit (UInt32.ofNat m)) = m := by
  revert m
  decide

theorem isNumeral_zero (hbase : 1 < base) : IsNumeral base 0 [0x30] where
  digits c hc := by
    obtain rfl := List.mem_singleton.mp hc
    exact ⟨.inl ⟨by decide, by decide⟩, Nat.zero_lt_of_lt hbase⟩
  nonempty := List.cons_ne_nil _ _
  leading _ := rfl
  value := by
    rw [List.reverse_singleton, List.map_singleton, Nat.ofDigits_singleton]
    rfl

/-- The numeral is the canonical text. -/
theorem isNumeral_numeral (hbase : 1 < base) (hle : base ≤ 16) (n : ℕ) :
    IsNumeral base n (numeral base n) := by
  by_cases hn : n = 0
  · rw [hn, numeral, if_pos rfl]
    exact isNumeral_zero hbase
  have hlt {m : ℕ} (hm : m ∈ Nat.digits base n) : m < 16 := (Nat.digits_lt_base hbase hm).trans_le hle
  have hvalue : (Nat.digits base n).map (fun m => digitValue (digit (UInt32.ofNat m))) = Nat.digits base n :=
    List.map_congr_left (fun m hm => (digit_spec (hlt hm)).2) |>.trans (List.map_id _)
  refine ⟨fun c hc => ?_, numeral_ne_nil base n, fun hzero => ?_, ?_⟩
  all_goals rw [numeral, if_neg hn] at *
  · rw [List.mem_reverse, List.mem_map] at hc
    obtain ⟨m, hm, rfl⟩ := hc
    obtain ⟨hrange, hm'⟩ := digit_spec (hlt hm)
    exact ⟨hrange, hm'.symm ▸ Nat.digits_lt_base hbase hm⟩
  · -- The character in front is the last digit, which is not zero.
    have hne : Nat.digits base n ≠ [] := Nat.digits_ne_nil_iff_ne_zero.mpr hn
    rw [List.head?_reverse, List.getLast?_map, List.getLast?_eq_some_getLast hne, Option.map_some] at hzero
    have hlast := (digit_spec (hlt (List.getLast_mem hne))).2
    rw [Option.some.inj hzero] at hlast
    exact absurd hlast.symm (Nat.getLast_digit_ne_zero base hn)
  · rw [List.reverse_reverse, List.map_map]
    exact (congrArg _ hvalue).trans (Nat.ofDigits_digits base n)

/-- A character of a numeral is the digit it stands for. -/
theorem digit_digitValue (c : UInt8) (h : 0x30 ≤ c ∧ c ≤ 0x39 ∨ 0x41 ≤ c ∧ c ≤ 0x46) :
    digit (UInt32.ofNat (digitValue c)) = c := by
  have hall : ∀ m < 256, (0x30 ≤ UInt8.ofNat m ∧ UInt8.ofNat m ≤ 0x39 ∨
      0x41 ≤ UInt8.ofNat m ∧ UInt8.ofNat m ≤ 0x46) →
        digit (UInt32.ofNat (digitValue (UInt8.ofNat m))) = UInt8.ofNat m := by decide +kernel
  have hc := hall c.toNat c.toNat_lt
  rw [UInt8.ofNat_toNat] at hc
  exact hc h

/-- There is one canonical text only. -/
theorem IsNumeral.unique {text : List UInt8} (h : IsNumeral base n text) (hbase : 1 < base) :
    text = numeral base n := by
  have hvalue := h.value
  by_cases hhead : text.head? = some 0x30
  · have htext := h.leading hhead
    rw [htext, List.reverse_singleton, List.map_singleton, Nat.ofDigits_singleton] at hvalue
    rw [htext, ← hvalue]
    rfl
  have hlt : ∀ m ∈ text.reverse.map digitValue, m < base := by
    intro m hm
    obtain ⟨c, hc, rfl⟩ := List.mem_map.mp hm
    exact (h.digits c (List.mem_reverse.mp hc)).2
  have hlast (hne : text.reverse.map digitValue ≠ []) :
      (text.reverse.map digitValue).getLast hne ≠ 0 := by
    intro hzero
    obtain ⟨c, rest, rfl⟩ := List.exists_cons_of_ne_nil h.nonempty
    obtain ⟨hrange, -⟩ := h.digits c List.mem_cons_self
    have hc := digit_digitValue c hrange
    simp only [List.reverse_cons, List.map_append, List.map_singleton, List.getLast_append_singleton] at hzero
    rw [hzero] at hc
    exact hhead (congrArg some hc.symm)
  have hdigits := Nat.digits_ofDigits base hbase _ hlt hlast
  rw [hvalue] at hdigits
  have hn : n ≠ 0 := by
    rintro rfl
    rw [Nat.digits_zero] at hdigits
    exact h.nonempty (List.reverse_eq_nil_iff.mp (List.map_eq_nil_iff.mp hdigits.symm))
  rw [numeral, if_neg hn, hdigits, List.map_map, ← List.map_reverse, List.reverse_reverse]
  refine (List.map_id _).symm.trans (List.map_congr_left fun c hc => ?_)
  exact (digit_digitValue c (h.digits c hc).1).symm

/-- `itoa` writes the canonical text at the pointer, moves the pointer behind it and changes nothing
else. -/
theorem itoa_isNumeral (value : UInt32) (base : UInt8) (hbase : 2 ≤ base.toNat ∧ base.toNat ≤ 16)
    (b : Bytes) (p : ℕ) : ∃ text, IsNumeral base.toNat value.toNat text ∧
      ∀ size, p + text.length ≤ size → Exec.Returns (itoa size 32 value p base) b fun p' b' =>
        p' = p + text.length ∧ b'.Reads p text ∧
          ∀ i, i < p ∨ p + text.length ≤ i → b' i = b i := by
  refine ⟨numeral base.toNat value.toNat, isNumeral_numeral hbase.1 hbase.2 _, fun size hsize => ?_⟩
  rw [Exec.Returns, Exec.post_of_ok (itoa_eq hbase.1 value.toNat_lt hsize)]
  refine ⟨rfl, Bytes.reads_put, fun i hi => ?_⟩
  rcases hi with hi | hi
  · exact Bytes.put_of_lt hi
  · exact Bytes.put_of_le hi

/-- The largest word in base 16. -/
theorem itoa_isNumeral_max : ∃ text, IsNumeral 16 0xffffffff text ∧
    ∀ size, 3 + text.length ≤ size → Exec.Returns (itoa size 32 0xffffffff 3 16) Bytes.zero fun p' b' =>
      p' = 3 + text.length ∧ b'.Reads 3 text ∧
        ∀ i, i < 3 ∨ 3 + text.length ≤ i → b' i = Bytes.zero i :=
  itoa_isNumeral 0xffffffff 16 (by decide) Bytes.zero 3

/-! ## Formats and their texts -/

/-- An ordinary character of a format, or a conversion with its argument. -/
inductive Item
  | lit (c : UInt8) (h : c ≠ 0 ∧ c ≠ 0x25)
  | str (s : CStr)
  | char (c : UInt8)
  | dec (w : UInt32)
  | hex (w : UInt32)

namespace Item

/-- The characters in the format. -/
def format : Item → List UInt8
  | lit c _ => [c]
  | str _ => [0x25, 0x73]
  | char _ => [0x25, 0x63]
  | dec _ => [0x25, 0x64]
  | hex _ => [0x25, 0x78]

/-- The argument that is passed. -/
def args : Item → List Arg
  | lit _ _ => []
  | str s => [.ptr s]
  | char c => [.char c]
  | dec w => [.int w]
  | hex w => [.int w]

/-- The text that is meant. -/
def rendering : Item → List UInt8
  | lit c _ => [c]
  | str s => s.chars
  | char c => [c]
  | dec w => signedNumeral w
  | hex w => numeral 16 w.toNat

/-- What is stored behind the text. -/
def stop : Item → List UInt8
  | str _ => [0]
  | _ => []

theorem zero_not_mem_format (item : Item) : 0 ∉ item.format := by
  cases item with
  | lit c h => exact fun hmem => h.1 (List.mem_singleton.mp hmem).symm
  | str s => exact (by decide : (0 : UInt8) ∉ [0x25, 0x73])
  | char c => exact (by decide : (0 : UInt8) ∉ [0x25, 0x63])
  | dec w => exact (by decide : (0 : UInt8) ∉ [0x25, 0x64])
  | hex w => exact (by decide : (0 : UInt8) ∉ [0x25, 0x78])

end Item

/-- The format string of some items. -/
def formatOf (items : List Item) : CStr where
  chars := items.flatMap Item.format
  no_zero := by
    rw [List.mem_flatMap]
    rintro ⟨item, -, h0⟩
    exact item.zero_not_mem_format h0

/-- Their arguments. -/
def argsOf (items : List Item) : List Arg := items.flatMap Item.args

/-- Their text. -/
def textOf (items : List Item) : List UInt8 := items.flatMap Item.rendering

/-- The destination after the items are printed from `p` on. -/
def image : List Item → ℕ → Bytes → Bytes
  | [], _, b => b
  | item :: items, p, b => image items (p + item.rendering.length) (b.put p (item.rendering ++ item.stop))

/-- The last item is a string. -/
def EndsInString (items : List Item) : Prop := ∃ s, items.getLast? = some (.str s)

variable {item : Item} {items : List Item} {rest : List UInt8} {ap : List Arg} {s : CStr} {c : UInt8}

/-- A conversion in the loop. -/
theorem vsprintfLoop_convert {arg : Arg} {q : ℕ} {b' : Bytes} (hc : Converts c)
    (h : convert size c arg p b = .ok (q, b')) :
    vsprintfLoop size (0x25 :: c :: rest) (arg :: ap) p b = vsprintfLoop size rest ap q b' := by
  rw [vsprintfLoop, if_neg (not_not.mpr rfl), if_pos hc]
  exact Exec.bind_eq_ok h

theorem convert_str (hsize : p + s.chars.length < size) :
    convert size 0x73 (.ptr s) p b = .ok (p + s.chars.length, b.put p (s.chars ++ [0])) :=
  Exec.bind_eq_ok (Str.strcpy_eq hsize)

theorem convert_char (hsize : p < size) : convert size 0x63 (.char c) p b = .ok (p + 1, b.put p [c]) :=
  Exec.bind_eq_ok (Str.store_eq hsize c b)

theorem convert_hex (hsize : p + (numeral 16 w.toNat).length ≤ size) :
    convert size 0x78 (.int w) p b = .ok (p + (numeral 16 w.toNat).length, b.put p (numeral 16 w.toNat)) :=
  itoa_eq (by decide) w.toNat_lt hsize

/-- The negation wraps to itself for the most negative number, which is its absolute value. -/
theorem toNat_neg (hneg : w.toBitVec.toInt < 0) : (0 - w).toNat = w.toBitVec.toInt.natAbs := by
  have hlt := w.toNat_lt
  have hcond := BitVec.toInt_eq_toNat_cond w.toBitVec
  have hword : w.toBitVec.toNat = w.toNat := rfl
  rw [hword] at hcond
  rw [UInt32.toNat_sub, UInt32.toNat_zero, Nat.add_zero]
  split at hcond
  · omega
  · have hpos : 0 < w.toNat := by omega
    rw [Nat.mod_eq_of_lt (by omega)]
    omega

/-- The sign comes first, also for the most negative number, whose negation wraps to itself. -/
theorem convert_dec (hsize : p + (signedNumeral w).length ≤ size) :
    convert size 0x64 (.int w) p b = .ok (p + (signedNumeral w).length, b.put p (signedNumeral w)) := by
  change (if w.toBitVec.toInt < 0 then (do
      Str.store size p 0x2d
      itoa size 32 (0 - w) (p + 1) 10) else itoa size 32 w p 10) b = _
  unfold signedNumeral at hsize ⊢
  split
  · rename_i hneg
    rw [if_pos hneg, List.length_cons, ← toNat_neg hneg] at hsize
    rw [Exec.bind_eq_ok (Str.store_eq (by omega) _ b), List.length_cons, Bytes.put_cons, ← toNat_neg hneg,
      Nat.add_comm (List.length _) 1, ← Nat.add_assoc]
    exact itoa_eq (by decide) (0 - w).toNat_lt (by change p + 1 + (numeral 10 _).length ≤ size; omega)
  · rename_i hneg
    rw [if_neg hneg] at hsize
    exact itoa_eq (by decide) w.toNat_lt hsize

/-- The loop prints one item. -/
theorem vsprintfLoop_item (item : Item) (hsize : p + item.rendering.length < size) :
    vsprintfLoop size (item.format ++ rest) (item.args ++ ap) p b =
      vsprintfLoop size rest ap (p + item.rendering.length) (b.put p (item.rendering ++ item.stop)) := by
  cases item with
  | lit c h =>
    change vsprintfLoop size (c :: rest) ap p b = _
    rw [vsprintfLoop.eq_def]
    dsimp only
    rw [if_pos h.2]
    exact Exec.bind_eq_ok (Str.store_eq (Nat.lt_of_succ_lt hsize) c b)
  | str s => exact vsprintfLoop_convert (.inl rfl) (convert_str hsize)
  | char c => exact vsprintfLoop_convert (.inr (.inl rfl)) (convert_char (Nat.lt_of_succ_lt hsize))
  | dec w =>
    have hstop : (Item.dec w).rendering ++ (Item.dec w).stop = signedNumeral w := List.append_nil _
    rw [hstop]
    exact vsprintfLoop_convert (.inr (.inr (.inl rfl))) (convert_dec hsize.le)
  | hex w =>
    have hstop : (Item.hex w).rendering ++ (Item.hex w).stop = numeral 16 w.toNat := List.append_nil _
    rw [hstop]
    exact vsprintfLoop_convert (.inr (.inr (.inr rfl))) (convert_hex hsize.le)

/-- The loop prints all items. -/
theorem vsprintfLoop_eq (hsize : p + (textOf items).length < size) :
    vsprintfLoop size (formatOf items).chars (argsOf items) p b =
      .ok (p + (textOf items).length, image items p b) := by
  induction items generalizing p b with
  | nil => rfl
  | cons item items ih =>
    change vsprintfLoop size (item.format ++ (formatOf items).chars) (item.args ++ argsOf items) p b = _
    have htext : textOf (item :: items) = item.rendering ++ textOf items := List.flatMap_cons
    rw [htext, List.length_append] at hsize ⊢
    rw [vsprintfLoop_item item (by omega), ih (by omega), Nat.add_assoc]
    rfl

/-- Nothing before the text is touched. -/
theorem image_of_lt {i : ℕ} (h : i < p) : image items p b i = b i := by
  induction items generalizing p b with
  | nil => rfl
  | cons item items ih =>
    rw [image, ih (Nat.lt_add_right _ h)]
    exact Bytes.put_of_lt h

/-- The whole text is there: what a string stores behind it is overwritten. -/
theorem image_reads : (image items p b).Reads p (textOf items) := by
  induction items generalizing p b with
  | nil => trivial
  | cons item items ih =>
    apply Bytes.reads_append.mpr
    constructor
    · have hput : (b.put p (item.rendering ++ item.stop)).Reads p (item.rendering ++ item.stop) :=
        Bytes.reads_put
      apply (Bytes.reads_append.mp hput).1.congr
      intro i _ hi
      exact image_of_lt hi
    · exact ih

theorem Item.rendering_ne_nil (h : ∀ s, item ≠ .str s) : item.rendering ≠ [] := by
  cases item with
  | lit c _ => exact List.cons_ne_nil _ _
  | str s => exact absurd rfl (h s)
  | char c => exact List.cons_ne_nil _ _
  | dec w => exact signedNumeral_ne_nil w
  | hex w => exact numeral_ne_nil _ _

theorem Item.stop_eq_nil (h : ∀ s, item ≠ .str s) : item.stop = [] := by
  cases item with
  | str s => exact absurd rfl (h s)
  | lit c _ => rfl
  | char c => rfl
  | dec w => rfl
  | hex w => rfl

theorem endsInString_cons (h : items ≠ []) : EndsInString (item :: items) ↔ EndsInString items := by
  obtain ⟨item', items', rfl⟩ := List.exists_cons_of_ne_nil h
  unfold EndsInString
  rw [List.getLast?_cons_cons]

/-- Without a string at its end a text is not empty. -/
theorem textOf_length_pos (h : ¬ EndsInString items) (hnil : items ≠ []) : 0 < (textOf items).length := by
  have hlast : ∀ s, items.getLast hnil ≠ .str s := fun s hs =>
    h ⟨s, (List.getLast?_eq_some_getLast hnil).trans (congrArg some hs)⟩
  rw [List.length_pos_iff, textOf, ne_eq, List.flatMap_eq_nil_iff]
  exact fun hall => Item.rendering_ne_nil hlast (hall _ (List.getLast_mem hnil))

theorem Item.stop_length_le (item : Item) : item.stop.length ≤ 1 := by
  cases item with
  | str s => exact le_refl 1
  | lit c _ => exact Nat.zero_le 1
  | char c => exact Nat.zero_le 1
  | dec w => exact Nat.zero_le 1
  | hex w => exact Nat.zero_le 1

/-- A last string ends the text. -/
theorem image_end (h : EndsInString items) : image items p b (p + (textOf items).length) = 0 := by
  induction items generalizing p b with
  | nil =>
    obtain ⟨s, hs⟩ := h
    cases hs
  | cons item items ih =>
    have htext : textOf (item :: items) = item.rendering ++ textOf items := List.flatMap_cons
    rw [htext, List.length_append, ← Nat.add_assoc]
    by_cases hnil : items = []
    · subst hnil
      obtain ⟨s, hs⟩ := h
      obtain rfl := Option.some.inj hs
      change (b.put p (s.chars ++ [0])) (p + s.chars.length + 0) = 0
      rw [Bytes.put_append]
      exact Bytes.set_self ..
    · exact ih ((endsInString_cons hnil).mp h)

/-- Otherwise the byte behind the text is the one that was there. -/
theorem image_end_of_not (h : ¬ EndsInString items) :
    image items p b (p + (textOf items).length) = b (p + (textOf items).length) := by
  induction items generalizing p b with
  | nil => rfl
  | cons item items ih =>
    have htext : textOf (item :: items) = item.rendering ++ textOf items := List.flatMap_cons
    rw [htext, List.length_append, ← Nat.add_assoc]
    by_cases hnil : items = []
    · subst hnil
      have hitem : ∀ s, item ≠ .str s := by
        rintro s rfl
        exact h ⟨s, rfl⟩
      rw [image, Item.stop_eq_nil hitem, List.append_nil]
      exact Bytes.put_of_le (Nat.le_refl _)
    · have hlast : ¬ EndsInString items := fun hends => h ((endsInString_cons hnil).mpr hends)
      have hpos := textOf_length_pos hlast hnil
      have hstop := item.stop_length_le
      rw [image, ih hlast]
      apply Bytes.put_of_le
      rw [List.length_append]
      omega

theorem zero_not_mem_textOf_iff : 0 ∉ textOf items ↔ ∀ c, .char c ∈ items → c ≠ 0 := by
  rw [textOf, List.mem_flatMap]
  constructor
  · rintro h c hc rfl
    exact h ⟨_, hc, List.mem_singleton_self 0⟩
  · rintro h ⟨item, hitem, h0⟩
    cases item with
    | lit c hc => exact hc.1 (List.mem_singleton.mp h0).symm
    | str s => exact s.no_zero h0
    | char c => exact h c hitem (List.mem_singleton.mp h0).symm
    | dec w => exact zero_not_mem_signedNumeral w h0
    | hex w => exact zero_not_mem_numeral (by norm_num) (le_refl 16) h0

/-- The text, its zero and its length come out right exactly when no zero is printed as a
character and the text either ends in a string or meets a zero in the destination. -/
theorem vsprintf_iff (items : List Item) (b : Bytes) (size : ℕ) (hsize : (textOf items).length < size) :
    Exec.Returns (vsprintf size (formatOf items) (argsOf items)) b (fun len b' =>
        b'.Holds 0 (textOf items) ∧ len = (textOf items).length) ↔
      (∀ c, .char c ∈ items → c ≠ 0) ∧ (EndsInString items ∨ b (textOf items).length = 0) := by
  have hloop := vsprintfLoop_eq (p := 0) (b := b) ((Nat.zero_add _).trans_lt hsize)
  have hreads : (image items 0 b).Reads 0 (textOf items) := image_reads
  rw [vsprintf, Exec.Returns, Exec.post_bind_of_ok hloop, ← zero_not_mem_textOf_iff]
  constructor
  · intro h
    obtain ⟨len, b', hlen, hholds, rfl⟩ := Exec.returns_iff.mp h
    obtain ⟨rfl, str, hstr, h0, heq⟩ := Str.strlen_ensures.of_ok hlen
    have htext : textOf items = str := hholds.reads.unique hstr.reads heq
    refine ⟨htext ▸ h0, ?_⟩
    by_contra hnot
    rw [not_or] at hnot
    have hend := image_end_of_not (p := 0) (b := b) hnot.1
    rw [Nat.zero_add] at hend
    have hzero := hholds.ends
    rw [Nat.zero_add] at hzero
    exact hnot.2 (hend.symm.trans hzero)
  · rintro ⟨h0, hends⟩
    have hend : image items 0 b (0 + (textOf items).length) = 0 := by
      by_cases hstr : EndsInString items
      · exact image_end hstr
      · rw [image_end_of_not hstr, Nat.zero_add]
        exact hends.resolve_left hstr
    have hholds : (image items 0 b).Holds 0 (textOf items) := ⟨hreads, hend⟩
    rw [Exec.post_of_ok (Str.strlen_eq hholds h0 ((Nat.zero_add _).trans_lt hsize))]
    exact ⟨hholds, rfl⟩

/-- The items of `sprintf(hd->name, "sd%c", 'a')`. -/
def diskName : List Item := [.lit 0x73 (by decide), .lit 0x64 (by decide), .char 0x61]

/-- A cleared destination. -/
theorem vsprintf_diskName_cleared :
    Exec.Returns (vsprintf 8 (formatOf diskName) (argsOf diskName)) Bytes.zero fun len b' =>
      b'.Holds 0 (textOf diskName) ∧ len = (textOf diskName).length := by
  apply (vsprintf_iff diskName Bytes.zero 8 (by decide)).mpr
  constructor
  · rintro c hc rfl
    rcases List.mem_cons.mp hc with h | hc
    · cases h
    · rcases List.mem_cons.mp hc with h | hc
      · cases h
      · cases List.mem_singleton.mp hc
  · exact .inr rfl

/-- A destination without a zero: `strlen` runs out of it. -/
theorem vsprintf_diskName_stale :
    ¬ Exec.Returns (vsprintf 8 (formatOf diskName) (argsOf diskName)) (fun _ => 0xff) fun len b' =>
      b'.Holds 0 (textOf diskName) ∧ len = (textOf diskName).length := by
  have hrun : vsprintf 8 (formatOf diskName) (argsOf diskName) (fun _ => 0xff) = .error .outOfBounds := rfl
  exact fun h => (Exec.post_of_error hrun).mp h

end Stdio
end Winx
