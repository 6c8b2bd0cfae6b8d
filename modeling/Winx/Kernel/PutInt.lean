import Winx.Impl.Stdio
import Winx.Kernel.Print

/-! # Strings and numbers on the console

`put_str` and `put_int` call `put_char` for one character after the other.
`put_int` first stores eight hexadecimal digits in a buffer, the last one first,
and then prints them from the first digit that is not zero on.
-/

namespace Winx

open Stdio

/-- The console, with `put_int_buffer` and what lies behind it. -/
structure Printer where
  screen : Screen
  putIntBuffer : Bytes

/-- Code that prints. -/
abbrev PrintM (α : Type) := Exec Printer Fault α

namespace Printer

/-- The console after some characters. -/
def putChars (cs : List UInt8) (p : Printer) : Printer := { p with screen := p.screen.putChars cs }

/-- The buffer of `put_int` is written. -/
def setBuffer (buf : Bytes) (p : Printer) : Printer := { p with putIntBuffer := buf }

/-- `call put_char` -/
def callPutChar (cl : UInt8) : PrintM Unit := modify fun p => p.putChars [cl]

/-- `.goon` of `put_str` -/
def goon (str : Bytes) : ℕ → ℕ → PrintM Unit
  | 0, _ => throw .diverged
  | fuel + 1, ebx =>
    let cl := str ebx
    if cl = 0 then pure ()
    else do
      callPutChar cl
      goon str fuel (ebx + 1)

/-- `put_str` of the string that begins at an offset of a memory of 32-bit addresses. -/
def putStr (mem : Bytes) (str : ℕ) : PrintM Unit := goon mem (2 ^ 32) str

/-- A turn of `.16based_4bits`, up to `.store`. The comparison is signed. -/
def digitOf (edx : UInt32) : UInt8 :=
  let edx := edx &&& 0x0000000f
  (if 9 < edx.toInt32 then edx - 10 + 0x41 else edx + 0x30).toUInt8

/-- `.16based_4bits`, with `ecx` turns left. -/
def based16 : ℕ → UInt32 → UInt32 → Bytes → UInt32 × Bytes
  | 0, _, edi, buf => (edi, buf)
  | ecx + 1, eax, edi, buf => based16 ecx (eax >>> 4) (edi - 1) (buf.set edi.toNat (digitOf eax))

/-- `.skip_prefix_0`: where the printing begins, and with which character. -/
def skipPrefix0 (buf : Bytes) : ℕ → UInt32 → PrintM (UInt32 × UInt8)
  | 0, _ => throw .diverged
  | fuel + 1, edi =>
    if edi = 8 then pure (edi, 0x30)
    else
      let cl := buf edi.toNat
      let edi := edi + 1
      if cl = 0x30 then skipPrefix0 buf fuel edi else pure (edi - 1, cl)

/-- `.put_each_num`, which reads one byte behind the last one that it prints. -/
def putEachNum (buf : Bytes) : ℕ → UInt32 → UInt8 → PrintM Unit
  | 0, _, _ => throw .diverged
  | fuel + 1, edi, cl => do
    callPutChar cl
    let edi := edi + 1
    let cl := buf edi.toNat
    if edi.toInt32 < 8 then putEachNum buf fuel edi cl else pure ()

/-- `put_int` -/
def putInt (eax : UInt32) : PrintM Unit := do
  let p ← get
  let (edi, buf) := based16 8 eax 7 p.putIntBuffer
  set (p.setBuffer buf)
  let (edi, cl) ← skipPrefix0 buf 9 (edi + 1)
  putEachNum buf 9 edi cl

/-- The last `k` hexadecimal digits of a number. -/
def padded : ℕ → ℕ → List UInt8
  | 0, _ => []
  | k + 1, n => padded k (n / 16) ++ [digit (UInt32.ofNat (n % 16))]

/-- A text of digits without the zeros in front, or one zero. -/
def stripped : List UInt8 → List UInt8
  | [] => [0x30]
  | c :: text => if c = 0x30 then stripped text else c :: text

variable {p : Printer} {buf mem : Bytes} {text : List UInt8} {n k i fuel : ℕ} {cl : UInt8}

theorem putChars_putChars (cs cs' : List UInt8) : (p.putChars cs).putChars cs' = p.putChars (cs ++ cs') := by
  simp only [putChars, Screen.putChars_append]

theorem callPutChar_eq (cl : UInt8) : callPutChar cl p = .ok ((), p.putChars [cl]) := rfl

/-! ## Strings -/

theorem goon_eq (h : mem.Holds i text) (hzero : 0 ∉ text) (hfuel : text.length < fuel) :
    goon mem fuel i p = .ok ((), p.putChars text) := by
  induction text generalizing fuel i p with
  | nil =>
    cases fuel with
    | zero => exact absurd hfuel (Nat.not_lt_zero _)
    | succ fuel =>
      have hend : mem i = 0 := h.ends
      rw [goon, hend]
      rfl
  | cons c text ih =>
    cases fuel with
    | zero => exact absurd hfuel (Nat.not_lt_zero _)
    | succ fuel =>
      obtain ⟨⟨hc, htext⟩, hends⟩ := h
      rw [List.mem_cons, not_or] at hzero
      rw [List.length_cons] at hfuel hends
      have hrest : mem.Holds (i + 1) text := ⟨htext, by rw [Nat.add_right_comm]; exact hends⟩
      rw [goon, hc, if_neg (Ne.symm hzero.1), Exec.bind_eq_ok (callPutChar_eq c),
        ih hrest hzero.2 (by omega), putChars_putChars]
      rfl

/-- `put_str` prints a string, and returns. -/
theorem putStr_eq (h : mem.Holds i text) (hzero : 0 ∉ text) (hlen : text.length < 2 ^ 32) :
    putStr mem i p = .ok ((), p.putChars text) :=
  goon_eq h hzero hlen

/-! ## The digits of a number -/

theorem digitOf_eq (w : UInt32) : digitOf w = digit (UInt32.ofNat (w.toNat % 16)) := by
  have hall : ∀ m < 16, (if 9 < (UInt32.ofNat m).toInt32 then UInt32.ofNat m - 10 + 0x41
      else UInt32.ofNat m + 0x30).toUInt8 = digit (UInt32.ofNat m) := by decide
  have hand : w &&& 0x0000000f = UInt32.ofNat (w.toNat % 16) := by
    rw [← UInt32.toNat_inj, UInt32.toNat_and, UInt32.toNat_ofNat']
    change w.toNat &&& 15 = _
    rw [Nat.and_two_pow_sub_one_eq_mod w.toNat 4]
    omega
  rw [digitOf, hand]
  exact hall _ (Nat.mod_lt _ (by decide))

@[simp] theorem length_padded (k n : ℕ) : (padded k n).length = k := by
  induction k generalizing n with
  | zero => rfl
  | succ k ih => simp [padded, ih]

theorem put_set_of_le {off : ℕ} (h : off + text.length ≤ k) (c : UInt8) :
    (buf.set k c).put off text = (buf.put off text).set k c := by
  induction text generalizing buf off with
  | nil => rfl
  | cons d text ih =>
    rw [List.length_cons] at h
    have hcomm : (buf.set k c).set off d = (buf.set off d).set k c :=
      Function.update_comm (by omega) _ _ _
    rw [Bytes.put_cons, Bytes.put_cons, hcomm, ih (by omega)]

/-- The digits go to the buffer from its end to its beginning. -/
theorem based16_eq (hk : k < 2 ^ 32) (eax : UInt32) :
    based16 k eax (UInt32.ofNat k - 1) buf = (0 - 1, buf.put 0 (padded k eax.toNat)) := by
  induction k generalizing eax buf with
  | zero => rfl
  | succ k ih =>
    have hedi : UInt32.ofNat (k + 1) - 1 = UInt32.ofNat k := by
      rw [UInt32.ofNat_add]
      exact UInt32.add_sub_cancel _ _
    have hk' : (UInt32.ofNat k).toNat = k := by
      rw [UInt32.toNat_ofNat']
      exact Nat.mod_eq_of_lt (by omega)
    have hshift : (eax >>> 4).toNat = eax.toNat / 16 := by
      rw [UInt32.toNat_shiftRight]
      exact Nat.shiftRight_eq_div_pow _ 4
    rw [based16, hedi, hk', ih (by omega), hshift, digitOf_eq, put_set_of_le (by simp), padded,
      Bytes.put_append, length_padded, Nat.zero_add]
    rfl

/-! ## Leading zeros -/

theorem stripped_append (h : stripped text ≠ [0x30]) (text' : List UInt8) :
    stripped (text ++ text') = stripped text ++ text' := by
  induction text with
  | nil => exact absurd rfl h
  | cons c text ih =>
    rw [List.cons_append, stripped, stripped]
    rw [stripped] at h
    split
    · rename_i hc
      rw [if_pos hc] at h
      exact ih h
    · rfl

theorem stripped_padded_zero (k : ℕ) : stripped (padded k 0 ++ text) = stripped text := by
  induction k generalizing text with
  | zero => rfl
  | succ k ih =>
    rw [padded, List.append_assoc, Nat.zero_div, ih]
    rfl

/-- Without the zeros in front, the digits are the numeral. -/
theorem stripped_padded (h : n < 16 ^ k) : stripped (padded k n) = numeral 16 n := by
  induction k generalizing n with
  | zero =>
    obtain rfl : n = 0 := by simpa using h
    rfl
  | succ k ih =>
    have hdigit : n % 16 < 16 := Nat.mod_lt _ (by decide)
    rw [padded]
    rcases Nat.lt_or_ge n 16 with hlt | hge
    · rw [numeral_of_lt hlt, Nat.div_eq_of_lt hlt, Nat.mod_eq_of_lt hlt, stripped_padded_zero, stripped]
      split
      · rename_i hc
        rw [hc]
        rfl
      · rfl
    · have hdiv : n / 16 < 16 ^ k := Nat.div_lt_of_lt_mul (by rwa [Nat.pow_succ, Nat.mul_comm] at h)
      have hpos : 0 < n / 16 := Nat.div_pos hge (by decide)
      have hrest := ih hdiv
      rw [stripped_append, hrest, numeral_of_le (by decide) hge]
      rw [hrest]
      intro hnum
      have hzero : IsNumeral 16 (n / 16) (numeral 16 (n / 16)) := isNumeral_numeral (by decide) (by decide) _
      rw [hnum] at hzero
      have := hzero.value
      simp [digitValue] at this
      omega

/-! ## Printing -/

theorem edi_lt_iff (h : i ≤ 9) : (UInt32.ofNat i).toInt32 < 8 ↔ i < 8 := by
  have hall : ∀ i < 10, (UInt32.ofNat i).toInt32 < 8 ↔ i < 8 := by decide
  exact hall i (by omega)

theorem toNat_edi (h : i ≤ 9) : (UInt32.ofNat i).toNat = i := by
  rw [UInt32.toNat_ofNat']
  exact Nat.mod_eq_of_lt (by omega)

theorem edi_add_one (i : ℕ) : UInt32.ofNat i + 1 = UInt32.ofNat (i + 1) := (UInt32.ofNat_add i 1).symm

/-- `.put_each_num` prints what is left in the buffer. -/
theorem putEachNum_eq (hbuf : buf.Reads (i + 1) text) (hlen : i + 1 + text.length = 8)
    (hfuel : text.length < fuel) :
    putEachNum buf fuel (UInt32.ofNat i) cl p = .ok ((), p.putChars (cl :: text)) := by
  induction text generalizing fuel i cl p with
  | nil =>
    cases fuel with
    | zero => exact absurd hfuel (Nat.not_lt_zero _)
    | succ fuel =>
      obtain rfl : i = 7 := by simpa using hlen
      rfl
  | cons c text ih =>
    cases fuel with
    | zero => exact absurd hfuel (Nat.not_lt_zero _)
    | succ fuel =>
      obtain ⟨hc, hrest⟩ := hbuf
      rw [List.length_cons] at hlen hfuel
      have hless := (edi_lt_iff (i := i + 1) (by omega)).mpr (by omega)
      rw [putEachNum, Exec.bind_eq_ok (callPutChar_eq cl), edi_add_one, if_pos hless,
        toNat_edi (by omega), hc, ih hrest (by omega) (by omega), putChars_putChars]
      rfl

/-- The digits are printed without the zeros in front, and one zero if there are no others. -/
theorem skipPrefix0_print (hbuf : buf.Reads i text) (hlen : i + text.length = 8) :
    (skipPrefix0 buf (text.length + 1) (UInt32.ofNat i) >>= fun r => putEachNum buf 9 r.1 r.2) p =
      .ok ((), p.putChars (stripped text)) := by
  induction text generalizing i with
  | nil =>
    obtain rfl : i = 8 := by simpa using hlen
    rfl
  | cons c text ih =>
    obtain ⟨hc, hrest⟩ := hbuf
    rw [List.length_cons] at hlen ⊢
    have hne : UInt32.ofNat i ≠ 8 := by
      intro heq
      have := congrArg UInt32.toNat heq
      rw [toNat_edi (by omega)] at this
      exact absurd hlen (by rw [this]; simp)
    simp only [skipPrefix0, if_neg hne, toNat_edi (show i ≤ 9 by omega), hc, stripped]
    by_cases hzero : c = 0x30
    · rw [if_pos hzero, if_pos hzero, edi_add_one]
      exact ih hrest (by omega)
    · rw [if_neg hzero, if_neg hzero, UInt32.add_sub_cancel]
      exact putEachNum_eq hrest (by omega) (by omega)

/-- `put_int` prints the hexadecimal numeral of every number. -/
theorem putInt_eq (eax : UInt32) (p : Printer) :
    putInt eax p = .ok ((), (p.putChars (numeral 16 eax.toNat)).setBuffer
      (p.putIntBuffer.put 0 (padded 8 eax.toNat))) := by
  have hdigits : based16 8 eax 7 p.putIntBuffer = (0 - 1, p.putIntBuffer.put 0 (padded 8 eax.toNat)) :=
    based16_eq (k := 8) (by decide) eax
  have hreads : (p.putIntBuffer.put 0 (padded 8 eax.toNat)).Reads 0 (padded 8 eax.toNat) := Bytes.reads_put
  have hprint := skipPrefix0_print (p := p.setBuffer (p.putIntBuffer.put 0 (padded 8 eax.toNat)))
    (i := 0) hreads (by simp)
  rw [stripped_padded eax.toNat_lt, length_padded] at hprint
  rw [putInt, Exec.bind_eq_ok (show (get : PrintM Printer) p = .ok (p, p) from rfl)]
  simp only [hdigits]
  exact hprint

end Printer

end Winx
