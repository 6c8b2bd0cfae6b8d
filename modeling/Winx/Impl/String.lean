import Winx.Kernel.Fault
import Winx.Lib.CString

/-! # String functions on a buffer

The functions of `string.c` walk over memory until a zero. Here they walk over one buffer
of `size` bytes; an access behind it is a fault. A string that is only read is given by
its characters.
-/

namespace Winx

/-- Computations on the contents of a buffer. -/
abbrev BufM := Exec Bytes Fault

namespace Str

variable {size off i : ℕ} {c : UInt8} {b : Bytes} {str src : List UInt8} {E : Fault → Prop}

/-- `buf[off]`. -/
def load (size off : ℕ) : BufM UInt8 := do
  inBounds (off < size)
  return (← get) off

/-- `buf[off] = c`. -/
def store (size off : ℕ) (c : UInt8) : BufM Unit := do
  inBounds (off < size)
  modify fun b => b.set off c

/-- The loop of `strlen` and `strcat` that looks for the end of a string. -/
def scanEnd (size : ℕ) : ℕ → ℕ → BufM ℕ
  | 0, _ => throw .diverged
  | fuel + 1, off => do
    if (← load size off) = 0 then return off
    scanEnd size fuel (off + 1)

/-- `while (p(*next)) next++` -/
def skipWhile (size : ℕ) (p : UInt8 → Bool) : ℕ → ℕ → BufM ℕ
  | 0, _ => throw .diverged
  | fuel + 1, next => do
    if p (← load size next) then skipWhile size p fuel (next + 1) else return next

/-- `strlen(buf + off)`. -/
def strlen (size off : ℕ) : BufM ℕ := do
  return (← scanEnd size (size + 1) off) - off

/-- `strchr(buf + off, ch)`. -/
def strchr (size : ℕ) (ch : UInt8) : ℕ → ℕ → BufM (Option ℕ)
  | 0, _ => throw .diverged
  | fuel + 1, off => do
    let c ← load size off
    if c = 0 then return none
    if c = ch then return some off
    strchr size ch fuel (off + 1)

/-- The loop of `strrchr(buf + off, ch)`, with the last occurrence so far. -/
def strrchr (size : ℕ) (ch : UInt8) : ℕ → Option ℕ → ℕ → BufM (Option ℕ)
  | 0, _, _ => throw .diverged
  | fuel + 1, lastChar, off => do
    let c ← load size off
    if c = 0 then return lastChar
    strrchr size ch fuel (if c = ch then some off else lastChar) (off + 1)

/-- `*a < *b ? -1 : *a > *b` -/
def order (a b : UInt8) : ℤ :=
  if a.toInt8 < b.toInt8 then -1 else if b.toInt8 < a.toInt8 then 1 else 0

/-- `strcmp(buf + off, src)`. -/
def strcmp (size : ℕ) : ℕ → List UInt8 → BufM ℤ
  | off, [] => return order (← load size off) 0
  | off, c :: src => do
    let a ← load size off
    if a ≠ 0 ∧ a = c then strcmp size (off + 1) src else return order a c

/-- `strcpy(buf + off, src)`. -/
def strcpy (size : ℕ) : ℕ → List UInt8 → BufM Unit
  | off, [] => store size off 0
  | off, c :: src => do
    store size off c
    strcpy size (off + 1) src

/-- `strcat(buf + off, src)`. -/
def strcat (size off : ℕ) (src : List UInt8) : BufM Unit := do
  let last ← scanEnd size (size + 1) off
  strcpy size last src

@[simp] theorem post_load {Q : UInt8 → Bytes → Prop} :
    Exec.Post (load size off) b Q E ↔ (off < size → Q (b off) b) ∧ (¬ off < size → E .outOfBounds) := by
  simp only [load, Exec.post_bind, post_inBounds, Exec.post_get, Exec.post_pure]

@[simp] theorem post_store {Q : Unit → Bytes → Prop} :
    Exec.Post (store size off c) b Q E ↔
      (off < size → Q () (b.set off c)) ∧ (¬ off < size → E .outOfBounds) := by
  simp only [store, Exec.post_bind, post_inBounds, Exec.post_modify]

theorem load_eq (h : off < size) (b : Bytes) : load size off b = .ok (b off, b) :=
  Exec.eq_ok_iff.mpr (post_load.mpr ⟨fun _ => ⟨rfl, rfl⟩, fun hle => absurd h hle⟩)

theorem store_eq (h : off < size) (c : UInt8) (b : Bytes) : store size off c b = .ok ((), b.set off c) :=
  Exec.eq_ok_iff.mpr (post_store.mpr ⟨fun _ => ⟨rfl, rfl⟩, fun hle => absurd h hle⟩)

/-- The scan stops at the zero that ends the string. -/
theorem scanEnd_eq {fuel : ℕ} (h : b.Holds off str) (h0 : 0 ∉ str) (hsize : off + str.length < size)
    (hfuel : str.length < fuel) : scanEnd size fuel off b = .ok (off + str.length, b) := by
  induction str generalizing off fuel with
  | nil =>
    obtain ⟨fuel, rfl⟩ : ∃ k, fuel = k + 1 := ⟨fuel - 1, by rw [List.length_nil] at hfuel; omega⟩
    rw [List.length_nil, Nat.add_zero] at hsize ⊢
    rw [scanEnd, Exec.bind_eq_ok (load_eq hsize b), Bytes.holds_nil.mp h, if_pos rfl]
    rfl
  | cons c str ih =>
    obtain ⟨fuel, rfl⟩ : ∃ k, fuel = k + 1 := ⟨fuel - 1, by omega⟩
    obtain ⟨hc, hstr⟩ := Bytes.holds_cons.mp h
    have hc0 : 0 ≠ c := List.ne_of_not_mem_cons h0
    rw [List.length_cons] at hsize hfuel ⊢
    rw [scanEnd, Exec.bind_eq_ok (load_eq (by omega) b), hc, if_neg hc0.symm,
      ih hstr (List.not_mem_of_not_mem_cons h0) (by omega) (by omega), Nat.add_assoc, Nat.add_comm 1]

/-- Where the scan stops, a string has ended inside of the buffer. -/
theorem scanEnd_ensures {fuel : ℕ} : Exec.Ensures (scanEnd size fuel off) b fun last b' =>
    b' = b ∧ ∃ str, b.Holds off str ∧ 0 ∉ str ∧ last = off + str.length ∧ last < size := by
  induction fuel generalizing off with
  | zero => trivial
  | succ fuel ih =>
    simp only [scanEnd, Exec.post_bind, post_load]
    refine ⟨fun hlt => ?_, fun _ => trivial⟩
    split
    · rename_i hzero
      exact ⟨rfl, [], Bytes.holds_nil.mpr hzero, List.not_mem_nil, rfl, hlt⟩
    · rename_i hne
      apply ih.mono
      rintro last b' ⟨rfl, str, hstr, h0, rfl, hlast⟩
      refine ⟨rfl, b' off :: str, Bytes.holds_cons.mpr ⟨rfl, hstr⟩, ?_, ?_, hlast⟩
      · rw [List.mem_cons, not_or]
        exact ⟨Ne.symm hne, h0⟩
      · rw [List.length_cons]
        omega

/-- Skipping stops at the first character behind a run. -/
theorem skipWhile_eq {p : UInt8 → Bool} {fuel : ℕ} (h : b.Reads off str) (hrun : ∀ c ∈ str, p c = true)
    (hstop : p (b (off + str.length)) = false) (hsize : off + str.length < size) (hfuel : str.length < fuel) :
    skipWhile size p fuel off b = .ok (off + str.length, b) := by
  induction str generalizing off fuel with
  | nil =>
    obtain ⟨fuel, rfl⟩ : ∃ k, fuel = k + 1 := ⟨fuel - 1, by rw [List.length_nil] at hfuel; omega⟩
    rw [List.length_nil, Nat.add_zero] at hsize hstop ⊢
    rw [skipWhile, Exec.bind_eq_ok (load_eq hsize b), hstop, if_neg Bool.false_ne_true]
    rfl
  | cons c str ih =>
    obtain ⟨fuel, rfl⟩ : ∃ k, fuel = k + 1 := ⟨fuel - 1, by omega⟩
    obtain ⟨hc, hstr⟩ := h
    obtain ⟨hpc, hrun⟩ := List.forall_mem_cons.mp hrun
    have hlen : off + (c :: str).length = off + 1 + str.length := by
      rw [List.length_cons]
      omega
    rw [hlen] at hsize hstop ⊢
    rw [List.length_cons] at hfuel
    rw [skipWhile, Exec.bind_eq_ok (load_eq (by omega) b), hc, hpc, if_pos rfl,
      ih hstr hrun hstop hsize (by omega)]

/-- The length of a string that ends in the buffer. -/
theorem strlen_eq (h : b.Holds off str) (h0 : 0 ∉ str) (hsize : off + str.length < size) :
    strlen size off b = .ok (str.length, b) := by
  rw [strlen, Exec.bind_eq_ok (scanEnd_eq h h0 hsize (by omega)), Nat.add_sub_cancel_left]
  rfl

theorem strlen_ensures : Exec.Ensures (strlen size off) b fun len b' =>
    b' = b ∧ ∃ str, b.Holds off str ∧ 0 ∉ str ∧ len = str.length := by
  rw [strlen, Exec.Ensures, Exec.post_bind]
  apply scanEnd_ensures.mono
  rintro last b' ⟨rfl, str, hstr, h0, rfl, -⟩
  exact ⟨rfl, str, hstr, h0, Nat.add_sub_cancel_left ..⟩

/-- The first occurrence of a character. -/
theorem strchr_some {ch : UInt8} {fuel : ℕ} (h : b.Reads off (str ++ [ch])) (h0 : 0 ∉ str) (hch : ch ∉ str)
    (hne : ch ≠ 0) (hsize : off + str.length < size) (hfuel : str.length < fuel) :
    strchr size ch fuel off b = .ok (some (off + str.length), b) := by
  induction str generalizing off fuel with
  | nil =>
    obtain ⟨fuel, rfl⟩ : ∃ k, fuel = k + 1 := ⟨fuel - 1, by rw [List.length_nil] at hfuel; omega⟩
    rw [List.length_nil, Nat.add_zero] at hsize ⊢
    rw [strchr, Exec.bind_eq_ok (load_eq hsize b), h.1, if_neg hne, if_pos rfl]
    rfl
  | cons c str ih =>
    obtain ⟨fuel, rfl⟩ : ∃ k, fuel = k + 1 := ⟨fuel - 1, by omega⟩
    obtain ⟨hc, hstr⟩ := h
    have hc0 : c ≠ 0 := (List.ne_of_not_mem_cons h0).symm
    have hcch : c ≠ ch := (List.ne_of_not_mem_cons hch).symm
    have hlen : off + (c :: str).length = off + 1 + str.length := by
      rw [List.length_cons]
      omega
    rw [hlen] at hsize ⊢
    rw [List.length_cons] at hfuel
    rw [strchr, Exec.bind_eq_ok (load_eq (by omega) b), hc, if_neg hc0, if_neg hcch,
      ih hstr (List.not_mem_of_not_mem_cons h0) (List.not_mem_of_not_mem_cons hch) hsize (by omega)]

theorem strchr_none {ch : UInt8} {fuel : ℕ} (h : b.Holds off str) (h0 : 0 ∉ str) (hch : ch ∉ str)
    (hsize : off + str.length < size) (hfuel : str.length < fuel) :
    strchr size ch fuel off b = .ok (none, b) := by
  induction str generalizing off fuel with
  | nil =>
    obtain ⟨fuel, rfl⟩ : ∃ k, fuel = k + 1 := ⟨fuel - 1, by rw [List.length_nil] at hfuel; omega⟩
    rw [List.length_nil, Nat.add_zero] at hsize
    rw [strchr, Exec.bind_eq_ok (load_eq hsize b), Bytes.holds_nil.mp h, if_pos rfl]
    rfl
  | cons c str ih =>
    obtain ⟨fuel, rfl⟩ : ∃ k, fuel = k + 1 := ⟨fuel - 1, by omega⟩
    obtain ⟨hc, hstr⟩ := Bytes.holds_cons.mp h
    have hc0 : c ≠ 0 := (List.ne_of_not_mem_cons h0).symm
    have hcch : c ≠ ch := (List.ne_of_not_mem_cons hch).symm
    rw [List.length_cons] at hsize hfuel
    rw [strchr, Exec.bind_eq_ok (load_eq (by omega) b), hc, if_neg hc0, if_neg hcch,
      ih hstr (List.not_mem_of_not_mem_cons h0) (List.not_mem_of_not_mem_cons hch) (by omega) (by omega)]

theorem strrchr_none {ch : UInt8} {fuel : ℕ} {lastChar : Option ℕ} (h : b.Holds off str) (h0 : 0 ∉ str)
    (hch : ch ∉ str) (hsize : off + str.length < size) (hfuel : str.length < fuel) :
    strrchr size ch fuel lastChar off b = .ok (lastChar, b) := by
  induction str generalizing off fuel with
  | nil =>
    obtain ⟨fuel, rfl⟩ := Nat.exists_eq_add_one.mpr (Nat.zero_lt_of_lt hfuel)
    rw [List.length_nil, Nat.add_zero] at hsize
    rw [strrchr, Exec.bind_eq_ok (load_eq hsize b), Bytes.holds_nil.mp h, if_pos rfl]
    rfl
  | cons c str ih =>
    obtain ⟨fuel, rfl⟩ := Nat.exists_eq_add_one.mpr (Nat.zero_lt_of_lt hfuel)
    obtain ⟨hc, hstr⟩ := Bytes.holds_cons.mp h
    have hc0 : c ≠ 0 := (List.ne_of_not_mem_cons h0).symm
    have hcch : c ≠ ch := (List.ne_of_not_mem_cons hch).symm
    rw [List.length_cons] at hsize hfuel
    rw [strrchr, Exec.bind_eq_ok (load_eq (by omega) b), hc, if_neg hc0, if_neg hcch,
      ih hstr (List.not_mem_of_not_mem_cons h0) (List.not_mem_of_not_mem_cons hch) (by omega) (by omega)]

/-- The last occurrence of a character. -/
theorem strrchr_some {ch : UInt8} {fuel : ℕ} {lastChar : Option ℕ} (h : b.Holds off (str ++ ch :: src))
    (h0 : 0 ∉ str ++ ch :: src) (hch : ch ∉ src) (hsize : off + (str ++ ch :: src).length < size)
    (hfuel : (str ++ ch :: src).length < fuel) :
    strrchr size ch fuel lastChar off b = .ok (some (off + str.length), b) := by
  induction str generalizing off fuel lastChar with
  | nil =>
    obtain ⟨fuel, rfl⟩ := Nat.exists_eq_add_one.mpr (Nat.zero_lt_of_lt hfuel)
    obtain ⟨hc, hsrc⟩ := Bytes.holds_cons.mp h
    have hc0 : ch ≠ 0 := (List.ne_of_not_mem_cons h0).symm
    rw [List.nil_append, List.length_cons] at hsize hfuel
    rw [strrchr, Exec.bind_eq_ok (load_eq (by omega) b), hc, if_neg hc0, if_pos rfl,
      strrchr_none hsrc (List.not_mem_of_not_mem_cons h0) hch (by omega) (by omega)]
    rfl
  | cons c str ih =>
    obtain ⟨fuel, rfl⟩ := Nat.exists_eq_add_one.mpr (Nat.zero_lt_of_lt hfuel)
    obtain ⟨hc, hstr⟩ := Bytes.holds_cons.mp h
    have hc0 : c ≠ 0 := (List.ne_of_not_mem_cons h0).symm
    have hlen : off + (c :: str).length = off + 1 + str.length := by
      rw [List.length_cons]
      omega
    rw [List.cons_append, List.length_cons] at hsize hfuel
    rw [strrchr, Exec.bind_eq_ok (load_eq (by omega) b), hc, if_neg hc0, hlen,
      ih hstr (List.not_mem_of_not_mem_cons h0) (by omega) (by omega)]

theorem order_eq_zero {a b : UInt8} : order a b = 0 ↔ a = b := by
  unfold order
  constructor
  · intro h
    split at h
    · cases h
    · split at h
      · cases h
      · rename_i hab hba
        have heq := Int8.le_antisymm (Int8.not_lt.mp hba) (Int8.not_lt.mp hab)
        rw [← UInt8.toUInt8_toInt8 a, heq, UInt8.toUInt8_toInt8]
  · rintro rfl
    rw [if_neg fun h => Int8.lt_irrefl h, if_neg fun h => Int8.lt_irrefl h]

/-- Strings compare equal only with themselves. -/
theorem strcmp_eq (h : b.Holds off str) (h0 : 0 ∉ str) (hsrc : 0 ∉ src) (hsize : off + str.length < size) :
    ∃ r, strcmp size off src b = .ok (r, b) ∧ (r = 0 ↔ str = src) := by
  induction src generalizing off str with
  | nil =>
    refine ⟨_, Exec.bind_eq_ok (load_eq (by omega) b), ?_⟩
    rw [order_eq_zero]
    cases str with
    | nil => exact iff_of_true (Bytes.holds_nil.mp h) rfl
    | cons c str =>
      rw [(Bytes.holds_cons.mp h).1]
      exact iff_of_false (List.ne_of_not_mem_cons h0).symm (List.cons_ne_nil c str)
  | cons d src ih =>
    have hd0 : 0 ≠ d := List.ne_of_not_mem_cons hsrc
    rw [strcmp, Exec.bind_eq_ok (load_eq (by omega) b)]
    cases str with
    | nil =>
      rw [Bytes.holds_nil.mp h, if_neg fun hne => hne.1 rfl]
      refine ⟨_, rfl, ?_⟩
      rw [order_eq_zero]
      exact iff_of_false hd0 (List.cons_ne_nil d src).symm
    | cons c str =>
      obtain ⟨hc, hstr⟩ := Bytes.holds_cons.mp h
      rw [List.length_cons] at hsize
      rw [hc]
      split
      · rename_i heq
        obtain ⟨r, hrun, hr⟩ := ih hstr (List.not_mem_of_not_mem_cons h0) (List.not_mem_of_not_mem_cons hsrc)
          (by omega)
        refine ⟨r, hrun, ?_⟩
        rw [hr, heq.2, List.cons_inj_right]
      · rename_i hne
        refine ⟨_, rfl, ?_⟩
        rw [order_eq_zero]
        have hcd : c ≠ d := fun heq => hne ⟨(List.ne_of_not_mem_cons h0).symm, heq⟩
        exact iff_of_false hcd fun heq => hcd (List.cons.inj heq).1

/-- The copy and its zero. -/
theorem strcpy_eq (hsize : off + src.length < size) :
    strcpy size off src b = .ok ((), b.put off (src ++ [0])) := by
  induction src generalizing off b with
  | nil => exact store_eq hsize 0 b
  | cons c src ih =>
    rw [List.length_cons] at hsize
    rw [strcpy, Exec.bind_eq_ok (store_eq (by omega) c b), ih (by omega)]
    rfl

theorem strcat_eq (h : b.Holds off str) (h0 : 0 ∉ str) (hsize : off + str.length + src.length < size) :
    strcat size off src b = .ok ((), b.put (off + str.length) (src ++ [0])) := by
  rw [strcat, Exec.bind_eq_ok (scanEnd_eq h h0 (by omega) (by omega)), strcpy_eq hsize]

end Str
end Winx
