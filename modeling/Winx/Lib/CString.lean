import Mathlib.Logic.Function.Basic
import Winx.Lib.Bytes

/-! # Strings in memory

A string lies in a byte image from an offset on and ends with a zero. Storing a byte
outside of it leaves it there; the bytes of two strings one after the other are
those of the joined string.
-/

namespace Bytes

/-- The image after a byte is stored. -/
def set (b : Bytes) (off : ℕ) (c : UInt8) : Bytes := Function.update b off c

/-- The image after the bytes of a list are stored one after the other. -/
def put (b : Bytes) : ℕ → List UInt8 → Bytes
  | _, [] => b
  | off, c :: str => (b.set off c).put (off + 1) str

/-- The bytes from an offset on. -/
def Reads (b : Bytes) : ℕ → List UInt8 → Prop
  | _, [] => True
  | off, c :: str => b off = c ∧ b.Reads (off + 1) str

/-- A string with the zero that ends it. -/
structure Holds (b : Bytes) (off : ℕ) (str : List UInt8) : Prop where
  reads : b.Reads off str
  ends : b (off + str.length) = 0

variable {b b' : Bytes} {off i : ℕ} {c : UInt8} {str str' : List UInt8}

@[simp] theorem set_self (b : Bytes) (off : ℕ) (c : UInt8) : b.set off c off = c :=
  Function.update_self ..

theorem set_of_ne (h : i ≠ off) : b.set off c i = b i := Function.update_of_ne h ..

@[simp] theorem put_nil : b.put off [] = b := rfl

@[simp] theorem put_cons : b.put off (c :: str) = (b.set off c).put (off + 1) str := rfl

theorem put_append : b.put off (str ++ str') = (b.put off str).put (off + str.length) str' := by
  induction str generalizing b off with
  | nil => rfl
  | cons c str ih =>
    rw [List.cons_append, put_cons, put_cons, ih, List.length_cons, Nat.add_right_comm, Nat.add_assoc]

theorem put_of_lt (h : i < off) : b.put off str i = b i := by
  induction str generalizing b off with
  | nil => rfl
  | cons c str ih => exact (ih (Nat.lt_succ_of_lt h)).trans (set_of_ne (Nat.ne_of_lt h))

theorem put_of_le (h : off + str.length ≤ i) : b.put off str i = b i := by
  induction str generalizing b off with
  | nil => rfl
  | cons c str ih =>
    rw [List.length_cons] at h
    exact (ih (by omega)).trans (set_of_ne (by omega))

@[simp] theorem reads_nil : b.Reads off [] := trivial

@[simp] theorem reads_cons : b.Reads off (c :: str) ↔ b off = c ∧ b.Reads (off + 1) str := Iff.rfl

theorem reads_append : b.Reads off (str ++ str') ↔ b.Reads off str ∧ b.Reads (off + str.length) str' := by
  induction str generalizing off with
  | nil => simp
  | cons c str ih =>
    rw [List.cons_append, reads_cons, reads_cons, ih, and_assoc, List.length_cons, Nat.add_right_comm,
      Nat.add_assoc]

theorem Reads.of_prefix (h : b.Reads off str) (hpre : str' <+: str) : b.Reads off str' := by
  obtain ⟨rest, rfl⟩ := hpre
  exact (reads_append.mp h).1

/-- What was stored is read back. -/
theorem reads_put : (b.put off str).Reads off str := by
  induction str generalizing b off with
  | nil => trivial
  | cons c str ih =>
    constructor
    · exact (put_of_lt (Nat.lt_succ_self off)).trans (set_self ..)
    · exact ih

/-- Only the bytes of the string matter. -/
theorem Reads.congr (h : b.Reads off str) (hb : ∀ i, off ≤ i → i < off + str.length → b' i = b i) :
    b'.Reads off str := by
  induction str generalizing off with
  | nil => trivial
  | cons c str ih =>
    obtain ⟨hc, hstr⟩ := h
    rw [List.length_cons] at hb
    constructor
    · exact (hb off (Nat.le_refl _) (by omega)).trans hc
    · apply ih hstr
      intro i hle hlt
      exact hb i (by omega) (by omega)

theorem Reads.apply (h : b.Reads off str) (hi : i < str.length) : b (off + i) = str[i] := by
  induction str generalizing off i with
  | nil => cases hi
  | cons c str ih =>
    obtain ⟨hc, hstr⟩ := h
    cases i with
    | zero => exact hc
    | succ i =>
      rw [List.getElem_cons_succ, ← ih hstr (Nat.lt_of_succ_lt_succ hi)]
      exact congrArg b (by omega)

theorem reads_iff : b.Reads off str ↔ ∀ i, (h : i < str.length) → b (off + i) = str[i] := by
  constructor
  · exact fun h i hi => h.apply hi
  · intro h
    induction str generalizing off with
    | nil => trivial
    | cons c str ih =>
      constructor
      · exact h 0 (Nat.zero_lt_succ _)
      · apply ih
        intro i hi
        have hnext := h (i + 1) (Nat.succ_lt_succ hi)
        rw [List.getElem_cons_succ] at hnext
        rw [← hnext]
        exact congrArg b (by omega)

/-- Two texts of one length at one place are the same. -/
theorem Reads.unique (h : b.Reads off str) (h' : b.Reads off str') (hlen : str.length = str'.length) :
    str = str' := by
  apply List.ext_getElem hlen
  intro i hi hi'
  rw [← h.apply hi, ← h'.apply hi']

theorem Reads.set (h : b.Reads off str) (hi : i < off ∨ off + str.length ≤ i) (c : UInt8) :
    (b.set i c).Reads off str :=
  h.congr fun j hle hlt => set_of_ne (by omega)

theorem Holds.congr (h : b.Holds off str) (hb : ∀ i, off ≤ i → i ≤ off + str.length → b' i = b i) :
    b'.Holds off str where
  reads := h.reads.congr fun i hle hlt => hb i hle (Nat.le_of_lt hlt)
  ends := (hb _ (Nat.le_add_right _ _) (Nat.le_refl _)).trans h.ends

theorem Holds.set (h : b.Holds off str) (hi : i < off ∨ off + str.length < i) (c : UInt8) :
    (b.set i c).Holds off str :=
  h.congr fun j hle hlt => set_of_ne (by omega)

theorem holds_nil : b.Holds off [] ↔ b off = 0 :=
  ⟨fun h => h.ends, fun h => ⟨trivial, h⟩⟩

theorem holds_cons : b.Holds off (c :: str) ↔ b off = c ∧ b.Holds (off + 1) str := by
  have hlast : off + (c :: str).length = off + 1 + str.length := by
    rw [List.length_cons]
    omega
  constructor
  · rintro ⟨⟨hc, hstr⟩, h0⟩
    exact ⟨hc, hstr, hlast ▸ h0⟩
  · rintro ⟨hc, hstr, h0⟩
    exact ⟨⟨hc, hstr⟩, hlast ▸ h0⟩

theorem holds_append : b.Holds off (str ++ str') ↔ b.Reads off str ∧ b.Holds (off + str.length) str' := by
  have hlast : off + (str ++ str').length = off + str.length + str'.length := by
    rw [List.length_append, Nat.add_assoc]
  constructor
  · rintro ⟨hreads, h0⟩
    obtain ⟨hstr, hstr'⟩ := reads_append.mp hreads
    exact ⟨hstr, hstr', hlast ▸ h0⟩
  · rintro ⟨hstr, hstr', h0⟩
    exact ⟨reads_append.mpr ⟨hstr, hstr'⟩, hlast ▸ h0⟩

/-- A string is cut where a zero is stored. -/
theorem Reads.cut (h : b.Reads off (str ++ str')) : (b.set (off + str.length) 0).Holds off str where
  reads := (reads_append.mp h).1.set (.inr (Nat.le_refl _)) 0
  ends := set_self ..

/-- A string that is stored at the end of another. -/
theorem Holds.put (h : b.Holds off str) (str' : List UInt8) :
    (b.put (off + str.length) (str' ++ [0])).Holds off (str ++ str') := by
  rw [holds_append]
  constructor
  · exact h.reads.congr fun i _ hi => put_of_lt hi
  · have hreads : (b.put (off + str.length) (str' ++ [0])).Reads (off + str.length) (str' ++ [0]) := reads_put
    exact ⟨(reads_append.mp hreads).1, (reads_append.mp hreads).2.1⟩

/-- A string without zeros is all there is up to its end. -/
theorem Holds.unique (h : b.Holds off str) (h' : b.Holds off str') (h0 : 0 ∉ str) (h0' : 0 ∉ str') :
    str = str' := by
  induction str generalizing off str' with
  | nil =>
    cases str' with
    | nil => rfl
    | cons c' str' =>
      have hc := (holds_cons.mp h').1
      rw [holds_nil.mp h] at hc
      exact absurd (hc ▸ List.mem_cons_self) h0'
  | cons c str ih =>
    obtain ⟨hc, hstr⟩ := holds_cons.mp h
    cases str' with
    | nil =>
      rw [holds_nil.mp h'] at hc
      exact absurd (hc ▸ List.mem_cons_self) h0
    | cons c' str' =>
      obtain ⟨hc', hstr'⟩ := holds_cons.mp h'
      rw [ih hstr hstr' (List.not_mem_of_not_mem_cons h0) (List.not_mem_of_not_mem_cons h0'), ← hc, hc']

end Bytes
