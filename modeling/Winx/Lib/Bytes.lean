import Mathlib.Algebra.Group.Nat.Defs
import Mathlib.Tactic.Common
import Mathlib.Data.Nat.Notation

/-! # Byte images

A byte image is the content of a memory or of a disk, addressed by byte. The
operations are those of C: copying a range between images, and reading and
storing little-endian 32-bit words. Every lemma says which bytes a copy moves
and which it leaves alone.
-/

/-- The contents of a byte-addressed memory. -/
abbrev Bytes := ℕ → UInt8

namespace Bytes

/-- The image with every byte zero. -/
def zero : Bytes := fun _ => 0

/-- The image seen from the given offset on. -/
def window (b : Bytes) (off : ℕ) : Bytes := fun i => b (off + i)

/-- Copy the first `len` bytes of `src` over `b` from offset `off` on. -/
def splice (b : Bytes) (off len : ℕ) (src : Bytes) : Bytes :=
  fun i => if off ≤ i ∧ i < off + len then src (i - off) else b i

/-- The images agree outside of a set of offsets. -/
def EqOutside (S : Set ℕ) (b c : Bytes) : Prop := ∀ i, i ∉ S → c i = b i

/-- The `i`-th byte of a little-endian word. -/
def byteOf (w : UInt32) (i : ℕ) : UInt8 := UInt8.ofNat (w.toNat / 256 ^ i)

/-- The little-endian 32-bit word stored at an offset. -/
def word (b : Bytes) (off : ℕ) : UInt32 :=
  UInt32.ofNat ((b off).toNat + 256 * (b (off + 1)).toNat + 65536 * (b (off + 2)).toNat +
    16777216 * (b (off + 3)).toNat)

/-- The image of an array of words. -/
def ofWords (w : ℕ → UInt32) : Bytes := fun i => byteOf (w (i / 4)) (i % 4)

variable {b c src : Bytes} {off len i k : ℕ}

@[simp] theorem zero_apply (i : ℕ) : zero i = 0 := rfl

@[simp] theorem window_apply (b : Bytes) (off i : ℕ) : b.window off i = b (off + i) := rfl

@[simp] theorem window_window (b : Bytes) (m n : ℕ) :
    (b.window m).window n = b.window (m + n) := by
  funext i; simp [Nat.add_assoc]

theorem splice_apply_of_mem (h : off ≤ i ∧ i < off + len) :
    b.splice off len src i = src (i - off) := if_pos h

theorem splice_apply_of_not_mem (h : ¬ (off ≤ i ∧ i < off + len)) :
    b.splice off len src i = b i := if_neg h

theorem splice_congr {src' : Bytes} (h : ∀ j < len, src j = src' j) :
    b.splice off len src = b.splice off len src' := by
  funext i
  unfold splice
  split
  · exact h _ (by omega)
  · rfl

/-- Writing back a range together with a change inside it only makes the change. -/
theorem splice_window_splice {m n : ℕ} (h : m + n ≤ len) :
    b.splice off len ((c.splice 0 len (b.window off)).splice m n src) =
      b.splice (off + m) n src := by
  funext i
  unfold splice window
  split_ifs <;> first | rfl | omega | (congr 1; omega)

@[simp] theorem splice_zero_len (b : Bytes) (off : ℕ) (src : Bytes) : b.splice off 0 src = b := by
  funext i
  exact splice_apply_of_not_mem (by omega)

/-- Copying a range in two pieces. -/
theorem splice_append {m n : ℕ} {src' : Bytes} (h : ∀ j < n, src' j = src (m + j)) :
    (b.splice off m src).splice (off + m) n src' = b.splice off (m + n) src := by
  funext i
  unfold splice
  split_ifs with h₁ h₂ h₂ h₃ <;> try first | rfl | omega
  rw [h _ (by omega)]
  exact congrArg src (by omega)

theorem EqOutside.refl (S : Set ℕ) (b : Bytes) : EqOutside S b b := fun _ _ => rfl

theorem EqOutside.trans {S : Set ℕ} {d : Bytes} (h : EqOutside S b c) (h' : EqOutside S c d) :
    EqOutside S b d := fun i hi => (h' i hi).trans (h i hi)

theorem EqOutside.mono {S T : Set ℕ} (h : EqOutside S b c) (hST : S ⊆ T) : EqOutside T b c :=
  fun i hi => h i fun hS => hi (hST hS)

/-- A copy changes nothing outside of its range. -/
theorem eqOutside_splice {S : Set ℕ} (h : ∀ i, off ≤ i → i < off + len → i ∈ S) :
    EqOutside S b (b.splice off len src) := by
  intro i hi
  exact splice_apply_of_not_mem fun ⟨hle, hlt⟩ => hi (h i hle hlt)

theorem word_congr (h : ∀ j < 4, b (off + j) = c (k + j)) : b.word off = c.word k := by
  have h0 := h 0 (by omega)
  simp only [Nat.add_zero] at h0
  simp only [word, h0, h 1 (by omega), h 2 (by omega), h 3 (by omega)]

theorem EqOutside.word_eq {S : Set ℕ} (h : EqOutside S b c) (hoff : ∀ j < 4, off + j ∉ S) :
    c.word off = b.word off :=
  word_congr fun j hj => h _ (hoff j hj)

@[simp] theorem word_window (b : Bytes) (m off : ℕ) :
    (b.window m).word off = b.word (m + off) :=
  word_congr fun j _ => by simp [Nat.add_assoc]

/-- A word outside the spliced range is unchanged. -/
theorem word_splice_of_disjoint {o : ℕ} (h : o + 4 ≤ off ∨ off + len ≤ o) :
    (b.splice off len src).word o = b.word o :=
  word_congr fun j hj => splice_apply_of_not_mem (by omega)

/-- A word inside the spliced range comes from the source. -/
theorem word_splice_of_mem {o : ℕ} (h : off ≤ o ∧ o + 4 ≤ off + len) :
    (b.splice off len src).word o = src.word (o - off) :=
  word_congr fun j hj => by
    rw [splice_apply_of_mem (by omega)]
    congr 1
    omega

theorem toNat_byteOf (w : UInt32) (i : ℕ) : (byteOf w i).toNat = w.toNat / 256 ^ i % 256 := by
  simp [byteOf, UInt8.toNat_ofNat']

/-- Reading an array of words back from its image. -/
@[simp] theorem word_ofWords (w : ℕ → UInt32) (k : ℕ) : (ofWords w).word (4 * k) = w k := by
  have hb (j : ℕ) (hj : j < 4) : ofWords w (4 * k + j) = byteOf (w k) j := by
    unfold ofWords
    rw [show (4 * k + j) / 4 = k by omega, show (4 * k + j) % 4 = j by omega]
  apply UInt32.toNat.inj
  have h0 := hb 0 (by omega)
  rw [Nat.add_zero] at h0
  simp only [word, h0, hb 1 (by omega), hb 2 (by omega), hb 3 (by omega), toNat_byteOf,
    UInt32.toNat_ofNat']
  have := (w k).toNat_lt
  omega

end Bytes
