import Mathlib.Algebra.Group.Nat.Defs
import Mathlib.Data.List.Nodup
import Mathlib.Data.Nat.Basic
import Mathlib.Tactic.Common

/-! # The pages of a segment

`segment_load` counts the pages of a segment from its start and its size, in 32-bit arithmetic,
and goes through them from the first one on. They are the pages that the bytes of the segment
are in.
-/

namespace Winx

namespace Segment

/-- `occupy_pages`. For a segment from the first page up to the end of memory the sum before the
division wraps to 0, and the decrement wraps it back. -/
def occupyPages (filesz vaddr : UInt32) : UInt32 :=
  let sizeInFirstPage := 4096 - (vaddr &&& 0x00000fff)
  if filesz > sizeInFirstPage then
    let leftSize := filesz - sizeInFirstPage
    (leftSize + 4096 - 1) / 4096 + 1
  else 1

/-- `vaddr_first_page` -/
def vaddrFirstPage (vaddr : UInt32) : UInt32 := vaddr &&& 0xfffff000

/-- The values of `vaddr_page` in the loop. -/
def pagesFrom : ℕ → UInt32 → List UInt32
  | 0, _ => []
  | n + 1, vaddrPage => vaddrPage :: pagesFrom n (vaddrPage + 4096)

/-- The pages that the loop visits. -/
def segmentPages (filesz vaddr : UInt32) : List UInt32 :=
  pagesFrom (occupyPages filesz vaddr).toNat (vaddrFirstPage vaddr)

/-- The page of the last byte of a segment. -/
def lastPage (filesz vaddr : UInt32) : ℕ := (vaddr.toNat + filesz.toNat - 1) / 4096

variable {filesz vaddr p : UInt32} {q n : ℕ}

theorem toNat_vaddrFirstPage (vaddr : UInt32) : (vaddrFirstPage vaddr).toNat = 4096 * (vaddr.toNat / 4096) := by
  have hlt := vaddr.toNat_lt
  have hmask : (0xfffff000 : UInt32).toNat = (2 ^ 20 - 1) * 2 ^ 12 := by decide
  have hpow : 4096 * (vaddr.toNat / 4096) = vaddr.toNat / 2 ^ 12 * 2 ^ 12 := Nat.mul_comm _ _
  rw [vaddrFirstPage, UInt32.toNat_and, hmask, hpow]
  apply Nat.eq_of_testBit_eq
  intro i
  rw [Nat.testBit_and, Nat.testBit_mul_two_pow, Nat.testBit_mul_two_pow, Nat.testBit_two_pow_sub_one,
    Nat.testBit_div_two_pow]
  by_cases hi : 12 ≤ i
  · rw [Nat.sub_add_cancel hi]
    by_cases hi' : i < 32
    · have hlow : i - 12 < 20 := by omega
      simp [hi, hlow]
    · have hzero : vaddr.toNat.testBit i = false :=
        Nat.testBit_lt_two_pow (Nat.lt_of_lt_of_le hlt (Nat.pow_le_pow_right (by decide) (by omega)))
      simp [hzero]
  · simp [hi]

theorem toNat_offset (vaddr : UInt32) : (vaddr &&& 0x00000fff).toNat = vaddr.toNat % 4096 := by
  rw [UInt32.toNat_and]
  exact Nat.and_two_pow_sub_one_eq_mod vaddr.toNat 12

theorem toNat_sizeInFirstPage (vaddr : UInt32) :
    (4096 - (vaddr &&& 0x00000fff)).toNat = 4096 - vaddr.toNat % 4096 := by
  have hle : vaddr.toNat % 4096 ≤ 4096 := Nat.le_of_lt (Nat.mod_lt _ (by decide))
  have hsize : (4096 : UInt32).toNat = 4096 := rfl
  rw [UInt32.toNat_sub, toNat_offset, hsize]
  omega

/-- The page count is exact. -/
theorem toNat_occupyPages (hpos : 1 ≤ filesz.toNat) (hend : vaddr.toNat + filesz.toNat ≤ 2 ^ 32) :
    (occupyPages filesz vaddr).toNat = lastPage filesz vaddr - vaddr.toNat / 4096 + 1 := by
  have hfirst := toNat_sizeInFirstPage vaddr
  have hlt := filesz.toNat_lt
  unfold occupyPages lastPage
  dsimp only
  generalize 4096 - (vaddr &&& 0x00000fff) = sizeInFirstPage at hfirst ⊢
  split
  · rename_i hmore
    have hmore : sizeInFirstPage.toNat < filesz.toNat := hmore
    rw [UInt32.toNat_add, UInt32.toNat_div, UInt32.toNat_sub, UInt32.toNat_add, UInt32.toNat_sub]
    simp only [UInt32.reduceToNat]
    rw [hfirst] at hmore ⊢
    omega
  · rename_i hless
    have hless : filesz.toNat ≤ sizeInFirstPage.toNat := Nat.le_of_not_lt hless
    rw [UInt32.toNat_one]
    omega

/-- The values of `vaddr_page` are the starts of consecutive pages. -/
theorem map_pagesFrom (hp : p.toNat = 4096 * q) (hend : q + n ≤ 2 ^ 20) :
    (pagesFrom n p).map (·.toNat) = (List.range' q n).map (4096 * ·) := by
  induction n generalizing p q with
  | zero => rfl
  | succ n ih =>
    rw [pagesFrom, List.range'_succ, List.map_cons, List.map_cons, hp]
    cases n with
    | zero => rfl
    | succ n =>
      have hnext : (p + 4096).toNat = 4096 * (q + 1) := by
        have hsize : (4096 : UInt32).toNat = 4096 := rfl
        rw [UInt32.toNat_add, hp, hsize]
        omega
      rw [ih hnext (by omega)]

/-- The pages of a segment are those between the pages of its first and of its last byte. -/
theorem map_segmentPages (hpos : 1 ≤ filesz.toNat) (hend : vaddr.toNat + filesz.toNat ≤ 2 ^ 32) :
    (segmentPages filesz vaddr).map (·.toNat) =
      (List.range' (vaddr.toNat / 4096) (lastPage filesz vaddr - vaddr.toNat / 4096 + 1)).map (4096 * ·) := by
  rw [segmentPages, toNat_occupyPages hpos hend]
  apply map_pagesFrom (toNat_vaddrFirstPage vaddr)
  unfold lastPage
  omega

/-- The bytes of a segment are in the pages between the first and the last. -/
theorem exists_byte_iff (hpos : 1 ≤ filesz.toNat) {k : ℕ} :
    (∃ x, vaddr.toNat ≤ x ∧ x < vaddr.toNat + filesz.toNat ∧ x / 4096 = k) ↔
      vaddr.toNat / 4096 ≤ k ∧ k ≤ lastPage filesz vaddr := by
  unfold lastPage
  constructor
  · rintro ⟨x, hlo, hhi, rfl⟩
    omega
  · rintro ⟨hlo, hhi⟩
    rcases Nat.lt_or_ge (4096 * k) vaddr.toNat with hlt | hge
    · exact ⟨vaddr.toNat, Nat.le_refl _, by omega, by omega⟩
    · exact ⟨4096 * k, hge, by omega, by omega⟩

/-- The loop visits every page that a byte of the segment is in, and no other, once. -/
theorem segmentPages_spec (hpos : 1 ≤ filesz.toNat) (hend : vaddr.toNat + filesz.toNat ≤ 2 ^ 32) :
    (segmentPages filesz vaddr).Nodup ∧ ∀ p : UInt32, p ∈ segmentPages filesz vaddr ↔
      p.toNat % 4096 = 0 ∧ ∃ x, vaddr.toNat ≤ x ∧ x < vaddr.toNat + filesz.toNat ∧ x / 4096 = p.toNat / 4096 := by
  have hmap := map_segmentPages hpos hend
  constructor
  · apply List.Nodup.of_map (·.toNat)
    rw [hmap]
    apply List.Nodup.map (f := fun k => 4096 * k)
    · exact fun i j hij => Nat.eq_of_mul_eq_mul_left (by decide : 0 < 4096) hij
    · exact List.nodup_range'
  · intro p
    have hmem : p ∈ segmentPages filesz vaddr ↔ p.toNat ∈ (segmentPages filesz vaddr).map (·.toNat) :=
      (List.mem_map_of_injective fun _ _ => UInt32.toNat_inj.mp).symm
    have hpage : vaddr.toNat / 4096 ≤ lastPage filesz vaddr := by
      unfold lastPage
      omega
    rw [exists_byte_iff hpos, hmem, hmap, List.mem_map]
    constructor
    · rintro ⟨k, hk, heq⟩
      rw [List.mem_range'_1] at hk
      omega
    · rintro ⟨hmod, hlo, hhi⟩
      refine ⟨p.toNat / 4096, List.mem_range'_1.mpr ?_, ?_⟩
      · omega
      · omega

end Segment
end Winx
