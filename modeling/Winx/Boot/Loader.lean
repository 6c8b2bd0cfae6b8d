import Winx.Lib.Word
import Winx.Memory.Frames

/-! # The page tables of the loader

`setup_page` makes a page directory and one page table for the first megabyte,
which is mapped at 0 and at 0xc0000000. The directory is its own last entry, and
all its entries for the kernel are made here once, so that the page directories
of processes can copy them.
-/

namespace Winx

namespace Loader

/-- `PAGE_DIR_TABLE_POS` -/
def pageDirTablePos : UInt32 := 0x100000

/-- `PG_US_U | PG_RW_W | PG_P` -/
def pgFlags : UInt32 := 4 ||| 2 ||| 1

/-- `mov [addr], w` -/
def storeDword (addr w : UInt32) (ram : Bytes) : Bytes := ram.splice addr.toNat 4 (Bytes.byteOf w)

/-- `.clear_page_dir`, with `ecx` turns left. -/
def clearPageDir : ℕ → UInt32 → Bytes → Bytes
  | 0, _, ram => ram
  | ecx + 1, esi, ram => clearPageDir ecx (esi + 1) (ram.splice (pageDirTablePos + esi).toNat 1 fun _ => 0)

/-- `.create_pte`, with `ecx` turns left. -/
def createPte (ebx : UInt32) : ℕ → UInt32 → UInt32 → Bytes → Bytes
  | 0, _, _, ram => ram
  | ecx + 1, esi, edx, ram => createPte ebx ecx (esi + 1) (edx + 4096) (storeDword (ebx + esi * 4) edx ram)

/-- `.create_kernel_pde`, with `ecx` turns left. -/
def createKernelPde (ebx : UInt32) : ℕ → UInt32 → UInt32 → Bytes → Bytes
  | 0, _, _, ram => ram
  | ecx + 1, esi, eax, ram =>
    createKernelPde ebx ecx (esi + 1) (eax + 0x1000) (storeDword (ebx + esi * 4) eax ram)

/-- `setup_page` -/
def setupPage (ram : Bytes) : Bytes :=
  let ram := clearPageDir 4096 0 ram
  let eax := pageDirTablePos + 0x1000
  let ebx := eax
  let eax := eax ||| pgFlags
  let ram := storeDword (pageDirTablePos + 0x0) eax ram
  let ram := storeDword (pageDirTablePos + 0xc00) eax ram
  let eax := eax - 0x1000
  let ram := storeDword (pageDirTablePos + 4092) eax ram
  let ram := createPte ebx 256 0 pgFlags ram
  let eax := (pageDirTablePos + 0x2000) ||| pgFlags
  createKernelPde pageDirTablePos 254 769 eax ram

/-- The memory of the machine with the bytes of `ram` in it. -/
def withRam (ram : Bytes) (m : Memory) : Memory :=
  { m with phys := fun frame i => ram.word (4096 * frame + 4 * i) }

section Stores

variable {ram : Bytes} {n k : ℕ} {w ebx addr : UInt32}

theorem word_byteOf (w : UInt32) : Bytes.word (Bytes.byteOf w) 0 = w := by
  have hword := Bytes.word_ofWords (fun _ => w) 0
  refine Eq.trans (Bytes.word_congr fun j hj => ?_) hword
  have hmod : (4 * 0 + j) % 4 = j := by omega
  rw [Bytes.ofWords, hmod, Nat.zero_add]

/-- The words after one is stored. -/
theorem word_storeDword (haddr : addr.toNat = 4 * k) (j : ℕ) :
    (storeDword addr w ram).word (4 * j) = if j = k then w else ram.word (4 * j) := by
  rw [storeDword, haddr]
  split
  · rename_i hj
    rw [hj, Bytes.word_splice_of_mem (by omega), Nat.sub_self, word_byteOf]
  · exact Bytes.word_splice_of_disjoint (by omega)

theorem storeDword_eqOutside (haddr : addr.toNat = 4 * k) :
    Bytes.EqOutside {a | 4 * k ≤ a ∧ a < 4 * k + 4} ram (storeDword addr w ram) := by
  rw [storeDword, haddr]
  exact Bytes.eqOutside_splice fun a hlo hhi => ⟨hlo, hhi⟩

theorem entry_eq {frame : ℕ} (h : frame < 2 ^ 20) : entry frame = UInt32.ofNat (4096 * frame + 7) := by
  rw [← UInt32.toNat_inj, Word.toNat_ofNat (by omega), entry, UInt32.toNat_or, UInt32.toNat_or, UInt32.toNat_or,
    Word.toNat_ofNat (by omega), Nat.or_assoc, Nat.or_assoc]
  exact (Nat.two_pow_add_eq_or_of_lt (i := 12) (by decide) frame).symm

/-- The directory is cleared byte by byte. -/
theorem clearPageDir_eq {i : ℕ} (h : i + n ≤ 4096) :
    clearPageDir n (UInt32.ofNat i) ram = ram.splice (0x100000 + i) n fun _ => 0 := by
  induction n generalizing i ram with
  | zero => exact (Bytes.splice_zero_len ..).symm
  | succ n ih =>
    have haddr : (pageDirTablePos + UInt32.ofNat i).toNat = 0x100000 + i := by
      have hi : (UInt32.ofNat i).toNat = i := Word.toNat_ofNat (by omega)
      have hpos : pageDirTablePos.toNat = 0x100000 := rfl
      rw [Word.toNat_add (by omega), hi, hpos]
    have hnext : UInt32.ofNat i + 1 = UInt32.ofNat (i + 1) := Word.ofNat_add i 1
    rw [clearPageDir, haddr, hnext, ih (by omega), ← Nat.add_assoc, Nat.add_comm n 1]
    exact Bytes.splice_append fun _ _ => rfl

theorem word_clearPageDir (j : ℕ) : (clearPageDir 4096 0 ram).word (4 * j) =
    if 0x40000 ≤ j ∧ j < 0x40400 then 0 else ram.word (4 * j) := by
  have heq : clearPageDir 4096 0 ram = ram.splice (0x100000 + 0) 4096 fun _ => 0 := clearPageDir_eq (by decide)
  rw [heq]
  split
  · exact (Bytes.word_splice_of_mem (by omega)).trans rfl
  · exact Bytes.word_splice_of_disjoint (by omega)

/-- The two loops that make entries do the same. -/
theorem createKernelPde_eq (ebx : UInt32) (n : ℕ) (esi eax : UInt32) :
    createKernelPde ebx n esi eax ram = createPte ebx n esi eax ram := by
  induction n generalizing esi eax ram with
  | zero => rfl
  | succ n ih => exact ih ..

/-- The address of an entry. -/
theorem toNat_entryAddr {i : ℕ} (hebx : ebx.toNat = 4 * k) (hk : k < 2 ^ 20) (hi : i < 2 ^ 20) :
    (ebx + UInt32.ofNat i * 4).toNat = 4 * (k + i) := by
  have hfour : (4 : UInt32).toNat = 4 := rfl
  have hi' : (UInt32.ofNat i).toNat = i := Word.toNat_ofNat (by omega)
  have hmul : (UInt32.ofNat i * 4).toNat = 4 * i := by
    rw [Word.toNat_mul (by rw [hi', hfour]; omega), hi', hfour, Nat.mul_comm]
  rw [Word.toNat_add (by omega), hmul, hebx]
  omega

/-- The entries of a table map the frames from one on. -/
theorem word_createPte {i frame : ℕ} (hebx : ebx.toNat = 4 * k) (hk : k < 2 ^ 20) (hi : i + n ≤ 1024)
    (hframe : frame + n ≤ 2 ^ 20) (j : ℕ) :
    (createPte ebx n (UInt32.ofNat i) (UInt32.ofNat (4096 * frame + 7)) ram).word (4 * j) =
      if k + i ≤ j ∧ j < k + i + n then entry (frame + (j - (k + i))) else ram.word (4 * j) := by
  induction n generalizing i frame ram with
  | zero => rw [createPte, if_neg (by omega)]
  | succ n ih =>
    have hnext : UInt32.ofNat i + 1 = UInt32.ofNat (i + 1) := Word.ofNat_add i 1
    have hframe' : UInt32.ofNat (4096 * frame + 7) + 4096 = UInt32.ofNat (4096 * (frame + 1) + 7) := by
      rw [show 4096 * (frame + 1) + 7 = 4096 * frame + 7 + 4096 by omega]
      exact Word.ofNat_add _ 4096
    rw [createPte, hnext, hframe', ih (by omega) (by omega),
      word_storeDword (toNat_entryAddr hebx hk (by omega))]
    by_cases hlater : k + (i + 1) ≤ j ∧ j < k + (i + 1) + n
    · rw [if_pos hlater, if_pos (by omega)]
      exact congrArg entry (by omega)
    · rw [if_neg hlater]
      by_cases hj : j = k + i
      · rw [if_pos hj, if_pos (by omega), hj, Nat.sub_self, entry_eq (by omega)]
        rfl
      · rw [if_neg hj, if_neg (by omega)]

/-- The entries of a table are all that a loop stores. -/
theorem createPte_eqOutside {i : ℕ} (hebx : ebx.toNat = 4 * k) (hk : k < 2 ^ 20) (hi : i + n ≤ 1024) (edx : UInt32) :
    Bytes.EqOutside {a | 4 * (k + i) ≤ a ∧ a < 4 * (k + i + n)} ram (createPte ebx n (UInt32.ofNat i) edx ram) := by
  induction n generalizing i edx ram with
  | zero => exact Bytes.EqOutside.refl _ _
  | succ n ih =>
    have hnext : UInt32.ofNat i + 1 = UInt32.ofNat (i + 1) := Word.ofNat_add i 1
    rw [createPte, hnext]
    refine Bytes.EqOutside.trans ?_ (Bytes.EqOutside.mono (ih (by omega) _) ?_)
    · refine Bytes.EqOutside.mono (storeDword_eqOutside (toNat_entryAddr hebx hk (by omega))) ?_
      intro a ha
      have hlo := ha.1
      have hhi := ha.2
      exact ⟨hlo, by omega⟩
    · intro a ha
      have hlo := ha.1
      have hhi := ha.2
      exact ⟨by omega, by omega⟩

end Stores

section SetupPage

variable {ram : Bytes}

/-- `setup_page` with the values of its registers. -/
theorem setupPage_eq (ram : Bytes) : setupPage ram =
    createPte 0x100000 254 (UInt32.ofNat 769) (UInt32.ofNat (4096 * 0x102 + 7))
      (createPte 0x101000 256 (UInt32.ofNat 0) (UInt32.ofNat (4096 * 0 + 7))
        (storeDword 0x100ffc 0x100007 (storeDword 0x100c00 0x101007 (storeDword 0x100000 0x101007
          (clearPageDir 4096 0 ram))))) :=
  createKernelPde_eq ..

/-- The words of the directory and of the page table. -/
theorem word_setupPage (j : ℕ) : (setupPage ram).word (4 * j) =
    if 0x40000 + 769 ≤ j ∧ j < 0x40000 + 1023 then entry (0x102 + (j - (0x40000 + 769)))
    else if 0x40400 ≤ j ∧ j < 0x40400 + 256 then entry (j - 0x40400)
    else if j = 0x40000 + 1023 then entry 0x100
    else if j = 0x40000 + 768 then entry 0x101
    else if j = 0x40000 then entry 0x101
    else if 0x40000 ≤ j ∧ j < 0x40400 then 0
    else ram.word (4 * j) := by
  rw [setupPage_eq, word_createPte (k := 0x40000) rfl (by decide) (by decide) (by decide),
    word_createPte (k := 0x40400) rfl (by decide) (by decide) (by decide),
    word_storeDword (k := 0x40000 + 1023) rfl, word_storeDword (k := 0x40000 + 768) rfl,
    word_storeDword (k := 0x40000) rfl, word_clearPageDir, Nat.zero_add]
  rfl

/-- Nothing but the directory and the page table is stored. -/
theorem setupPage_eqOutside (ram : Bytes) :
    Bytes.EqOutside {a | 0x100000 ≤ a ∧ a < 0x101400} ram (setupPage ram) := by
  have hclear : clearPageDir 4096 0 ram = ram.splice (0x100000 + 0) 4096 fun _ => 0 := clearPageDir_eq (by decide)
  rw [setupPage_eq, hclear]
  have hsplice : Bytes.EqOutside {a | 0x100000 ≤ a ∧ a < 0x101400} ram
      (ram.splice (0x100000 + 0) 4096 fun _ => 0) :=
    Bytes.eqOutside_splice fun a hlo hhi => ⟨hlo, by omega⟩
  refine hsplice.trans ?_
  have hdword (b : Bytes) (addr w : UInt32) (k : ℕ) (haddr : addr.toNat = 4 * k) (hlo : 0x40000 ≤ k)
      (hhi : k < 0x40500) : Bytes.EqOutside {a | 0x100000 ≤ a ∧ a < 0x101400} b (storeDword addr w b) := by
    refine (storeDword_eqOutside haddr).mono ?_
    rintro a ⟨hlo', hhi'⟩
    exact ⟨by omega, by omega⟩
  have hloop (b : Bytes) (ebx edx : UInt32) (k n i : ℕ) (hebx : ebx.toNat = 4 * k) (hi : i + n ≤ 1024)
      (hlo : 0x40000 ≤ k + i) (hhi : k + i + n ≤ 0x40500) :
      Bytes.EqOutside {a | 0x100000 ≤ a ∧ a < 0x101400} b (createPte ebx n (UInt32.ofNat i) edx b) := by
    refine (createPte_eqOutside hebx (by omega) hi edx).mono ?_
    rintro a ⟨hlo', hhi'⟩
    exact ⟨by omega, by omega⟩
  refine (hdword _ 0x100000 0x101007 0x40000 rfl (by decide) (by decide)).trans ?_
  refine (hdword _ 0x100c00 0x101007 0x40300 rfl (by decide) (by decide)).trans ?_
  refine (hdword _ 0x100ffc 0x100007 0x403ff rfl (by decide) (by decide)).trans ?_
  refine (hloop _ 0x101000 (UInt32.ofNat (4096 * 0 + 7)) 0x40400 256 0 rfl (by omega) (by omega) (by omega)).trans ?_
  exact hloop _ 0x100000 (UInt32.ofNat (4096 * 0x102 + 7)) 0x40000 254 769 rfl (by omega) (by omega) (by omega)

/-- The tables that the machine starts with. -/
def tablePhys (frame i : ℕ) : UInt32 := (Memory.boot 0).phys frame i

/-- The table of the first megabyte. -/
theorem tablePhys_low {i : ℕ} (hi : i < 256) : tablePhys 0x101 i = entry i := by
  have hne : ¬ 0x101 = bootDir := by decide
  simp only [tablePhys, Memory.boot]
  rw [if_neg hne, if_pos ⟨trivial, hi⟩]

/-- The words that `setup_page` stores are those that the machine starts with. -/
theorem word_setupPage_boot {frame i : ℕ} (hi : i < 1024) (hframe : frame = bootDir ∨ frame = 0x101 ∧ i < 256) :
    (setupPage ram).word (4096 * frame + 4 * i) = tablePhys frame i := by
  have hword : (setupPage ram).word (4 * (1024 * frame + i)) = _ := word_setupPage _
  rw [show 4 * (1024 * frame + i) = 4096 * frame + 4 * i by omega] at hword
  rw [hword]
  simp only [tablePhys, Memory.boot]
  unfold bootDir at hframe ⊢
  rcases hframe with rfl | ⟨rfl, hi'⟩
  · obtain rfl | rfl | rfl | hmid | hlow : i = 0 ∨ i = 768 ∨ i = 1023 ∨ (769 ≤ i ∧ i < 1023) ∨ (0 < i ∧ i < 768) := by
      omega
    · rfl
    · rfl
    · rfl
    · rw [if_pos (by omega), if_pos rfl, if_neg (by omega), if_neg (by omega), if_pos (by omega)]
      exact congrArg entry (by omega)
    · rw [if_neg (by omega), if_neg (by omega), if_neg (by omega), if_neg (by omega), if_neg (by omega),
        if_pos (by omega), if_pos rfl, if_neg (by omega), if_neg (by omega), if_neg (by omega)]
  · rw [if_neg (by omega), if_pos (by omega), if_neg (by decide), if_pos ⟨rfl, hi'⟩]
    exact congrArg entry (by omega)

end SetupPage

end Loader

end Winx
