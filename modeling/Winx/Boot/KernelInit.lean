import Winx.Boot.Loader

/-! # Loading the kernel

With paging on, the loader copies the segments of the kernel, which it has read
from the disk to 0x70000, to their places above 0xc0000000. Every byte goes
through the page tables that `setup_page` made. The stack of the loader, below
0x900, is left out: arguments are passed as such.
-/

namespace Winx

namespace Loader

/-- Code of the loader with paging on, on the bytes of the memory. -/
abbrev LoaderM (α : Type) := Exec Bytes Fault α

/-- The place of a byte, by the page tables in the memory. -/
def physAddr (addr : UInt32) : LoaderM ℕ := do
  let ram ← get
  let frame ← deref ((withRam ram (Memory.boot 0)).walk bootDir (addr.toNat / 4096))
  pure (4096 * frame + addr.toNat % 4096)

/-- Load a byte. -/
def loadByte (addr : UInt32) : LoaderM UInt8 := do
  let p ← physAddr addr
  let ram ← get
  pure (ram p)

/-- Store a byte. -/
def storeByte (addr : UInt32) (b : UInt8) : LoaderM Unit := do
  let p ← physAddr addr
  modify fun ram => ram.splice p 1 fun _ => b

/-- Load 16 bits into a register that is zero. -/
def loadWord (addr : UInt32) : LoaderM UInt32 := do
  let b0 ← loadByte addr
  let b1 ← loadByte (addr + 1)
  pure (UInt32.ofNat (b0.toNat + 256 * b1.toNat))

/-- Load 32 bits. -/
def loadDword (addr : UInt32) : LoaderM UInt32 := do
  let b0 ← loadByte addr
  let b1 ← loadByte (addr + 1)
  let b2 ← loadByte (addr + 2)
  let b3 ← loadByte (addr + 3)
  pure (UInt32.ofNat (b0.toNat + 256 * b1.toNat + 65536 * b2.toNat + 16777216 * b3.toNat))

/-- `rep movsb` -/
def repMovsb : ℕ → UInt32 → UInt32 → LoaderM Unit
  | 0, _, _ => pure ()
  | ecx + 1, esi, edi => do
    let b ← loadByte esi
    storeByte edi b
    repMovsb ecx (esi + 1) (edi + 1)

/-- `mem_cpy` -/
def memCpy (dst src size : UInt32) : LoaderM Unit := repMovsb size.toNat src dst

/-- `KERNEL_BIN_BASE_ADDR` -/
def kernelBinBaseAddr : UInt32 := 0x70000

/-- A turn of `.each_segment`, up to `.PTNULL`. -/
def loadSegment (ebx : UInt32) : LoaderM Unit := do
  let pType ← loadByte (ebx + 0)
  if pType = 0 then pure ()
  else do
    let size ← loadDword (ebx + 16)
    let eax ← loadDword (ebx + 4)
    let dst ← loadDword (ebx + 8)
    memCpy dst (eax + kernelBinBaseAddr) size

/-- `.each_segment`. With `ecx` 0 at the start there are 2^32 turns. -/
def eachSegment (edx : UInt32) : ℕ → UInt32 → UInt32 → LoaderM Unit
  | 0, _, _ => throw .diverged
  | fuel + 1, ecx, ebx => do
    loadSegment ebx
    let ecx := ecx - 1
    if ecx = 0 then pure () else eachSegment edx fuel ecx (ebx + edx)

/-- `kernel_init` -/
def kernelInit : LoaderM Unit := do
  let edx ← loadWord (kernelBinBaseAddr + 42)
  let ebx ← loadDword (kernelBinBaseAddr + 28)
  let ecx ← loadWord (kernelBinBaseAddr + 44)
  eachSegment edx (2 ^ 32) ecx (ebx + kernelBinBaseAddr)

/-! ## The file of the kernel -/

section Image

variable (ram : Bytes)

/-- A 16-bit field. -/
def half (off : ℕ) : ℕ := (ram off).toNat + 256 * (ram (off + 1)).toNat

/-- `e_phoff`, `e_phentsize` and `e_phnum` of the file in memory. -/
def ePhoff : ℕ := (ram.word (0x70000 + 28)).toNat

def ePhentsize : ℕ := half ram (0x70000 + 42)

def ePhnum : ℕ := half ram (0x70000 + 44)

/-- The address of a program header. -/
def phdr (i : ℕ) : ℕ := 0x70000 + ePhoff ram + ePhentsize ram * i

/-- `p_offset`, `p_vaddr` and `p_filesz` of a program header. -/
def pOffset (i : ℕ) : ℕ := (ram.word (phdr ram i + 4)).toNat

def pVaddr (i : ℕ) : ℕ := (ram.word (phdr ram i + 8)).toNat

def pFilesz (i : ℕ) : ℕ := (ram.word (phdr ram i + 16)).toNat

/-- A program header with something to load. The loader looks at the lowest byte of `p_type`. -/
def Loads (i : ℕ) : Prop := ram (phdr ram i) ≠ 0 ∧ 0 < pFilesz ram i

instance (i : ℕ) : Decidable (Loads ram i) := by unfold Loads; infer_instance

/-- The file of a kernel: the 200 sectors that were read hold its headers and segments, and the segments
go to places of their own above the loader and below the file. -/
structure KernelImage : Prop where
  nonempty : 0 < ePhnum ram
  headers : ∀ i < ePhnum ram, phdr ram i + 32 ≤ 0x89000
  inFile : ∀ i < ePhnum ram, Loads ram i → 0x70000 + pOffset ram i + pFilesz ram i ≤ 0x89000
  placed : ∀ i < ePhnum ram, Loads ram i →
    0xc0001000 ≤ pVaddr ram i ∧ pVaddr ram i + pFilesz ram i ≤ 0xc0070000
  disjoint : ∀ i < ePhnum ram, ∀ j < ePhnum ram, i ≠ j → Loads ram i → Loads ram j →
    pVaddr ram i + pFilesz ram i ≤ pVaddr ram j ∨ pVaddr ram j + pFilesz ram j ≤ pVaddr ram i

/-- A memory after the first segments were copied. -/
def copied (start : Bytes) : ℕ → Bytes
  | 0 => start
  | i + 1 =>
    if Loads ram i then
      (copied start i).splice (pVaddr ram i - 0xc0000000) (pFilesz ram i) (ram.window (0x70000 + pOffset ram i))
    else copied start i

end Image

/-! ## Memory by the page tables of the loader -/

/-- The entries that map the first megabyte. -/
structure Paged (ram : Bytes) : Prop where
  low : ram.word 0x100000 = entry 0x101
  high : ram.word (0x100000 + 4 * 768) = entry 0x101
  table : ∀ i < 256, ram.word (0x101000 + 4 * i) = entry i

section Access

variable {ram ram' : Bytes} {addr : UInt32} {n : ℕ}

theorem paged_setupPage (ram : Bytes) : Paged (setupPage ram) where
  low := @word_setupPage_boot ram 0x100 0 (by decide) (Or.inl rfl)
  high := @word_setupPage_boot ram 0x100 768 (by decide) (Or.inl rfl)
  table i hi := by
    have hword : (setupPage ram).word (4096 * 0x101 + 4 * i) = tablePhys 0x101 i :=
      word_setupPage_boot (by omega) (Or.inr ⟨rfl, hi⟩)
    rw [hword, tablePhys_low hi]

/-- Only the tables matter. -/
theorem Paged.congr (h : Paged ram) (hsame : ∀ a, 0x100000 ≤ a → ram' a = ram a) : Paged ram' := by
  have hword (off : ℕ) (hoff : 0x100000 ≤ off) : ram'.word off = ram.word off :=
    Bytes.word_congr fun j _ => hsame _ (by omega)
  exact ⟨(hword _ (by decide)).trans h.low, (hword _ (by decide)).trans h.high,
    fun i hi => (hword _ (by omega)).trans (h.table i hi)⟩

/-- The first megabyte is mapped at 0 and at 0xc0000000. -/
theorem Paged.walk (h : Paged ram) {v : ℕ} (hv : v < pteBase) (hlow : v % kernelBase < 0x100) :
    (withRam ram (Memory.boot 0)).walk bootDir v = some (v % kernelBase) := by
  unfold pteBase at hv
  unfold kernelBase at hlow ⊢
  have hmod : v % 0xc0000 = v % 1024 := by omega
  have hpde : (withRam ram (Memory.boot 0)).phys bootDir (v / 1024) = entry 0x101 := by
    rcases (by omega : v / 1024 = 0 ∨ v / 1024 = 768) with hz | hz
    · rw [hz]
      exact h.low
    · rw [hz]
      exact h.high
  have hpte : (withRam ram (Memory.boot 0)).phys 0x101 (v % 1024) = entry (v % 1024) := h.table _ (by omega)
  have hframe : entryFrame (entry 0x101) = 0x101 := entryFrame_entry (by decide)
  refine Memory.walk_eq_some.mpr ⟨?_, ?_, ?_⟩
  · rw [hpde, entryPresent_entry]
  · rw [hpde, hframe, hpte, entryPresent_entry]
  · rw [hpde, hframe, hpte, entryFrame_entry (by omega), hmod]

theorem physAddr_eq (h : Paged ram) (hlt : addr.toNat < 0xffc00000) (hlow : addr.toNat % 0xc0000000 < 0x100000) :
    physAddr addr ram = .ok (addr.toNat % 0xc0000000, ram) := by
  have hwalk := h.walk (v := addr.toNat / 4096) (by unfold pteBase; omega) (by unfold kernelBase; omega)
  refine Exec.eq_ok_iff.mpr ?_
  simp only [physAddr, Exec.post_bind, Exec.post_get, post_deref, Exec.post_pure, hwalk]
  refine ⟨fun frame hframe => ⟨?_, trivial⟩, fun hnone => by cases hnone⟩
  cases hframe
  unfold kernelBase
  omega

theorem loadByte_eq (h : Paged ram) (hlt : addr.toNat < 0xffc00000) (hlow : addr.toNat % 0xc0000000 < 0x100000) :
    loadByte addr ram = .ok (ram (addr.toNat % 0xc0000000), ram) := by
  rw [loadByte, Exec.bind_eq_ok (physAddr_eq h hlt hlow)]
  rfl

theorem storeByte_eq (h : Paged ram) (hlt : addr.toNat < 0xffc00000) (hlow : addr.toNat % 0xc0000000 < 0x100000)
    (b : UInt8) : storeByte addr b ram = .ok ((), ram.splice (addr.toNat % 0xc0000000) 1 fun _ => b) := by
  rw [storeByte, Exec.bind_eq_ok (physAddr_eq h hlt hlow)]
  rfl

/-- A byte of the first megabyte, some bytes behind an address. -/
theorem loadByte_add (h : Paged ram) {k : ℕ} (hend : addr.toNat + k < 0x100000) :
    loadByte (addr + UInt32.ofNat k) ram = .ok (ram (addr.toNat + k), ram) := by
  have hk : (UInt32.ofNat k).toNat = k := Word.toNat_ofNat (by omega)
  have hsum : (addr + UInt32.ofNat k).toNat = addr.toNat + k := by
    rw [Word.toNat_add (by omega), hk]
  rw [loadByte_eq h (by omega) (by omega), hsum, Nat.mod_eq_of_lt (by omega)]

theorem loadWord_eq (h : Paged ram) (hend : addr.toNat + 2 ≤ 0x100000) :
    loadWord addr ram = .ok (UInt32.ofNat (half ram addr.toNat), ram) := by
  have h0 : loadByte (addr + UInt32.ofNat 0) ram = _ := loadByte_add h (by omega)
  rw [show addr + UInt32.ofNat 0 = addr from UInt32.add_zero _] at h0
  have h1 : loadByte (addr + 1) ram = _ := loadByte_add (k := 1) h (by omega)
  rw [loadWord, Exec.bind_eq_ok h0, Exec.bind_eq_ok h1]
  rfl

theorem loadDword_eq (h : Paged ram) (hend : addr.toNat + 4 ≤ 0x100000) :
    loadDword addr ram = .ok (ram.word addr.toNat, ram) := by
  have h0 : loadByte (addr + UInt32.ofNat 0) ram = _ := loadByte_add h (by omega)
  rw [show addr + UInt32.ofNat 0 = addr from UInt32.add_zero _] at h0
  have h1 : loadByte (addr + 1) ram = _ := loadByte_add (k := 1) h (by omega)
  have h2 : loadByte (addr + 2) ram = _ := loadByte_add (k := 2) h (by omega)
  have h3 : loadByte (addr + 3) ram = _ := loadByte_add (k := 3) h (by omega)
  rw [loadDword, Exec.bind_eq_ok h0, Exec.bind_eq_ok h1, Exec.bind_eq_ok h2, Exec.bind_eq_ok h3]
  rfl

/-- Bytes of the first megabyte are copied to another place of it above 0xc0000000. -/
theorem repMovsb_eq (h : Paged ram) {esi edi : UInt32} {d : ℕ} (hdst : edi.toNat = 0xc0000000 + d)
    (hsrc : esi.toNat + n ≤ 0x100000) (hend : d + n ≤ 0x100000)
    (hdisj : d + n ≤ esi.toNat ∨ esi.toNat + n ≤ d) :
    repMovsb n esi edi ram = .ok ((), ram.splice d n (ram.window esi.toNat)) := by
  induction n generalizing ram esi edi d with
  | zero =>
    rw [Bytes.splice_zero_len]
    rfl
  | succ n ih =>
    have hload : loadByte esi ram = .ok (ram esi.toNat, ram) := by
      rw [loadByte_eq h (by omega) (by omega), Nat.mod_eq_of_lt (by omega)]
    have hstore : storeByte edi (ram esi.toNat) ram = .ok ((), ram.splice d 1 fun _ => ram esi.toNat) := by
      have hmod : edi.toNat % 0xc0000000 = d := by omega
      rw [storeByte_eq h (by omega) (by omega), hmod]
    have hone : (1 : UInt32).toNat = 1 := rfl
    have hesi : (esi + 1).toNat = esi.toNat + 1 := Word.toNat_add (by omega)
    have hedi : (edi + 1).toNat = edi.toNat + 1 := Word.toNat_add (by omega)
    have hfirst : (ram.splice d 1 fun _ => ram esi.toNat) = ram.splice d 1 (ram.window esi.toNat) :=
      Bytes.splice_congr fun j hj => by rw [Bytes.window_apply, Nat.lt_one_iff.mp hj, Nat.add_zero]
    have hpaged : Paged (ram.splice d 1 (ram.window esi.toNat)) :=
      h.congr fun a ha => Bytes.splice_apply_of_not_mem (by omega)
    have hrest := @ih _ hpaged (esi + 1) (edi + 1) (d + 1) (by omega) (by omega) (by omega) (by omega)
    rw [repMovsb, Exec.bind_eq_ok hload, Exec.bind_eq_ok hstore, hfirst, hrest, hesi, Nat.add_comm n 1]
    refine congrArg _ (congrArg _ (Bytes.splice_append fun j hj => ?_))
    rw [Bytes.window_apply, Bytes.window_apply, Bytes.splice_apply_of_not_mem (by omega)]
    exact congrArg ram (by omega)

end Access

/-! ## The segments one by one -/

section Segments

variable {ram ram' start : Bytes} {i : ℕ}

/-- The sectors that were read from the disk. -/
def SameFile (ram ram' : Bytes) : Prop := ∀ a, 0x70000 ≤ a → a < 0x89000 → ram' a = ram a

theorem SameFile.word (h : SameFile ram ram') {off : ℕ} (hlo : 0x70000 ≤ off) (hhi : off + 4 ≤ 0x89000) :
    ram'.word off = ram.word off :=
  Bytes.word_congr fun j _ => h _ (by omega) (by omega)

theorem SameFile.half (h : SameFile ram ram') {off : ℕ} (hlo : 0x70000 ≤ off) (hhi : off + 2 ≤ 0x89000) :
    half ram' off = half ram off := by
  unfold Loader.half
  rw [h off hlo (by omega), h (off + 1) (by omega) (by omega)]

theorem sameFile_setupPage (ram : Bytes) : SameFile ram (setupPage ram) := fun a _ ha =>
  setupPage_eqOutside ram a fun hmem => by
    have hlo := hmem.1
    omega

/-- The place of a segment in the first megabyte. -/
theorem KernelImage.exists_place (h : KernelImage ram) (hi : i < ePhnum ram) (hload : Loads ram i) :
    ∃ d, pVaddr ram i = 0xc0000000 + d ∧ 0x1000 ≤ d ∧ d + pFilesz ram i ≤ 0x70000 := by
  have hplaced := h.placed i hi hload
  obtain ⟨d, hd⟩ := Nat.exists_eq_add_of_le (m := 0xc0000000) (n := pVaddr ram i) (by omega)
  exact ⟨d, hd, by omega, by omega⟩

/-- A turn copies the segment of its header, and reads the header from the file. -/
theorem loadSegment_eq (h : KernelImage ram) (hi : i < ePhnum ram) (hpaged : Paged ram')
    (hfile : SameFile ram ram') {ebx : UInt32} (hebx : ebx.toNat = phdr ram i) :
    loadSegment ebx ram' = .ok ((), if Loads ram i then
      ram'.splice (pVaddr ram i - 0xc0000000) (pFilesz ram i) (ram.window (0x70000 + pOffset ram i))
      else ram') := by
  have hend := h.headers i hi
  have hbase : 0x70000 ≤ phdr ram i := by unfold phdr; omega
  have htype : loadByte (ebx + 0) ram' = .ok (ram (phdr ram i), ram') := by
    have hload : loadByte (ebx + UInt32.ofNat 0) ram' = _ := loadByte_add hpaged (by omega)
    rw [hebx, Nat.add_zero, hfile _ hbase (by omega)] at hload
    exact hload
  have hfield (k : ℕ) (hk : k + 4 ≤ 32) :
      loadDword (ebx + UInt32.ofNat k) ram' = .ok (ram.word (phdr ram i + k), ram') := by
    have hofNat : (UInt32.ofNat k).toNat = k := Word.toNat_ofNat (by omega)
    have hsum : (ebx + UInt32.ofNat k).toNat = phdr ram i + k := by
      rw [Word.toNat_add (by omega), hebx, hofNat]
    rw [loadDword_eq hpaged (by omega), hsum, hfile.word (by omega) (by omega)]
  have hsize : loadDword (ebx + 16) ram' = _ := hfield 16 (by omega)
  have hoff : loadDword (ebx + 4) ram' = _ := hfield 4 (by omega)
  have hdst : loadDword (ebx + 8) ram' = _ := hfield 8 (by omega)
  rw [loadSegment, Exec.bind_eq_ok htype]
  by_cases hnull : ram (phdr ram i) = 0
  · rw [if_pos hnull, if_neg fun hloads => hloads.1 hnull]
    rfl
  rw [if_neg hnull, Exec.bind_eq_ok hsize, Exec.bind_eq_ok hoff, Exec.bind_eq_ok hdst, memCpy]
  by_cases hempty : pFilesz ram i = 0
  · rw [if_neg fun hloads => absurd hloads.2 (by omega)]
    unfold pFilesz at hempty
    rw [hempty]
    rfl
  have hloads : Loads ram i := ⟨hnull, Nat.pos_of_ne_zero hempty⟩
  obtain ⟨d, hplace, hlo, hhi⟩ := h.exists_place hi hloads
  have hin := h.inFile i hi hloads
  have hsrc : (ram.word (phdr ram i + 4) + kernelBinBaseAddr).toNat = 0x70000 + pOffset ram i := by
    have hconst : kernelBinBaseAddr.toNat = 0x70000 := rfl
    unfold pOffset at hin ⊢
    rw [Word.toNat_add (by omega), hconst, Nat.add_comm]
  have hsub : pVaddr ram i - 0xc0000000 = d := by omega
  have hcopy : repMovsb (pFilesz ram i) (ram.word (phdr ram i + 4) + kernelBinBaseAddr) (ram.word (phdr ram i + 8))
      ram' = _ := repMovsb_eq hpaged hplace (by omega) (by omega) (Or.inl (by omega))
  rw [if_pos hloads, hsub]
  refine hcopy.trans (congrArg _ (congrArg _ (Bytes.splice_congr fun j hj => ?_)))
  have hlt : j < pFilesz ram i := hj
  rw [hsrc, Bytes.window_apply, Bytes.window_apply]
  exact hfile _ (by omega) (by omega)

/-- The segments go below the file and the page tables. -/
theorem copied_above (h : KernelImage ram) {n : ℕ} (hn : n ≤ ePhnum ram) {a : ℕ} (ha : 0x70000 ≤ a) :
    copied ram start n a = start a := by
  induction n with
  | zero => rfl
  | succ n ih =>
    rw [copied]
    split_ifs with hloads
    · obtain ⟨d, hplace, _, hhi⟩ := h.exists_place (i := n) (by omega) hloads
      rw [Bytes.splice_apply_of_not_mem (by omega), ih (by omega)]
    · exact ih (by omega)

/-- A byte outside of the segments. -/
theorem copied_outside {n a : ℕ} (ha : ∀ i < n, Loads ram i →
    ¬ (pVaddr ram i - 0xc0000000 ≤ a ∧ a < pVaddr ram i - 0xc0000000 + pFilesz ram i)) :
    copied ram start n a = start a := by
  induction n with
  | zero => rfl
  | succ n ih =>
    have hrest := ih fun i hi => ha i (by omega)
    rw [copied]
    split_ifs with hloads
    · rw [Bytes.splice_apply_of_not_mem (ha n (by omega) hloads), hrest]
    · exact hrest

/-- A byte of a segment stays as it was copied, as no other segment covers it. -/
theorem copied_inside (h : KernelImage ram) {n : ℕ} (hn : n ≤ ePhnum ram) (hi : i < n) (hload : Loads ram i)
    {j : ℕ} (hj : j < pFilesz ram i) :
    copied ram start n (pVaddr ram i - 0xc0000000 + j) = ram (0x70000 + pOffset ram i + j) := by
  induction n with
  | zero => omega
  | succ n ih =>
    rw [copied]
    rcases Nat.lt_succ_iff_lt_or_eq.mp hi with hlt | rfl
    · have hkept := ih (by omega) hlt
      split_ifs with hloads
      · obtain ⟨d, hplace, _, _⟩ := h.exists_place (i := i) (by omega) hload
        obtain ⟨d', hplace', _, _⟩ := h.exists_place (i := n) (by omega) hloads
        have hdisj := h.disjoint i (by omega) n (by omega) (by omega) hload hloads
        rw [Bytes.splice_apply_of_not_mem (by omega), hkept]
      · exact hkept
    · rw [if_pos hload, Bytes.splice_apply_of_mem (by omega), Bytes.window_apply, Nat.add_sub_cancel_left]

/-- A turn leads from one of these memories to the next one. -/
theorem loadSegment_copied (h : KernelImage ram) (hpaged : Paged start) (hfile : SameFile ram start)
    (hi : i < ePhnum ram) {ebx : UInt32} (hebx : ebx.toNat = phdr ram i) :
    loadSegment ebx (copied ram start i) = .ok ((), copied ram start (i + 1)) := by
  have hkept {a : ℕ} (ha : 0x70000 ≤ a) : copied ram start i a = start a := copied_above h hi.le ha
  exact loadSegment_eq h hi (hpaged.congr fun a ha => hkept (by omega))
    (fun a ha hend => (hkept ha).trans (hfile a ha hend)) hebx

/-- The turns that are left copy the segments that are left. -/
theorem eachSegment_eq (h : KernelImage ram) (hpaged : Paged start) (hfile : SameFile ram start)
    {n fuel : ℕ} (hfuel : n < fuel) {ecx edx ebx : UInt32} (hedx : edx.toNat = ePhentsize ram)
    (hecx : ecx.toNat = n + 1) (hi : i + (n + 1) = ePhnum ram) (hebx : ebx.toNat = phdr ram i) :
    eachSegment edx fuel ecx ebx (copied ram start i) = .ok ((), copied ram start (ePhnum ram)) := by
  have hone : (1 : UInt32).toNat = 1 := rfl
  have hdec : (ecx - 1).toNat = n := by
    rw [Word.toNat_sub (by omega), hone, hecx, Nat.add_sub_cancel]
  induction n generalizing i fuel ecx ebx with
  | zero =>
    obtain ⟨fuel, rfl⟩ := Nat.exists_eq_add_of_lt hfuel
    have hlast : ecx - 1 = 0 := UInt32.toNat_inj.mp hdec
    rw [eachSegment, Exec.bind_eq_ok (loadSegment_copied h hpaged hfile (by omega) hebx), if_pos hlast, ← hi]
    rfl
  | succ n ih =>
    obtain ⟨fuel, rfl⟩ : ∃ k, fuel = k + 1 := ⟨fuel - 1, by omega⟩
    have hmore : ecx - 1 ≠ 0 := Word.ne_zero_iff.mpr (by omega)
    have hnext := h.headers (i + 1) (by omega)
    have hphdr : phdr ram (i + 1) = phdr ram i + ePhentsize ram := by
      unfold phdr
      rw [Nat.mul_succ]
      omega
    rw [eachSegment, Exec.bind_eq_ok (loadSegment_copied h hpaged hfile (by omega) hebx), if_neg hmore]
    refine ih (by omega) (by omega) (by omega) ?_ ?_
    · rw [Word.toNat_add (by omega), hebx, hedx, hphdr]
    · rw [Word.toNat_sub (by omega), hone, hdec, Nat.add_sub_cancel]

theorem half_lt (ram : Bytes) (off : ℕ) : half ram off < 65536 := by
  have hlo := (ram off).toNat_lt
  have hhi := (ram (off + 1)).toNat_lt
  unfold half
  omega

/-- The loader starts with the first header and takes as many turns as there are headers. -/
theorem kernelInit_eq (h : KernelImage ram) :
    kernelInit (setupPage ram) = .ok ((), copied ram (setupPage ram) (ePhnum ram)) := by
  have hpaged := paged_setupPage ram
  have hfile := sameFile_setupPage ram
  have haddr : (kernelBinBaseAddr + 42).toNat = 0x70000 + 42 ∧ (kernelBinBaseAddr + 28).toNat = 0x70000 + 28 ∧
      (kernelBinBaseAddr + 44).toNat = 0x70000 + 44 := by decide
  have hsize : loadWord (kernelBinBaseAddr + 42) (setupPage ram) =
      .ok (UInt32.ofNat (ePhentsize ram), setupPage ram) := by
    rw [loadWord_eq hpaged (by omega), haddr.1, hfile.half (by omega) (by omega), ePhentsize]
  have hoff : loadDword (kernelBinBaseAddr + 28) (setupPage ram) =
      .ok (ram.word (0x70000 + 28), setupPage ram) := by
    rw [loadDword_eq hpaged (by omega), haddr.2.1, hfile.word (by omega) (by omega)]
  have hnum : loadWord (kernelBinBaseAddr + 44) (setupPage ram) =
      .ok (UInt32.ofNat (ePhnum ram), setupPage ram) := by
    rw [loadWord_eq hpaged (by omega), haddr.2.2, hfile.half (by omega) (by omega), ePhnum]
  have hsmall : ePhnum ram < 65536 := half_lt ram _
  have hentry : ePhentsize ram < 65536 := half_lt ram _
  have hpos := h.nonempty
  have hfirst := h.headers 0 hpos
  have hbase : (ram.word (0x70000 + 28) + kernelBinBaseAddr).toNat = phdr ram 0 := by
    have hconst : kernelBinBaseAddr.toNat = 0x70000 := rfl
    unfold phdr ePhoff at hfirst ⊢
    rw [Word.toNat_add (by omega), hconst]
    omega
  rw [kernelInit, Exec.bind_eq_ok hsize, Exec.bind_eq_ok hoff, Exec.bind_eq_ok hnum]
  refine eachSegment_eq (i := 0) (n := ePhnum ram - 1) h hpaged hfile (by omega) ?_ ?_ (by omega) hbase
  · exact Word.toNat_ofNat (by omega)
  · rw [Word.toNat_ofNat (by omega)]
    omega

/-- The kernel is in memory at the addresses it was linked for: every byte of every segment is read back
above 0xc0000000 through the page tables of the loader, and no other byte has changed since `setup_page`. -/
theorem kernelInit_loads (ram : Bytes) (h : KernelImage ram) :
    Exec.Returns kernelInit (setupPage ram) fun _ ram' =>
      (∀ i < ePhnum ram, Loads ram i → ∀ j < pFilesz ram i,
        loadByte (UInt32.ofNat (pVaddr ram i + j)) ram' = .ok (ram (0x70000 + pOffset ram i + j), ram')) ∧
      ∀ a, (∀ i < ePhnum ram, Loads ram i →
          ¬ (pVaddr ram i ≤ 0xc0000000 + a ∧ 0xc0000000 + a < pVaddr ram i + pFilesz ram i)) →
        ram' a = setupPage ram a := by
  refine (Exec.post_of_ok (kernelInit_eq h)).mpr ⟨fun i hi hload j hj => ?_, fun a ha => ?_⟩
  · have hpaged : Paged (copied ram (setupPage ram) (ePhnum ram)) :=
      (paged_setupPage ram).congr fun a ha => copied_above h le_rfl (by omega)
    obtain ⟨d, hplace, _, hend⟩ := h.exists_place hi hload
    have hinside : copied ram (setupPage ram) _ (_ + j) = _ := copied_inside h le_rfl hi hload hj
    have haddr : (UInt32.ofNat (pVaddr ram i + j)).toNat = 0xc0000000 + (d + j) := by
      rw [Word.toNat_ofNat (by omega)]
      omega
    have hsub : pVaddr ram i - 0xc0000000 = d := by omega
    rw [hsub] at hinside
    rw [loadByte_eq hpaged (by omega) (by omega), haddr, Nat.add_mod_left, Nat.mod_eq_of_lt (by omega), hinside]
  · refine copied_outside fun i hi hload hmem => ha i hi hload ?_
    obtain ⟨d, hplace, _, _⟩ := h.exists_place hi hload
    omega

/-- A file with a segment, a header with nothing to load, and a second segment. -/
def smallImage : Bytes := fun a =>
  if a = 0x7001c then 52 else if a = 0x7002a then 32 else if a = 0x7002c then 3
  -- the segment at 0xc0001500: three bytes from 0x100 on
  else if a = 0x70034 then 1 else if a = 0x70039 then 1
  else if a = 0x7003d then 0x15 else if a = 0x7003f then 0xc0 else if a = 0x70044 then 3
  -- the segment at 0xc0002000: two bytes from 0x103 on
  else if a = 0x70074 then 1 else if a = 0x70078 then 3 else if a = 0x70079 then 1
  else if a = 0x7007d then 0x20 else if a = 0x7007f then 0xc0 else if a = 0x70084 then 2
  else if 0x70100 ≤ a ∧ a < 0x70105 then UInt8.ofNat (a - 0x700ff)
  else 0

theorem kernelImage_smallImage : KernelImage smallImage := by
  have hnum : ePhnum smallImage = 3 := by decide
  have hfirst : pVaddr smallImage 0 = 0xc0001500 ∧ pFilesz smallImage 0 = 3 := by decide
  have hsecond : pVaddr smallImage 2 = 0xc0002000 ∧ pFilesz smallImage 2 = 2 := by decide
  have hnull : ¬ Loads smallImage 1 := by decide
  refine ⟨?_, ?_, ?_, ?_, ?_⟩
  · omega
  · rw [hnum]
    decide
  · rw [hnum]
    decide
  · rw [hnum]
    decide
  · intro i hi j hj hne hload hload'
    have hi1 : i ≠ 1 := fun h => hnull (h ▸ hload)
    have hj1 : j ≠ 1 := fun h => hnull (h ▸ hload')
    obtain rfl | rfl : i = 0 ∨ i = 2 := by omega
    · obtain rfl : j = 2 := by omega
      omega
    · obtain rfl : j = 0 := by omega
      omega

/-- Both segments of the file are found at their addresses. -/
theorem kernelInit_loads_smallImage : Exec.Returns kernelInit (setupPage smallImage) fun _ ram' =>
    loadByte 0xc0001502 ram' = .ok (3, ram') ∧ loadByte 0xc0002001 ram' = .ok (5, ram') := by
  have himage := kernelImage_smallImage
  have hnum : ePhnum smallImage = 3 := by decide
  have hloads : Loads smallImage 0 ∧ Loads smallImage 2 := by decide
  have hfirst : 2 < pFilesz smallImage 0 ∧ UInt32.ofNat (pVaddr smallImage 0 + 2) = 0xc0001502 ∧
      smallImage (0x70000 + pOffset smallImage 0 + 2) = 3 := by decide
  have hsecond : 1 < pFilesz smallImage 2 ∧ UInt32.ofNat (pVaddr smallImage 2 + 1) = 0xc0002001 ∧
      smallImage (0x70000 + pOffset smallImage 2 + 1) = 5 := by decide
  -- only these facts about the file are used, and the loader is not run on it
  generalize smallImage = ram at *
  refine (kernelInit_loads ram himage).mono fun _ ram' h => ⟨?_, ?_⟩
  · have hbyte := h.1 0 (by omega) hloads.1 2 hfirst.1
    rwa [hfirst.2.1, hfirst.2.2] at hbyte
  · have hbyte := h.1 2 (by omega) hloads.2 1 hsecond.1
    rwa [hsecond.2.1, hsecond.2.2] at hbyte

end Segments

end Loader

end Winx
