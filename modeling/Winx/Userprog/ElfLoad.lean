import Winx.Fs.Read
import Winx.Fs.Syscall
import Winx.Userprog.PageVisits

/-! # Loading an executable

`load` reads the header of an ELF file, then its program headers one after the
other, and for each of type `PT_LOAD` the bytes of a segment. The results of the
seeks and of the reads of segments are ignored, so that the segments are in
place exactly as far as the file has their bytes.
-/

namespace Winx

namespace Elf

/-- An open file as `sys_read` and `sys_lseek` see it. -/
structure OpenFile where
  data : Bytes
  size : UInt32
  fdPos : UInt32

/-- `load` runs in the process that it loads: the file, the bytes at the addresses of the process, and its pages. -/
structure Loader where
  file : OpenFile
  space : UInt32 → UInt8
  memory : Memory

/-- Code of `exec.c`. -/
abbrev LoadM := Exec Loader Fault

/-- `Elf32_Ehdr` -/
structure Ehdr where
  eIdent : Fin 16 → UInt8
  eType : UInt16
  eMachine : UInt16
  eVersion : UInt32
  eEntry : UInt32
  ePhoff : UInt32
  eShoff : UInt32
  eFlags : UInt32
  eEhsize : UInt16
  ePhentsize : UInt16
  ePhnum : UInt16
  eShentsize : UInt16
  eShnum : UInt16
  eShstrndx : UInt16

/-- `Elf32_Phdr` -/
structure Phdr where
  pType : UInt32
  pOffset : UInt32
  pVaddr : UInt32
  pPaddr : UInt32
  pFilesz : UInt32
  pMemsz : UInt32
  pFlags : UInt32
  pAlign : UInt32
  deriving DecidableEq

/-- `PT_LOAD` -/
def ptLoad : UInt32 := 1

/-- The little-endian 16-bit word stored at an offset. -/
def half (b : Bytes) (off : ℕ) : UInt16 := UInt16.ofNat ((b off).toNat + 256 * (b (off + 1)).toNat)

/-- The bytes of a 16-bit word. -/
def halfBytes (w : UInt16) : List UInt8 := [UInt8.ofNat w.toNat, UInt8.ofNat (w.toNat / 256)]

/-- The bytes of a 32-bit word. -/
def wordBytes (w : UInt32) : List UInt8 := [Bytes.byteOf w 0, Bytes.byteOf w 1, Bytes.byteOf w 2, Bytes.byteOf w 3]

/-- The header in its place. -/
def Ehdr.ofBytes (b : Bytes) (off : ℕ) : Ehdr where
  eIdent i := b (off + i)
  eType := half b (off + 16)
  eMachine := half b (off + 18)
  eVersion := b.word (off + 20)
  eEntry := b.word (off + 24)
  ePhoff := b.word (off + 28)
  eShoff := b.word (off + 32)
  eFlags := b.word (off + 36)
  eEhsize := half b (off + 40)
  ePhentsize := half b (off + 42)
  ePhnum := half b (off + 44)
  eShentsize := half b (off + 46)
  eShnum := half b (off + 48)
  eShstrndx := half b (off + 50)

/-- A program header in its place. -/
def Phdr.ofBytes (b : Bytes) (off : ℕ) : Phdr where
  pType := b.word off
  pOffset := b.word (off + 4)
  pVaddr := b.word (off + 8)
  pPaddr := b.word (off + 12)
  pFilesz := b.word (off + 16)
  pMemsz := b.word (off + 20)
  pFlags := b.word (off + 24)
  pAlign := b.word (off + 28)

/-- The bytes of a header. -/
def Ehdr.bytes (h : Ehdr) : List UInt8 :=
  List.ofFn h.eIdent ++ (halfBytes h.eType ++ (halfBytes h.eMachine ++ (wordBytes h.eVersion ++
    (wordBytes h.eEntry ++ (wordBytes h.ePhoff ++ (wordBytes h.eShoff ++ (wordBytes h.eFlags ++
    (halfBytes h.eEhsize ++ (halfBytes h.ePhentsize ++ (halfBytes h.ePhnum ++ (halfBytes h.eShentsize ++
    (halfBytes h.eShnum ++ halfBytes h.eShstrndx))))))))))))

/-- The bytes of a program header. -/
def Phdr.bytes (p : Phdr) : List UInt8 :=
  wordBytes p.pType ++ (wordBytes p.pOffset ++ (wordBytes p.pVaddr ++ (wordBytes p.pPaddr ++
    (wordBytes p.pFilesz ++ (wordBytes p.pMemsz ++ (wordBytes p.pFlags ++ wordBytes p.pAlign))))))

/-- The bytes `l` are in an image from an offset on. -/
def Holds (b : Bytes) : ℕ → List UInt8 → Prop
  | _, [] => True
  | off, x :: l => b off = x ∧ Holds b (off + 1) l

instance decidableHolds : (b : Bytes) → (off : ℕ) → (l : List UInt8) → Decidable (Holds b off l)
  | _, _, [] => isTrue trivial
  | b, off, x :: l =>
    have := decidableHolds b (off + 1) l
    inferInstanceAs (Decidable (b off = x ∧ Holds b (off + 1) l))

/-! ## The format -/

section Format

variable {b c : Bytes} {off : ℕ} {l l' : List UInt8} {w : UInt32} {v : UInt16} {h : Ehdr} {p : Phdr}

theorem holds_append : Holds b off (l ++ l') ↔ Holds b off l ∧ Holds b (off + l.length) l' := by
  induction l generalizing off with
  | nil => simp [Holds]
  | cons x l ih => simp [Holds, ih, and_assoc, Nat.add_assoc, Nat.add_comm 1]

theorem Holds.congr (hl : Holds b off l) (h : ∀ i < l.length, c (off + i) = b (off + i)) : Holds c off l := by
  induction l generalizing off with
  | nil => trivial
  | cons x l ih =>
    obtain ⟨hx, hl⟩ := hl
    refine ⟨(h 0 (by simp)).trans hx, ih hl fun i hi => ?_⟩
    have := h (i + 1) (by simpa using hi)
    rwa [Nat.add_comm i, ← Nat.add_assoc] at this

theorem holds_window : Holds (b.window off) 0 l ↔ Holds b off l := by
  have hshift : ∀ k, Holds (b.window off) k l ↔ Holds b (off + k) l := by
    induction l with
    | nil => simp [Holds]
    | cons x l ih => simp [Holds, ih, Nat.add_assoc]
  simpa using hshift 0

theorem holds_wordBytes (b : Bytes) (off : ℕ) : Holds b off (wordBytes (b.word off)) := by
  have h0 := (b off).toNat_lt
  have h1 := (b (off + 1)).toNat_lt
  have h2 := (b (off + 2)).toNat_lt
  have h3 := (b (off + 3)).toNat_lt
  refine ⟨?_, ?_, ?_, ?_, trivial⟩ <;>
  · apply UInt8.toNat.inj
    simp only [Bytes.toNat_byteOf, Bytes.word, UInt32.toNat_ofNat', Nat.add_assoc, Nat.reduceAdd]
    omega

theorem holds_halfBytes (b : Bytes) (off : ℕ) : Holds b off (halfBytes (half b off)) := by
  have h0 := (b off).toNat_lt
  have h1 := (b (off + 1)).toNat_lt
  refine ⟨?_, ?_, trivial⟩ <;>
  · apply UInt8.toNat.inj
    simp only [half, UInt16.toNat_ofNat', UInt8.toNat_ofNat']
    omega

/-- Every 32 bytes are a program header. -/
theorem Phdr.holds_ofBytes (b : Bytes) (off : ℕ) : Holds b off (Phdr.ofBytes b off).bytes := by
  simp only [Phdr.bytes, holds_append, wordBytes, List.length_cons, List.length_nil, Nat.add_assoc, Nat.reduceAdd]
  exact ⟨holds_wordBytes b _, holds_wordBytes b _, holds_wordBytes b _, holds_wordBytes b _, holds_wordBytes b _,
    holds_wordBytes b _, holds_wordBytes b _, holds_wordBytes b _⟩

theorem holds_ofFn {n : ℕ} (b : Bytes) (off : ℕ) : Holds b off (List.ofFn fun i : Fin n => b (off + i)) := by
  induction n generalizing off with
  | zero => simp [Holds]
  | succ n ih =>
    rw [List.ofFn_succ]
    refine ⟨rfl, ?_⟩
    have hrest := ih (off + 1)
    simpa [Nat.add_assoc, Nat.add_comm 1] using hrest

/-- Every 52 bytes are a header. -/
theorem Ehdr.holds_ofBytes (b : Bytes) (off : ℕ) : Holds b off (Ehdr.ofBytes b off).bytes := by
  simp only [Ehdr.bytes, holds_append, List.length_ofFn, wordBytes, halfBytes, List.length_cons, List.length_nil,
    Nat.add_assoc, Nat.reduceAdd]
  exact ⟨holds_ofFn b _, holds_halfBytes b _, holds_halfBytes b _, holds_wordBytes b _, holds_wordBytes b _,
    holds_wordBytes b _, holds_wordBytes b _, holds_wordBytes b _, holds_halfBytes b _, holds_halfBytes b _,
    holds_halfBytes b _, holds_halfBytes b _, holds_halfBytes b _, holds_halfBytes b _⟩

end Format

/-! ## The file -/

/-- `sys_read` neither panics at the end of the largest file nor lets the end of the request wrap around. -/
def OpenFile.Readable (f : OpenFile) (count : UInt32) : Prop :=
  f.fdPos.toNat + count.toNat < 2 ^ 32 ∧
    (0 < count.toNat ∧ f.fdPos.toNat = f.size.toNat ∨
      f.fdPos.toNat + min count.toNat (f.size.toNat - f.fdPos.toNat) < 139 * 512)

instance (f : OpenFile) (count : UInt32) : Decidable (f.Readable count) :=
  inferInstanceAs (Decidable (_ ∧ _))

/-- The result of `sys_read`. -/
def OpenFile.readResult (f : OpenFile) (count : UInt32) : Int :=
  if 0 < count.toNat ∧ f.fdPos.toNat = f.size.toNat then -1
  else (min count.toNat (f.size.toNat - f.fdPos.toNat) : ℕ)

/-- The file after `sys_read`. -/
def OpenFile.advance (f : OpenFile) (count : UInt32) : OpenFile :=
  { f with fdPos := f.fdPos + UInt32.ofNat (f.readResult count).toNat }

/-- `sys_lseek` with `SEEK_SET`. -/
def OpenFile.seek (f : OpenFile) (offset : UInt32) : OpenFile :=
  if toI32 offset < 0 ∨ toI32 offset > toI32 f.size then f else { f with fdPos := offset }

/-- `sys_read`: its result, and the bytes that it read. -/
def sysRead (count : UInt32) : LoadM (Int × Bytes) := do
  let l ← get
  assert (l.file.Readable count)
  set { l with file := l.file.advance count }
  pure (l.file.readResult count, l.file.data.window l.file.fdPos.toNat)

/-- `sys_lseek` with `SEEK_SET`. -/
def sysLseek (offset : UInt32) : LoadM Unit :=
  modify fun l => { l with file := l.file.seek offset }

/-- Bytes that were stored at an address. -/
def storeBytes (space : UInt32 → UInt8) (vaddr : UInt32) (len : ℕ) (src : Bytes) : UInt32 → UInt8 :=
  fun a => if (a - vaddr).toNat < len then src (a - vaddr).toNat else space a

/-- Code that works on the pages. -/
def onMemory {α : Type} (m : MemM α) : LoadM α := fun l =>
  match m l.memory with
  | .ok (a, m') => .ok (a, { l with memory := m' })
  | .error e => .error e

/-- `segment_load` -/
def segmentLoad (offset filesz vaddr : UInt32) : LoadM Bool := do
  if ← onMemory (Segment.segmentLoad filesz vaddr) then
    sysLseek offset
    let (read, bytes) ← sysRead filesz
    modify fun l => { l with space := storeBytes l.space vaddr read.toNat bytes }
    pure true
  else pure false

/-- What `load` demands of the header. -/
def Ehdr.Accepted (h : Ehdr) : Prop :=
  (List.ofFn h.eIdent).take 7 = [0x7f, 0x45, 0x4c, 0x46, 1, 1, 1] ∧ h.eType = 2 ∧ h.eMachine = 3 ∧
    h.eVersion = 1 ∧ h.ePhnum ≤ 1024 ∧ h.ePhentsize = 32

instance (h : Ehdr) : Decidable h.Accepted :=
  inferInstanceAs (Decidable (_ ∧ _))

/-- The loop of `load` over the program headers, `false` if it fails. -/
def loadPhdrs : ℕ → UInt32 → LoadM Bool
  | 0, _ => pure true
  | n + 1, progHeaderOffset => do
    sysLseek progHeaderOffset
    let (read, bytes) ← sysRead 32
    if read = 32 then
      let progHeader := Phdr.ofBytes bytes 0
      if progHeader.pType = ptLoad then
        if ← segmentLoad progHeader.pOffset progHeader.pFilesz progHeader.pVaddr then
          loadPhdrs n (progHeaderOffset + 32)
        else pure false
      else loadPhdrs n (progHeaderOffset + 32)
    else pure false

/-- `load` between `sys_open` and `sys_close`. -/
def load : LoadM Int := do
  let (read, bytes) ← sysRead 52
  if read = 52 then
    let elfHeader := Ehdr.ofBytes bytes 0
    if elfHeader.Accepted then
      if ← loadPhdrs elfHeader.ePhnum.toNat elfHeader.ePhoff then pure (toI32 elfHeader.eEntry)
      else pure (-1)
    else pure (-1)
  else pure (-1)

section Refines

variable {s : Fs} {i : Inode} {buf : Bytes} {fd q : ℕ} {count : UInt32}

/-- A regular file behind a descriptor. -/
def OpenFile.ofFs (s : Fs) (fd : ℕ) (i : Inode) : OpenFile := ⟨fileByte s.disk i, i.iSize, (s.fileTable fd).fdPos⟩

/-- What `sys_read` is here is what `file_read` does. -/
theorem fileRead_refines (hp : (s.fileTable fd).fdInode = some q) (hi : s.inodes q = some i)
    (hfile : FileShape s.disk i) (hpos : (s.fileTable fd).fdPos.toNat ≤ i.iSize.toNat)
    (hm : s.mallocs 0 = true ∧ s.mallocs 1 = true) (hread : (OpenFile.ofFs s fd i).Readable count) :
    Exec.Returns (fileRead fd buf count) s fun r s' =>
      r.1 = (OpenFile.ofFs s fd i).readResult count ∧
      (∀ j < r.1.toNat, r.2 j = (OpenFile.ofFs s fd i).data.window (s.fileTable fd).fdPos.toNat j) ∧
      (s'.fileTable fd).fdPos = ((OpenFile.ofFs s fd i).advance count).fdPos := by
  have hiff : ReadsFile s fd i buf count := (fileRead_iff hp hi hfile hpos hm).mpr hread
  by_cases hend : 0 < count.toNat ∧ (s.fileTable fd).fdPos.toNat = i.iSize.toNat
  · have hresult : (OpenFile.ofFs s fd i).readResult count = -1 := if_pos hend
    refine (post_fileRead hp hi).mpr ⟨fun _ => ?_, fun hne => ?_⟩
    · simp only [OpenFile.advance, hresult]
      simp [OpenFile.ofFs]
    · exact absurd ((toNat_clampedCount hpos hread.1).2.mpr hend) hne
  · have hresult : (OpenFile.ofFs s fd i).readResult count =
        (min count.toNat (i.iSize.toNat - (s.fileTable fd).fdPos.toNat) : ℕ) := if_neg hend
    refine Exec.Returns.mono hiff ?_
    rintro r s' ⟨-, -, h⟩
    simp only [hend, if_false] at h
    obtain ⟨rfl, hfd⟩ := h
    refine ⟨hresult.symm, fun j hj => ?_, ?_⟩
    · simp only [Int.toNat_natCast] at hj
      exact Bytes.splice_apply_of_mem ⟨Nat.zero_le _, by omega⟩
    · apply UInt32.toNat.inj
      have hlt := i.iSize.toNat_lt
      simp only [OpenFile.advance, hresult, Int.toNat_natCast]
      rw [hfd, Word.toNat_add] <;> rw [Word.toNat_ofNat (by omega)]
      · rfl
      · simp only [OpenFile.ofFs]
        omega

theorem ofInt_toI32 (x : UInt32) : UInt32.ofInt (toI32 x) = x := by
  have hlt := x.toNat_lt
  apply UInt32.toNat.inj
  simp only [UInt32.ofInt, UInt32.toNat_ofNat', toI32]
  split <;> omega

/-- What `sys_lseek` is here is what it does on a regular file. -/
theorem lseekFile_refines {offset : UInt32} (hp : (s.fileTable fd).fdInode = some q) (hi : s.inodes q = some i) :
    Exec.Returns (lseekFile (toI32 offset) seekSet fd) s fun _ s' =>
      (s'.fileTable fd).fdPos = ((OpenFile.ofFs s fd i).seek offset).fdPos := by
  simp only [lseekFile, derefInode, Exec.Returns, Exec.post_bind, Exec.post_get, post_deref, hp, hi, ofInt_toI32,
    if_true, Exec.post_ite, Exec.post_pure, Exec.post_modify, Option.some.injEq, forall_eq', reduceCtorEq,
    false_implies, and_true]
  have hseek : (OpenFile.ofFs s fd i).seek offset = if toI32 offset < 0 ∨ toI32 offset > toI32 i.iSize
      then OpenFile.ofFs s fd i else { OpenFile.ofFs s fd i with fdPos := offset } := rfl
  constructor
  · intro hout
    rw [hseek, if_pos hout]
    rfl
  · intro hin
    rw [hseek, if_neg hin]
    simp [Fs.setFile]

end Refines

/-! ## An executable -/

/-- A segment that `load` is to load. -/
def Phdr.Loads (p : Phdr) : Prop := p.pType = ptLoad

instance (p : Phdr) : Decidable p.Loads :=
  inferInstanceAs (Decidable (p.pType = ptLoad))

/-- The address `a` is in the file part of a segment. -/
def Phdr.Covers (p : Phdr) (a : UInt32) : Prop := (a - p.pVaddr).toNat < p.pFilesz.toNat

section Load

variable {f : OpenFile} {h : Ehdr} {p : Phdr} {ps : List Phdr} {off count : UInt32} {space : UInt32 → UInt8}
  {m m' : Memory} {a : UInt32} {b : Bool}

@[simp] theorem post_onMemory {α : Type} {m : MemM α} {l : Loader} {Q : α → Loader → Prop} {E : Fault → Prop} :
    Exec.Post (onMemory m) l Q E ↔ Exec.Post m l.memory (fun a m' => Q a { l with memory := m' }) E := by
  unfold Exec.Post onMemory
  cases m l.memory <;> rfl

end Load

/-! ## Any file -/

/-- The program header `p` is in the file. -/
def OpenFile.HasPhdr (f : OpenFile) (p : Phdr) : Prop :=
  ∃ off, off + 32 ≤ f.size.toNat ∧ Holds f.data off p.bytes

/-- Only segments of headers in the file are stored, and only bytes of the file. -/
structure OnlyLoads (f : OpenFile) (space : UInt32 → UInt8) (l : Loader) : Prop where
  data : l.file.data = f.data
  size : l.file.size = f.size
  pos : l.file.fdPos.toNat ≤ f.size.toNat
  stored : ∀ a, l.space a ≠ space a → ∃ p, f.HasPhdr p ∧ p.Loads ∧ p.Covers a ∧
    ∃ k < f.size.toNat, l.space a = f.data k

section Sound

variable {f : OpenFile} {space : UInt32 → UInt8} {l : Loader} {p : Phdr} {off count : UInt32} {n : ℕ}

theorem readResult_le (hpos : f.fdPos.toNat ≤ f.size.toNat) :
    (f.readResult count).toNat ≤ count.toNat ∧ f.fdPos.toNat + (f.readResult count).toNat ≤ f.size.toNat := by
  rw [OpenFile.readResult]
  split
  · simpa using hpos
  · simp only [Int.toNat_natCast]
    omega

/-- `sys_read`, whatever the file is. -/
theorem OnlyLoads.sysRead (h : OnlyLoads f space l) : Exec.Ensures (Elf.sysRead count) l fun r l' =>
    OnlyLoads f space l' ∧ l'.space = l.space ∧ ∃ pos, r.2 = f.data.window pos ∧ r.1.toNat ≤ count.toNat ∧
      pos + r.1.toNat ≤ f.size.toNat ∧ pos = l.file.fdPos.toNat := by
  have hpos : l.file.fdPos.toNat ≤ l.file.size.toNat := by
    rw [h.size]
    exact h.pos
  obtain ⟨hle, hend⟩ : (l.file.readResult count).toNat ≤ count.toNat ∧
      l.file.fdPos.toNat + (l.file.readResult count).toNat ≤ l.file.size.toNat := readResult_le hpos
  rw [h.size] at hend
  simp only [Elf.sysRead, Exec.Ensures, Exec.post_bind, Exec.post_get, assert, Exec.post_ite, Exec.post_pure,
    Exec.post_set, Exec.post_throw, implies_true, and_true]
  intro _
  refine ⟨⟨h.data, h.size, ?_, h.stored⟩, trivial, _, by rw [h.data], hle, hend, rfl⟩
  have hlt := f.size.toNat_lt
  simp only [OpenFile.advance]
  rw [Word.toNat_add] <;> rw [Word.toNat_ofNat (by omega)] <;> omega

/-- `sys_lseek`, whatever the file is. -/
theorem OnlyLoads.sysLseek (h : OnlyLoads f space l) : Exec.Ensures (Elf.sysLseek off) l fun _ l' =>
    OnlyLoads f space l' ∧ l'.space = l.space := by
  simp only [Elf.sysLseek, Exec.Ensures, Exec.post_modify, and_true]
  have hsize := h.size
  have hlt := off.toNat_lt
  rw [OpenFile.seek]
  split
  · exact ⟨h.data, h.size, h.pos, h.stored⟩
  · rename_i hin
    refine ⟨h.data, h.size, ?_, h.stored⟩
    rw [hsize, toI32, toI32] at hin
    split at hin <;> split at hin <;> (simp only; omega)

/-- `segment_load`, whatever the file is. -/
theorem OnlyLoads.segmentLoad (h : OnlyLoads f space l) (hp : f.HasPhdr p) (hloads : p.Loads) :
    Exec.Ensures (Elf.segmentLoad p.pOffset p.pFilesz p.pVaddr) l fun _ l' => OnlyLoads f space l' := by
  simp only [Elf.segmentLoad, Exec.Ensures, Exec.post_bind, post_onMemory, Exec.post_ite]
  apply Exec.Post.mono Exec.ensures_true _ fun _ => id
  intro ok m' _
  constructor
  · intro _
    have hm : OnlyLoads f space { l with memory := m' } := ⟨h.data, h.size, h.pos, h.stored⟩
    apply Exec.Ensures.mono hm.sysLseek
    rintro _ l₁ ⟨h₁, -⟩
    apply Exec.Ensures.mono h₁.sysRead
    rintro r l₂ ⟨h₂, hspace, pos, hbytes, hle, hend, -⟩
    simp only [Exec.post_modify, Exec.post_pure]
    refine ⟨h₂.data, h₂.size, h₂.pos, fun a ha => ?_⟩
    simp only [storeBytes] at ha ⊢
    split
    · rename_i hcov
      refine ⟨p, hp, hloads, Nat.lt_of_lt_of_le hcov hle, _, Nat.lt_of_lt_of_le (Nat.add_lt_add_left hcov pos) hend, ?_⟩
      rw [hbytes, Bytes.window_apply]
    · rename_i hcov
      rw [if_neg hcov] at ha
      exact h₂.stored a ha
  · intro _
    exact ⟨h.data, h.size, h.pos, h.stored⟩

theorem OnlyLoads.loadPhdrs (h : OnlyLoads f space l) : Exec.Ensures (Elf.loadPhdrs n off) l fun _ l' =>
    OnlyLoads f space l' := by
  induction n generalizing off l with
  | zero => exact h
  | succ n ih =>
    rw [Elf.loadPhdrs]
    apply Exec.Post.bind h.sysLseek
    rintro _ l₁ ⟨h₁, -⟩
    apply Exec.Post.bind h₁.sysRead
    rintro ⟨read, bytes⟩ l₂ ⟨h₂, -, pos, hbytes, -, hend, -⟩
    simp only [Exec.post_ite]
    constructor
    · rintro rfl
      have hphdr : f.HasPhdr (Phdr.ofBytes bytes 0) := by
        refine ⟨pos, hend, ?_⟩
        rw [← holds_window, ← hbytes]
        exact Phdr.holds_ofBytes bytes 0
      constructor
      · intro hloads
        apply Exec.Post.bind (h₂.segmentLoad hphdr hloads)
        intro ok l₃ h₃
        cases ok with
        | false => exact h₃
        | true => exact ih h₃
      · intro _
        exact ih h₂
    · intro _
      exact h₂

end Sound

end Elf

end Winx
