import Mathlib.Data.List.Infix
import Mathlib.Tactic.NormNum
import Winx.Lib.Bytes

/-! # The console

`put_char` works on the text memory of 25 rows of 80 cells, two bytes a cell, and on
the cursor kept in two registers of the display controller. Its arithmetic is that of
the 16-bit register `bx`. As long as no backspace is sent while the cursor is in the
first cell, the cursor stays on the screen and every store goes to a cell of it.
-/

namespace Winx

/-- The text memory, the cursor of the display controller and the offsets stored to. -/
structure Screen where
  video : Bytes
  cursor : UInt16
  stores : List ℕ

namespace Screen

/-- Store `len` bytes of `src` from an offset on. -/
def store (off len : ℕ) (src : Bytes) (s : Screen) : Screen :=
  { s with video := s.video.splice off len src, stores := List.range' off len ++ s.stores }

/-- `mov byte [gs:off], b`. -/
def storeByte (off : UInt16) (b : UInt8) (s : Screen) : Screen :=
  s.store off.toNat 1 fun _ => b

/-- `.set_cursor`: the two halves of `bx` go to the registers 0x0e and 0x0f. -/
def setCursor (bx : UInt16) (s : Screen) : Screen :=
  { s with cursor := bx }

/-- `rep movsd` between offsets of the text memory. -/
def repMovsd : ℕ → ℕ → ℕ → Screen → Screen
  | 0, _, _, s => s
  | ecx + 1, esi, edi, s =>
    repMovsd ecx (esi + 4) (edi + 4) (s.store edi 4 (s.video.window esi))

/-- `.cls`: store blanks, `ecx` cells from `ebx` on. -/
def cls : ℕ → ℕ → Screen → Screen
  | 0, _, s => s
  | ecx + 1, ebx, s => cls ecx (ebx + 2) (s.store ebx 2 fun i => if i = 0 then 0x20 else 0x07)

/-- `.roll_screen`: every row moves up by one and the last one is blank. -/
def rollScreen (s : Screen) : Screen :=
  setCursor 1920 (cls 80 3840 (repMovsd 960 0xa0 0 s))

/-- The signed comparison of `cmp bx, 2000` and `jl`. -/
def jumpsLess (bx : UInt16) : Prop := bx.toBitVec.toInt < 2000

instance : DecidablePred jumpsLess := fun bx => inferInstanceAs (Decidable (bx.toBitVec.toInt < 2000))

/-- `.is_line_feed` and `.is_carriage_return`: the first cell of the next row. -/
def isLineFeed (bx : UInt16) (s : Screen) : Screen :=
  let dx := bx % 80
  let bx := bx - dx + 80
  if jumpsLess bx then setCursor bx s else rollScreen s

/-- `.is_backspace`: the cell before is blanked. -/
def isBackspace (bx : UInt16) (s : Screen) : Screen :=
  let bx := (bx - 1) <<< 1
  let s := s.storeByte bx 0x20
  let bx := bx + 1
  let s := s.storeByte bx 0x07
  setCursor (bx >>> 1) s

/-- `.put_other`: the character goes to the cell, and on from the last cell with a line feed. -/
def putOther (cl : UInt8) (bx : UInt16) (s : Screen) : Screen :=
  let bx := bx <<< 1
  let s := s.storeByte bx cl
  let bx := bx + 1
  let s := s.storeByte bx 0x07
  let bx := bx >>> 1 + 1
  if jumpsLess bx then setCursor bx s else isLineFeed bx s

/-- `put_char`, which is also what the system call `sys_putchar` does. -/
def putChar (cl : UInt8) (s : Screen) : Screen :=
  let bx := s.cursor
  if cl = 0x0d then isLineFeed bx s
  else if cl = 0x0a then isLineFeed bx s
  else if cl = 0x08 then isBackspace bx s
  else putOther cl bx s

/-- The screen after some characters. -/
def putChars (cs : List UInt8) (s : Screen) : Screen := cs.foldl (fun s c => s.putChar c) s

/-- All stores so far were to the bytes of the 2000 cells. -/
def StoresOk (s : Screen) : Prop := ∀ off ∈ s.stores, off < 4000

/-- The cursor is in one of the cells and only they have been stored to. -/
structure OnScreen (s : Screen) : Prop where
  cursor_lt : s.cursor.toNat < 2000
  stores : s.StoresOk

variable {s : Screen} {bx : UInt16} {cl : UInt8} {cs : List UInt8}

@[simp] theorem cursor_store (off len : ℕ) (src : Bytes) : (s.store off len src).cursor = s.cursor := rfl

@[simp] theorem cursor_storeByte (off : UInt16) (b : UInt8) : (s.storeByte off b).cursor = s.cursor := rfl

@[simp] theorem cursor_setCursor : (s.setCursor bx).cursor = bx := rfl

@[simp] theorem stores_setCursor : (s.setCursor bx).stores = s.stores := rfl

theorem mem_stores_store {off len i : ℕ} {src : Bytes} :
    i ∈ (s.store off len src).stores ↔ (off ≤ i ∧ i < off + len) ∨ i ∈ s.stores := by
  change i ∈ List.range' off len ++ s.stores ↔ _
  rw [List.mem_append, List.mem_range'_1]

theorem mem_stores_storeByte {off : UInt16} {b : UInt8} {i : ℕ} :
    i ∈ (s.storeByte off b).stores ↔ i = off.toNat ∨ i ∈ s.stores := by
  unfold storeByte
  rw [mem_stores_store]
  constructor
  · rintro (h | h)
    · exact .inl (by omega)
    · exact .inr h
  · rintro (h | h)
    · exact .inl (by omega)
    · exact .inr h

theorem putChars_append (cs cs' : List UInt8) :
    putChars (cs ++ cs') s = putChars cs' (putChars cs s) := List.foldl_append

/-! ## The stores of one character -/

theorem StoresOk.store (h : s.StoresOk) {off len : ℕ} (hlt : off + len ≤ 4000) (src : Bytes) :
    (s.store off len src).StoresOk := by
  intro i hi
  rcases mem_stores_store.mp hi with hnew | hold
  · omega
  · exact h i hold

theorem StoresOk.storeByte (h : s.StoresOk) {off : UInt16} (hlt : off.toNat < 4000) (b : UInt8) :
    (s.storeByte off b).StoresOk := h.store hlt _

theorem StoresOk.setCursor (h : s.StoresOk) (bx : UInt16) : (s.setCursor bx).StoresOk := h

theorem StoresOk.repMovsd {ecx esi edi : ℕ} (h : s.StoresOk) (hlt : edi + 4 * ecx ≤ 4000) :
    (repMovsd ecx esi edi s).StoresOk := by
  induction ecx generalizing esi edi s with
  | zero => exact h
  | succ ecx ih =>
    apply ih
    · exact h.store (by omega) _
    · omega

theorem StoresOk.cls {ecx ebx : ℕ} (h : s.StoresOk) (hlt : ebx + 2 * ecx ≤ 4000) :
    (cls ecx ebx s).StoresOk := by
  induction ecx generalizing ebx s with
  | zero => exact h
  | succ ecx ih =>
    apply ih
    · exact h.store (by omega) _
    · omega

theorem StoresOk.rollScreen (h : s.StoresOk) : s.rollScreen.StoresOk := by
  have hrows : (Screen.repMovsd 960 0xa0 0 s).StoresOk := h.repMovsd (by norm_num)
  exact (hrows.cls (by norm_num)).setCursor 1920

/-! ## The cursor of one character -/

theorem toNat_shiftLeft_one (h : bx.toNat < 2 ^ 15) : (bx <<< 1).toNat = 2 * bx.toNat := by
  rw [UInt16.toNat_shiftLeft]
  change bx.toNat <<< 1 % 2 ^ 16 = _
  rw [Nat.shiftLeft_eq]
  omega

theorem toNat_shiftRight_one : (bx >>> 1).toNat = bx.toNat / 2 := by
  rw [UInt16.toNat_shiftRight]
  exact Nat.shiftRight_eq_div_pow _ 1

theorem toNat_add_one (h : bx.toNat < 2 ^ 16 - 1) : (bx + 1).toNat = bx.toNat + 1 := by
  rw [UInt16.toNat_add]
  change (bx.toNat + 1) % 2 ^ 16 = _
  omega

theorem jumpsLess_iff (h : bx.toNat < 2 ^ 15) : jumpsLess bx ↔ bx.toNat < 2000 := by
  have hsign : bx.toBitVec.toInt = bx.toNat := BitVec.toInt_eq_toNat_of_lt (by
    change 2 * bx.toNat < 2 ^ 16
    omega)
  unfold jumpsLess
  omega

/-- The first cell of the next row. -/
theorem toNat_nextRow (h : bx.toNat ≤ 2000) : (bx - bx % 80 + 80).toNat = bx.toNat / 80 * 80 + 80 := by
  have hmod : (bx % 80).toNat = bx.toNat % 80 := UInt16.toNat_mod bx 80
  have hsub : (bx - bx % 80).toNat = bx.toNat - bx.toNat % 80 := by
    rw [UInt16.toNat_sub_of_le, hmod]
    rw [UInt16.le_iff_toNat_le, hmod]
    exact Nat.mod_le _ _
  rw [UInt16.toNat_add, hsub]
  change (bx.toNat - bx.toNat % 80 + 80) % 2 ^ 16 = _
  omega

theorem StoresOk.isLineFeed (h : s.StoresOk) (hbx : bx.toNat ≤ 2000) : (isLineFeed bx s).OnScreen := by
  have hnext := toNat_nextRow hbx
  have hjump : jumpsLess (bx - bx % 80 + 80) ↔ _ := jumpsLess_iff (by omega)
  unfold Screen.isLineFeed
  dsimp only
  split
  · rename_i hless
    exact ⟨hjump.mp hless, h.setCursor _⟩
  · constructor
    · change (1920 : UInt16).toNat < 2000
      decide
    · exact h.rollScreen

theorem StoresOk.isBackspace (h : s.StoresOk) (hbx : bx.toNat < 2000) (h0 : bx ≠ 0) :
    (isBackspace bx s).OnScreen := by
  have hpos : 0 < bx.toNat := Nat.pos_of_ne_zero fun hz => h0 (UInt16.toNat_inj.mp hz)
  have hdec : (bx - 1).toNat = bx.toNat - 1 := UInt16.toNat_sub_of_le _ _ (UInt16.le_iff_toNat_le.mpr hpos)
  have hshl : ((bx - 1) <<< 1).toNat = 2 * (bx.toNat - 1) := by
    rw [toNat_shiftLeft_one (by omega), hdec]
  have hinc : ((bx - 1) <<< 1 + 1).toNat = 2 * (bx.toNat - 1) + 1 := by
    rw [toNat_add_one (by omega), hshl]
  constructor
  · change (((bx - 1) <<< 1 + 1) >>> 1).toNat < 2000
    rw [toNat_shiftRight_one, hinc]
    omega
  · apply StoresOk.setCursor
    apply StoresOk.storeByte
    · exact h.storeByte (by omega) _
    · omega

theorem StoresOk.putOther (h : s.StoresOk) (hbx : bx.toNat < 2000) : (putOther cl bx s).OnScreen := by
  have hshl : (bx <<< 1).toNat = 2 * bx.toNat := toNat_shiftLeft_one (by omega)
  have hinc : (bx <<< 1 + 1).toNat = 2 * bx.toNat + 1 := by
    rw [toNat_add_one (by omega), hshl]
  have hnext : ((bx <<< 1 + 1) >>> 1 + 1).toNat = bx.toNat + 1 := by
    have hshr : ((bx <<< 1 + 1) >>> 1).toNat = bx.toNat := by
      rw [toNat_shiftRight_one, hinc]
      omega
    rw [toNat_add_one (by omega), hshr]
  have hstored : ((s.storeByte (bx <<< 1) cl).storeByte (bx <<< 1 + 1) 0x07).StoresOk := by
    apply StoresOk.storeByte
    · exact h.storeByte (by omega) _
    · omega
  have hjump : jumpsLess ((bx <<< 1 + 1) >>> 1 + 1) ↔ _ := jumpsLess_iff (by omega)
  unfold Screen.putOther
  dsimp only
  split
  · rename_i hless
    exact ⟨hjump.mp hless, hstored.setCursor _⟩
  · exact hstored.isLineFeed (by omega)

/-! ## Runs of characters -/

/-- One character keeps the cursor on the screen, unless it is a backspace in the first cell. -/
theorem OnScreen.putChar (h : s.OnScreen) (hback : cl = 0x08 → s.cursor ≠ 0) : (s.putChar cl).OnScreen := by
  obtain ⟨hcursor, hstores⟩ := h
  unfold Screen.putChar
  split
  · exact hstores.isLineFeed (by omega)
  · split
    · exact hstores.isLineFeed (by omega)
    · split
      · rename_i hcl
        exact hstores.isBackspace hcursor (hback hcl)
      · exact hstores.putOther hcursor

/-- A backspace in the first cell is stored at the far end of the 16-bit offsets. -/
theorem mem_stores_putChar_backspace (h0 : s.cursor = 0) : 0xfffe ∈ (s.putChar 0x08).stores := by
  change 0xfffe ∈ (Screen.isBackspace s.cursor s).stores
  rw [h0]
  change 0xfffe ∈ ((s.storeByte 0xfffe 0x20).storeByte 0xffff 0x07).stores
  rw [mem_stores_storeByte, mem_stores_storeByte]
  exact .inr (.inl rfl)

/-- The cursor and the stores stay on the screen after every character of a text exactly when
no backspace comes while the cursor is in the first cell. -/
theorem putChars_onScreen_iff (h : s.OnScreen) :
    (∀ l, l <+: cs → (putChars l s).OnScreen) ↔
      ∀ l, l ++ [0x08] <+: cs → (putChars l s).cursor ≠ 0 := by
  constructor
  · intro hall l hl h0
    have hafter := hall _ hl
    rw [putChars_append] at hafter
    have hfar := hafter.stores _ (mem_stores_putChar_backspace h0)
    omega
  · intro hback l hl
    induction l using List.reverseRecOn with
    | nil => exact h
    | append_singleton l c ih =>
      have hpre : l <+: cs := (List.prefix_append l [c]).trans hl
      rw [putChars_append]
      apply (ih hpre).putChar
      rintro rfl
      exact hback l hl

/-- A screen with the cursor in a cell, before anything is stored. -/
def clearAt (bx : UInt16) : Screen := ⟨Bytes.zero, bx, []⟩

theorem clearAt_onScreen (h : bx.toNat < 2000) : (clearAt bx).OnScreen :=
  ⟨h, fun _ hoff => absurd hoff List.not_mem_nil⟩

/-- A letter and a line feed in the last cell. -/
theorem putChars_onScreen_lastCell :
    (clearAt 1999).OnScreen ∧ ∀ l, l <+: [0x41, 0x0a] → (putChars l (clearAt 1999)).OnScreen := by
  have h : (clearAt 1999).OnScreen := clearAt_onScreen (by decide)
  constructor
  · exact h
  · apply (putChars_onScreen_iff h).mpr
    intro l hl
    have hmem : (0x08 : UInt8) ∈ [0x41, 0x0a] := hl.subset List.mem_concat_self
    exact absurd hmem (by decide)

/-- A backspace in the first cell. -/
theorem not_onScreen_backspace :
    (clearAt 0).OnScreen ∧ ¬ (putChars [0x08] (clearAt 0)).OnScreen ∧
      (putChars [0x08] (clearAt 0)).cursor = 0x7fff := by
  refine ⟨clearAt_onScreen (by decide), ?_, by decide⟩
  intro h
  have hfar := h.stores _ (mem_stores_putChar_backspace rfl)
  omega

end Screen
end Winx
