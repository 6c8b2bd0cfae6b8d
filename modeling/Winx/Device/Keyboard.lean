import Winx.Device.Ioqueue
import Mathlib.Data.List.Infix

/-! # The keyboard

The handler of the keyboard's interrupt puts scancodes together from bytes and keeps
track of the keys that change what others mean. It has one status for the two keys of a
pair and clears it when either of them is released: as long as a key is released alone,
the statuses tell which pairs have a key that is held.
-/

namespace Winx

/-! ## The handler -/

/-- `char_invisible` -/
def charInvisible : Char := Char.ofNat 0

/-- `esc` -/
def esc : Char := Char.ofNat 0x1b

/-- `enter` -/
def enter : Char := Char.ofNat 0x0d

/-- `tab` -/
def tab : Char := Char.ofNat 0x09

/-- `backspace` -/
def backspace : Char := Char.ofNat 0x08

def shiftLMake : UInt16 := 0x2a
def shiftRMake : UInt16 := 0x36
def altLMake : UInt16 := 0x38
def altRMake : UInt16 := 0xe038
def ctrlLMake : UInt16 := 0x1d
def ctrlRMake : UInt16 := 0xe01d
def capsLockMake : UInt16 := 0x3a

/-- `keymap`: what a key stands for without and with shift. The quotes, the backquote and the
backslash are given by their codes. -/
def keymap : List (Char × Char) :=
  [(charInvisible, charInvisible), (esc, esc), ('1', '!'), ('2', '@'), ('3', '#'), ('4', '$'),
    ('5', '%'), ('6', '^'), ('7', '&'), ('8', '*'), ('9', '('), ('0', ')'), ('-', '_'), ('=', '+'),
    (backspace, backspace), (tab, tab), ('q', 'Q'), ('w', 'W'), ('e', 'E'), ('r', 'R'), ('t', 'T'),
    ('y', 'Y'), ('u', 'U'), ('i', 'I'), ('o', 'O'), ('p', 'P'), ('[', Char.ofNat 0x7b),
    (']', Char.ofNat 0x7d), (enter, enter), (charInvisible, charInvisible), ('a', 'A'), ('s', 'S'),
    ('d', 'D'), ('f', 'F'), ('g', 'G'), ('h', 'H'), ('j', 'J'), ('k', 'K'), ('l', 'L'), (';', ':'),
    (Char.ofNat 0x27, Char.ofNat 0x22), (Char.ofNat 0x60, '~'), (charInvisible, charInvisible),
    (Char.ofNat 0x5c, '|'), ('z', 'Z'), ('x', 'X'), ('c', 'C'), ('v', 'V'), ('b', 'B'), ('n', 'N'),
    ('m', 'M'), (',', '<'), ('.', '>'), ('/', '?'), (charInvisible, charInvisible), ('*', '*'),
    (charInvisible, charInvisible), (' ', ' '), (charInvisible, charInvisible)]

/-- The state of the driver, and what it has printed. The thread that waits for a byte of the
queue is left to the queue. -/
structure Keyboard where
  ctrlStatus : Int32
  shiftStatus : Int32
  altStatus : Int32
  capsLockStatus : Int32
  extScancode : Int32
  kbdBuf : Ioqueue
  printed : List String

/-- The state after `keyboard_init`. -/
def keyboardInit (buf : Bytes) : Keyboard where
  ctrlStatus := 0
  shiftStatus := 0
  altStatus := 0
  capsLockStatus := 0
  extScancode := 0
  kbdBuf := Ioqueue.init buf
  printed := ["keyboard init start\n", "keyboard init done\n"]

namespace Keyboard

variable (s : Keyboard)

/-- What the handler does with a break code, whose bit is masked. -/
def breakCode (makeCode : UInt16) : Keyboard :=
  if makeCode = ctrlLMake ∨ makeCode = ctrlRMake then { s with ctrlStatus := 0 }
  else if makeCode = shiftLMake ∨ makeCode = shiftRMake then { s with shiftStatus := 0 }
  else if makeCode = altLMake ∨ makeCode = altRMake then { s with altStatus := 0 }
  else s

/-- The column of `keymap` that the handler uses for a key. -/
def shiftOf (scancode : UInt16) : Bool :=
  if scancode < 0x0e ∨ scancode = 0x29 ∨ scancode = 0x1a ∨ scancode = 0x1b ∨ scancode = 0x2b ∨
      scancode = 0x27 ∨ scancode = 0x28 ∨ scancode = 0x33 ∨ scancode = 0x34 ∨ scancode = 0x35 then
    s.shiftStatus ≠ 0
  else s.shiftStatus + s.capsLockStatus = 1

/-- `keymap[index][shift]` -/
def curChar (scancode : UInt16) : UInt8 :=
  let pair := keymap.getD (scancode &&& 0x00ff).toNat (charInvisible, charInvisible)
  (if s.shiftOf scancode then pair.2 else pair.1).toNat.toUInt8

/-- The character for the queue: with control, `l` and `u` become control characters. -/
def sentChar (curChar : UInt8) : UInt8 :=
  if (s.ctrlStatus ≠ 0 ∧ curChar = 'l'.toNat.toUInt8) ∨
      (s.ctrlStatus ≠ 0 ∧ curChar = 'u'.toNat.toUInt8) then curChar - 'a'.toNat.toUInt8
  else curChar

/-- What the handler does with the make code of a key that has a character. -/
def putKey (scancode : UInt16) : Keyboard :=
  if s.curChar scancode ≠ 0 then
    if ioqFull s.kbdBuf then s
    else { s with kbdBuf := s.kbdBuf.insert (s.sentChar (s.curChar scancode)) }
  else s

/-- What the handler does with a make code. -/
def makeCode (scancode : UInt16) : Keyboard :=
  if (scancode > 0x00 ∧ scancode < 0x3b) ∨ scancode = altRMake ∨ scancode = ctrlRMake then
    if scancode = ctrlLMake ∨ scancode = ctrlRMake then { s with ctrlStatus := 1 }
    else if scancode = shiftLMake ∨ scancode = shiftRMake then { s with shiftStatus := 1 }
    else if scancode = altLMake ∨ scancode = altRMake then { s with altStatus := 1 }
    else if scancode = capsLockMake then
      { s with capsLockStatus := if s.capsLockStatus = 0 then 1 else 0 }
    else s.putKey scancode
  else { s with printed := s.printed ++ ["unknown key\n"] }

/-- The scancode that ends with a byte. -/
def scancode (byte : UInt8) : UInt16 :=
  if s.extScancode ≠ 0 then 0xe000 ||| byte.toUInt16 else byte.toUInt16

/-- What the handler does with a whole scancode. -/
def handleScancode (scancode : UInt16) : Keyboard :=
  if scancode &&& 0x0080 ≠ 0 then s.breakCode (scancode &&& 0xff7f) else s.makeCode scancode

/-- `intr_keyboard_handler`, for the byte at `KBD_BUF_PORT` -/
def intrKeyboardHandler (byte : UInt8) : Keyboard :=
  if byte = 0xe0 then { s with extScancode := 1 }
  else { s with extScancode := 0 }.handleScancode (s.scancode byte)

/-- The interrupts for some bytes. -/
def receive (bytes : List UInt8) : Keyboard := bytes.foldl intrKeyboardHandler s

end Keyboard

/-! ## Keys -/

/-- A key has a make code below `0x80`, with the prefix `0xe0` or without, and its break code
is not the prefix. -/
structure Key where
  ext : Bool
  code : UInt8
  isMake : code < 0x80
  notPrefix : code ≠ 0x60
  deriving DecidableEq

/-- The statuses. -/
inductive Modifier
  | ctrl
  | shift
  | alt
  deriving DecidableEq, Repr

/-- The left key of a pair. -/
def Modifier.left : Modifier → Key
  | ctrl => ⟨false, 0x1d, by decide, by decide⟩
  | shift => ⟨false, 0x2a, by decide, by decide⟩
  | alt => ⟨false, 0x38, by decide, by decide⟩

/-- The right key of a pair. -/
def Modifier.right : Modifier → Key
  | ctrl => ⟨true, 0x1d, by decide, by decide⟩
  | shift => ⟨false, 0x36, by decide, by decide⟩
  | alt => ⟨true, 0x38, by decide, by decide⟩

/-- The status of a pair. -/
def Keyboard.status (s : Keyboard) : Modifier → Int32
  | .ctrl => s.ctrlStatus
  | .shift => s.shiftStatus
  | .alt => s.altStatus

/-- A key goes down, or is repeated, or goes up. -/
structure KeyEvent where
  key : Key
  down : Bool

namespace KeyEvent

variable (ev : KeyEvent)

/-- The bytes before the last one. -/
def prefixBytes : List UInt8 := if ev.key.ext then [0xe0] else []

/-- The last byte, which is the make code or the break code. -/
def codeByte : UInt8 := if ev.down then ev.key.code else ev.key.code ||| 0x80

/-- What the keyboard sends. -/
def bytes : List UInt8 := ev.prefixBytes ++ [ev.codeByte]

/-- The keys that are held afterwards. -/
def after (held : Key → Bool) : Key → Bool := Function.update held ev.key ev.down

end KeyEvent

/-- What the keyboard sends for some events. -/
def bytesOf (evs : List KeyEvent) : List UInt8 := evs.flatMap KeyEvent.bytes

/-- The keys that are held after some events. -/
def heldAfter (evs : List KeyEvent) : Key → Bool := evs.foldl (fun held ev => ev.after held) fun _ => false

/-! ## One scancode -/

/-- The make code of the left key of a pair. -/
def Modifier.leftMake : Modifier → UInt16
  | ctrl => ctrlLMake
  | shift => shiftLMake
  | alt => altLMake

/-- The make code of the right key of a pair. -/
def Modifier.rightMake : Modifier → UInt16
  | ctrl => ctrlRMake
  | shift => shiftRMake
  | alt => altRMake

namespace Keyboard

variable {s : Keyboard} {c : UInt16} {m : Modifier}

theorem status_putKey : (s.putKey c).status m = s.status m := by
  unfold putKey
  split
  · split
    · rfl
    · cases m <;> rfl
  · rfl

/-- A break code clears the status of its pair. -/
theorem status_breakCode :
    (s.breakCode c).status m = if c = m.leftMake ∨ c = m.rightMake then 0 else s.status m := by
  by_cases hpair : ∃ m' : Modifier, c = m'.leftMake ∨ c = m'.rightMake
  · obtain ⟨m', rfl | rfl⟩ := hpair
    · cases m' <;> cases m <;> rfl
    · cases m' <;> cases m <;> rfl
  · rw [not_exists] at hpair
    have hctrl : ¬ (c = ctrlLMake ∨ c = ctrlRMake) := hpair .ctrl
    have hshift : ¬ (c = shiftLMake ∨ c = shiftRMake) := hpair .shift
    have halt : ¬ (c = altLMake ∨ c = altRMake) := hpair .alt
    rw [if_neg (hpair m), breakCode, if_neg hctrl, if_neg hshift, if_neg halt]

/-- A make code sets the status of its pair. -/
theorem status_makeCode :
    (s.makeCode c).status m = if c = m.leftMake ∨ c = m.rightMake then 1 else s.status m := by
  by_cases hpair : ∃ m' : Modifier, c = m'.leftMake ∨ c = m'.rightMake
  · obtain ⟨m', rfl | rfl⟩ := hpair
    · cases m' <;> cases m <;> rfl
    · cases m' <;> cases m <;> rfl
  · rw [not_exists] at hpair
    have hctrl : ¬ (c = ctrlLMake ∨ c = ctrlRMake) := hpair .ctrl
    have hshift : ¬ (c = shiftLMake ∨ c = shiftRMake) := hpair .shift
    have halt : ¬ (c = altLMake ∨ c = altRMake) := hpair .alt
    rw [if_neg (hpair m), makeCode]
    by_cases hknown : (c > 0x00 ∧ c < 0x3b) ∨ c = altRMake ∨ c = ctrlRMake
    · rw [if_pos hknown, if_neg hctrl, if_neg hshift, if_neg halt]
      split
      · cases m <;> rfl
      · exact status_putKey
    · rw [if_neg hknown]
      cases m <;> rfl

/-- A code without the bit of break codes is a make code. -/
theorem and_eq_self (hmake : c &&& 0x0080 = 0) : c &&& 0xff7f = c := by
  have hall : c &&& (0xff7f ||| 0x0080) = c := UInt16.and_neg_one
  have hor : c &&& (0xff7f ||| 0x0080) = (c &&& 0xff7f) ||| (c &&& 0x0080) :=
    UInt16.toBitVec_inj.mp (BitVec.and_or_distrib_left ..)
  rw [hall, hmake, UInt16.or_zero] at hor
  exact hor.symm

theorem status_handleScancode : (s.handleScancode c).status m =
    if c &&& 0xff7f = m.leftMake ∨ c &&& 0xff7f = m.rightMake then
      if c &&& 0x0080 = 0 then 1 else 0
    else s.status m := by
  by_cases hmake : c &&& 0x0080 = 0
  · rw [handleScancode, if_neg (not_not_intro hmake), status_makeCode, and_eq_self hmake,
      if_pos hmake]
  · rw [handleScancode, if_pos hmake, status_breakCode, if_neg hmake]

@[simp] theorem extScancode_breakCode : (s.breakCode c).extScancode = s.extScancode := by
  unfold breakCode
  split_ifs <;> rfl

@[simp] theorem extScancode_makeCode : (s.makeCode c).extScancode = s.extScancode := by
  unfold makeCode putKey
  split_ifs <;> rfl

@[simp] theorem extScancode_handleScancode :
    (s.handleScancode c).extScancode = s.extScancode := by
  unfold handleScancode
  split
  · exact extScancode_breakCode
  · exact extScancode_makeCode

/-- The characters are looked up inside of `keymap`. -/
theorem index_lt (h : c < 0x3b) : (c &&& 0x00ff).toNat < keymap.length := by
  have hle : (c &&& 0x00ff).toNat ≤ c.toNat := UInt16.le_iff_toNat_le.mp UInt16.and_le_left
  have hlt : c.toNat < 0x3b := UInt16.lt_iff_toNat_lt.mp h
  exact hle.trans_lt hlt

/-- The queue holds the bytes `l`, and perhaps one more. -/
def Appends (s : Keyboard) (l : List UInt8) : Prop :=
  ∃ sent, sent.length ≤ 1 ∧ s.kbdBuf.Holds (l ++ sent)

theorem appends_of_holds {l : List UInt8} (h : s.kbdBuf.Holds l) : s.Appends l :=
  ⟨[], Nat.zero_le 1, by rwa [List.append_nil]⟩

theorem appends_putKey {l : List UInt8} (h : s.kbdBuf.Holds l) : (s.putKey c).Appends l := by
  unfold putKey
  split
  · by_cases hfull : ioqFull s.kbdBuf = true
    · rw [if_pos hfull]
      exact appends_of_holds h
    · rw [if_neg hfull]
      exact ⟨[_], Nat.le_refl 1, h.insert (Bool.eq_false_iff.mpr hfull) _⟩
  · exact appends_of_holds h

theorem appends_handleScancode {l : List UInt8} (h : s.kbdBuf.Holds l) :
    (s.handleScancode c).Appends l := by
  unfold handleScancode breakCode makeCode
  split_ifs
  all_goals first
    | exact appends_of_holds h
    | exact appends_putKey h

/-- An interrupt appends at most one byte to the queue, which stays in order. -/
theorem appends_intrKeyboardHandler {l : List UInt8} (h : s.kbdBuf.Holds l) (byte : UInt8) :
    (s.intrKeyboardHandler byte).Appends l := by
  unfold intrKeyboardHandler
  split
  · exact appends_of_holds h
  · exact appends_handleScancode h

end Keyboard

/-! ## One event -/

/-- The scancode of a byte with the prefix or without. -/
def withPrefix (ext : Bool) (byte : UInt8) : UInt16 :=
  if ext then 0xe000 ||| byte.toUInt16 else byte.toUInt16

/-- The make code of a key. -/
def Key.scancode (k : Key) : UInt16 := withPrefix k.ext k.code

/-- There are few keys to look at. -/
theorem Key.forall_of {P : Bool → UInt8 → Prop}
    (h : ∀ (ext : Bool) (c : Fin 128), P ext (UInt8.ofNat c)) (k : Key) : P k.ext k.code := by
  have hcode := h k.ext ⟨k.code.toNat, UInt8.lt_iff_toNat_lt.mp k.isMake⟩
  rwa [UInt8.ofNat_toNat] at hcode

theorem Key.scancode_inj {k k' : Key} : k.scancode = k'.scancode ↔ k = k' := by
  have hcode : ∀ k : Key, (k.scancode &&& 0x00ff).toUInt8 = k.code :=
    Key.forall_of (P := fun ext code => (withPrefix ext code &&& 0x00ff).toUInt8 = code)
      (by decide +kernel)
  have hext : ∀ k : Key, decide (k.scancode &&& 0xe000 = 0xe000) = k.ext :=
    Key.forall_of (P := fun ext code => decide (withPrefix ext code &&& 0xe000 = 0xe000) = ext)
      (by decide +kernel)
  constructor
  · intro heq
    have hcode' := (hcode k).symm.trans (heq ▸ hcode k')
    have hext' := (hext k).symm.trans (heq ▸ hext k')
    cases k
    cases k'
    simp_all
  · rintro rfl
    rfl

namespace KeyEvent

/-- The scancode of an event. -/
def scancode (ev : KeyEvent) : UInt16 := withPrefix ev.key.ext ev.codeByte

variable (ev : KeyEvent)

theorem codeByte_ne : ev.codeByte ≠ 0xe0 := by
  have hcode : ∀ k : Key, k.code ≠ 0x60 → k.code ≠ 0xe0 ∧ k.code ||| 0x80 ≠ 0xe0 :=
    Key.forall_of (P := fun _ code => code ≠ 0x60 → code ≠ 0xe0 ∧ code ||| 0x80 ≠ 0xe0)
      (by decide +kernel)
  obtain ⟨hmake, hbreak⟩ := hcode ev.key ev.key.notPrefix
  rw [codeByte]
  split
  · exact hmake
  · exact hbreak

/-- The scancode of a key, and whether it is a make code. -/
theorem scancode_and :
    ev.scancode &&& 0xff7f = ev.key.scancode ∧ (ev.scancode &&& 0x0080 = 0 ↔ ev.down = true) := by
  have hmake : ∀ k : Key, k.scancode &&& 0xff7f = k.scancode ∧ k.scancode &&& 0x0080 = 0 :=
    Key.forall_of (P := fun ext code => withPrefix ext code &&& 0xff7f = withPrefix ext code ∧
      withPrefix ext code &&& 0x0080 = 0) (by decide +kernel)
  have hbreak : ∀ k : Key, withPrefix k.ext (k.code ||| 0x80) &&& 0xff7f = k.scancode ∧
      withPrefix k.ext (k.code ||| 0x80) &&& 0x0080 ≠ 0 :=
    Key.forall_of (P := fun ext code =>
      withPrefix ext (code ||| 0x80) &&& 0xff7f = withPrefix ext code ∧
        withPrefix ext (code ||| 0x80) &&& 0x0080 ≠ 0) (by decide +kernel)
  obtain ⟨k, down⟩ := ev
  cases down with
  | true => exact ⟨(hmake k).1, iff_of_true (hmake k).2 rfl⟩
  | false => exact ⟨(hbreak k).1, iff_of_false (hbreak k).2 Bool.false_ne_true⟩

/-- The key of a pair, told by its scancode. -/
theorem scancode_iff (m : Modifier) :
    (ev.scancode &&& 0xff7f = m.leftMake ∨ ev.scancode &&& 0xff7f = m.rightMake) ↔
      ev.key = m.left ∨ ev.key = m.right := by
  have hleft : m.leftMake = m.left.scancode := by cases m <;> rfl
  have hright : m.rightMake = m.right.scancode := by cases m <;> rfl
  rw [ev.scancode_and.1, hleft, hright, Key.scancode_inj, Key.scancode_inj]

end KeyEvent

section Events

variable {s : Keyboard} (ev : KeyEvent)

/-- The prefix is kept for the byte that follows. -/
theorem receive_prefixBytes (hext : s.extScancode = 0) :
    (s.receive ev.prefixBytes).scancode ev.codeByte = ev.scancode ∧
      ∀ m, (s.receive ev.prefixBytes).status m = s.status m := by
  rw [KeyEvent.prefixBytes, KeyEvent.scancode, withPrefix]
  cases ev.key.ext with
  | true =>
    refine ⟨rfl, fun m => ?_⟩
    cases m <;> rfl
  | false =>
    refine ⟨?_, fun m => rfl⟩
    change s.scancode ev.codeByte = _
    rw [Keyboard.scancode, if_neg (not_not_intro hext), if_neg Bool.false_ne_true]

theorem receive_bytes (hext : s.extScancode = 0) : (s.receive ev.bytes).extScancode = 0 ∧
    ∀ m, (s.receive ev.bytes).status m = if ev.key = m.left ∨ ev.key = m.right then
      if ev.down then 1 else 0 else s.status m := by
  obtain ⟨hcode, hstatus⟩ := receive_prefixBytes ev hext
  have heq : s.receive ev.bytes =
      { s.receive ev.prefixBytes with extScancode := 0 }.handleScancode ev.scancode := by
    rw [Keyboard.receive, KeyEvent.bytes, List.foldl_append, ← hcode]
    exact if_neg ev.codeByte_ne
  rw [heq]
  refine ⟨Keyboard.extScancode_handleScancode, fun m => ?_⟩
  have hsame : { s.receive ev.prefixBytes with extScancode := 0 }.status m = s.status m := by
    rw [← hstatus m]
    cases m <;> rfl
  rw [Keyboard.status_handleScancode, hsame]
  simp only [ev.scancode_iff, ev.scancode_and.2]

end Events

/-! ## Every run -/

/-- The statuses are 1 for the pairs of which a key is held, and 0 for the others. -/
def Keyboard.Tracks (s : Keyboard) (held : Key → Bool) : Prop :=
  ∀ m, s.status m = if held m.left ∨ held m.right then 1 else 0

/-- The other key of a pair. -/
def Partner (k k' : Key) : Prop :=
  ∃ m : Modifier, k = m.left ∧ k' = m.right ∨ k = m.right ∧ k' = m.left

/-- Only keys that are held go up. -/
def Feasible (evs : List KeyEvent) : Prop :=
  ∀ pre k, pre ++ [⟨k, false⟩] <+: evs → heldAfter pre k = true

/-- No key of a pair goes up while the other one is held. -/
def ReleasedAlone (evs : List KeyEvent) : Prop :=
  ∀ pre k k', pre ++ [⟨k, false⟩] <+: evs → Partner k k' → heldAfter pre k' = false

/-- A byte that is not the last one of a code of a pair's key: a prefix, or the code of a plain
key or of no key. -/
def Keyboard.PlainByte (s : Keyboard) (byte : UInt8) : Prop :=
  byte = 0xe0 ∨ ∀ m : Modifier, s.scancode byte &&& 0xff7f ≠ m.leftMake ∧
    s.scancode byte &&& 0xff7f ≠ m.rightMake

/-- After every interrupt for some events the statuses tell what is held, and a plain byte never
changes them. -/
structure ModifiersTracked (buf : Bytes) (evs : List KeyEvent) : Prop where
  prefixes : ∀ pre ev, pre ++ [ev] <+: evs →
    ((keyboardInit buf).receive (bytesOf pre ++ ev.prefixBytes)).Tracks (heldAfter pre)
  events : ∀ pre ev, pre ++ [ev] <+: evs →
    ((keyboardInit buf).receive (bytesOf (pre ++ [ev]))).Tracks (heldAfter (pre ++ [ev]))
  plain : ∀ (s : Keyboard) byte, s.PlainByte byte →
    ∀ m, (s.intrKeyboardHandler byte).status m = s.status m

theorem Modifier.left_ne_right (m : Modifier) : m.left ≠ m.right := by
  cases m <;> decide

theorem Partner.ne {k k' : Key} (h : Partner k k') : k' ≠ k := by
  obtain ⟨m, ⟨rfl, rfl⟩ | ⟨rfl, rfl⟩⟩ := h
  · exact m.left_ne_right.symm
  · exact m.left_ne_right

section Step

variable {s : Keyboard} {ev : KeyEvent} {held : Key → Bool}

/-- An event that is no release, or the release of a key alone. -/
theorem Keyboard.Tracks.receive_bytes (hs : s.Tracks held) (hext : s.extScancode = 0)
    (halone : ev.down = false → ∀ k', Partner ev.key k' → held k' = false) :
    (s.receive ev.bytes).Tracks (ev.after held) := by
  intro m
  rw [(Winx.receive_bytes ev hext).2 m]
  obtain ⟨k, down⟩ := ev
  by_cases hkey : k = m.left ∨ k = m.right
  · rw [if_pos hkey]
    cases down with
    | true =>
      have hheld : KeyEvent.after ⟨k, true⟩ held k = true := Function.update_self ..
      rcases hkey with rfl | rfl
      · simp [hheld]
      · simp [hheld]
    | false =>
      have hup : KeyEvent.after ⟨k, false⟩ held k = false := Function.update_self ..
      have hother : ∀ k', Partner k k' → KeyEvent.after ⟨k, false⟩ held k' = false := by
        intro k' hk'
        rw [KeyEvent.after, Function.update_of_ne hk'.ne]
        exact halone rfl k' hk'
      rcases hkey with rfl | rfl
      · simp [hup, hother m.right ⟨m, .inl ⟨rfl, rfl⟩⟩]
      · simp [hup, hother m.left ⟨m, .inr ⟨rfl, rfl⟩⟩]
  · rw [if_neg hkey, hs m, KeyEvent.after, Function.update_of_ne fun heq => hkey (.inl heq.symm),
      Function.update_of_ne fun heq => hkey (.inr heq.symm)]

/-- When a key goes up and the statuses are right, then the other one of its pair is not held. -/
theorem alone_of_tracks (hext : s.extScancode = 0) (hdown : ev.down = false)
    (hs : (s.receive ev.bytes).Tracks (ev.after held)) {k' : Key} (hk' : Partner ev.key k') :
    held k' = false := by
  have hheld : ev.after held k' = held k' := Function.update_of_ne hk'.ne ..
  by_contra hne
  rw [Bool.not_eq_false] at hne
  rw [hne] at hheld
  obtain ⟨m, hm⟩ := hk'
  have hpair : (ev.key = m.left ∨ ev.key = m.right) ∧
      (ev.after held m.left = true ∨ ev.after held m.right = true) := by
    rcases hm with ⟨hkey, rfl⟩ | ⟨hkey, rfl⟩
    · exact ⟨.inl hkey, .inr hheld⟩
    · exact ⟨.inr hkey, .inl hheld⟩
  have hstatus := hs m
  rw [(Winx.receive_bytes ev hext).2 m, hdown, if_pos hpair.1, if_pos hpair.2] at hstatus
  exact absurd hstatus (by decide)

end Step

section Runs

variable (buf : Bytes) {evs pre : List KeyEvent} {ev : KeyEvent}

theorem receive_append (s : Keyboard) (bytes bytes' : List UInt8) :
    s.receive (bytes ++ bytes') = (s.receive bytes).receive bytes' := List.foldl_append

theorem bytesOf_concat (pre : List KeyEvent) (ev : KeyEvent) :
    bytesOf (pre ++ [ev]) = bytesOf pre ++ ev.bytes := by
  simp [bytesOf]

theorem heldAfter_concat (pre : List KeyEvent) (ev : KeyEvent) :
    heldAfter (pre ++ [ev]) = ev.after (heldAfter pre) := by
  simp [heldAfter]

theorem extScancode_receive (evs : List KeyEvent) :
    ((keyboardInit buf).receive (bytesOf evs)).extScancode = 0 := by
  induction evs using List.reverseRecOn with
  | nil => rfl
  | append_singleton evs ev ih =>
    rw [bytesOf_concat, receive_append]
    exact (receive_bytes ev ih).1

/-- As long as every key is released alone, the statuses are right. The induction is on the events
so far. -/
theorem tracks_of_releasedAlone (h : ReleasedAlone evs) (hpre : pre <+: evs) :
    ((keyboardInit buf).receive (bytesOf pre)).Tracks (heldAfter pre) := by
  induction pre using List.reverseRecOn with
  | nil =>
    intro m
    cases m <;> rfl
  | append_singleton pre ev ih =>
    rw [bytesOf_concat, receive_append, heldAfter_concat]
    refine (ih ((List.prefix_append pre [ev]).trans hpre)).receive_bytes
      (extScancode_receive buf pre) fun hdown k' hk' => ?_
    obtain ⟨k, down⟩ := ev
    obtain rfl : down = false := hdown
    exact h pre k k' hpre hk'

/-- The statuses tell what is held, after every interrupt, in exactly those runs in which every key
of a pair is released alone. -/
theorem modifiersTracked_iff (evs : List KeyEvent) :
    ModifiersTracked buf evs ↔ ReleasedAlone evs := by
  constructor
  · intro h pre k k' hpre hk'
    have htracks := h.events pre ⟨k, false⟩ hpre
    rw [bytesOf_concat, receive_append, heldAfter_concat] at htracks
    exact alone_of_tracks (extScancode_receive buf pre) rfl htracks hk'
  · intro h
    refine ⟨fun pre ev hpre => ?_, fun pre ev hpre => tracks_of_releasedAlone buf h hpre,
      fun s byte hbyte m => ?_⟩
    · have htracks := tracks_of_releasedAlone buf h ((List.prefix_append pre [ev]).trans hpre)
      intro m
      rw [receive_append, (receive_prefixBytes ev (extScancode_receive buf pre)).2]
      exact htracks m
    · rw [Keyboard.intrKeyboardHandler]
      split
      · cases m <;> rfl
      · rename_i hne
        obtain ⟨hleft, hright⟩ := hbyte.resolve_left hne m
        rw [Keyboard.status_handleScancode, if_neg (not_or.mpr ⟨hleft, hright⟩)]
        cases m <;> rfl

/-- Both control keys go down, then the left one goes up. -/
def bothControls : List KeyEvent :=
  [⟨Modifier.ctrl.left, true⟩, ⟨Modifier.ctrl.right, true⟩, ⟨Modifier.ctrl.left, false⟩]

theorem not_modifiersTracked :
    ¬ ∀ buf evs, Feasible evs → ModifiersTracked buf evs := by
  intro h
  have hfeasible : Feasible bothControls := by
    rintro pre k ⟨post, heq⟩
    rcases pre with _ | ⟨ev, _ | ⟨ev', _ | ⟨ev'', pre⟩⟩⟩
    · simp [bothControls] at heq
    · simp [bothControls] at heq
    · simp only [bothControls, List.cons_append, List.nil_append, List.cons.injEq,
        KeyEvent.mk.injEq, and_true] at heq
      obtain ⟨rfl, rfl, rfl, -⟩ := heq
      decide
    · simp [bothControls] at heq
  have htracks := (h Bytes.zero bothControls hfeasible).events
    [⟨Modifier.ctrl.left, true⟩, ⟨Modifier.ctrl.right, true⟩] ⟨Modifier.ctrl.left, false⟩
    List.prefix_rfl .ctrl
  exact absurd htracks (by decide)

end Runs

end Winx
