import Winx.Lib.Ring
import Winx.Lib.Bytes

/-! # The queue of bytes

`struct ioqueue` holds its bytes in a ring of 2048 cells, written at `head` and
read at `tail`. One cell stays free, so that a full queue differs from an empty
one.
-/

namespace Winx

/-- `bufsize` -/
def bufsize : Int32 := 2048

/-- The ring of a `struct ioqueue`. -/
structure Ioqueue where
  buf : Bytes
  head : Int32
  tail : Int32

/-- The ring as `ioqueue_init` leaves it. -/
def Ioqueue.init (buf : Bytes) : Ioqueue := ⟨buf, 0, 0⟩

/-- `next_pos` -/
def nextPos (pos : Int32) : Int32 := (pos + 1) % bufsize

/-- `ioq_full` -/
def ioqFull (ioq : Ioqueue) : Bool := nextPos ioq.head == ioq.tail

/-- `ioq_empty` -/
def ioqEmpty (ioq : Ioqueue) : Bool := ioq.head == ioq.tail

/-- `ioq_length` -/
def ioqLength (ioq : Ioqueue) : UInt32 :=
  if ioq.head ≥ ioq.tail then (ioq.head - ioq.tail).toUInt32
  else (bufsize - (ioq.tail - ioq.head)).toUInt32

/-- `ioq->buf[ioq->head] = byte`, after which `head` moves on. -/
def Ioqueue.insert (ioq : Ioqueue) (byte : UInt8) : Ioqueue :=
  { ioq with
    buf := Function.update ioq.buf ioq.head.toNatClampNeg byte
    head := nextPos ioq.head }

/-- `ioq->buf[ioq->tail]` -/
def Ioqueue.first (ioq : Ioqueue) : UInt8 := ioq.buf ioq.tail.toNatClampNeg

/-- `ioq->tail` moves on. -/
def Ioqueue.remove (ioq : Ioqueue) : Ioqueue := { ioq with tail := nextPos ioq.tail }

/-- The queue holds the bytes `l`, the next one to be read first. -/
structure Ioqueue.Holds (ioq : Ioqueue) (l : List UInt8) : Prop where
  tail : 0 ≤ ioq.tail.toInt ∧ ioq.tail.toInt < 2048
  head : ioq.head.toInt = (ioq.tail.toInt + l.length) % 2048
  length : l.length < 2048
  bytes : l = Ring.contents 2048 ioq.buf ioq.tail.toNatClampNeg l.length

section Positions

variable {pos : Int32}

theorem nextPos_toInt (h : 0 ≤ pos.toInt ∧ pos.toInt < 2048) :
    (nextPos pos).toInt = (pos.toInt + 1) % 2048 := by
  rw [nextPos, Int32.toInt_mod, Int32.toInt_add]
  have hone : (1 : Int32).toInt = 1 := rfl
  have hsize : bufsize.toInt = 2048 := rfl
  rw [hone, hsize, Int.bmod_eq_of_le (by omega) (by omega)]
  exact Int.tmod_eq_emod_of_nonneg (by omega)

/-- The conversion to `uint32_t` of a number that is not negative. -/
theorem toNat_toUInt32 (h : 0 ≤ pos.toInt) : pos.toUInt32.toNat = pos.toInt.toNat := by
  change pos.toBitVec.toNat = pos.toBitVec.toInt.toNat
  have hpos : 0 ≤ pos.toBitVec.toInt := h
  have hlt := pos.toBitVec.isLt
  rw [BitVec.toInt_eq_toNat_cond] at hpos ⊢
  split at hpos <;> omega

theorem toNatClampNeg_eq (pos : Int32) : pos.toNatClampNeg = pos.toInt.toNat := rfl

theorem nextPos_toNat (h : 0 ≤ pos.toInt ∧ pos.toInt < 2048) :
    (nextPos pos).toNatClampNeg = (pos.toNatClampNeg + 1) % 2048 := by
  rw [toNatClampNeg_eq, toNatClampNeg_eq, nextPos_toInt h]
  omega

end Positions

section Holds

variable {ioq : Ioqueue} {l : List UInt8} {byte : UInt8}

theorem Ioqueue.holds_init (buf : Bytes) : (Ioqueue.init buf).Holds [] where
  tail := ⟨Int.le_refl 0, (by decide : (0 : Int) < 2048)⟩
  head := rfl
  length := by decide
  bytes := rfl

/-- The index written next stays in the ring. -/
theorem Ioqueue.Holds.head_mem (h : ioq.Holds l) : 0 ≤ ioq.head.toInt ∧ ioq.head.toInt < 2048 := by
  rw [h.head]
  omega

theorem Ioqueue.Holds.head_toNat (h : ioq.Holds l) :
    ioq.head.toNatClampNeg = (ioq.tail.toNatClampNeg + l.length) % 2048 := by
  obtain ⟨htail, hhead, -, -⟩ := h
  rw [toNatClampNeg_eq, toNatClampNeg_eq, hhead]
  omega

/-- `ioq_empty` holds of the queue without bytes. -/
theorem Ioqueue.Holds.ioqEmpty_iff (h : ioq.Holds l) : ioqEmpty ioq = true ↔ l.length = 0 := by
  obtain ⟨htail, hhead, hlen, -⟩ := h
  rw [ioqEmpty, beq_iff_eq, ← Int32.toInt_inj, hhead]
  omega

/-- `ioq_full` holds of the queue with all cells but one used. -/
theorem Ioqueue.Holds.ioqFull_iff (h : ioq.Holds l) : ioqFull ioq = true ↔ l.length = 2047 := by
  have hmem := h.head_mem
  obtain ⟨htail, hhead, hlen, -⟩ := h
  rw [ioqFull, beq_iff_eq, ← Int32.toInt_inj, nextPos_toInt hmem, hhead]
  omega

/-- `ioq_length` counts the bytes. -/
theorem Ioqueue.Holds.ioqLength_eq (h : ioq.Holds l) : (ioqLength ioq).toNat = l.length := by
  have hmem := h.head_mem
  obtain ⟨htail, hhead, hlen, -⟩ := h
  have hsize : bufsize.toInt = 2048 := rfl
  unfold ioqLength
  split
  · rename_i hle
    have hle : ioq.tail.toInt ≤ ioq.head.toInt := Int32.le_iff_toInt_le.mp hle
    have hsub : (ioq.head - ioq.tail).toInt = ioq.head.toInt - ioq.tail.toInt := by
      rw [Int32.toInt_sub, Int.bmod_eq_of_le (by omega) (by omega)]
    rw [toNat_toUInt32 (by omega), hsub]
    omega
  · rename_i hlt
    have hlt : ¬ ioq.tail.toInt ≤ ioq.head.toInt := fun h => hlt (Int32.le_iff_toInt_le.mpr h)
    have hback : (ioq.tail - ioq.head).toInt = ioq.tail.toInt - ioq.head.toInt := by
      rw [Int32.toInt_sub, Int.bmod_eq_of_le (by omega) (by omega)]
    have hsub : (bufsize - (ioq.tail - ioq.head)).toInt =
        2048 - (ioq.tail.toInt - ioq.head.toInt) := by
      rw [Int32.toInt_sub, hback, hsize, Int.bmod_eq_of_le (by omega) (by omega)]
    rw [toNat_toUInt32 (by omega), hsub]
    omega

/-- `ioq_putchar` appends to a queue that is not full. -/
theorem Ioqueue.Holds.insert (h : ioq.Holds l) (hfull : ioqFull ioq = false) (byte : UInt8) :
    (ioq.insert byte).Holds (l ++ [byte]) := by
  have hlen : l.length ≠ 2047 := by
    rw [Ne, ← h.ioqFull_iff, hfull]
    decide
  have hmem := h.head_mem
  have hnat := h.head_toNat
  obtain ⟨htail, hhead, hlt, hbytes⟩ := h
  refine ⟨htail, ?_, ?_, ?_⟩
  · change (nextPos ioq.head).toInt = (ioq.tail.toInt + _) % 2048
    rw [nextPos_toInt hmem, hhead, List.length_append, List.length_singleton]
    omega
  · rw [List.length_append, List.length_singleton]
    omega
  · rw [List.length_append, List.length_singleton]
    change _ = Ring.contents 2048 (Function.update ioq.buf ioq.head.toNatClampNeg byte)
      ioq.tail.toNatClampNeg (l.length + 1)
    rw [hnat, Ring.contents_append byte hlt, ← hbytes]

/-- `ioq_getchar` takes the first byte of a queue that is not empty. -/
theorem Ioqueue.Holds.remove (h : ioq.Holds l) (hempty : ioqEmpty ioq = false) :
    l = ioq.first :: l.tail ∧ ioq.remove.Holds l.tail := by
  have hlen : l.length ≠ 0 := by
    rw [Ne, ← h.ioqEmpty_iff, hempty]
    decide
  obtain ⟨htail, hhead, hlt, hbytes⟩ := h
  obtain ⟨n, hn⟩ := Nat.exists_eq_succ_of_ne_zero hlen
  rw [hn] at hbytes
  have hstart : ioq.tail.toNatClampNeg < 2048 := by
    rw [toNatClampNeg_eq]
    omega
  rw [Ring.contents_succ hstart, ← nextPos_toNat htail] at hbytes
  have hrest : l.tail = Ring.contents 2048 ioq.buf ioq.remove.tail.toNatClampNeg n := by
    rw [hbytes]
    rfl
  have hcount : l.tail.length = n := by
    rw [hrest, Ring.length_contents]
  refine ⟨by rw [hrest]; exact hbytes, ?_, ?_, ?_, ?_⟩
  · change 0 ≤ (nextPos ioq.tail).toInt ∧ (nextPos ioq.tail).toInt < 2048
    rw [nextPos_toInt htail]
    omega
  · change ioq.head.toInt = ((nextPos ioq.tail).toInt + _) % 2048
    rw [nextPos_toInt htail, hhead, hcount, hn]
    omega
  · omega
  · rw [hcount]
    exact hrest

end Holds

end Winx
