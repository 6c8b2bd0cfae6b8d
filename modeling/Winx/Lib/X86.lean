import Mathlib.Algebra.Group.Nat.Defs
import Mathlib.Data.List.Basic
import Mathlib.Logic.Function.Basic
import Mathlib.Data.Nat.Notation
import Mathlib.Tactic.Common

/-! # A small x86

The registers of the processor in 32-bit mode, a memory of aligned words, and the
instructions by which kernels save and restore contexts. What is on the stack is
a list of words from the stack pointer on: pushing puts a word in front, and
popping takes it off.
-/

namespace X86

/-- The general registers. -/
inductive Reg
  | eax | ecx | edx | ebx | esp | ebp | esi | edi
  deriving DecidableEq, Repr

/-- The segment registers that a program can push and pop. -/
inductive SegReg
  | ds | es | fs | gs
  deriving DecidableEq, Repr

open Reg SegReg

/-- The state of the processor and its memory. `outs` lists what was written to the ports. -/
structure Machine where
  reg : Reg → UInt32
  seg : SegReg → UInt16
  cs : UInt16
  ss : UInt16
  eip : UInt32
  eflags : UInt32
  mem : UInt32 → UInt32
  outs : List (UInt16 × UInt8)

namespace Machine

variable (m : Machine)

/-- Write a general register. -/
@[simps] def setReg (r : Reg) (w : UInt32) : Machine := { m with reg := Function.update m.reg r w }

/-- Write a segment register. -/
@[simps] def setSeg (s : SegReg) (w : UInt16) : Machine := { m with seg := Function.update m.seg s w }

/-- Write a word of memory. -/
@[simps] def setMem (a w : UInt32) : Machine := { m with mem := Function.update m.mem a w }

/-- Push a word. -/
def push (w : UInt32) : Machine := (m.setReg esp (m.reg esp - 4)).setMem (m.reg esp - 4) w

/-- Push words one after the other. -/
def pushes (l : List UInt32) : Machine := l.foldl push m

/-- Drop words. -/
def drop (n : UInt32) : Machine := m.setReg esp (m.reg esp + 4 * n)

/-- The word at an offset from the stack pointer. -/
def top (n : UInt32) : UInt32 := m.mem (m.reg esp + 4 * n)

/-- The words from an address on. -/
def Holds (a : UInt32) : List UInt32 → Prop
  | [] => True
  | w :: ws => m.mem a = w ∧ Holds (a + 4) ws

/-- The words on the stack. -/
def Stack (ws : List UInt32) : Prop := m.Holds (m.reg esp) ws

end Machine

/-- The instructions. -/
inductive Instr
  | push (r : Reg)
  | pushSeg (s : SegReg)
  | pushImm (w : UInt32)
  | pushad
  | pop (r : Reg)
  | popSeg (s : SegReg)
  | popad
  | addEsp (n : UInt32)
  | load (r base : Reg) (disp : UInt32)
  | store (base : Reg) (disp : UInt32) (r : Reg)
  | movAl (b : UInt8)
  | outAl (port : UInt16)
  deriving DecidableEq, Repr

/-- What an instruction does. -/
def Instr.exec (m : Machine) : Instr → Machine
  | push r => m.push (m.reg r)
  | pushSeg s => m.push (m.seg s).toUInt32
  | pushImm w => m.push w
  | pushad => (((((((m.push (m.reg eax)).push (m.reg ecx)).push (m.reg edx)).push (m.reg ebx)).push
      (m.reg esp)).push (m.reg ebp)).push (m.reg esi)).push (m.reg edi)
  | pop r => (m.drop 1).setReg r (m.top 0)
  | popSeg s => (m.drop 1).setSeg s (m.top 0).toUInt16
  | popad => (((((((m.drop 8).setReg edi (m.top 0)).setReg esi (m.top 1)).setReg ebp (m.top 2)).setReg ebx
      (m.top 4)).setReg edx (m.top 5)).setReg ecx (m.top 6)).setReg eax (m.top 7)
  | addEsp n => m.drop n
  | load r base disp => m.setReg r (m.mem (m.reg base + disp))
  | store base disp r => m.setMem (m.reg base + disp) (m.reg r)
  | movAl b => m.setReg eax (m.reg eax &&& 0xffffff00 ||| b.toUInt32)
  | outAl port => { m with outs := m.outs ++ [(port, (m.reg eax).toUInt8)] }

/-- Run instructions one after the other. -/
def Machine.run (m : Machine) (code : List Instr) : Machine := code.foldl Instr.exec m

theorem Machine.run_append (m : Machine) (l l' : List Instr) : m.run (l ++ l') = (m.run l).run l' :=
  List.foldl_append

namespace Machine

/-- `ret` -/
def ret (m : Machine) : Machine := { m.drop 1 with eip := m.top 0 }

/-- `iretd`. A return to a less privileged program takes its stack from the frame. -/
def iretd (m : Machine) : Machine :=
  let cs := (m.top 1).toUInt16
  let m' := { m.drop 3 with eip := m.top 0, cs := cs, eflags := m.top 2 }
  if cs &&& 3 = m.cs &&& 3 then m' else { m'.setReg esp (m.top 3) with ss := (m.top 4).toUInt16 }

/-- An interrupt through a gate of the kernel, with the stack pointer of the TSS. The flags TF, IF, NT,
RF and VM are cleared. -/
def interrupt (m : Machine) (kernelCs kernelSs : UInt16) (esp0 handler : UInt32) : Machine :=
  let m₁ := if m.cs &&& 3 = kernelCs &&& 3 then m
    else ({ m.setReg esp esp0 with ss := kernelSs }.push m.ss.toUInt32).push (m.reg esp)
  { ((m₁.push m.eflags).push m.cs.toUInt32).push m.eip with
    cs := kernelCs, eip := handler, eflags := m.eflags &&& ~~~0x34300 }

end Machine

/-! ## The stack -/

section Stack

variable {m m' : Machine} {a w : UInt32} {ws ws' : List UInt32} {n : ℕ}

theorem toNat_add_mul (a : UInt32) (i : ℕ) :
    (a + 4 * UInt32.ofNat i).toNat = (a.toNat + 4 * i) % 2 ^ 32 := by
  have hfour : (4 : UInt32).toNat = 4 := rfl
  rw [UInt32.toNat_add, UInt32.toNat_mul, UInt32.toNat_ofNat', hfour]
  omega

/-- Different words of a stack are at different addresses. -/
theorem add_mul_ne {i j : ℕ} (hi : i < 2 ^ 30) (hj : j < 2 ^ 30) (hne : i ≠ j) :
    a + 4 * UInt32.ofNat i ≠ a + 4 * UInt32.ofNat j := by
  intro heq
  have := congrArg UInt32.toNat heq
  rw [toNat_add_mul, toNat_add_mul] at this
  have := a.toNat_lt
  omega

theorem sub_sub (a b c : UInt32) : a - b - c = a - (b + c) := by
  rw [UInt32.sub_eq_iff_eq_add, UInt32.sub_eq_iff_eq_add, UInt32.add_assoc, UInt32.add_comm c b]
  exact (UInt32.sub_add_cancel _ _).symm

theorem add_sub_assoc (a b c : UInt32) : a + b - c = a + (b - c) := by
  rw [UInt32.sub_eq_iff_eq_add, UInt32.add_assoc, UInt32.sub_add_cancel]

theorem add_mul_succ (a : UInt32) (i : ℕ) :
    a + 4 * UInt32.ofNat (i + 1) = a + 4 + 4 * UInt32.ofNat i := by
  rw [UInt32.ofNat_add, UInt32.mul_add, UInt32.add_assoc, UInt32.add_comm (4 * _)]
  rfl

theorem sub_add_mul (a : UInt32) (i : ℕ) :
    a + 4 * UInt32.ofNat i = a - 4 + 4 * UInt32.ofNat (i + 1) := by
  rw [add_mul_succ, UInt32.sub_add_cancel]

theorem holds_iff : m.Holds a ws ↔ ∀ i (h : i < ws.length), m.mem (a + 4 * UInt32.ofNat i) = ws[i] := by
  induction ws generalizing a with
  | nil => simp [Machine.Holds]
  | cons w ws ih =>
    rw [Machine.Holds, ih]
    constructor
    · rintro ⟨hw, hws⟩ i hi
      cases i with
      | zero => simpa using hw
      | succ i => rw [add_mul_succ]; exact hws i (by simpa using hi)
    · intro h
      have hzero := h 0 (Nat.succ_pos _)
      refine ⟨by simpa using hzero, fun i hi => ?_⟩
      have := h (i + 1) (by simpa using hi)
      rwa [add_mul_succ] at this

theorem Machine.Holds.congr (h : m.Holds a ws)
    (hmem : ∀ i < ws.length, m'.mem (a + 4 * UInt32.ofNat i) = m.mem (a + 4 * UInt32.ofNat i)) :
    m'.Holds a ws :=
  holds_iff.mpr fun i hi => (hmem i hi).trans (holds_iff.mp h i hi)

theorem holds_of_mem_eq (hmem : m'.mem = m.mem) : m'.Holds a ws ↔ m.Holds a ws := by
  simp only [holds_iff, hmem]

theorem Machine.Holds.stack (h : m.Holds a ws) : (m.setReg esp a).Stack ws := by
  have hesp : (m.setReg esp a).reg esp = a := by simp
  have hmem : (m.setReg esp a).mem = m.mem := rfl
  rw [Machine.Stack, hesp]
  exact (holds_of_mem_eq hmem).mpr h

theorem Machine.Stack.of_eq (h : m.Stack ws) (hmem : m'.mem = m.mem) (hesp : m'.reg esp = m.reg esp) :
    m'.Stack ws := by
  rw [Machine.Stack, hesp, holds_of_mem_eq hmem]
  exact h

theorem Machine.Stack.push (h : m.Stack ws) (hlen : ws.length < 2 ^ 30 - 1) (w : UInt32) :
    (m.push w).Stack (w :: ws) := by
  have hesp : (m.push w).reg esp = m.reg esp - 4 := by simp [Machine.push]
  refine ⟨?_, ?_⟩
  · rw [hesp]
    simp [Machine.push]
  · rw [hesp, UInt32.sub_add_cancel]
    refine Machine.Holds.congr h fun i hi => ?_
    have hne := add_mul_ne (a := m.reg esp - 4) (i := i + 1) (j := 0) (by omega) (by omega) (by omega)
    rw [← sub_add_mul] at hne
    simp only [Machine.push, Machine.setMem_mem]
    exact Function.update_of_ne (by simpa using hne) ..

theorem Machine.Stack.pushes {l : List UInt32} (h : m.Stack ws) (hlen : l.length + ws.length < 2 ^ 30) :
    (m.pushes l).Stack (l.reverse ++ ws) := by
  induction l generalizing m ws with
  | nil => exact h
  | cons w l ih =>
    rw [List.length_cons] at hlen
    have hrest := ih (h.push (by omega) w) (by rw [List.length_cons]; omega)
    rw [List.reverse_cons, List.append_assoc]
    exact hrest

theorem pushes_reg {l : List UInt32} {r : Reg} (hr : r ≠ esp) : (m.pushes l).reg r = m.reg r := by
  induction l generalizing m with
  | nil => rfl
  | cons w l ih => exact ih.trans (by simp [Machine.push, Function.update_of_ne hr])

theorem pushes_seg {l : List UInt32} : (m.pushes l).seg = m.seg := by
  induction l generalizing m with
  | nil => rfl
  | cons w l ih => exact ih

theorem pushes_cs {l : List UInt32} : (m.pushes l).cs = m.cs := by
  induction l generalizing m with
  | nil => rfl
  | cons w l ih => exact ih

theorem pushes_outs {l : List UInt32} : (m.pushes l).outs = m.outs := by
  induction l generalizing m with
  | nil => rfl
  | cons w l ih => exact ih

theorem pushes_esp {l : List UInt32} : (m.pushes l).reg esp = m.reg esp - 4 * UInt32.ofNat l.length := by
  induction l generalizing m with
  | nil => simp [Machine.pushes]
  | cons w l ih =>
    have hesp : (m.push w).reg esp = m.reg esp - 4 := by simp [Machine.push]
    refine ih.trans ?_
    rw [hesp, List.length_cons, sub_sub, UInt32.ofNat_add, UInt32.mul_add, UInt32.add_comm]
    rfl

theorem toNat_sub_of_le {k : ℕ} (hk : k < 2 ^ 32) (hroom : k ≤ a.toNat) :
    (a - UInt32.ofNat k).toNat = a.toNat - k := by
  have hof : (UInt32.ofNat k).toNat = k := by
    rw [UInt32.toNat_ofNat']
    exact Nat.mod_eq_of_lt hk
  rw [UInt32.toNat_sub_of_le _ _ (by rw [UInt32.le_iff_toNat_le, hof]; exact hroom), hof]

/-- `m'` has `n` words more on the stack, and what was on it stays. -/
structure Machine.Pushed (n : ℕ) (m m' : Machine) : Prop where
  top : (m'.reg esp).toNat + 4 * n = (m.reg esp).toNat
  kept : ∀ a, m.reg esp ≤ a → m'.mem a = m.mem a

theorem Machine.Pushed.refl (m : Machine) : Machine.Pushed 0 m m :=
  ⟨rfl, fun _ _ => rfl⟩

theorem Machine.Pushed.of_eq {m'' : Machine} (h : Machine.Pushed n m m') (hmem : m''.mem = m'.mem)
    (hesp : m''.reg esp = m'.reg esp) : Machine.Pushed n m m'' :=
  ⟨by rw [hesp, h.top], fun a ha => by rw [hmem, h.kept a ha]⟩

theorem Machine.Pushed.push (h : Machine.Pushed n m m') (hroom : 4 * (n + 1) ≤ (m.reg esp).toNat) (w : UInt32) :
    Machine.Pushed (n + 1) m (m'.push w) := by
  have htop := h.top
  have hsub : (m'.reg esp - 4).toNat = (m'.reg esp).toNat - 4 := toNat_sub_of_le (k := 4) (by decide) (by omega)
  refine ⟨?_, fun a ha => ?_⟩
  · rw [show (m'.push w).reg esp = m'.reg esp - 4 by simp [Machine.push], hsub]
    omega
  · rw [← h.kept a ha]
    simp only [Machine.push, Machine.setMem_mem]
    refine Function.update_of_ne ?_ ..
    rintro rfl
    rw [UInt32.le_iff_toNat_le, hsub] at ha
    omega

theorem Machine.Pushed.pushes (h : Machine.Pushed n m m') {l : List UInt32}
    (hroom : 4 * (n + l.length) ≤ (m.reg esp).toNat) : Machine.Pushed (n + l.length) m (m'.pushes l) := by
  induction l generalizing m' n with
  | nil => exact h
  | cons w l ih =>
    rw [List.length_cons] at hroom ⊢
    have hrest := ih (h.push (by omega) w) (by omega)
    rw [Nat.add_assoc, Nat.add_comm 1] at hrest
    exact hrest

theorem Machine.Stack.top (h : m.Stack ws) (hn : n < ws.length) : m.top (UInt32.ofNat n) = ws[n] :=
  holds_iff.mp h n hn

theorem Machine.Stack.drop (h : m.Stack ws) (n : ℕ) : (m.drop (UInt32.ofNat n)).Stack (ws.drop n) := by
  refine holds_iff.mpr fun i hi => ?_
  have hi' : n + i < ws.length := by rw [List.length_drop] at hi; omega
  have := holds_iff.mp h (n + i) hi'
  rw [List.getElem_drop, ← this]
  simp only [Machine.drop, Machine.setReg_mem, Machine.setReg_reg, Function.update_self]
  rw [UInt32.ofNat_add, UInt32.mul_add, UInt32.add_assoc]

theorem Machine.Holds.set (h : m.Holds a ws) (hlen : ws.length ≤ 2 ^ 30) (hn : n < ws.length) (w : UInt32) :
    (m.setMem (a + 4 * UInt32.ofNat n) w).Holds a (ws.set n w) := by
  refine holds_iff.mpr fun i hi => ?_
  rw [List.length_set] at hi
  rw [List.getElem_set, Machine.setMem_mem]
  split
  · rename_i heq
    subst heq
    exact Function.update_self ..
  · rename_i hne
    rw [Function.update_of_ne (add_mul_ne (by omega) (by omega) (Ne.symm hne))]
    exact holds_iff.mp h i hi

theorem Machine.Stack.set (h : m.Stack ws) (hlen : ws.length ≤ 2 ^ 30) (hn : n < ws.length) (w : UInt32) :
    (m.setMem (m.reg esp + 4 * UInt32.ofNat n) w).Stack (ws.set n w) :=
  Machine.Holds.set h hlen hn w

theorem Machine.Stack.setReg {r : Reg} (h : m.Stack ws) (hr : r ≠ esp) : (m.setReg r w).Stack ws :=
  Machine.Stack.of_eq h rfl (by simp [Function.update_of_ne (Ne.symm hr)])

@[simp] theorem push_reg {r : Reg} (hr : r ≠ esp) : (m.push w).reg r = m.reg r := by
  simp [Machine.push, Function.update_of_ne hr]

@[simp] theorem push_reg_esp : (m.push w).reg esp = m.reg esp - 4 := by
  simp [Machine.push]

@[simp] theorem push_seg : (m.push w).seg = m.seg := rfl

@[simp] theorem push_cs : (m.push w).cs = m.cs := rfl

/-- A return to a less privileged program. -/
theorem iretd_outer {ip code flags sp stack : UInt32} (h : m.Stack (ip :: code :: flags :: sp :: stack :: ws))
    (hne : code.toUInt16 &&& 3 ≠ m.cs &&& 3) : m.iretd =
      { m.setReg esp sp with
        eip := ip, cs := code.toUInt16, eflags := flags, ss := stack.toUInt16 } := by
  simp only [Machine.Stack, Machine.Holds, UInt32.add_assoc, UInt32.reduceAdd] at h
  obtain ⟨hip, hcode, hflags, hsp, hstack, -⟩ := h
  simp only [Machine.iretd, Machine.top, UInt32.reduceMul, UInt32.add_zero, hip, hcode, hflags, hsp, hstack,
    if_neg hne, Machine.drop, Machine.setReg, Function.update_idem]

/-- A return to a program of the same privilege. -/
theorem iretd_same {ip code flags : UInt32} (h : m.Stack (ip :: code :: flags :: ws))
    (heq : code.toUInt16 &&& 3 = m.cs &&& 3) : m.iretd =
      { m.drop 3 with eip := ip, cs := code.toUInt16, eflags := flags } := by
  simp only [Machine.Stack, Machine.Holds, UInt32.add_assoc, UInt32.reduceAdd] at h
  obtain ⟨hip, hcode, hflags, -⟩ := h
  simp only [Machine.iretd, Machine.top, UInt32.reduceMul, UInt32.add_zero, hip, hcode, hflags, if_pos heq]

theorem Machine.Stack.setSeg {s : SegReg} {w : UInt16} (h : m.Stack ws) : (m.setSeg s w).Stack ws :=
  Machine.Stack.of_eq h rfl rfl

end Stack

end X86
