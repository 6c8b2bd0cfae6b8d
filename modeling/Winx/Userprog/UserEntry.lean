import Winx.Thread.Switch

/-! # Entering a program

`start_process` and `sys_execv` do not return: they fill in the context at the
end of the kernel stack and jump to `intr_exit`, which enters the program.
-/

namespace Winx

namespace Switch

open X86 X86.Reg X86.SegReg

/-- `SELECTOR_U_CODE` -/
def selectorUCode : UInt32 := 0x2b

/-- `SELECTOR_U_DATA` -/
def selectorUData : UInt32 := 0x33

/-- `EFLAGS_IOPL_0 | EFLAGS_MBS | EFLAGS_IF_1` -/
def userEflags : UInt32 := 0x202

/-- What `start_process` stores into the context, for the user stack in the page `ustack`. -/
def startContext (vecNo errCode function ustack : UInt32) : IntrStack where
  vecNo := vecNo
  edi := 0
  esi := 0
  ebp := 0
  espDummy := 0
  ebx := 0
  edx := 0
  ecx := 0
  eax := 0
  gs := 0
  fs := selectorUData
  es := selectorUData
  ds := selectorUData
  errCode := errCode
  eip := function
  cs := selectorUCode
  eflags := userEflags
  esp := ustack + 4096
  ss := selectorUData

/-- Store words from an address on. -/
def storeWords (m : Machine) : UInt32 → List UInt32 → Machine
  | _, [] => m
  | a, w :: ws => storeWords (m.setMem a w) (a + 4) ws

/-- `proc_stack` in `start_process` -/
def procStack (m : Machine) (cur : UInt32) : UInt32 := m.mem cur + 32 * 4

/-- The context that `start_process` fills in. The error code and the vector stay. -/
def procContext (m : Machine) (cur function ustack : UInt32) : IntrStack :=
  startContext ((m.setMem cur (procStack m cur)).mem (procStack m cur))
    ((m.setMem cur (procStack m cur)).mem (procStack m cur + 4 * 13)) function ustack

/-- `start_process` up to the jump to `intr_exit`. -/
def startProcess (m : Machine) (cur function ustack : UInt32) : Machine :=
  (storeWords (m.setMem cur (procStack m cur)) (procStack m cur) (procContext m cur function ustack).words).setReg
    esp (procStack m cur)

/-- `sys_execv` after `load`, up to the jump to `intr_exit`. -/
def execvStack (m : Machine) (cur argv argc entryPoint : UInt32) : Machine :=
  let intr0Stack := cur + 4096 - 76
  ((((m.setMem (intr0Stack + 4 * 5) argv).setMem (intr0Stack + 4 * 7) argc).setMem
    (intr0Stack + 4 * 14) entryPoint).setMem (intr0Stack + 4 * 17) 0xc0000000).setReg esp intr0Stack

section Words

variable {m : Machine} {a b : UInt32} {ws : List UInt32}

theorem storeWords_reg : (storeWords m a ws).reg = m.reg := by
  induction ws generalizing m a with
  | nil => rfl
  | cons w ws ih => exact ih

theorem storeWords_cs : (storeWords m a ws).cs = m.cs := by
  induction ws generalizing m a with
  | nil => rfl
  | cons w ws ih => exact ih

theorem storeWords_outs : (storeWords m a ws).outs = m.outs := by
  induction ws generalizing m a with
  | nil => rfl
  | cons w ws ih => exact ih

theorem storeWords_other (h : ∀ i < ws.length, b ≠ a + 4 * UInt32.ofNat i) : (storeWords m a ws).mem b = m.mem b := by
  induction ws generalizing m a with
  | nil => rfl
  | cons w ws ih =>
    rw [storeWords, ih fun i hi => ?_]
    · have hfirst := h 0 (Nat.succ_pos _)
      exact Function.update_of_ne (by simpa using hfirst) ..
    · have hnext := h (i + 1) (by simpa using hi)
      rwa [add_mul_succ] at hnext

/-- What was stored is there. -/
theorem holds_storeWords (hlen : ws.length < 2 ^ 30) : (storeWords m a ws).Holds a ws := by
  induction ws generalizing m a with
  | nil => trivial
  | cons w ws ih =>
    rw [List.length_cons] at hlen
    refine ⟨?_, ih (by omega)⟩
    rw [storeWords, storeWords_other fun i hi => ?_]
    · exact Function.update_self ..
    · have hne := add_mul_ne (a := a) (i := 0) (j := i + 1) (by omega) (by omega) (by omega)
      rw [add_mul_succ] at hne
      simpa using hne

end Words

section Enter

variable {m : Machine} {cur function ustack argv argc entryPoint : UInt32}

/-- The context that `start_process` leaves on the stack. -/
theorem startProcess_spec (m : Machine) (cur function ustack : UInt32) :
    (startProcess m cur function ustack).Stack (procContext m cur function ustack).words ∧
      (startProcess m cur function ustack).cs = m.cs ∧ (startProcess m cur function ustack).outs = m.outs := by
  have hlen : (procContext m cur function ustack).words.length < 2 ^ 30 := by simp
  rw [startProcess]
  generalize (procContext m cur function ustack).words = ws at hlen ⊢
  exact ⟨Machine.Holds.stack (holds_storeWords hlen), storeWords_cs, storeWords_outs⟩

/-- `start_process` enters the program in user mode with cleared registers, its own stack, interrupts on and no
access to the ports, whatever the kernel left in the registers. -/
theorem intrExit_startProcess (hk : m.cs &&& 3 = 0) : intrExit (startProcess m cur function ustack) =
    { reg := fun r => if r = esp then ustack + 4096 else 0
      seg := fun s => if s = gs then 0 else 0x33
      cs := 0x2b
      ss := 0x33
      eip := function
      eflags := 0x202
      mem := (startProcess m cur function ustack).mem
      outs := m.outs } := by
  obtain ⟨hstack, hcs, houts⟩ := startProcess_spec m cur function ustack
  generalize startProcess m cur function ustack = m' at hstack hcs houts
  have hcode : selectorUCode.toUInt16 &&& 3 = 3 := by decide
  rw [intrExit_eq hstack (by rw [hcs, hk]) hcode, IntrStack.program, houts]
  congr 1
  · funext r
    cases r <;> rfl
  · funext s
    cases s <;> rfl

/-- `sys_execv` enters the new program with the number of its arguments and their vector in `ecx` and `ebx`, at the end
of the user stack, in place of the program that made the call, however often the call was interrupted. -/
theorem intrExit_execvStack {u : Machine} {handler retAddr : UInt32} (htop : 92 ≤ (cur + 4096).toNat)
    (hu : u.cs &&& 3 = 3)
    (hcall : KernelRun (cur + 4096) ((syscallCall u (cur + 4096) handler retAddr).reg esp + 16)
      (syscallCall u (cur + 4096) handler retAddr) m) :
    intrExit (execvStack m cur argv argc entryPoint) =
      { u with
        reg := Function.update (Function.update (Function.update u.reg ebx argv) ecx argc) esp 0xc0000000
        eip := entryPoint
        mem := (execvStack m cur argv argc entryPoint).mem
        outs := m.outs } := by
  have hwords := holds_userContext htop hu hcall
  obtain ⟨-, -, hcs⟩ := keepsStack_syscallCall htop hu hcall
  have hset := (((hwords.set (n := 5) (by simp) (by simp) argv).set (n := 7) (by simp) (by simp) argc).set
    (n := 14) (by simp) (by simp) entryPoint).set (n := 17) (by simp) (by simp) 0xc0000000
  have hbase : cur + 4096 - 76 = cur + 4020 := by simp only [add_sub_assoc, UInt32.reduceSub]
  have hmachine : (execvStack m cur argv argc entryPoint).Stack
      (((((userContext u 0x80 (cur + 4096)).words.set 5 argv).set 7 argc).set 14 entryPoint).set 17 0xc0000000) := by
    rw [execvStack, hbase]
    exact hset.stack
  have hcs' : (execvStack m cur argv argc entryPoint).cs = selectorKCode := hcs
  have houts : (execvStack m cur argv argc entryPoint).outs = m.outs := rfl
  generalize execvStack m cur argv argc entryPoint = m' at hmachine hcs' houts ⊢
  have hcode : (userContext u 0x80 (cur + 4096)).cs.toUInt16 = u.cs := UInt16.toUInt16_toUInt32 _
  have hexit := intrExit_eq (m := m')
    (f := { userContext u 0x80 (cur + 4096) with ebx := argv, ecx := argc, eip := entryPoint, esp := 0xc0000000 })
    hmachine (by rw [hcs']; decide) (by rw [← hcode] at hu; exact hu)
  rw [hexit, IntrStack.program, houts]
  congr 1
  · funext r
    cases r <;> rfl
  · have hseg : (userContext u 0x80 (cur + 4096)).seg = u.seg := seg_savedContext 0x80
    exact hseg
  · exact UInt16.toUInt16_toUInt32 _

theorem intrExit_startProcess_bare : intrExit (startProcess startBare.machine 0xc0101000 0x8048054 0xbffff000) =
    { reg := fun r => if r = esp then 0xbffff000 + 4096 else 0
      seg := fun s => if s = gs then 0 else 0x33
      cs := 0x2b
      ss := 0x33
      eip := 0x8048054
      eflags := 0x202
      mem := (startProcess startBare.machine 0xc0101000 0x8048054 0xbffff000).mem
      outs := startBare.machine.outs } :=
  intrExit_startProcess (by decide)

/-- The program in the middle of its call of `sys_execv`. -/
def execBare : Machine := syscallCall programBare 0xc0102000 0xc0001500 0xc0001200

theorem intrExit_execvStack_bare : intrExit (execvStack execBare 0xc0101000 0x8049000 2 0x8048054) =
    { programBare with
      reg := Function.update (Function.update (Function.update programBare.reg ebx 0x8049000) ecx 2) esp 0xc0000000
      eip := 0x8048054
      mem := (execvStack execBare 0xc0101000 0x8049000 2 0x8048054).mem
      outs := execBare.outs } :=
  intrExit_execvStack (by decide) (by decide) (.done _ _)

end Enter

end Switch

end Winx
