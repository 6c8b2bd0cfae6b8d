import Winx.Lib.X86

/-! # The way into the kernel and back

The entries of `kernel.s` save the context of the interrupted program as a
`struct intr_stack` on its kernel stack, call the handler, and `intr_exit`
restores it. A system call differs in the arguments that it pushes and in the
result that it stores into the saved context.
-/

namespace Winx

open X86 X86.Reg X86.SegReg

/-- `struct intr_stack` -/
structure IntrStack where
  vecNo : UInt32
  edi : UInt32
  esi : UInt32
  ebp : UInt32
  espDummy : UInt32
  ebx : UInt32
  edx : UInt32
  ecx : UInt32
  eax : UInt32
  gs : UInt32
  fs : UInt32
  es : UInt32
  ds : UInt32
  errCode : UInt32
  eip : UInt32
  cs : UInt32
  eflags : UInt32
  esp : UInt32
  ss : UInt32

/-- The words of a `struct intr_stack` that the entry pushes, and the error code. -/
def IntrStack.context (f : IntrStack) : List UInt32 :=
  [f.vecNo, f.edi, f.esi, f.ebp, f.espDummy, f.ebx, f.edx, f.ecx, f.eax, f.gs, f.fs, f.es, f.ds, f.errCode]

/-- The words of a `struct intr_stack`. -/
def IntrStack.words (f : IntrStack) : List UInt32 :=
  f.context ++ [f.eip, f.cs, f.eflags, f.esp, f.ss]

@[simp] theorem IntrStack.length_words (f : IntrStack) : f.words.length = 19 := rfl

/-- `SELECTOR_K_CODE` -/
def selectorKCode : UInt16 := 8

/-- `SELECTOR_K_STACK` -/
def selectorKStack : UInt16 := 16

/-- What all entries push for vectors without an error code. -/
def saveContext : List Instr :=
  [.pushImm 0, .pushSeg ds, .pushSeg es, .pushSeg fs, .pushSeg gs, .pushad]

/-- An entry of `kernel.s` for a vector without an error code, up to the call. -/
def intrEntry (vec : UInt32) : List Instr :=
  saveContext ++ [.movAl 0x20, .outAl 0xa0, .outAl 0x20, .pushImm vec]

/-- `syscall_handler` up to the call. -/
def syscallEntry : List Instr :=
  saveContext ++ [.pushImm 0x80, .push edx, .push ecx, .push ebx]

/-- `syscall_handler` after the call. -/
def syscallReturn : List Instr := [.addEsp 3, .store esp (8 * 4) eax]

/-- `intr_exit` up to `iretd`. -/
def intrExitCode : List Instr :=
  [.addEsp 1, .popad, .popSeg gs, .popSeg fs, .popSeg es, .popSeg ds, .addEsp 1]

/-- `intr_exit` -/
def intrExit (m : Machine) : Machine := (m.run intrExitCode).iretd

/-- The context of a program, as an entry saves it. -/
def savedContext (m : Machine) (vec espDummy : UInt32) : IntrStack where
  vecNo := vec
  edi := m.reg edi
  esi := m.reg esi
  ebp := m.reg ebp
  espDummy := espDummy
  ebx := m.reg ebx
  edx := m.reg edx
  ecx := m.reg ecx
  eax := m.reg eax
  gs := (m.seg gs).toUInt32
  fs := (m.seg fs).toUInt32
  es := (m.seg es).toUInt32
  ds := (m.seg ds).toUInt32
  errCode := 0
  eip := m.eip
  cs := m.cs.toUInt32
  eflags := m.eflags
  esp := m.reg esp
  ss := m.ss.toUInt32

/-- The general registers of a saved context. -/
def IntrStack.reg (f : IntrStack) : Reg → UInt32
  | .eax => f.eax
  | .ecx => f.ecx
  | .edx => f.edx
  | .ebx => f.ebx
  | .esp => f.esp
  | .ebp => f.ebp
  | .esi => f.esi
  | .edi => f.edi

/-- The segment registers of a saved context. -/
def IntrStack.seg (f : IntrStack) : SegReg → UInt16
  | .ds => f.ds.toUInt16
  | .es => f.es.toUInt16
  | .fs => f.fs.toUInt16
  | .gs => f.gs.toUInt16

/-- The program that a saved context stands for. -/
def IntrStack.program (f : IntrStack) (m : Machine) : Machine :=
  { m with
    reg := f.reg
    seg := f.seg
    cs := f.cs.toUInt16
    ss := f.ss.toUInt16
    eip := f.eip
    eflags := f.eflags }

section Exit

variable {m : Machine} {f : IntrStack} {ws : List UInt32}

/-- `intr_exit` up to `iretd` restores the registers. -/
theorem run_intrExitCode (h : m.Stack (f.context ++ ws)) : m.run intrExitCode =
    { m with reg := Function.update f.reg esp (m.reg esp + 4 * 14), seg := f.seg } := by
  simp only [Machine.Stack, IntrStack.context, List.cons_append, List.nil_append, Machine.Holds,
    UInt32.add_assoc, UInt32.reduceAdd] at h
  obtain ⟨-, hedi, hesi, hebp, -, hebx, hedx, hecx, heax, hgs, hfs, hes, hds, -⟩ := h
  simp only [intrExitCode, Machine.run, List.foldl, Instr.exec, Machine.drop, Machine.top, Machine.setReg,
    Machine.setSeg]
  simp only [Function.update_self, ne_eq, reduceCtorEq, not_false_eq_true, Function.update_of_ne,
    UInt32.add_assoc, UInt32.reduceMul, UInt32.reduceAdd, UInt32.add_zero, hedi, hesi, hebp, hebx, hedx, hecx, heax,
    hgs, hfs, hes, hds]
  refine congrArg₂ (fun reg seg => { m with reg := reg, seg := seg }) ?_ ?_
  · funext r
    cases r <;> rfl
  · funext s
    cases s <;> rfl

/-- What `intr_exit` leaves on the stack for `iretd`. -/
theorem stack_intrExitCode (h : m.Stack (f.context ++ ws)) : (m.run intrExitCode).Stack ws := by
  have hrest := h.drop 14
  have hlen : f.context.length = 14 := rfl
  rw [← hlen, List.drop_left] at hrest
  rw [run_intrExitCode h]
  exact Machine.Stack.of_eq hrest rfl rfl

/-- `intr_exit` goes on with the user program whose context is on the stack. -/
theorem intrExit_eq (h : m.Stack f.words) (hk : m.cs &&& 3 = 0) (hu : f.cs.toUInt16 &&& 3 = 3) :
    intrExit m = f.program m := by
  have hne : f.cs.toUInt16 &&& 3 ≠ (m.run intrExitCode).cs &&& 3 := by
    rw [run_intrExitCode h]
    change f.cs.toUInt16 &&& 3 ≠ m.cs &&& 3
    rw [hk, hu]
    decide
  rw [intrExit, iretd_outer (stack_intrExitCode h) hne, run_intrExitCode h]
  simp only [Machine.setReg, Function.update_idem, IntrStack.program]
  rw [show f.esp = f.reg esp from rfl, Function.update_eq_self]

/-- `intr_exit` goes on with the kernel thread whose context is on the stack. -/
theorem intrExit_kernel (h : m.Stack (f.context ++ [f.eip, f.cs, f.eflags])) (hk : m.cs &&& 3 = 0)
    (hcs : f.cs.toUInt16 &&& 3 = 0) : intrExit m =
      { m with
        reg := Function.update f.reg esp (m.reg esp + 4 * 17)
        seg := f.seg
        cs := f.cs.toUInt16
        eip := f.eip
        eflags := f.eflags } := by
  have heq : f.cs.toUInt16 &&& 3 = (m.run intrExitCode).cs &&& 3 := by
    rw [run_intrExitCode h]
    change f.cs.toUInt16 &&& 3 = m.cs &&& 3
    rw [hk, hcs]
  rw [intrExit, iretd_same (stack_intrExitCode h) heq, run_intrExitCode h]
  simp only [Machine.drop, Machine.setReg, Function.update_self, Function.update_idem, UInt32.add_assoc,
    UInt32.reduceMul, UInt32.reduceAdd]

end Exit

section Entry

variable {m c r u : Machine} {ws : List UInt32} {w : UInt32} (vec esp0 handler retAddr : UInt32)

theorem run_saveContext : m.run saveContext =
    m.pushes (savedContext m vec (m.reg esp - 4 - 4 - 4 - 4 - 4)).context.tail.reverse := by
  simp only [saveContext, Machine.run, List.foldl, Instr.exec, Machine.pushes, savedContext, IntrStack.context,
    List.tail_cons, List.reverse_cons, List.reverse_nil, List.nil_append, List.cons_append, push_seg, push_reg_esp]
  simp

/-- The low byte of a register that was written. -/
theorem toUInt8_setLow (w : UInt32) (b : UInt8) : (w &&& 0xffffff00 ||| b.toUInt32).toUInt8 = b := by
  have hmask : (0xffffff00 : UInt32).toUInt8 = 0 := rfl
  rw [UInt32.toUInt8_or, UInt32.toUInt8_and, hmask, UInt8.and_zero, UInt8.zero_or,
    UInt8.toUInt8_toUInt32]

/-- The registers and the stack after the context was saved. -/
structure Saved (m m' : Machine) (vec : UInt32) (ws : List UInt32) : Prop where
  stack : m'.Stack ((savedContext m vec (m.reg esp - 4 - 4 - 4 - 4 - 4)).context.tail ++ ws)
  reg : ∀ r, r ≠ esp → m'.reg r = m.reg r
  top : m'.reg esp = m.reg esp - 4 * 13
  cs : m'.cs = m.cs
  outs : m'.outs = m.outs

theorem saved_saveContext (h : m.Stack ws) (hlen : ws.length < 2 ^ 29) :
    Saved m (m.run saveContext) vec ws := by
  rw [run_saveContext vec]
  have hstack := h.pushes (l := (savedContext m vec (m.reg esp - 4 - 4 - 4 - 4 - 4)).context.tail.reverse)
    (by simp [IntrStack.context]; omega)
  rw [List.reverse_reverse] at hstack
  exact ⟨hstack, fun r hr => pushes_reg hr, pushes_esp, pushes_cs, pushes_outs⟩

/-- The words on the stack when the handler of an interrupt is called. -/
theorem stack_intrEntry (h : m.Stack ws) (hlen : ws.length < 2 ^ 29) :
    (m.run (intrEntry vec)).Stack ((savedContext m vec (m.reg esp - 4 - 4 - 4 - 4 - 4)).context ++ ws) ∧
      (m.run (intrEntry vec)).reg esp = m.reg esp - 4 * 14 ∧ (m.run (intrEntry vec)).cs = m.cs ∧
        (m.run (intrEntry vec)).outs = m.outs ++ [(0xa0, 0x20), (0x20, 0x20)] := by
  have hs := saved_saveContext vec h hlen
  rw [intrEntry, Machine.run_append]
  generalize m.run saveContext = m₁ at hs
  have hpush := Machine.Stack.push (m := (m₁.setReg eax (m₁.reg eax &&& 0xffffff00 ||| (0x20 : UInt8).toUInt32)))
    (hs.stack.setReg (by decide)) (by simp [IntrStack.context]; omega) vec
  simp only [Machine.run, List.foldl, Instr.exec]
  refine ⟨Machine.Stack.of_eq hpush rfl rfl, ?_, hs.cs, ?_⟩
  · rw [push_reg_esp]
    change Function.update m₁.reg eax (m₁.reg eax &&& 0xffffff00 ||| (0x20 : UInt8).toUInt32) esp - 4 = _
    rw [Function.update_of_ne (by decide), hs.top, sub_sub]
    rfl
  · simp only [Machine.push, Machine.setMem, Machine.setReg, Function.update_self, toUInt8_setLow, hs.outs,
      List.append_assoc, List.cons_append, List.nil_append]

/-- The words on the stack when a system call is made: its arguments, and the context. -/
theorem stack_syscallEntry (h : m.Stack ws) (hlen : ws.length < 2 ^ 29) :
    (m.run syscallEntry).Stack (m.reg ebx :: m.reg ecx :: m.reg edx ::
      (savedContext m 0x80 (m.reg esp - 4 - 4 - 4 - 4 - 4)).context ++ ws) ∧
        (m.run syscallEntry).reg esp = m.reg esp - 4 * 17 ∧ (m.run syscallEntry).cs = m.cs := by
  have hs := saved_saveContext 0x80 h hlen
  rw [syscallEntry, Machine.run_append]
  generalize m.run saveContext = m₁ at hs
  have hlen' : ((savedContext m 0x80 (m.reg esp - 4 - 4 - 4 - 4 - 4)).context.tail ++ ws).length =
      13 + ws.length := by simp [IntrStack.context]; omega
  have hpush := (((hs.stack.push (by omega) 0x80).push (by simp [hlen']; omega) (m.reg edx)).push
    (by simp [hlen']; omega) (m.reg ecx)).push (by simp [hlen']; omega) (m.reg ebx)
  simp only [Machine.run, List.foldl, Instr.exec, push_reg, ne_eq, reduceCtorEq, not_false_eq_true, hs.reg]
  refine ⟨hpush, ?_, hs.cs⟩
  simp only [push_reg_esp, hs.top, sub_sub]
  rfl

/-- The state in which the entry of an interrupt begins, from a user program. -/
theorem interrupt_user (hu : u.cs &&& 3 = 3) :
    u.interrupt selectorKCode selectorKStack esp0 handler =
      { ({ u.setReg esp esp0 with ss := selectorKStack } : Machine).pushes
          [u.ss.toUInt32, u.reg esp, u.eflags, u.cs.toUInt32, u.eip] with
        cs := selectorKCode, eip := handler, eflags := u.eflags &&& ~~~0x34300 } := by
  have hne : ¬ u.cs &&& 3 = selectorKCode &&& 3 := by
    rw [hu]
    decide
  rw [Machine.interrupt, if_neg hne]
  rfl

theorem interrupt_kernel (hk : u.cs &&& 3 = 0) :
    u.interrupt selectorKCode selectorKStack esp0 handler =
      { u.pushes [u.eflags, u.cs.toUInt32, u.eip] with
        cs := selectorKCode, eip := handler, eflags := u.eflags &&& ~~~0x34300 } := by
  have heq : u.cs &&& 3 = selectorKCode &&& 3 := by
    rw [hk]
    decide
  rw [Machine.interrupt, if_pos heq]
  rfl

/-- A C function that was called in `c` has returned in `r`: of the stack above its `n` arguments it keeps
`k` words. -/
structure Returned (c r : Machine) (n k : ℕ) : Prop where
  top : r.reg esp = c.reg esp + 4
  kept : ∀ i < k, r.mem (c.reg esp + 4 * UInt32.ofNat (1 + n + i)) = c.mem (c.reg esp + 4 * UInt32.ofNat (1 + n + i))
  cs : r.cs = c.cs

/-- The call of the handler of an interrupt. -/
def intrCall (u : Machine) (vec esp0 handler retAddr : UInt32) : Machine :=
  ((u.interrupt selectorKCode selectorKStack esp0 handler).run (intrEntry vec)).push retAddr

/-- The call of a system call. -/
def syscallCall (u : Machine) (esp0 handler retAddr : UInt32) : Machine :=
  ((u.interrupt selectorKCode selectorKStack esp0 handler).run syscallEntry).push retAddr

/-- The context of an interrupted user program, as it lies on the kernel stack. -/
def userContext (u : Machine) (vec esp0 : UInt32) : IntrStack :=
  savedContext u vec (esp0 - 4 * 5 - 4 - 4 - 4 - 4 - 4)

/-- Entries that begin with the same registers save the same context. -/
theorem context_congr {espDummy : UInt32} (hreg : ∀ r, r ≠ esp → m.reg r = u.reg r) (hseg : m.seg = u.seg) :
    (savedContext m vec espDummy).context = (savedContext u vec espDummy).context := by
  simp [savedContext, IntrStack.context, hreg, hseg]

theorem reg_savedContext {espDummy : UInt32} : (savedContext u vec espDummy).reg = u.reg := by
  funext r
  cases r <;> rfl

theorem seg_savedContext {espDummy : UInt32} : (savedContext u vec espDummy).seg = u.seg := by
  funext s
  cases s <;> exact UInt16.toUInt16_toUInt32 _

/-- The program whose context an entry saved. -/
theorem program_savedContext {espDummy : UInt32} :
    (savedContext u vec espDummy).program r = { u with mem := r.mem, outs := r.outs } := by
  rw [IntrStack.program, reg_savedContext, seg_savedContext]
  simp only [savedContext, UInt16.toUInt16_toUInt32]

/-- The program whose saved `eax` was overwritten. -/
theorem program_eax {f : IntrStack} : ({ f with eax := w } : IntrStack).program m =
    (f.program m).setReg eax w := by
  refine congrArg (fun reg => ({ f.program m with reg := reg } : Machine)) ?_
  funext r
  cases r <;> rfl

/-- What the processor does before the entry runs: `ws` on the stack, and the registers as they were. -/
structure Interrupted (u m : Machine) (ws : List UInt32) (sp : UInt32) : Prop where
  stack : m.Stack ws
  top : m.reg esp = sp
  reg : ∀ r, r ≠ esp → m.reg r = u.reg r
  seg : m.seg = u.seg
  cs : m.cs = selectorKCode
  outs : m.outs = u.outs

theorem interrupted_pushes {l : List UInt32} (ip flags : UInt32) (hl : l.length < 2 ^ 29) :
    Interrupted m { m.pushes l with cs := selectorKCode, eip := ip, eflags := flags } l.reverse
      (m.reg esp - 4 * UInt32.ofNat l.length) where
  stack := by
    have hnil : m.Stack [] := trivial
    have hstack := hnil.pushes (l := l) (by rw [List.length_nil]; omega)
    rw [List.append_nil] at hstack
    exact Machine.Stack.of_eq hstack rfl rfl
  top := pushes_esp
  reg _ hr := pushes_reg hr
  seg := pushes_seg
  cs := rfl
  outs := pushes_outs

/-- The processor takes the stack of the TSS when it interrupts a user program. -/
theorem interrupted_user (hu : u.cs &&& 3 = 3) :
    Interrupted u (u.interrupt selectorKCode selectorKStack esp0 handler)
      [u.eip, u.cs.toUInt32, u.eflags, u.reg esp, u.ss.toUInt32] (esp0 - 4 * 5) := by
  have h := interrupted_pushes (m := { u.setReg esp esp0 with ss := selectorKStack })
    (l := [u.ss.toUInt32, u.reg esp, u.eflags, u.cs.toUInt32, u.eip]) handler (u.eflags &&& ~~~0x34300) (by simp)
  rw [← interrupt_user esp0 handler hu] at h
  refine ⟨h.stack, h.top.trans (by simp), fun r hr => (h.reg r hr).trans ?_, h.seg, h.cs, h.outs⟩
  simp [Function.update_of_ne hr]

/-- It stays on the stack when it interrupts the kernel. -/
theorem interrupted_kernel (hk : u.cs &&& 3 = 0) :
    Interrupted u (u.interrupt selectorKCode selectorKStack esp0 handler)
      [u.eip, u.cs.toUInt32, u.eflags] (u.reg esp - 4 * 3) := by
  have h := interrupted_pushes (m := u) (l := [u.eflags, u.cs.toUInt32, u.eip]) handler
    (u.eflags &&& ~~~0x34300) (by simp)
  rw [← interrupt_kernel esp0 handler hk] at h
  exact h

/-- The stack after a call, without the arguments. -/
theorem Returned.stack (args ws : List UInt32) (h : Returned c r args.length ws.length)
    (hc : c.Stack (w :: (args ++ ws))) : (r.drop (UInt32.ofNat args.length)).Stack ws := by
  refine holds_iff.mpr fun i hi => ?_
  have hat := holds_iff.mp hc (1 + args.length + i) (by simp; omega)
  have haddr : (r.drop (UInt32.ofNat args.length)).reg esp + 4 * UInt32.ofNat i =
      c.reg esp + 4 * UInt32.ofNat (1 + args.length + i) := by
    simp only [Machine.drop, Machine.setReg_reg, Function.update_self, h.top]
    rw [UInt32.ofNat_add, UInt32.ofNat_add, UInt32.mul_add, UInt32.mul_add]
    simp only [UInt32.add_assoc]
    rfl
  rw [haddr]
  refine (h.kept i hi).trans (hat.trans ?_)
  have hi' : 1 + args.length + i = args.length + i + 1 := by omega
  simp only [hi', List.getElem_cons_succ, List.getElem_append_right (Nat.le_add_right _ _), Nat.add_sub_cancel_left]

/-- The call of the handler of an interrupt. -/
theorem intrCall_interrupted (h : Interrupted u m ws w) (hlen : ws.length < 2 ^ 28) :
    ((m.run (intrEntry vec)).push retAddr).Stack
        (retAddr :: ((savedContext u vec (w - 4 - 4 - 4 - 4 - 4)).context ++ ws)) ∧
      ((m.run (intrEntry vec)).push retAddr).reg esp = w - 4 * 15 ∧
      ((m.run (intrEntry vec)).push retAddr).cs = selectorKCode ∧
      ((m.run (intrEntry vec)).push retAddr).outs = u.outs ++ [(0xa0, 0x20), (0x20, 0x20)] := by
  obtain ⟨hstack, htop, hcs, houts⟩ := stack_intrEntry vec h.stack (by omega)
  rw [context_congr _ h.reg h.seg, h.top] at hstack
  rw [h.top] at htop
  rw [h.cs] at hcs
  rw [h.outs] at houts
  generalize m.run (intrEntry vec) = m₁ at hstack htop hcs houts
  refine ⟨hstack.push ?_ retAddr, ?_, hcs, houts⟩
  · simp [IntrStack.context]
    omega
  · rw [push_reg_esp, htop, sub_sub]
    rfl

/-- The call of a system call. -/
theorem syscallCall_interrupted (h : Interrupted u m ws w) (hlen : ws.length < 2 ^ 28) :
    ((m.run syscallEntry).push retAddr).Stack (retAddr :: u.reg ebx :: u.reg ecx :: u.reg edx ::
        ((savedContext u 0x80 (w - 4 - 4 - 4 - 4 - 4)).context ++ ws)) ∧
      ((m.run syscallEntry).push retAddr).reg esp = w - 4 * 18 ∧
      ((m.run syscallEntry).push retAddr).cs = selectorKCode := by
  obtain ⟨hstack, htop, hcs⟩ := stack_syscallEntry h.stack (by omega)
  rw [context_congr _ h.reg h.seg, h.top, h.reg _ (by decide), h.reg _ (by decide), h.reg _ (by decide)] at hstack
  rw [h.top] at htop
  rw [h.cs] at hcs
  generalize m.run syscallEntry = m₁ at hstack htop hcs
  refine ⟨hstack.push ?_ retAddr, ?_, hcs⟩
  · simp [IntrStack.context]
    omega
  · rw [push_reg_esp, htop, sub_sub]
    rfl

/-- What a system call gets: its three arguments, and below them the saved context of the program. -/
theorem stack_syscallCall (hu : u.cs &&& 3 = 3) :
    (syscallCall u esp0 handler retAddr).Stack
        (retAddr :: u.reg ebx :: u.reg ecx :: u.reg edx :: (userContext u 0x80 esp0).words) ∧
      (syscallCall u esp0 handler retAddr).reg esp = esp0 - 92 ∧
      (syscallCall u esp0 handler retAddr).cs = selectorKCode := by
  obtain ⟨hstack, htop, hcs⟩ := syscallCall_interrupted retAddr (interrupted_user esp0 handler hu)
    (by simp)
  rw [sub_sub] at htop
  exact ⟨hstack, htop, hcs⟩

variable {vec esp0 handler retAddr}

/-- The stack when the handler of an interrupt has returned. Its argument is the vector in the saved context,
and may have changed. -/
theorem stack_returned_intr (h : Interrupted u m ws w) (hlen : ws.length < 2 ^ 28)
    (hr : Returned ((m.run (intrEntry vec)).push retAddr) r 1 (13 + ws.length)) :
    r.Stack ((savedContext u (r.top 0) (w - 4 - 4 - 4 - 4 - 4)).context ++ ws) := by
  obtain ⟨hcall, -⟩ := intrCall_interrupted vec retAddr h hlen
  have hk : ((savedContext u vec (w - 4 - 4 - 4 - 4 - 4)).context.tail ++ ws).length = 13 + ws.length := by
    simp [IntrStack.context]
    omega
  have hrest := Returned.stack [vec] ((savedContext u vec (w - 4 - 4 - 4 - 4 - 4)).context.tail ++ ws)
    (hk ▸ hr) hcall
  refine ⟨?_, ?_⟩
  · simp [Machine.top, savedContext]
  · have hesp : (r.drop (UInt32.ofNat [vec].length)).reg esp = r.reg esp + 4 := by simp [Machine.drop]
    rw [Machine.Stack, hesp] at hrest
    have hmem : (r.drop (UInt32.ofNat [vec].length)).mem = r.mem := rfl
    exact (holds_of_mem_eq hmem).mp hrest

/-- An interrupted user program goes on as it was. -/
theorem intrExit_user (hu : u.cs &&& 3 = 3) (h : Returned (intrCall u vec esp0 handler retAddr) r 1 18) :
    intrExit r = { u with mem := r.mem, outs := r.outs } := by
  have hstart := interrupted_user esp0 handler hu
  have hstack := stack_returned_intr hstart (by simp) h
  obtain ⟨-, -, hcs, -⟩ := intrCall_interrupted vec retAddr hstart (by simp)
  have hcode : (userContext u (r.top 0) esp0).cs.toUInt16 = u.cs := UInt16.toUInt16_toUInt32 _
  have hexit := intrExit_eq (f := userContext u (r.top 0) esp0) hstack
    (by rw [h.cs.trans hcs]; decide) (by rw [hcode, hu])
  rw [hexit, userContext, program_savedContext]

/-- An interrupted kernel thread goes on as it was. -/
theorem intrExit_intrCall_kernel (hk : u.cs &&& 3 = 0)
    (h : Returned (intrCall u vec esp0 handler retAddr) r 1 16) :
    intrExit r = { u with mem := r.mem, outs := r.outs, ss := r.ss } := by
  have hstart := interrupted_kernel esp0 handler hk
  have hstack := stack_returned_intr hstart (by simp) h
  obtain ⟨-, htop, hcs, -⟩ := intrCall_interrupted vec retAddr hstart (by simp)
  have hcode : (savedContext u (r.top 0) (u.reg esp - 4 * 3 - 4 - 4 - 4 - 4 - 4)).cs.toUInt16 = u.cs :=
    UInt16.toUInt16_toUInt32 _
  have hexit := intrExit_kernel (f := savedContext u (r.top 0) (u.reg esp - 4 * 3 - 4 - 4 - 4 - 4 - 4)) hstack
    (by rw [h.cs.trans hcs]; decide) (by rw [hcode, hk])
  have hesp : r.reg esp + 4 * 17 = u.reg esp := by
    rw [h.top, intrCall, htop]
    simp only [UInt32.add_assoc, UInt32.reduceMul, UInt32.reduceAdd, sub_sub, UInt32.sub_add_cancel]
  rw [hexit, reg_savedContext, seg_savedContext, hcode, hesp, Function.update_eq_self]
  rfl

/-- `intr_exit` after a system call: the program goes on as it was, with the result in `eax`. -/
theorem intrExit_syscallReturn (hu : u.cs &&& 3 = 3)
    (h : Returned (syscallCall u esp0 handler retAddr) r 3 19) :
    intrExit (r.run syscallReturn) =
      { u with
        reg := Function.update u.reg eax (r.reg eax)
        mem := (r.run syscallReturn).mem
        outs := r.outs } := by
  obtain ⟨hcall, -, hcs⟩ := stack_syscallCall esp0 handler retAddr hu
  have hstack := Returned.stack [u.reg ebx, u.reg ecx, u.reg edx] (userContext u 0x80 esp0).words
    h hcall
  have hset := hstack.set (n := 8) (by simp [IntrStack.words, IntrStack.context])
    (by simp [IntrStack.words, IntrStack.context]) (r.reg eax)
  have hrun : (r.drop 3).setMem ((r.drop 3).reg esp + 4 * 8) (r.reg eax) = r.run syscallReturn := rfl
  have hcode : (userContext u 0x80 esp0).cs.toUInt16 = u.cs := UInt16.toUInt16_toUInt32 _
  have hexit := intrExit_eq (m := r.run syscallReturn) (f := { userContext u 0x80 esp0 with eax := r.reg eax })
    hset (by rw [show (r.run syscallReturn).cs = selectorKCode from h.cs.trans hcs]; decide)
    (by rw [← hcode] at hu; exact hu)
  refine hexit.trans ?_
  rw [program_eax, userContext, program_savedContext]
  rfl

/-- An interrupt of the kernel leaves what is on the stack. -/
theorem pushed_intrCall (hk : u.cs &&& 3 = 0) (hroom : 72 ≤ (u.reg esp).toNat) :
    Machine.Pushed 18 u (intrCall u vec esp0 handler retAddr) := by
  have hstart : Machine.Pushed 3 u (u.interrupt selectorKCode selectorKStack esp0 handler) := by
    rw [interrupt_kernel esp0 handler hk]
    exact Machine.Pushed.of_eq ((Machine.Pushed.refl u).pushes (l := [u.eflags, u.cs.toUInt32, u.eip])
      (by simp; omega)) rfl rfl
  rw [intrCall, intrEntry, Machine.run_append, run_saveContext vec]
  generalize u.interrupt selectorKCode selectorKStack esp0 handler = m at hstart
  have hsaved := hstart.pushes (l := (savedContext m vec (m.reg esp - 4 - 4 - 4 - 4 - 4)).context.tail.reverse)
    (by simp [IntrStack.context]; omega)
  generalize m.pushes _ = m₁ at hsaved
  have heoi : Machine.Pushed 16 u (m₁.run [.movAl 0x20, .outAl 0xa0, .outAl 0x20]) := hsaved.of_eq rfl rfl
  exact (heoi.push (by omega) vec).push (by omega) retAddr

end Entry

/-! ## Nested interrupts -/

section Nested

variable {u m m' m'' b c : Machine} {top s vec esp0 handler retAddr : UInt32} {n k : ℕ}

/-- Steps of the kernel keep the words of its stack from `s` up to its top. -/
structure KeepsStack (top s : UInt32) (m m' : Machine) : Prop where
  kept : ∀ a, s ≤ a → a < top → m'.mem a = m.mem a
  cs : m'.cs = m.cs
  ss : m'.ss = m.ss

theorem KeepsStack.trans (h : KeepsStack top s m m') (h' : KeepsStack top s m' m'') : KeepsStack top s m m'' :=
  ⟨fun a ha hlt => (h'.kept a ha hlt).trans (h.kept a ha hlt), h'.cs.trans h.cs, h'.ss.trans h.ss⟩

/-- A run of a C function whose frame begins below `s`: steps of its own, and interrupts. The handler of an
interrupt is a C function again, with one argument. -/
inductive KernelRun (top : UInt32) : UInt32 → Machine → Machine → Prop
  | done (s : UInt32) (m : Machine) : KernelRun top s m m
  | own {s : UInt32} {m m' m'' : Machine} (hown : KeepsStack top s m m') (hrest : KernelRun top s m' m'') :
    KernelRun top s m m''
  | intr {s vec esp0 handler retAddr : UInt32} {m b m'' : Machine} (hroom : 72 ≤ (m.reg esp).toNat)
    (hframe : m.reg esp ≤ s)
    (hcall : KernelRun top ((intrCall m vec esp0 handler retAddr).reg esp + 8)
      (intrCall m vec esp0 handler retAddr) b)
    (hret : b.reg esp = (intrCall m vec esp0 handler retAddr).reg esp)
    (hrest : KernelRun top s (intrExit b.ret) m'') : KernelRun top s m m''

/-- A C function whose run keeps the stack above its arguments returns as its caller expects. -/
theorem KeepsStack.returned (h : KeepsStack top (c.reg esp + 4 * UInt32.ofNat (1 + n)) c b)
    (hret : b.reg esp = c.reg esp) (htop : (c.reg esp).toNat + 4 * (1 + n + k) ≤ top.toNat) :
    Returned c b.ret n k where
  top := by simp [Machine.ret, Machine.drop, hret]
  kept i hi := by
    have hlt := top.toNat_lt
    have hword : ∀ j < 1 + n + k, (c.reg esp + 4 * UInt32.ofNat j).toNat = (c.reg esp).toNat + 4 * j := by
      intro j hj
      rw [toNat_add_mul]
      omega
    refine h.kept _ ?_ ?_
    · rw [UInt32.le_iff_toNat_le, hword _ (by omega), toNat_add_mul]
      omega
    · rw [UInt32.lt_iff_toNat_lt, hword _ (by omega)]
      omega
  cs := h.cs

theorem intrCall_kernel (vec esp0 handler retAddr : UInt32) (hk : u.cs &&& 3 = 0) :
    (intrCall u vec esp0 handler retAddr).cs = selectorKCode ∧
      (intrCall u vec esp0 handler retAddr).ss = u.ss ∧
      (intrCall u vec esp0 handler retAddr).reg esp = u.reg esp - 72 := by
  obtain ⟨-, htop, hcs, -⟩ := intrCall_interrupted vec retAddr
    (interrupted_kernel esp0 handler hk) (by simp)
  refine ⟨hcs, ?_, htop.trans ?_⟩
  · rw [intrCall, interrupt_kernel esp0 handler hk]
    rfl
  · rw [sub_sub]
    rfl

/-- The argument of the handler is below what is kept. -/
theorem intrCall_args_le (hk : u.cs &&& 3 = 0) (hroom : 72 ≤ (u.reg esp).toNat) (htop : u.reg esp ≤ top) :
    (intrCall u vec esp0 handler retAddr).reg esp + 8 ≤ top := by
  obtain ⟨-, -, hesp⟩ := intrCall_kernel vec esp0 handler retAddr hk
  have hsub : (u.reg esp - 72).toNat = (u.reg esp).toNat - 72 := toNat_sub_of_le (k := 72) (by decide) hroom
  rw [UInt32.le_iff_toNat_le] at htop ⊢
  rw [hesp, show (8 : UInt32) = 4 * UInt32.ofNat 2 from rfl, toNat_add_mul, hsub]
  omega

/-- When the handler kept the stack, the interrupted kernel thread goes on as it was. -/
theorem KeepsStack.intrExit_kernel (hk : u.cs &&& 3 = 0) (hroom : 72 ≤ (u.reg esp).toNat) (htop : u.reg esp ≤ top)
    (h : KeepsStack top ((intrCall u vec esp0 handler retAddr).reg esp + 8)
      (intrCall u vec esp0 handler retAddr) b)
    (hret : b.reg esp = (intrCall u vec esp0 handler retAddr).reg esp) :
    intrExit b.ret = { u with mem := b.mem, outs := b.outs } ∧
      ∀ a, u.reg esp ≤ a → a < top → b.mem a = u.mem a := by
  obtain ⟨-, hss, hesp⟩ := intrCall_kernel vec esp0 handler retAddr hk
  rw [UInt32.le_iff_toNat_le] at htop
  have hsub : ((intrCall u vec esp0 handler retAddr).reg esp).toNat = (u.reg esp).toNat - 72 := by
    rw [hesp]
    exact toNat_sub_of_le (k := 72) (by decide) hroom
  have hargs : (intrCall u vec esp0 handler retAddr).reg esp + 8 =
      (intrCall u vec esp0 handler retAddr).reg esp + 4 * UInt32.ofNat (1 + 1) := rfl
  have hreturned := KeepsStack.returned (n := 1) (k := 16) (hargs ▸ h) hret (by omega)
  refine ⟨?_, fun a ha hlt => ?_⟩
  · rw [intrExit_intrCall_kernel hk hreturned]
    have hss' : b.ret.ss = u.ss := h.ss.trans hss
    rw [hss']
    rfl
  · refine (h.kept a ?_ hlt).trans ((pushed_intrCall hk hroom).kept a ha)
    rw [UInt32.le_iff_toNat_le] at ha ⊢
    rw [hargs, toNat_add_mul]
    omega

/-- However interrupts nest, a C function keeps the stack above its frame. -/
theorem KernelRun.keepsStack (h : KernelRun top s m m') (hk : m.cs &&& 3 = 0) (hs : s ≤ top) :
    KeepsStack top s m m' := by
  induction h with
  | done s m => exact ⟨fun _ _ _ => rfl, rfl, rfl⟩
  | own hown _ ih => exact hown.trans (ih (by rw [hown.cs, hk]) hs)
  | @intr s vec esp0 handler retAddr m b m'' hroom hframe _ hret _ ihcall ihrest =>
    have htop : m.reg esp ≤ top := UInt32.le_trans hframe hs
    obtain ⟨hcs, -, -⟩ := intrCall_kernel vec esp0 handler retAddr hk
    have hbody := ihcall (by rw [hcs]; decide) (intrCall_args_le hk hroom htop)
    obtain ⟨hexit, hkept⟩ := KeepsStack.intrExit_kernel hk hroom htop hbody hret
    rw [hexit] at ihrest
    have hback : KeepsStack top s m { m with mem := b.mem, outs := b.outs } :=
      ⟨fun a ha hlt => hkept a (UInt32.le_trans hframe ha) hlt, rfl, rfl⟩
    exact hback.trans (ihrest hk hs)

/-- An interrupt is invisible to the program that it interrupts, in user mode and in the kernel, however often
its handler is interrupted. -/
theorem intrExit_intrCall (htop : 80 ≤ top.toNat)
    (hu : u.cs &&& 3 = 3 ∧ esp0 = top ∨ u.cs &&& 3 = 0 ∧ 72 ≤ (u.reg esp).toNat ∧ u.reg esp ≤ top)
    (h : KernelRun top ((intrCall u vec esp0 handler retAddr).reg esp + 8)
      (intrCall u vec esp0 handler retAddr) b)
    (hret : b.reg esp = (intrCall u vec esp0 handler retAddr).reg esp) :
    intrExit b.ret = { u with mem := b.mem, outs := b.outs } := by
  rcases hu with ⟨huser, rfl⟩ | ⟨hk, hroom, hle⟩
  · obtain ⟨-, hesp, hcs, -⟩ := intrCall_interrupted vec retAddr
      (interrupted_user esp0 handler huser) (by simp)
    have hsub : ((intrCall u vec esp0 handler retAddr).reg esp).toNat = esp0.toNat - 80 := by
      rw [intrCall, hesp, sub_sub]
      exact toNat_sub_of_le (k := 80) (by decide) htop
    have hargs : (intrCall u vec esp0 handler retAddr).reg esp + 8 =
        (intrCall u vec esp0 handler retAddr).reg esp + 4 * UInt32.ofNat (1 + 1) := rfl
    have hkeeps := h.keepsStack (by rw [intrCall, hcs]; decide) ?_
    · exact intrExit_user huser (KeepsStack.returned (k := 18) (hargs ▸ hkeeps) hret (by omega))
    · rw [UInt32.le_iff_toNat_le, hargs, toNat_add_mul]
      omega
  · obtain ⟨hcs, -, -⟩ := intrCall_kernel vec esp0 handler retAddr hk
    have hkeeps := h.keepsStack (by rw [hcs]; decide) (intrCall_args_le hk hroom hle)
    exact (KeepsStack.intrExit_kernel hk hroom hle hkeeps hret).1

/-- A system call gets its three arguments and the saved context of the program. When it returns, however often it
was interrupted, the program goes on as it was, with the result in `eax`. -/
theorem intrExit_syscallCall (htop : 92 ≤ top.toNat) (hu : u.cs &&& 3 = 3)
    (h : KernelRun top ((syscallCall u top handler retAddr).reg esp + 16) (syscallCall u top handler retAddr) b)
    (hret : b.reg esp = (syscallCall u top handler retAddr).reg esp) :
    (syscallCall u top handler retAddr).Stack
        (retAddr :: u.reg ebx :: u.reg ecx :: u.reg edx :: (userContext u 0x80 top).words) ∧
      intrExit (b.ret.run syscallReturn) =
        { u with
          reg := Function.update u.reg eax (b.reg eax)
          mem := (b.ret.run syscallReturn).mem
          outs := b.outs } := by
  obtain ⟨hstack, hesp, hcs⟩ := stack_syscallCall top handler retAddr hu
  have hsub : ((syscallCall u top handler retAddr).reg esp).toNat = top.toNat - 92 := by
    rw [hesp]
    exact toNat_sub_of_le (k := 92) (by decide) htop
  have hargs : (syscallCall u top handler retAddr).reg esp + 16 =
      (syscallCall u top handler retAddr).reg esp + 4 * UInt32.ofNat (1 + 3) := rfl
  have hkeeps := h.keepsStack (by rw [hcs]; decide) ?_
  · refine ⟨hstack, ?_⟩
    rw [intrExit_syscallReturn hu (KeepsStack.returned (k := 19) (hargs ▸ hkeeps) hret (by omega))]
    rfl
  · rw [UInt32.le_iff_toNat_le, hargs, toNat_add_mul]
    omega

/-- A user program. -/
def programBare : Machine where
  reg r := if r = esp then 0xbffffff0 else if r = eax then 4 else 1
  seg _ := 0x33
  cs := 0x2b
  ss := 0x33
  eip := 0x8048000
  eflags := 0x202
  mem _ := 0
  outs := []

/-- The call of the timer's handler. -/
def timerBare : Machine := intrCall programBare 0x20 0xc0100000 0xc0001500 0xc0001000

/-- The handler of the timer, after the keyboard interrupted it. -/
def keyboardBare : Machine := intrExit (intrCall timerBare 0x21 0xc0100000 0xc0001500 0xc0001100).ret

theorem intrExit_intrCall_nested : intrExit keyboardBare.ret =
    { programBare with mem := keyboardBare.mem, outs := keyboardBare.outs } := by
  have hrun : KernelRun 0xc0100000 (timerBare.reg esp + 8) timerBare keyboardBare :=
    .intr (by decide +kernel) (by decide +kernel)
      (.done _ (intrCall timerBare 0x21 0xc0100000 0xc0001500 0xc0001100)) rfl (.done _ _)
  exact intrExit_intrCall (by decide) (.inl ⟨by decide, rfl⟩) hrun (by decide +kernel)

/-- The call of a system call. -/
def callBare : Machine := syscallCall programBare 0xc0100000 0xc0001500 0xc0001200

/-- The system call has computed its result. -/
def resultBare : Machine := callBare.setReg eax 7

theorem intrExit_syscallCall_result :
    callBare.Stack (0xc0001200 :: 1 :: 1 :: 1 :: (userContext programBare 0x80 0xc0100000).words) ∧
      intrExit (resultBare.ret.run syscallReturn) =
        { programBare with
          reg := Function.update programBare.reg eax 7
          mem := (resultBare.ret.run syscallReturn).mem
          outs := resultBare.outs } := by
  have hown : KeepsStack 0xc0100000 (callBare.reg esp + 16) callBare resultBare := ⟨by simp [resultBare], rfl, rfl⟩
  exact intrExit_syscallCall (by decide) (by decide) (.own hown (.done _ _)) rfl

end Nested

end Winx
