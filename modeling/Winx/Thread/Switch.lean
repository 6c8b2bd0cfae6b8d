import Winx.Kernel.Entry
import Winx.Userprog.SegmentPages
import Mathlib.Logic.Relation
import Mathlib.Tactic.IntervalCases

/-! # Switching threads

`switch_to` saves the registers of the caller on its kernel stack and takes those
of another thread from there. Every kernel stack is in the page of its thread, so
whatever runs in between, `switch_to` returns to its caller as a C function does.
New threads get a stack on which they seem to have called it.
-/

namespace Winx

namespace Switch

open X86 X86.Reg

/-- `running_thread`: the page of the stack pointer. -/
def runningThread (sp : UInt32) : UInt32 := sp &&& 0xfffff000

/-- `switch_to` up to `ret` -/
def switchCode : List Instr :=
  [.push esi, .push edi, .push ebx, .push ebp, .load eax esp 20, .store eax 0 esp, .load eax esp 24,
    .load esp eax 0, .pop ebp, .pop ebx, .pop edi, .pop esi]

/-- `switch_to` -/
def switchTo (m : Machine) : Machine := (m.run switchCode).ret

/-- `switch_to` up to the change of the stack. -/
def saveThread (m : Machine) (cur : UInt32) : Machine :=
  (m.pushes [m.reg esi, m.reg edi, m.reg ebx, m.reg ebp]).setMem cur (m.reg esp - 16)

/-- `thread_create`. The stack pointer of `init_thread` is the end of the page, and counts words. -/
def threadCreate (m : Machine) (pthread kernelThread function funcArg : UInt32) : Machine :=
  let kstack := m.mem pthread - 76 * 4 - 32 * 4
  (((((((m.setMem pthread kstack).setMem (kstack + 16) kernelThread).setMem (kstack + 24) function).setMem
    (kstack + 28) funcArg).setMem (kstack + 8) 0).setMem (kstack + 12) 0).setMem (kstack + 4) 0).setMem kstack 0

/-- `build_child_stack` -/
def buildChildStack (m : Machine) (childThread intrExitAddr : UInt32) : Machine :=
  let intr0Stack := childThread + 4096 - 76
  ((((((m.setMem (intr0Stack + 4 * 8) 0).setMem (intr0Stack - 4) intrExitAddr).setMem (intr0Stack - 8) 0).setMem
    (intr0Stack - 12) 0).setMem (intr0Stack - 16) 0).setMem (intr0Stack - 20) 0).setMem childThread (intr0Stack - 20)

/-- The state in which a new thread seems to have called `switch_to`. -/
def firstCall (m : Machine) (sp : UInt32) : Machine :=
  { m with reg := fun r => if r = esp then sp else 0 }

section Pages

variable {a t : UInt32} {k : ℕ}

theorem runningThread_eq_iff : runningThread a = t ↔ 4096 * (a.toNat / 4096) = t.toNat := by
  have hpage : (runningThread a).toNat = 4096 * (a.toNat / 4096) := Segment.toNat_vaddrFirstPage a
  rw [← UInt32.toNat_inj, hpage]

/-- The addresses of the page of a thread. -/
theorem runningThread_eq (ht : runningThread t = t) (hle : t.toNat ≤ a.toNat) (hlt : a.toNat < t.toNat + 4096) :
    runningThread a = t := by
  have hpage := runningThread_eq_iff.mp ht
  exact runningThread_eq_iff.mpr (by omega)

/-- A page does not wrap around. -/
theorem toNat_add_ofNat (ht : runningThread t = t) (hk : a.toNat + k < t.toNat + 4096) :
    (a + UInt32.ofNat k).toNat = a.toNat + k := by
  have hpage := runningThread_eq_iff.mp ht
  have hlt := t.toNat_lt
  rw [UInt32.toNat_add, UInt32.toNat_ofNat']
  omega

/-- The words of a page. -/
theorem runningThread_add (ht : runningThread t = t) (ha : a.toNat < 4096) : runningThread (t + a) = t := by
  have hnat := toNat_add_ofNat (a := t) (k := a.toNat) ht (by omega)
  rw [UInt32.ofNat_toNat] at hnat
  exact runningThread_eq ht (by omega) (by omega)

theorem ne_page_add {b : UInt32} (ht : runningThread t = t) (hb : runningThread b ≠ t) (k : UInt32)
    (hk : k.toNat < 4096) : b ≠ t + k := by
  rintro rfl
  exact hb (runningThread_add ht hk)

end Pages

/-- `next` seems to have called `switch_to` in `m₀`, and waits for its return. -/
structure Suspended (m : Machine) (t : UInt32) (m₀ : Machine) : Prop where
  page : runningThread t = t
  low : t.toNat + 20 ≤ (m₀.reg esp).toNat
  high : (m₀.reg esp).toNat + 4 < t.toNat + 4096
  kstack : m.mem t = m₀.reg esp - 16
  frame : m.Holds (m₀.reg esp - 16) [m₀.reg ebp, m₀.reg ebx, m₀.reg edi, m₀.reg esi]
  kept : ∀ a, runningThread a = t → m₀.reg esp ≤ a → m.mem a = m₀.mem a

/-- What the callers of `switch_to` guarantee: the kernel calls it on the stack of the thread that is running, which
has room for the frame. -/
structure SwitchCall (m : Machine) (cur next : UInt32) : Prop where
  kernel : m.cs &&& 3 = 0
  page : runningThread cur = cur
  low : cur.toNat + 20 ≤ (m.reg esp).toNat
  high : (m.reg esp).toNat + 12 ≤ cur.toNat + 4096
  cur : m.top 1 = cur
  next : m.top 2 = next

section Switch

variable {m m' m₀ : Machine} {cur next t a sp bp bx di si ip : UInt32}

/-- The addresses below the stack pointer at which `switch_to` saves registers. -/
theorem SwitchCall.sub_page (h : SwitchCall m cur next) {k : ℕ} (hk : k ≤ 16) :
    (m.reg esp - UInt32.ofNat k).toNat = (m.reg esp).toNat - k ∧ runningThread (m.reg esp - UInt32.ofNat k) = cur := by
  have hlow := h.low
  have hhigh := h.high
  have hsub : (m.reg esp - UInt32.ofNat k).toNat = (m.reg esp).toNat - k := toNat_sub_of_le (by omega) (by omega)
  exact ⟨hsub, runningThread_eq h.page (by omega) (by omega)⟩

theorem saveThread_mem (m : Machine) (cur : UInt32) : (saveThread m cur).mem =
    Function.update (Function.update (Function.update (Function.update (Function.update m.mem
      (m.reg esp - 4) (m.reg esi)) (m.reg esp - 8) (m.reg edi)) (m.reg esp - 12) (m.reg ebx))
      (m.reg esp - 16) (m.reg ebp)) cur (m.reg esp - 16) := by
  simp only [saveThread, Machine.pushes, List.foldl, Machine.push, Machine.setMem, Machine.setReg,
    Function.update_self, sub_sub, UInt32.reduceAdd]

/-- `switch_to` writes its frame, and the stack pointer of the running thread. -/
theorem saveThread_mem_of_ne (ha : a ≠ cur)
    (hframe : ∀ k ≤ 16, k ≠ 0 → a ≠ m.reg esp - UInt32.ofNat k) : (saveThread m cur).mem a = m.mem a := by
  have h4 : a ≠ m.reg esp - 4 := hframe 4 (by decide) (by decide)
  have h8 : a ≠ m.reg esp - 8 := hframe 8 (by decide) (by decide)
  have h12 : a ≠ m.reg esp - 12 := hframe 12 (by decide) (by decide)
  have h16 : a ≠ m.reg esp - 16 := hframe 16 (by decide) (by decide)
  rw [saveThread_mem, Function.update_of_ne ha, Function.update_of_ne h16, Function.update_of_ne h12,
    Function.update_of_ne h8, Function.update_of_ne h4]

/-- The other pages stay. -/
theorem saveThread_other (h : SwitchCall m cur next) (ha : runningThread a ≠ cur) :
    (saveThread m cur).mem a = m.mem a := by
  refine saveThread_mem_of_ne ?_ fun k hk _ => ?_
  · rintro rfl
    exact ha h.page
  · rintro rfl
    exact ha (h.sub_page hk).2

/-- What was on the stack stays. -/
theorem saveThread_stack (h : SwitchCall m cur next) (ha : m.reg esp ≤ a) :
    (saveThread m cur).mem a = m.mem a := by
  have hlow := h.low
  rw [UInt32.le_iff_toNat_le] at ha
  refine saveThread_mem_of_ne ?_ fun k hk hne => ?_
  · rintro rfl
    omega
  · rintro rfl
    have := (h.sub_page hk).1
    omega

/-- The registers that `switch_to` saves. -/
theorem saveThread_frame (h : SwitchCall m cur next) :
    (saveThread m cur).Holds (m.reg esp - 16) [m.reg ebp, m.reg ebx, m.reg edi, m.reg esi] := by
  have hlow := h.low
  have hhigh := h.high
  have hsub := (h.sub_page (k := 16) (by decide)).1
  have hlt := (m.reg esp).toNat_lt
  have hnil : m.Stack [] := trivial
  have hstack := hnil.pushes (l := [m.reg esi, m.reg edi, m.reg ebx, m.reg ebp]) (by simp)
  rw [Machine.Stack, pushes_esp] at hstack
  refine Machine.Holds.congr hstack fun i hi => ?_
  rw [saveThread, Machine.setMem_mem]
  refine Function.update_of_ne ?_ ..
  intro heq
  have hnat := congrArg UInt32.toNat heq
  have hi' : i < 4 := hi
  have hbase : (m.reg esp - 16).toNat = (m.reg esp).toNat - 16 := hsub
  rw [toNat_add_mul] at hnat
  omega

/-- The running thread is suspended. -/
theorem suspended_saveThread (h : SwitchCall m cur next) : Suspended (saveThread m cur) cur m where
  page := h.page
  low := h.low
  high := by have := h.high; omega
  kstack := by rw [saveThread_mem, Function.update_self]
  frame := saveThread_frame h
  kept a _ ha := saveThread_stack h ha

/-- The other threads stay suspended. -/
theorem Suspended.congr (h : Suspended m t m₀) (hpage : ∀ a, runningThread a = t → m'.mem a = m.mem a) :
    Suspended m' t m₀ where
  page := h.page
  low := h.low
  high := h.high
  kstack := by rw [hpage t h.page, h.kstack]
  frame := by
    have hlow := h.low
    have hhigh := h.high
    have hlt := (m₀.reg esp).toNat_lt
    have hsub : (m₀.reg esp - 16).toNat = (m₀.reg esp).toNat - 16 :=
      toNat_sub_of_le (k := 16) (by decide) (by omega)
    refine Machine.Holds.congr h.frame fun i hi => hpage _ (runningThread_eq h.page ?_ ?_) <;>
    · have hi' : i < 4 := hi
      rw [toNat_add_mul, hsub]
      omega
  kept a ha hle := (hpage a ha).trans (h.kept a ha hle)

/-- The arguments are above the stack pointer. -/
theorem SwitchCall.le_args (h : SwitchCall m cur next) {k : ℕ} (hk : k < 12) :
    m.reg esp ≤ m.reg esp + UInt32.ofNat k := by
  have hhigh := h.high
  have hcur := cur.toNat_lt
  have hpage := runningThread_eq_iff.mp h.page
  rw [UInt32.le_iff_toNat_le, UInt32.toNat_add, UInt32.toNat_ofNat']
  omega

/-- `switch_to`, instruction by instruction. -/
theorem switchTo_eq (h : SwitchCall m cur next) (hnext : (saveThread m cur).mem next = sp)
    (hstack : (saveThread m cur).Holds sp [bp, bx, di, si, ip]) :
    switchTo m =
      { saveThread m cur with
        reg := Function.update (Function.update (Function.update (Function.update (Function.update
          (Function.update m.reg eax next) ebp bp) ebx bx) edi di) esi si) esp (sp + 20)
        eip := ip } := by
  have hesp : (m.pushes [m.reg esi, m.reg edi, m.reg ebx, m.reg ebp]).reg esp = m.reg esp - 16 := pushes_esp
  have hreg : ∀ r, r ≠ esp → (m.pushes [m.reg esi, m.reg edi, m.reg ebx, m.reg ebp]).reg r = m.reg r :=
    fun r hr => pushes_reg hr
  have hcur : (m.pushes [m.reg esi, m.reg edi, m.reg ebx, m.reg ebp]).mem (m.reg esp - 16 + 20) = cur := by
    rw [show m.reg esp - 16 + 20 = m.reg esp - 16 + (16 + 4) from rfl, ← UInt32.add_assoc, UInt32.sub_add_cancel]
    have hlow := h.low
    exact (((Machine.Pushed.refl m).pushes (by simp; omega)).kept _ (h.le_args (k := 4) (by decide))).trans h.cur
  have hargs : (saveThread m cur).mem (m.reg esp - 16 + 24) = next := by
    rw [show m.reg esp - 16 + 24 = m.reg esp - 16 + (16 + 8) from rfl, ← UInt32.add_assoc, UInt32.sub_add_cancel]
    exact (saveThread_stack h (h.le_args (k := 8) (by decide))).trans h.next
  have hrun : switchTo m = ((m.pushes [m.reg esi, m.reg edi, m.reg ebx, m.reg ebp]).run
      [.load eax esp 20, .store eax 0 esp, .load eax esp 24, .load esp eax 0, .pop ebp, .pop ebx, .pop edi,
        .pop esi]).ret := rfl
  rw [hrun]
  rw [saveThread] at hnext hstack hargs ⊢
  generalize m.pushes [m.reg esi, m.reg edi, m.reg ebx, m.reg ebp] = m₁ at *
  simp only [Machine.Holds, UInt32.add_assoc, UInt32.reduceAdd, Machine.setMem] at hstack hargs hnext
  obtain ⟨hbp, hbx, hdi, hsi, hip, -⟩ := hstack
  simp only [Machine.run, List.foldl, Instr.exec, Machine.drop, Machine.top, Machine.setReg, Machine.setMem,
    Machine.ret]
  simp only [Function.update_self, ne_eq, reduceCtorEq, not_false_eq_true, Function.update_of_ne, hesp, hcur, UInt32.add_zero, hargs, hnext, UInt32.add_assoc, UInt32.reduceMul, UInt32.reduceAdd, hbp, hbx, hdi, hsi, hip]
  congr 1
  funext r
  cases r <;> simp [Function.update, hreg]

/-- The registers in the frame of a suspended thread, and its return address. -/
theorem Suspended.stack (hs : Suspended m t m₀) :
    m.Holds (m₀.reg esp - 16) [m₀.reg ebp, m₀.reg ebx, m₀.reg edi, m₀.reg esi, m₀.top 0] := by
  have hlow := hs.low
  have hhigh := hs.high
  have hip : m.mem (m₀.reg esp) = m₀.top 0 := by
    rw [Machine.top, UInt32.mul_zero, UInt32.add_zero]
    exact hs.kept _ (runningThread_eq hs.page (by omega) (by omega)) (UInt32.le_refl _)
  obtain ⟨hbp, hbx, hdi, hsi, -⟩ := hs.frame
  refine ⟨hbp, hbx, hdi, hsi, ?_, trivial⟩
  rw [← hip, UInt32.add_assoc, UInt32.add_assoc, UInt32.add_assoc]
  exact congrArg _ (UInt32.sub_add_cancel _ _)

theorem switchTo_mem (h : SwitchCall m cur next) (hs : Suspended (saveThread m cur) next m₀) :
    (switchTo m).mem = (saveThread m cur).mem := by
  rw [switchTo_eq h hs.kstack hs.stack]

end Switch

/-! ## Runs of the threads -/

/-- The processor, the running thread, and the calls of `switch_to` that have not returned. -/
structure Cpu where
  machine : Machine
  cur : UInt32
  suspended : UInt32 → Option Machine

/-- `thread_create`, for a thread that `init_thread` has set up. -/
def Cpu.create (s : Cpu) (t kernelThread function funcArg : UInt32) : Cpu :=
  let m := threadCreate s.machine t kernelThread function funcArg
  { s with machine := m, suspended := Function.update s.suspended t (some (firstCall m (t + 3680))) }

/-- `build_child_stack`, for a thread that was copied from its parent. -/
def Cpu.fork (s : Cpu) (child intrExitAddr : UInt32) : Cpu :=
  let m := buildChildStack s.machine child intrExitAddr
  { s with machine := m, suspended := Function.update s.suspended child (some (firstCall m (child + 4016))) }

/-- `switch_to` -/
def Cpu.switch (s : Cpu) (next : UInt32) : Cpu where
  machine := switchTo s.machine
  cur := next
  suspended := Function.update (Function.update s.suspended s.cur (some s.machine)) next none

/-- The steps of the threads. What the running thread does leaves the pages of the suspended ones. A thread is
created in a page of its own, and a suspended one may be freed. -/
inductive ThreadStep : Cpu → Cpu → Prop
  | own {s : Cpu} {m : Machine}
    (hown : ∀ t, (s.suspended t).isSome → ∀ a, runningThread a = t → m.mem a = s.machine.mem a) :
    ThreadStep s { s with machine := m }
  | create {s : Cpu} {t : UInt32} (kernelThread function funcArg : UInt32) (hpage : runningThread t = t)
    (hfresh : s.suspended t = none) (hinit : s.machine.mem t = t + 4096) :
    ThreadStep s (s.create t kernelThread function funcArg)
  | fork {s : Cpu} {child : UInt32} (intrExitAddr : UInt32) (hpage : runningThread child = child)
    (hfresh : s.suspended child = none) : ThreadStep s (s.fork child intrExitAddr)
  | switch {s : Cpu} {next : UInt32} (hcall : SwitchCall s.machine s.cur next)
    (hnext : next = s.cur ∨ (s.suspended next).isSome) : ThreadStep s (s.switch next)
  | free {s : Cpu} (t : UInt32) : ThreadStep s { s with suspended := Function.update s.suspended t none }

/-- Every call of `switch_to` can return. -/
def SuspendedAll (s : Cpu) : Prop := ∀ t m₀, s.suspended t = some m₀ → Suspended s.machine t m₀

section Runs

variable {s s' s₁ : Cpu} {m m₀ : Machine} {t next sp kernelThread function funcArg intrExitAddr a : UInt32}

/-- The first frame of a thread. -/
theorem suspended_firstCall (hpage : runningThread t = t) (hlow : t.toNat + 20 ≤ sp.toNat)
    (hhigh : sp.toNat + 4 < t.toNat + 4096) (hkstack : m.mem t = sp - 16) (hframe : m.Holds (sp - 16) [0, 0, 0, 0]) :
    Suspended m t (firstCall m sp) where
  page := hpage
  low := hlow
  high := hhigh
  kstack := hkstack
  frame := hframe
  kept _ _ _ := rfl

theorem threadCreate_mem (hinit : m.mem t = t + 4096) : (threadCreate m t kernelThread function funcArg).mem =
    Function.update (Function.update (Function.update (Function.update (Function.update (Function.update
      (Function.update (Function.update m.mem t (t + 3664)) (t + 3680) kernelThread) (t + 3688) function)
      (t + 3692) funcArg) (t + 3672) 0) (t + 3676) 0) (t + 3668) 0) (t + 3664) 0 := by
  simp only [threadCreate, hinit, Machine.setMem, add_sub_assoc, UInt32.add_assoc, UInt32.reduceMul, UInt32.reduceAdd,
    UInt32.reduceSub]

theorem suspended_threadCreate (hpage : runningThread t = t) (hinit : m.mem t = t + 4096) :
    Suspended (threadCreate m t kernelThread function funcArg) t
      (firstCall (threadCreate m t kernelThread function funcArg) (t + 3680)) := by
  have hsp : (t + 3680).toNat = t.toNat + 3680 := toNat_add_ofNat (a := t) (k := 3680) hpage (by omega)
  have hbase : t + 3680 - 16 = t + 3664 := by simp only [add_sub_assoc, UInt32.reduceSub]
  refine suspended_firstCall hpage (by omega) (by omega) ?_ ?_
  · rw [hbase]
    simp [threadCreate_mem hinit]
  · rw [hbase]
    simp [Machine.Holds, threadCreate_mem hinit, UInt32.add_assoc]

/-- `thread_create` writes to the page of the new thread. -/
theorem threadCreate_other (hpage : runningThread t = t) (hinit : m.mem t = t + 4096) (ha : runningThread a ≠ t) :
    (threadCreate m t kernelThread function funcArg).mem a = m.mem a := by
  have hbase : a ≠ t := by
    rintro rfl
    exact ha hpage
  have hne := ne_page_add hpage ha
  rw [threadCreate_mem hinit, Function.update_of_ne (hne 3664 (by decide)),
    Function.update_of_ne (hne 3668 (by decide)), Function.update_of_ne (hne 3676 (by decide)),
    Function.update_of_ne (hne 3672 (by decide)), Function.update_of_ne (hne 3692 (by decide)),
    Function.update_of_ne (hne 3688 (by decide)), Function.update_of_ne (hne 3680 (by decide)),
    Function.update_of_ne hbase]

theorem buildChildStack_mem : (buildChildStack m t intrExitAddr).mem =
    Function.update (Function.update (Function.update (Function.update (Function.update (Function.update
      (Function.update m.mem (t + 4052) 0) (t + 4016) intrExitAddr) (t + 4012) 0) (t + 4008) 0) (t + 4004) 0)
      (t + 4000) 0) t (t + 4000) := by
  simp only [buildChildStack, Machine.setMem, add_sub_assoc, UInt32.add_assoc, UInt32.reduceMul, UInt32.reduceAdd,
    UInt32.reduceSub]

theorem suspended_buildChildStack (hpage : runningThread t = t) :
    Suspended (buildChildStack m t intrExitAddr) t (firstCall (buildChildStack m t intrExitAddr) (t + 4016)) := by
  have hsp : (t + 4016).toNat = t.toNat + 4016 := toNat_add_ofNat (a := t) (k := 4016) hpage (by omega)
  have hbase : t + 4016 - 16 = t + 4000 := by simp only [add_sub_assoc, UInt32.reduceSub]
  refine suspended_firstCall hpage (by omega) (by omega) ?_ ?_
  · rw [hbase]
    simp [buildChildStack_mem]
  · rw [hbase]
    simp [Machine.Holds, buildChildStack_mem, UInt32.add_assoc]

/-- `build_child_stack` writes to the page of the child. -/
theorem buildChildStack_other (hpage : runningThread t = t) (ha : runningThread a ≠ t) :
    (buildChildStack m t intrExitAddr).mem a = m.mem a := by
  have hbase : a ≠ t := by
    rintro rfl
    exact ha hpage
  have hne := ne_page_add hpage ha
  rw [buildChildStack_mem, Function.update_of_ne hbase, Function.update_of_ne (hne 4000 (by decide)),
    Function.update_of_ne (hne 4004 (by decide)), Function.update_of_ne (hne 4008 (by decide)),
    Function.update_of_ne (hne 4012 (by decide)), Function.update_of_ne (hne 4016 (by decide)),
    Function.update_of_ne (hne 4052 (by decide))]

/-- When `switch_to` has saved the running thread, all the threads are suspended. -/
theorem SuspendedAll.saved (hs : SuspendedAll s) (hcall : SwitchCall s.machine s.cur next)
    (ht : Function.update s.suspended s.cur (some s.machine) t = some m₀) :
    Suspended (saveThread s.machine s.cur) t m₀ := by
  obtain rfl | hne := eq_or_ne t s.cur
  · obtain rfl : s.machine = m₀ := by simpa using ht
    exact suspended_saveThread hcall
  · rw [Function.update_of_ne hne] at ht
    refine (hs t m₀ ht).congr fun a ha => saveThread_other hcall ?_
    rwa [ha]

/-- No step loses a call of `switch_to`. -/
theorem SuspendedAll.step (h : ThreadStep s s') (hs : SuspendedAll s) : SuspendedAll s' := by
  intro t m₀ ht
  cases h with
  | own hown => exact (hs t m₀ ht).congr (hown t (by rw [ht]; rfl))
  | @create t' kernelThread function funcArg hpage hfresh hinit =>
    obtain rfl | hne := eq_or_ne t t'
    · obtain rfl : firstCall _ _ = m₀ := by simpa [Cpu.create] using ht
      exact suspended_threadCreate hpage hinit
    · have hold : s.suspended t = some m₀ := by simpa [Cpu.create, hne] using ht
      refine (hs t m₀ hold).congr fun a ha => threadCreate_other hpage hinit ?_
      rwa [ha]
  | @fork child intrExitAddr hpage hfresh =>
    obtain rfl | hne := eq_or_ne t child
    · obtain rfl : firstCall _ _ = m₀ := by simpa [Cpu.fork] using ht
      exact suspended_buildChildStack hpage
    · have hold : s.suspended t = some m₀ := by simpa [Cpu.fork, hne] using ht
      refine (hs t m₀ hold).congr fun a ha => buildChildStack_other hpage ?_
      rwa [ha]
  | @switch next hcall hnext =>
    have hmem : (switchTo s.machine).mem = (saveThread s.machine s.cur).mem := by
      rcases hnext with rfl | hsome
      · exact switchTo_mem hcall (hs.saved hcall (Function.update_self ..))
      · obtain ⟨m₁, hm₁⟩ := Option.isSome_iff_exists.mp hsome
        obtain rfl | hne := eq_or_ne next s.cur
        · exact switchTo_mem hcall (hs.saved hcall (Function.update_self ..))
        · exact switchTo_mem hcall (hs.saved hcall ((Function.update_of_ne hne ..).trans hm₁))
    obtain rfl | hne := eq_or_ne t next
    · simp [Cpu.switch] at ht
    · have hold : Function.update s.suspended s.cur (some s.machine) t = some m₀ := by
        simpa [Cpu.switch, hne] using ht
      exact (hs.saved hcall hold).congr fun a _ => congrFun hmem a
  | free t' =>
    obtain rfl | hne := eq_or_ne t t'
    · simp at ht
    · exact hs t m₀ (by simpa [hne] using ht)

theorem SuspendedAll.run (h : Relation.ReflTransGen ThreadStep s s') (hs : SuspendedAll s) : SuspendedAll s' := by
  induction h with
  | refl => exact hs
  | tail _ hstep ih => exact SuspendedAll.step hstep ih

/-- A system call keeps the saved context while it runs. -/
theorem keepsStack_syscallCall {u : Machine} {parent handler retAddr : UInt32} (htop : 92 ≤ (parent + 4096).toNat)
    (hu : u.cs &&& 3 = 3)
    (h : KernelRun (parent + 4096) ((syscallCall u (parent + 4096) handler retAddr).reg esp + 16)
      (syscallCall u (parent + 4096) handler retAddr) m) :
    KeepsStack (parent + 4096) (parent + 4020) (syscallCall u (parent + 4096) handler retAddr) m ∧
      (parent + 4020).toNat + 76 = (parent + 4096).toNat ∧ m.cs = selectorKCode := by
  obtain ⟨-, hesp, hcs⟩ := stack_syscallCall (parent + 4096) handler retAddr hu
  have hargs : (syscallCall u (parent + 4096) handler retAddr).reg esp + 16 = parent + 4020 := by
    rw [hesp]
    simp only [add_sub_assoc, UInt32.add_assoc, UInt32.reduceSub, UInt32.reduceAdd]
  have hbase : (parent + 4020).toNat + 76 = (parent + 4096).toNat := by
    have hsub : parent + 4020 = parent + 4096 - UInt32.ofNat 76 := by
      rw [show UInt32.ofNat 76 = 76 from rfl, add_sub_assoc]
      simp only [UInt32.reduceSub]
    rw [hsub, toNat_sub_of_le (by decide) (by omega)]
    omega
  rw [hargs] at h
  have hkeeps := h.keepsStack (by rw [hcs]; decide) (by rw [UInt32.le_iff_toNat_le]; omega)
  exact ⟨hkeeps, hbase, hkeeps.cs.trans hcs⟩

/-- The context that a system call saved, while it runs. -/
theorem holds_userContext {u : Machine} {parent handler retAddr : UInt32} (htop : 92 ≤ (parent + 4096).toNat)
    (hu : u.cs &&& 3 = 3)
    (h : KernelRun (parent + 4096) ((syscallCall u (parent + 4096) handler retAddr).reg esp + 16)
      (syscallCall u (parent + 4096) handler retAddr) m) :
    m.Holds (parent + 4020) (userContext u 0x80 (parent + 4096)).words := by
  obtain ⟨hkeeps, hbase, -⟩ := keepsStack_syscallCall htop hu h
  obtain ⟨hstack, hesp, -⟩ := stack_syscallCall (parent + 4096) handler retAddr hu
  refine Machine.Holds.congr (m := syscallCall u (parent + 4096) handler retAddr) ?_ fun i hi => hkeeps.kept _ ?_ ?_
  · have hdrop := hstack.drop 4
    have hdesp : ((syscallCall u (parent + 4096) handler retAddr).drop (UInt32.ofNat 4)).reg esp = parent + 4020 := by
      simp only [Machine.drop, Machine.setReg_reg, Function.update_self, hesp]
      simp [add_sub_assoc, UInt32.add_assoc]
    rw [Machine.Stack, hdesp] at hdrop
    have hmem : ((syscallCall u (parent + 4096) handler retAddr).drop (UInt32.ofNat 4)).mem =
      (syscallCall u (parent + 4096) handler retAddr).mem := rfl
    exact (holds_of_mem_eq hmem).mp hdrop
  all_goals
    have hi' : i < 19 := hi
    have hlt := (parent + 4096).toNat_lt
    have hword := toNat_add_mul (parent + 4020) i
    first
      | rw [UInt32.le_iff_toNat_le, hword]
        omega
      | rw [UInt32.lt_iff_toNat_lt, hword]
        omega

end Runs

section Examples

variable {s : Cpu}

/-- A kernel thread that has allocated a page for another one. -/
def startBare : Cpu where
  machine :=
    { programBare with
      cs := 8
      mem := fun a => if a = 0xc0103000 then 0xc0104000 else 0 }
  cur := 0xc0101000
  suspended _ := none

end Examples

end Switch

end Winx
