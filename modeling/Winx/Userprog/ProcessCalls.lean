import Winx.Thread.ReadyList
import Winx.Userprog.ChildExit
import Winx.Userprog.KernelEvent

/-! # The system calls on processes

What the parts of `sys_fork` and `sys_exit`, a turn of `sys_wait` and the end of
`main` do to the threads when the ready list is in order.
-/

namespace Winx

open TaskStatus

/-- The threads with a new child of the running process. -/
def Threads.forked (s : Threads) (parent : TaskStruct) (pid : ℕ) : Threads :=
  ((s.bumpPcb.setPcb s.nextPcb (some (parent.forkChild pid))).setReadyList
    (s.threadReadyList ++ [s.nextPcb])).setAllList (s.threadAllList ++ [s.nextPcb])

/-- The threads after the running process stored its exit status and `init` adopted its children. -/
def Threads.orphaned (s : Threads) (t : TaskStruct) (status : Int8) : Threads :=
  (s.setPcb s.cur (some (t.setExitStatus status))).mapAll (initAdoptAChild t.pid)

/-- The threads without one that was on `thread_all_list`, up to its PCB. -/
def Threads.unlisted (s : Threads) (p : ℕ) (t : TaskStruct) (o : Option TaskStruct) : Threads :=
  (((s.setReadyList (s.threadReadyList.erase p)).setAllList (s.threadAllList.erase p)).setPcb p
    o).setPidBitmap (s.pidBitmap.set (t.pid - 1) false)

/-- The PCB of a thread that exited for good: the one of `main` is not freed. -/
def Threads.leftover (s : Threads) (p : ℕ) (t : TaskStruct) : Option TaskStruct :=
  if p = s.mainThread then some (t.setStatus taskDied) else none

section Ready

variable {s : Threads} {run : Option ℕ} {p : ℕ} {t : TaskStruct}

/-- Only the PCBs, the ready list and the fresh addresses matter to the ready list. -/
theorem ReadyInv.of_eq {s' : Threads} (h : ReadyInv run s)
    (hlist : s'.threadReadyList = s.threadReadyList) (hidle : s'.idleThread = s.idleThread)
    (hnext : s'.nextPcb = s.nextPcb) (hpcb : s'.pcb = s.pcb) : ReadyInv run s' :=
  h.congr hlist hidle hnext (fun _ hp => hpcb ▸ hp) fun _ t ht => ⟨t, hpcb ▸ ht, rfl, id⟩

theorem ReadyInv.forked (h : ReadyInv run s) (parent : TaskStruct) (pid : ℕ) :
    ReadyInv run (s.forked parent pid) :=
  h.append (show (parent.forkChild pid).status = taskReady from rfl) rfl rfl rfl rfl

theorem ReadyInv.setInWait (h : ReadyInv run s) (ht : s.pcb p = some t) (b : Bool) :
    ReadyInv run (s.setPcb p (some (t.setInWait b))) := by
  refine h.congr rfl rfl rfl (fun q hq => ?_) fun q u hu => ?_
  · have hne : q ≠ p := fun hne => nomatch (hne ▸ ht).symm.trans hq
    exact (Function.update_of_ne hne ..).trans hq
  · by_cases hq : q = p
    · subst hq
      obtain rfl := Option.some.inj (ht.symm.trans hu)
      exact ⟨_, Function.update_self .., rfl, id⟩
    · exact ⟨u, (Function.update_of_ne hq ..).trans hu, rfl, id⟩

/-- What `init` adopts changes its parent, which it had. -/
theorem initAdoptAChild_kept (n : ℕ) (t : TaskStruct) :
    (initAdoptAChild n t).status = t.status ∧ (initAdoptAChild n t).pid = t.pid ∧
      (t.parentPid = -1 → (initAdoptAChild n t).parentPid = -1) := by
  unfold initAdoptAChild
  split
  · rename_i hparent
    exact ⟨rfl, rfl, fun h => absurd (hparent.symm.trans h) (by omega)⟩
  · exact ⟨rfl, rfl, id⟩

/-- The PCBs after an exit stored its status and `init` adopted the children. -/
theorem Threads.orphaned_pcb {status : Int8} (ht : s.pcb s.cur = some t) (q : ℕ) :
    (s.orphaned t status).pcb q = (s.pcb q).map fun u =>
      let u' := if q = s.cur then u.setExitStatus status else u
      if q ∈ s.threadAllList then initAdoptAChild t.pid u' else u' := by
  have hset : (s.setPcb s.cur (some (t.setExitStatus status))).pcb q =
      (s.pcb q).map fun u => if q = s.cur then u.setExitStatus status else u := by
    rw [Threads.setPcb_pcb, Function.update_apply]
    split
    · rename_i hq
      rw [hq, ht]
      rfl
    · cases s.pcb q <;> rfl
  simp only [Threads.orphaned, Threads.mapAll_pcb, hset]
  change (if q ∈ s.threadAllList then _ else _) = _
  split <;> cases s.pcb q <;> rfl

theorem Threads.orphaned_status (ht : s.pcb s.cur = some t) (status : Int8) {q : ℕ}
    {u : TaskStruct} (hu : s.pcb q = some u) :
    ∃ u', (s.orphaned t status).pcb q = some u' ∧ u'.status = u.status ∧
      (u.parentPid = -1 → u'.parentPid = -1) := by
  rw [Threads.orphaned_pcb ht, hu]
  refine ⟨_, rfl, ?_⟩
  have hset : (if q = s.cur then u.setExitStatus status else u).status = u.status ∧
      (if q = s.cur then u.setExitStatus status else u).parentPid = u.parentPid := by
    split <;> exact ⟨rfl, rfl⟩
  dsimp only
  split
  · obtain ⟨hst, -, hparent⟩ := initAdoptAChild_kept t.pid
      (if q = s.cur then u.setExitStatus status else u)
    exact ⟨hst.trans hset.1, fun hu => hparent (hset.2.trans hu)⟩
  · exact ⟨hset.1, fun hu => hset.2.trans hu⟩

theorem ReadyInv.orphaned (h : ReadyInv run s) (ht : s.pcb s.cur = some t) (status : Int8) :
    ReadyInv run (s.orphaned t status) := by
  refine h.congr rfl rfl rfl (fun q hq => ?_) fun q u hu => Threads.orphaned_status ht status hu
  rw [Threads.orphaned_pcb ht, hq]
  rfl

/-- A thread that neither runs nor is ready goes away. -/
theorem ReadyInv.unlisted (h : ReadyInv run s) (ht : s.pcb p = some t)
    (hst : ¬ t.status.Runnable) (hidle : p ≠ s.idleThread) :
    ReadyInv run (s.unlisted p t (s.leftover p t)) := by
  have hnot : p ∉ s.threadReadyList := h.notMem ht fun hready => hst (Or.inr hready)
  unfold Threads.leftover
  split
  · have hdied : ReadyInv run (s.setPcb p (some (t.setStatus taskDied))) := by
      refine h.move (l := s.threadReadyList) ht ?_ (fun _ _ => Iff.rfl) h.nodup ?_
        (fun _ _ => Iff.rfl) fun heq => absurd heq hidle
      · exact ⟨fun hrun => absurd hrun (h.ne_run ht fun hr => hst (Or.inl hr)), nofun⟩
      · exact ⟨fun hmem => absurd hmem hnot, nofun⟩
    exact hdied.of_eq (List.erase_of_not_mem hnot) rfl rfl rfl
  · exact (h.remove ht hst hidle).of_eq (List.erase_of_not_mem hnot) rfl rfl rfl

/-- The running thread goes away. -/
theorem ReadyInv.unlisted_running (h : ReadyInv (some p) s) (ht : s.pcb p = some t)
    (hidle : p ≠ s.idleThread) :
    ReadyInv none (s.unlisted p t (some (t.setStatus taskDied))) := by
  have hrun : t.status = taskRunning := (h.running p t ht).mpr rfl
  have hnot : p ∉ s.threadReadyList := h.notMem ht (by rw [hrun]; decide)
  have hdied : ¬ taskDied.Runnable := by unfold TaskStatus.Runnable; decide
  have hquit := h.quit ht hdied fun heq => absurd heq hidle
  exact hquit.of_eq (List.erase_of_not_mem hnot) rfl rfl rfl

end Ready

section Specs

variable {s : Threads} {p : ℕ} {t : TaskStruct} {mem : ForkMemory} {pid : ℕ} {status : Int32}

/-- `sys_fork` takes the first free number. -/
theorem sysForkBegin_spec (ht : s.pcb s.cur = some t) (hpg : t.pgdir = true) :
    Exec.Post (sysForkBegin mem) s
      (fun r s' => match r with
        | none => s' = s
        | some pid => 0 < pid ∧ s.pidBitmap.scan 1 = some (pid - 1) ∧
            s' = s.setPidBitmap (s.pidBitmap.set (pid - 1) true))
      (· = .outOfBounds) := by
  simp only [sysForkBegin, curThread, derefPcb, allocatePid, Exec.post_bind, Exec.post_get,
    post_deref, Exec.post_ite, post_assert, Exec.post_pure]
  refine ⟨fun u hu => ⟨fun _ => trivial, fun _ => ⟨fun _ => ?_, fun hne => ?_⟩⟩, fun hnone => ?_⟩
  · cases hscan : s.pidBitmap.scan 1 with
    | none => rfl
    | some i =>
      simp only [Exec.post_bind, Exec.post_set, Exec.post_pure]
      exact ⟨Nat.succ_pos i, rfl, rfl⟩
  · obtain rfl := Option.some.inj (ht.symm.trans hu)
    exact absurd hpg hne
  · rw [ht] at hnone
    cases hnone

theorem sysForkEnd_spec (ht : s.pcb s.cur = some t) :
    Exec.Returns (sysForkEnd mem pid) s fun _ s' => s' = s ∨ s' = s.forked t pid := by
  simp only [sysForkEnd, curThread, derefPcb, storePcb, Exec.post_bind, Exec.post_get, post_deref,
    Exec.post_ite, Exec.post_modify, Exec.post_pure]
  refine ⟨fun u hu => ⟨fun _ => Or.inl trivial, fun _ => Or.inr ?_⟩, fun hnone => ?_⟩
  · obtain rfl := Option.some.inj (ht.symm.trans hu)
    rfl
  · rw [ht] at hnone
    cases hnone

theorem sysExitBegin_spec (ht : s.pcb s.cur = some t) :
    Exec.Post (sysExitBegin status) s
      (fun _ s' => t.parentPid ≠ -1 ∧ s' = s.orphaned t status.toInt8)
      (fun _ => t.parentPid = -1) := by
  simp only [sysExitBegin, adoptChildren, curThread, derefPcb, storePcb, Exec.post_bind,
    Exec.post_get, post_deref, Exec.post_modify, post_assert]
  refine ⟨fun u hu => ?_, fun hnone => ?_⟩
  · obtain rfl := Option.some.inj (ht.symm.trans hu)
    exact ⟨fun hne => ⟨hne, rfl⟩, not_not.mp⟩
  · rw [ht] at hnone
    cases hnone

/-- `thread_exit` up to the call of `schedule`. -/
theorem post_threadExit (ht : s.pcb p = some t) {b : Bool} {Q : Unit → Threads → Prop}
    {E : Fault → Prop} : Exec.Post (threadExit p b) s Q E ↔
      (b = true → Exec.Post schedule (s.unlisted p t (s.leftover p t)) Q E) ∧
      (¬ b = true → Q () (s.unlisted p t (s.leftover p t))) := by
  have hfreed : (((((s.setPcb p (some (t.setStatus taskDied))).setReadyList
      (s.threadReadyList.erase p)).setAllList (s.threadAllList.erase p)).setPcb p none).setPidBitmap
      (s.pidBitmap.set (t.pid - 1) false)) = s.unlisted p t none := by
    simp only [Threads.unlisted, Threads.setPcb, Threads.setReadyList, Threads.setAllList,
      Function.update_idem]
  simp only [threadExit, derefPcb, storePcb, releasePid, Exec.post_bind, Exec.post_get, post_deref,
    Exec.post_modify, Exec.post_ite, Exec.post_pure, ht, Option.some.injEq, forall_eq',
    reduceCtorEq, false_implies, and_true]
  by_cases heq : p = s.mainThread
  · rw [Threads.leftover, if_pos heq]
    exact ⟨fun h => h.2 (not_not.mpr heq), fun h => ⟨fun hne => absurd heq hne, fun _ => h⟩⟩
  · rw [Threads.leftover, if_neg heq, ← hfreed]
    exact ⟨fun h => h.1 heq, fun h => ⟨fun _ => h, fun hne => absurd heq hne⟩⟩

/-- `sys_exit` wakes the parent, if it is there and waits, and hangs. -/
theorem sysExitEnd_spec (h : ReadyInv (some s.cur) s) (ht : s.pcb s.cur = some t) :
    Exec.Post sysExitEnd s
      (fun _ s' => ReadyInv (some s'.cur) s' ∧
        ∃ q u s₁, pid2thread s t.parentPid = some q ∧ s.pcb q = some u ∧
          (s₁ = s ∨ u.status = taskWaiting ∧ s₁ = s.unblocked q u) ∧
          Rescheduled (s₁.setPcb s.cur (some (t.setStatus taskHanging))) s')
      (fun f => f = .badPointer ∧ pid2thread s t.parentPid = none) := by
  simp only [sysExitEnd, wakeParent, curThread, derefPcb, Exec.post_bind, Exec.post_get, post_deref,
    Exec.post_ite, Exec.post_pure, ht, Option.some.injEq, forall_eq', reduceCtorEq, false_implies,
    and_true]
  refine ⟨fun q hq => ?_, fun hnone => ⟨trivial, hnone⟩⟩
  obtain ⟨-, u, hu, -⟩ := Threads.traverse_eq_some hq
  refine ⟨fun v hv => ?_, fun hnone => by rw [hu] at hnone; cases hnone⟩
  obtain rfl := Option.some.inj (hu.symm.trans hv)
  have hblock (s₁ : Threads) (h₁ : ReadyInv (some s₁.cur) s₁) (hcur : s₁.cur = s.cur)
      (ht₁ : s₁.pcb s₁.cur = some t) (hs₁ : s₁ = s ∨ u.status = taskWaiting ∧ s₁ = s.unblocked q u) :
      Exec.Returns (threadBlock taskHanging) s₁ fun _ s' => ReadyInv (some s'.cur) s' ∧
        ∃ q u s₁, pid2thread s t.parentPid = some q ∧ s.pcb q = some u ∧
          (s₁ = s ∨ u.status = taskWaiting ∧ s₁ = s.unblocked q u) ∧
          Rescheduled (s₁.setPcb s.cur (some (t.setStatus taskHanging))) s' := by
    refine (threadBlock_running h₁ ht₁ (Or.inr (Or.inr rfl))).mono fun _ s' hpost => ?_
    obtain ⟨h', hrel⟩ := hpost
    exact ⟨h', q, u, s₁, hq, hu, hs₁, hcur ▸ hrel⟩
  refine ⟨fun hwait => ?_, fun _ => (hblock s h rfl ht (Or.inl rfl)).post fun _ _ => id⟩
  obtain ⟨hcall, hready⟩ := threadUnblock_ready h hu (Or.inr (Or.inl hwait))
  refine (Exec.eq_ok_iff.mp hcall).post fun _ s₁ hs₁ => ?_
  obtain ⟨-, rfl⟩ := hs₁
  have hne : s.cur ≠ q := by
    rintro rfl
    have hrun := (h.running _ u hu).mpr rfl
    rw [hwait] at hrun
    cases hrun
  refine (hblock (s.unblocked q u) hready rfl ?_ (Or.inr ⟨hwait, rfl⟩)).post fun _ _ => id
  exact (Function.update_of_ne hne ..).trans ht

/-- A turn of the loop of `sys_wait` reaps the first hanging child, or finds none to wait for, or
blocks. -/
theorem sysWait_spec (h : ReadyInv (some s.cur) s) (ht : s.pcb s.cur = some t) :
    Exec.Returns sysWait s fun r s' =>
      match r with
      | .reaped pid st => ∃ c u, findHangingChild s t.pid = some c ∧ s.pcb c = some u ∧
          pid = u.pid ∧ st = u.exitStatus ∧
          s' = (s.setPcb s.cur (some (t.setInWait false))).unlisted c u (s.leftover c u)
      | .noChild => s' = s.setPcb s.cur (some (t.setInWait false))
      | .blocked => ReadyInv (some s'.cur) s' ∧
          Rescheduled (s.setPcb s.cur (some ((t.setInWait true).setStatus taskWaiting))) s' := by
  have hrun : t.status = taskRunning := (h.running _ t ht).mpr rfl
  simp only [sysWait, curThread, derefPcb, storePcb, Exec.post_bind, Exec.post_get, post_deref,
    Exec.post_modify, ht, Option.some.injEq, forall_eq', reduceCtorEq, false_implies, and_true]
  cases hfind : findHangingChild s t.pid with
  | some c =>
    obtain ⟨-, u, hu, hchild⟩ := Threads.traverse_eq_some hfind
    have hne : c ≠ s.cur := by
      rintro rfl
      obtain rfl := Option.some.inj (ht.symm.trans hu)
      rw [hrun] at hchild
      simp at hchild
    have hu' : (s.setPcb s.cur (some (t.setInWait false))).pcb c = some u :=
      (Function.update_of_ne hne ..).trans hu
    simp only [Exec.post_bind, Exec.post_get, post_deref, hu', Option.some.injEq, forall_eq',
      reduceCtorEq, false_implies, and_true, post_threadExit hu', Exec.post_pure]
    exact ⟨trivial, fun _ => ⟨c, u, rfl, hu, rfl, rfl, rfl⟩⟩
  | none =>
    cases findChild s t.pid with
    | none => rfl
    | some c =>
      simp only [Exec.post_bind, Exec.post_modify, Exec.post_pure]
      have heq : (s.setPcb s.cur (some (t.setInWait false))).setPcb s.cur
          (some (t.setInWait true)) = s.setPcb s.cur (some (t.setInWait true)) := by
        simp only [Threads.setPcb, Function.update_idem]
      have hwait : ReadyInv (some s.cur) ((s.setPcb s.cur (some (t.setInWait false))).setPcb s.cur
          (some (t.setInWait true))) := by
        rw [heq]
        exact h.setInWait ht true
      refine (threadBlock_running hwait (Function.update_self ..) (Or.inr (Or.inl rfl))).mono
        fun _ s' hs' => ⟨hs'.1, ?_⟩
      simpa only [Threads.setPcb, Function.update_idem] using hs'.2

end Specs

end Winx
