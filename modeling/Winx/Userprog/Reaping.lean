import Winx.Userprog.ProcessTree

/-! # Reaping

A process that exits hangs on the list until its parent takes its number and
exit status: `sys_wait` returns it once, to its parent, and frees its PCB and
its number then and not before. A history beside the state notes who exited
with which status, what `sys_wait` returned and which PCBs were freed.
-/

namespace Winx

open TaskStatus

/-- What `sys_wait` returned, with the PCBs that have the number of the child and the number of its
parent. -/
structure Reap where
  child : Option ℕ
  parent : Option ℕ
  waiter : ℕ
  pid : ℕ
  status : Int8
  deriving DecidableEq

/-- The kernel with its history: what the processes exited with, what `sys_wait` returned, and how
often a PCB was freed. -/
structure Traced where
  kernel : Kernel
  exits : ℕ → Option (ℕ × Int8)
  reaps : List Reap
  released : ℕ → ℕ

/-- The process that an event returns to its parent. -/
def KernelEvent.reap (k : Kernel) : KernelEvent → Option Reap
  | .wait =>
    match sysWait k.threads with
    | .ok (.reaped pid status, _) =>
      let child := pid2thread k.threads pid
      let parent := (child.bind k.threads.pcb).bind fun t => pid2thread k.threads t.parentPid
      some ⟨child, parent, k.cur, pid, status⟩
    | _ => none
  | _ => none

/-- The history after an event. -/
def Traced.record (x : Traced) (e : KernelEvent) (k' : Kernel) : Traced where
  kernel := k'
  exits :=
    match e with
    | .exitBegin status => Function.update x.exits x.kernel.cur
        ((x.kernel.threads.pcb x.kernel.cur).map fun t => (t.pid, status.toInt8))
    | _ => x.exits
  reaps := x.reaps ++ (e.reap x.kernel).toList
  released p :=
    if (x.kernel.threads.pcb p).isSome ∧ (k'.threads.pcb p).isNone then x.released p + 1
    else x.released p

/-- An event, noted in the history. -/
def Traced.event (e : KernelEvent) : Exec Traced Fault Unit := fun x =>
  match e.run x.kernel with
  | .ok (_, k') => .ok ((), x.record e k')
  | .error f => .error f

theorem Traced.post_event {e : KernelEvent} {x : Traced} {Q : Unit → Traced → Prop}
    {E : Fault → Prop} : Exec.Post (Traced.event e) x Q E ↔
      Exec.Post e.run x.kernel (fun _ k' => Q () (x.record e k')) E := by
  unfold Exec.Post Traced.event
  cases e.run x.kernel <;> rfl

/-- Only `sys_wait` and `sys_exit` block a thread for something else than an event. -/
def KernelEvent.BlocksForEvent : KernelEvent → Prop
  | .block stat => stat = taskBlocked
  | _ => True

instance (e : KernelEvent) : Decidable e.BlocksForEvent :=
  match e with
  | .block stat => instDecidableEqTaskStatus stat taskBlocked
  | .tick | .yield | .semaDown _ | .semaUp _ | .ioqWait _ | .wakeup _ | .forkBegin _ | .forkEnd _ _
  | .exitBegin _ | .exitEnd | .wait | .mainExit => instDecidableTrue

/-- The kernel after `thread_init`, with no history. -/
def Traced.boot (value : ℕ → UInt8) : Traced := ⟨Kernel.boot value, fun _ => none, [], fun _ => 0⟩

/-- The runs of the kernel, with their histories. -/
abbrev Traced.Run (value : ℕ → UInt8) (x : Traced) : Prop :=
  Exec.Run Traced.event (fun x e => e.Admitted x.kernel ∧ e.BlocksForEvent) (Traced.boot value) x

/-- Reaping is safe: what was returned was returned once, to the parent, as it was stored, and the
PCB was freed then; a process that exited and was not returned is still there, and nobody else has
its number; and the parent that `sys_exit` looks up neither hangs nor died. -/
structure ReapSafe (x : Traced) : Prop where
  once : (x.reaps.map Reap.child).Nodup
  returned : ∀ r ∈ x.reaps, ∃ p, r.child = some p ∧ x.exits p = some (r.pid, r.status) ∧
    r.parent = some r.waiter
  released : ∀ p, x.released p = (x.reaps.map Reap.child).count (some p)
  kept : ∀ p pid status, x.exits p = some (pid, status) → x.released p = 0 →
    p ∈ x.kernel.threads.threadAllList ∧
      (∃ t, x.kernel.threads.pcb p = some t ∧ t.pid = pid ∧ t.exitStatus = status) ∧
      x.kernel.threads.pidBitmap.scanTest (pid - 1) = true ∧
      (∀ q ∈ x.kernel.threads.threadAllList, ∀ u, x.kernel.threads.pcb q = some u → u.pid = pid →
        q = p) ∧
      ∀ q, x.kernel.inSyscall q ≠ some (.fork pid)
  parent : ∀ t, x.kernel.threads.pcb x.kernel.cur = some t →
    x.kernel.inSyscall x.kernel.cur = some .exit →
    ∃ q u, pid2thread x.kernel.threads t.parentPid = some q ∧ x.kernel.threads.pcb q = some u ∧
      u.status ≠ taskHanging ∧ u.status ≠ taskDied

/-- What an event does to a PCB that neither exits nor is reaped in it. -/
structure PcbKept (k k' : Kernel) (p : ℕ) : Prop where
  pcb : ∀ t, k.threads.pcb p = some t → ∃ u, k'.threads.pcb p = some u ∧ u.pid = t.pid ∧
    u.exitStatus = t.exitStatus ∧ (u.status = taskDied → t.status = taskDied ∨ t.pgdir = false)
  none : p < k.threads.nextPcb → k.threads.pcb p = none → k'.threads.pcb p = none
  exit : k'.inSyscall p = some .exit ↔ k.inSyscall p = some .exit

/-- How an event ends: all PCBs are kept, or the running process exits, or the running process gets
a child that hangs. -/
inductive ReapOutcome (k : Kernel) (e : KernelEvent) (k' : Kernel) : Prop
  | kept (hexit : ∀ status, e ≠ .exitBegin status) (hreap : e.reap k = none)
      (hkept : ∀ p, PcbKept k k' p)
  | exited (status : Int32) (he : e = .exitBegin status) {t u : TaskStruct}
      (ht : k.threads.pcb k.cur = some t) (hu : k'.threads.pcb k.cur = some u)
      (hpid : u.pid = t.pid) (hstatus : u.exitStatus = status.toInt8) (hst : u.status ≠ taskDied)
      (hin : k.inSyscall k.cur = none) (hin' : k'.inSyscall k.cur = some .exit)
      (hkept : ∀ p, p ≠ k.cur → PcbKept k k' p)
  | reaped (he : e = .wait) {c : ℕ} {u : TaskStruct} (hu : k.threads.pcb c = some u)
      (hreap : e.reap k = some ⟨some c, some k.cur, k.cur, u.pid, u.exitStatus⟩)
      (hin : k.inSyscall c = some .exit) (hu' : k'.threads.pcb c = none)
      (hin' : k'.inSyscall c = some .exit) (hkept : ∀ p, p ≠ c → PcbKept k k' p)

section Outcomes

variable {k k' : Kernel} {s : Threads} {p : ℕ} {t : TaskStruct}

/-- Changes to the statuses keep every PCB. -/
theorem TreeRel.pcbKept (hrel : TreeRel k k'.threads) (hsyscall : k'.inSyscall = k.inSyscall)
    (p : ℕ) : PcbKept k k' p := by
  refine ⟨fun t ht => ?_, fun _ => hrel.none p, by rw [hsyscall]⟩
  obtain ⟨u, hu, hpid, -, -, hexit, hdied, -⟩ := hrel.pcb p t ht
  exact ⟨u, hu, hpid, hexit, fun hst => Or.inl (hdied.mp hst)⟩

theorem PcbKept.setInSyscall {q : ℕ} {o : Option InSyscall} (h : PcbKept k k' p)
    (ho : p = q → (o = some .exit ↔ k'.inSyscall q = some .exit)) :
    PcbKept k (k'.setInSyscall q o) p := by
  refine ⟨h.pcb, h.none, ?_⟩
  by_cases hp : p = q
  · subst hp
    rw [Kernel.setInSyscall_inSyscall, Function.update_self]
    exact (ho rfl).trans h.exit
  · rw [Kernel.setInSyscall_inSyscall, Function.update_of_ne hp]
    exact h.exit

/-- In order at the start of an event: the tree, and the scheduler. -/
structure TreeSched (k : Kernel) : Prop where
  sched : SchedInv k
  tree : TreeInv k

/-- What an event leads to. -/
structure TreeStep (k : Kernel) (e : KernelEvent) (k' : Kernel) : Prop where
  tree : TreeInv k'
  outcome : ReapOutcome k e k'
  nextPcb : k.threads.nextPcb ≤ k'.threads.nextPcb

/-- An event that changes the statuses only. -/
theorem TreeSched.step_of_treeRel {e : KernelEvent} (h : TreeSched k)
    (hrel : TreeRel k k'.threads) (hsyscall : k'.inSyscall = k.inSyscall)
    (hexit : ∀ status, e ≠ .exitBegin status) (hreap : e.reap k = none) : TreeStep k e k' :=
  ⟨h.tree.of_treeRel hrel hsyscall, .kept hexit hreap (hrel.pcbKept hsyscall), hrel.nextPcb.ge⟩

theorem TreeSched.idle_not_died (h : TreeSched k) (ht : k.threads.pcb k.threads.idleThread = some t) :
    t.status ≠ taskDied := by
  obtain ⟨u, hu, hdied, -⟩ := h.sched.ready.idle
  obtain rfl := Option.some.inj (ht.symm.trans hu)
  exact hdied

theorem TreeSched.quiet (h : TreeSched k) (hquiet : Quiet k k') : TreeRel k k'.threads :=
  hquiet.1.treeRel fun _ ht => h.idle_not_died ht

/-- Scheduling after changes to the statuses. -/
theorem TreeSched.rescheduled {s' : Threads} (h : TreeSched k) (hrel : TreeRel k s)
    (hidle : s.idleThread = k.threads.idleThread) (hresched : Rescheduled s s') : TreeRel k s' := by
  refine hrel.trans (hresched.shuffled.treeRel (k := k.setThreads s) fun u hu hst => ?_)
  obtain ⟨t, ht, -, -, -, -, hdied, -⟩ := hrel.back hu
  exact h.idle_not_died (hidle ▸ ht) (hdied.mp hst)

theorem TreeRel.refl (k : Kernel) : TreeRel k k.threads :=
  ⟨rfl, rfl, rfl, rfl, fun _ => id, fun _ t ht => ⟨t, ht, rfl, rfl, rfl, rfl, Iff.rfl, Or.inl⟩⟩

/-- A thread that runs stops doing so. -/
theorem TreeRel.of_running {st : TaskStatus} {b : Bool} (ht : k.threads.pcb p = some t)
    (hrun : t.status = taskRunning) (hdied : st ≠ taskDied)
    (hhang : st = taskHanging → k.inSyscall p = some .exit) :
    TreeRel k (k.threads.setPcb p (some ((t.setInWait b).setStatus st))) := by
  refine .of_update (u := (t.setInWait b).setStatus st) ht rfl rfl rfl rfl ?_
    (fun hst => Or.inr (hhang hst)) rfl rfl rfl rfl rfl
  rw [hrun]
  exact ⟨fun hst => absurd hst hdied, nofun⟩

end Outcomes

section Events

variable {k : Kernel} {t : TaskStruct}

theorem sysForkBegin_tree (h : TreeSched k) (ht : k.threads.pcb k.cur = some t)
    {mem : ForkMemory} (he : (KernelEvent.forkBegin mem).Admitted k) :
    Exec.Ensures (KernelEvent.forkBegin mem).run k fun _ k' =>
      TreeStep k (.forkBegin mem) k' := by
  obtain ⟨-, hin, hpg⟩ := he
  have hpg : t.pgdir = true := by simpa [ht] using hpg
  have hst : t.status = taskRunning := (h.sched.ready.running _ t ht).mpr rfl
  refine Exec.post_bind.mpr (post_onThreads.mpr ((sysForkBegin_spec ht hpg).ensures.mono
    fun r s hs => ?_))
  cases r with
  | none =>
    subst hs
    have heq : (k.setThreads k.threads).setInSyscall k.cur none = k := by
      rw [Kernel.setInSyscall, ← hin]
      exact congrArg (fun f => { k with inSyscall := f }) (Function.update_eq_self ..)
    change TreeStep k _ ((k.setThreads k.threads).setInSyscall k.cur none)
    rw [heq]
    exact h.step_of_treeRel (.refl k) rfl nofun rfl
  | some pid =>
    obtain ⟨hpos, hscan, rfl⟩ := hs
    obtain ⟨-, hfree, -⟩ := Bitmap.scan_one_eq_some_iff.mp hscan
    refine ⟨h.tree.forkBegin ht hpg hst hin hpos hfree, .kept nofun rfl fun p => ?_, le_rfl⟩
    have hkept : PcbKept k (k.setThreads (k.threads.setPidBitmap
        (k.threads.pidBitmap.set (pid - 1) true))) p :=
      ⟨fun t ht => ⟨t, ht, rfl, rfl, Or.inl⟩, fun _ => id, Iff.rfl⟩
    exact hkept.setInSyscall fun _ => ⟨nofun, fun hexit => nomatch hin.symm.trans hexit⟩

theorem sysForkEnd_tree (h : TreeSched k) (ht : k.threads.pcb k.cur = some t)
    {mem : ForkMemory} {pid : ℕ} (he : (KernelEvent.forkEnd mem pid).Admitted k) :
    Exec.Ensures (KernelEvent.forkEnd mem pid).run k fun _ k' =>
      TreeStep k (.forkEnd mem pid) k' := by
  obtain ⟨-, hin⟩ := he
  have hst : t.status = taskRunning := (h.sched.ready.running _ t ht).mpr rfl
  have hnot : k.inSyscall k.cur ≠ some .exit := fun hexit => nomatch hin.symm.trans hexit
  obtain ⟨hpos, hbit, hown, hone⟩ := h.tree.reserved _ pid hin
  have htree : TreeInv (k.setInSyscall k.cur none) := h.tree.forgetFork hnot
  have hkept (k' : Kernel) (hk' : k'.inSyscall = k.inSyscall) (p : ℕ)
      (hp : PcbKept k k' p) : PcbKept k (k'.setInSyscall k.cur none) p :=
    hp.setInSyscall fun _ => ⟨nofun, fun hexit => absurd (hk' ▸ hexit) hnot⟩
  refine Exec.post_bind.mpr (Exec.post_bind.mpr (post_onThreads.mpr
    ((sysForkEnd_spec ht).ensures.mono fun _ s hs => ?_)))
  rcases hs with rfl | rfl
  · exact ⟨htree, .kept nofun rfl fun p => hkept k rfl p ((TreeRel.refl k).pcbKept rfl p), le_rfl⟩
  · refine ⟨?_, .kept nofun rfl fun p => hkept (k.setThreads (k.threads.forked t pid)) rfl p ?_,
      Nat.le_succ _⟩
    · refine htree.forked ht (h.tree.mem_of_running ht hst) (h.tree.syscall _ t (by rw [hin]; nofun) ht)
        ?_ (fun q hq => ⟨h.sched.ready.fresh q hq, ?_⟩) ?_ hpos hbit hown fun q hq => ?_
      · exact fun hexit => nomatch (Function.update_self ..).symm.trans hexit
      · have hne : q ≠ k.cur := by
          rintro rfl
          exact absurd (h.sched.ready.lt_nextPcb ht) (Nat.not_lt.mpr hq)
        exact (Function.update_of_ne hne ..).trans (h.sched.wait.fresh q hq).2
      · obtain ⟨u, hu, -⟩ := h.sched.ready.idle
        have hlt := h.sched.ready.lt_nextPcb hu
        rw [h.sched.main.2] at hlt
        change k.threads.mainThread < k.threads.nextPcb
        rw [h.sched.main.1]
        exact lt_trans (by decide) hlt
      · by_cases hcur : q = k.cur
        · subst hcur
          cases (Function.update_self ..).symm.trans hq
        · exact hcur (hone q ((Function.update_of_ne hcur ..).symm.trans hq))
    · have hne {q : ℕ} (hq : q < k.threads.nextPcb) :
          (k.threads.forked t pid).pcb q = k.threads.pcb q := Function.update_of_ne hq.ne ..
      refine ⟨fun u hu => ⟨u, ?_, rfl, rfl, Or.inl⟩, fun hp hnone => (hne hp).trans hnone, Iff.rfl⟩
      exact (hne (h.sched.ready.lt_nextPcb hu)).trans hu

theorem sysExitBegin_tree (h : TreeSched k) (ht : k.threads.pcb k.cur = some t)
    {status : Int32} (he : (KernelEvent.exitBegin status).Admitted k) :
    Exec.Ensures (KernelEvent.exitBegin status).run k fun _ k' =>
      TreeStep k (.exitBegin status) k' := by
  obtain ⟨-, hin, hpg⟩ := he
  have hpg : t.pgdir = true := by simpa [ht] using hpg
  have hst : t.status = taskRunning := (h.sched.ready.running _ t ht).mpr rfl
  refine Exec.post_bind.mpr (post_onThreads.mpr ((sysExitBegin_spec ht).ensures.mono
    fun _ s ⟨hparent, hs⟩ => ?_))
  subst hs
  obtain ⟨u, hu⟩ := Threads.orphaned_some status.toInt8 ht ht
  obtain ⟨t', ht', hpid, hust, -, hexit, -⟩ := Threads.orphaned_back status.toInt8 ht hu
  obtain rfl := Option.some.inj (ht.symm.trans ht')
  rw [if_pos rfl] at hexit
  refine ⟨h.tree.exitBegin ht hpg hst hparent _, .exited status rfl ht hu hpid hexit ?_ hin
    (Function.update_self ..) fun p hp => ?_, le_rfl⟩
  · rw [hust, hst]
    decide
  · have hkept : PcbKept k (k.setThreads (k.threads.orphaned t status.toInt8)) p := by
      refine ⟨fun v hv => ?_, fun _ hnone => ?_, Iff.rfl⟩
      · obtain ⟨v', hv'⟩ := Threads.orphaned_some status.toInt8 ht hv
        obtain ⟨w, hw, hvpid, hvst, -, hvexit, -⟩ := Threads.orphaned_back status.toInt8 ht hv'
        obtain rfl := Option.some.inj (hv.symm.trans hw)
        rw [if_neg hp] at hvexit
        exact ⟨v', hv', hvpid, hvexit, fun hdied => Or.inl (hvst ▸ hdied)⟩
      · rw [Kernel.setThreads_threads, Threads.orphaned_pcb ht, hnone]
        rfl
    exact hkept.setInSyscall fun heq => absurd heq hp

theorem sysExitEnd_tree (h : TreeSched k) (ht : k.threads.pcb k.cur = some t)
    (he : KernelEvent.exitEnd.Admitted k) :
    Exec.Ensures KernelEvent.exitEnd.run k fun _ k' => TreeStep k .exitEnd k' := by
  obtain ⟨-, hin⟩ := he
  have hst : t.status = taskRunning := (h.sched.ready.running _ t ht).mpr rfl
  refine post_onThreads.mpr ((sysExitEnd_spec h.sched.ready ht).ensures.mono fun _ s hs => ?_)
  obtain ⟨-, q, u, s₁, -, hu, hs₁, hresched⟩ := hs
  have hunblock : TreeRel k s₁ ∧ s₁.pcb k.cur = some t ∧
      s₁.idleThread = k.threads.idleThread := by
    rcases hs₁ with rfl | ⟨hwait, rfl⟩
    · exact ⟨.refl k, ht, rfl⟩
    · refine ⟨.of_update (u := u.setStatus taskReady) hu rfl rfl rfl rfl ?_ nofun rfl rfl rfl rfl rfl,
        (Function.update_of_ne ?_ ..).trans ht, rfl⟩
      · rw [hwait]
        exact ⟨nofun, nofun⟩
      · rintro rfl
        obtain rfl := Option.some.inj (ht.symm.trans hu)
        rw [hwait] at hst
        cases hst
  obtain ⟨hrel, ht₁, hidle⟩ := hunblock
  have hhang : TreeRel (k.setThreads s₁) (s₁.setPcb k.cur (some (t.setStatus taskHanging))) :=
    .of_running (b := t.inWait) ht₁ hst nofun fun _ => hin
  exact h.step_of_treeRel (h.rescheduled (hrel.trans hhang) hidle hresched) rfl nofun rfl

/-- The child that `sys_wait` found is its own, in the middle of `sys_exit`, and `pid2thread` finds
it by its number. -/
theorem TreeSched.hangingChild (h : TreeSched k) (ht : k.threads.pcb k.cur = some t) {c : ℕ}
    {u : TaskStruct} (hfind : findHangingChild k.threads t.pid = some c)
    (hu : k.threads.pcb c = some u) :
    c ∈ k.threads.threadAllList ∧ c ≠ k.cur ∧ k.inSyscall c = some .exit ∧
      pid2thread k.threads u.pid = some c ∧ pid2thread k.threads u.parentPid = some k.cur := by
  have hst : t.status = taskRunning := (h.sched.ready.running _ t ht).mpr rfl
  have hcur : k.cur ∈ k.threads.threadAllList := h.tree.mem_of_running ht hst
  obtain ⟨hc, u', hu', hchild⟩ := Threads.traverse_eq_some hfind
  obtain rfl := Option.some.inj (hu.symm.trans hu')
  obtain ⟨hparent, hhang⟩ : u.parentPid = t.pid ∧ u.status = taskHanging := by
    simpa using hchild
  have hpid2thread {q : ℕ} {v : TaskStruct} (hq : q ∈ k.threads.threadAllList)
      (hv : k.threads.pcb q = some v) : pid2thread k.threads v.pid = some q := by
    cases hr : pid2thread k.threads v.pid with
    | none =>
      have hmiss := Threads.traverse_eq_none hr v (Threads.mem_threadAll.mpr ⟨q, hq, hv⟩)
      simp at hmiss
    | some r =>
      obtain ⟨hr', w, hw, hmatch⟩ := Threads.traverse_eq_some hr
      have hwpid : w.pid = v.pid := by simpa using hmatch
      exact congrArg some (h.tree.pid.inj r hr' q hq w v hw hv hwpid)
  refine ⟨hc, ?_, h.tree.hanging c u hu hhang, hpid2thread hc hu, hparent ▸ hpid2thread hcur ht⟩
  rintro rfl
  obtain rfl := Option.some.inj (ht.symm.trans hu)
  rw [hst] at hhang
  cases hhang

theorem sysWait_tree (h : TreeSched k) (ht : k.threads.pcb k.cur = some t) :
    Exec.Ensures KernelEvent.wait.run k fun _ k' => TreeStep k .wait k' := by
  have hst : t.status = taskRunning := (h.sched.ready.running _ t ht).mpr rfl
  have hspec := sysWait_spec h.sched.ready ht
  obtain ⟨r, s, hcall, hs⟩ := Exec.returns_iff.mp hspec
  have hrun : onThreads sysWait k = .ok (r, k.setThreads s) := by
    unfold onThreads
    rw [hcall]
  refine Exec.post_bind.mpr (Exec.ensures_iff.mpr fun r' k' hcall' => ?_)
  obtain ⟨rfl, rfl⟩ : r = r' ∧ k.setThreads s = k' := by
    simpa using hrun.symm.trans hcall'
  change TreeStep k .wait (k.setThreads s)
  have hrel (st : TaskStatus) (b : Bool) (hdied : st ≠ taskDied) (hhang : st ≠ taskHanging) :
      TreeRel k (k.threads.setPcb k.cur (some ((t.setInWait b).setStatus st))) :=
    .of_running ht hst hdied fun heq => absurd heq hhang
  have hsame (b : Bool) : (t.setInWait b).setStatus taskRunning = t.setInWait b := by
    rw [← hst]
    rfl
  cases r with
  | noChild =>
    subst hs
    have hreap : KernelEvent.wait.reap k = none := by
      unfold KernelEvent.reap
      rw [hcall]
    exact h.step_of_treeRel (hsame false ▸ hrel taskRunning false nofun nofun) rfl nofun hreap
  | blocked =>
    have hreap : KernelEvent.wait.reap k = none := by
      unfold KernelEvent.reap
      rw [hcall]
    exact h.step_of_treeRel (h.rescheduled (hrel taskWaiting true nofun nofun) rfl hs.2) rfl nofun
      hreap
  | reaped pid st =>
    obtain ⟨c, u, hfind, hu, rfl, rfl, rfl⟩ := hs
    obtain ⟨hc, hne, hexit, hpid, hparent⟩ := h.hangingChild ht hfind hu
    have hreap : KernelEvent.wait.reap k = some ⟨some c, some k.cur, k.cur, u.pid, u.exitStatus⟩ := by
      unfold KernelEvent.reap
      rw [hcall]
      simp only [hpid, Option.bind_some, hu, hparent]
    have hmain : c ≠ k.threads.mainThread := by
      rintro rfl
      have hpg := h.tree.syscall _ u (by rw [hexit]; nofun) hu
      rw [h.tree.main u hu] at hpg
      cases hpg
    have hleft : k.threads.leftover c u = none := if_neg hmain
    rw [hleft]
    have hrel₁ := hsame false ▸ hrel taskRunning false nofun nofun
    have htree₁ : TreeInv (k.setThreads (k.threads.setPcb k.cur (some (t.setInWait false)))) :=
      h.tree.of_treeRel hrel₁ rfl
    have hu₁ : (k.threads.setPcb k.cur (some (t.setInWait false))).pcb c = some u :=
      (Function.update_of_ne hne ..).trans hu
    refine ⟨htree₁.unlisted hu₁ hc (Or.inr hexit) (Or.inl rfl), .reaped rfl hu hreap hexit
      (Function.update_self ..) hexit fun p hp => ?_, le_rfl⟩
    have hkept : PcbKept k (k.setThreads (k.threads.setPcb k.cur (some (t.setInWait false)))) p := by
      refine TreeRel.pcbKept ?_ ?_ p
      · exact hrel₁
      · rfl
    have hsame' : ((k.threads.setPcb k.cur (some (t.setInWait false))).unlisted c u none).pcb p =
        (k.threads.setPcb k.cur (some (t.setInWait false))).pcb p := Function.update_of_ne hp ..
    exact ⟨fun v hv => hsame' ▸ hkept.pcb v hv, fun hlt hnone => hsame' ▸ hkept.none hlt hnone,
      hkept.exit⟩

theorem mainExit_tree (h : TreeSched k) (ht : k.threads.pcb k.cur = some t)
    (he : KernelEvent.mainExit.Admitted k) :
    Exec.Ensures KernelEvent.mainExit.run k fun _ k' => TreeStep k .mainExit k' := by
  obtain ⟨-, hcur, hlisted⟩ := he
  have hidle : k.cur ≠ k.threads.idleThread := by
    rw [hcur, h.sched.main.1, h.sched.main.2]
    decide
  have hmain : k.threads.leftover k.threads.mainThread t = some (t.setStatus taskDied) := if_pos rfl
  have hpg : t.pgdir = false := h.tree.main t (hcur ▸ ht)
  refine Exec.post_bind.mpr (post_onThreads.mpr ?_)
  rw [post_threadExit (hcur ▸ ht), hmain]
  refine ⟨fun _ => ?_, fun hne => absurd rfl hne⟩
  rw [← hcur]
  have hnone := h.sched.ready.unlisted_running ht hidle
  refine (schedule_none hnone (Function.update_self ..)).ensures.mono fun _ s ⟨_, hresched⟩ => ?_
  have htree := h.tree.unlisted ht (hcur ▸ hlisted) (Or.inl hpg) (Or.inr rfl)
  have hrel : TreeRel (k.setThreads (k.threads.unlisted k.cur t (some (t.setStatus taskDied)))) s := by
    refine hresched.shuffled.treeRel (k := k.setThreads (k.threads.unlisted k.cur t _)) fun u hu => ?_
    exact h.idle_not_died ((Function.update_of_ne (Ne.symm hidle) ..).symm.trans hu)
  refine ⟨htree.of_treeRel hrel rfl, .kept nofun rfl fun p => ?_, hrel.nextPcb.ge⟩
  refine ⟨fun u hu => ?_, fun _ hp => hrel.none p ?_, Iff.rfl⟩
  · by_cases heq : p = k.cur
    · subst heq
      obtain rfl := Option.some.inj (ht.symm.trans hu)
      obtain ⟨v, hv, hpid, -, -, hexit, -⟩ := hrel.pcb _ _ (Function.update_self ..)
      exact ⟨v, hv, hpid, hexit, fun _ => Or.inr hpg⟩
    · obtain ⟨v, hv, hpid, -, -, hexit, hdied, -⟩ :=
        hrel.pcb p u ((Function.update_of_ne heq ..).trans hu)
      exact ⟨v, hv, hpid, hexit, fun hst => Or.inl (hdied.mp hst)⟩
  · have hne : p ≠ k.cur := by
      rintro rfl
      cases hp.symm.trans ht
    exact (Function.update_of_ne hne ..).trans hp

/-- Every event keeps the tree in order. -/
theorem KernelEvent.run_treeStep {e : KernelEvent} (h : TreeSched k) (he : e.Admitted k)
    (hblock : e.BlocksForEvent) : Exec.Ensures e.run k fun _ k' => TreeStep k e k' := by
  obtain ⟨t, ht, hrun⟩ := h.sched.cur_running
  have hquiet {e : KernelEvent} {k' : Kernel} (hk' : Quiet k k')
      (hexit : ∀ status, e ≠ .exitBegin status) (hreap : e.reap k = none) : TreeStep k e k' :=
    h.step_of_treeRel (h.quiet hk') hk'.2 hexit hreap
  have hresched {e : KernelEvent} {s : Threads} (hs : Rescheduled k.threads s)
      (hexit : ∀ status, e ≠ .exitBegin status) (hreap : e.reap k = none) :
      TreeStep k e (k.setThreads s) :=
    hquiet ⟨hs.shuffled, rfl⟩ hexit hreap
  cases e with
  | tick =>
    exact post_onThreads.mpr ((schedule_running h.sched.ready).ensures.mono
      fun _ s ⟨_, hs⟩ => hresched hs nofun rfl)
  | yield =>
    exact post_onThreads.mpr ((threadYield_running h.sched.ready).ensures.mono
      fun _ s ⟨_, hs⟩ => hresched hs nofun rfl)
  | block stat =>
    obtain rfl : stat = taskBlocked := hblock
    refine post_onThreads.mpr ((threadBlock_running h.sched.ready ht he.2).ensures.mono
      fun _ s ⟨_, hs⟩ => ?_)
    have hrel : TreeRel k (k.threads.setPcb k.cur (some (t.setStatus taskBlocked))) :=
      .of_running (b := t.inWait) ht hrun nofun nofun
    exact h.step_of_treeRel (h.rescheduled hrel rfl hs) rfl nofun rfl
  | semaDown psema =>
    exact Exec.post_bind.mpr ((semaDown_sched h.sched he).ensures.mono
      fun _ _ h' => hquiet h'.2.1 nofun rfl)
  | semaUp psema =>
    exact (semaUp_sched h.sched).ensures.mono fun _ _ h' => hquiet h'.2.1 nofun rfl
  | ioqWait w =>
    exact (ioqWait_sched h.sched he.2).ensures.mono fun _ _ h' => hquiet h'.2 nofun rfl
  | wakeup w => exact (wakeup_sched h.sched).ensures.mono fun _ _ h' => hquiet h'.2 nofun rfl
  | forkBegin mem => exact sysForkBegin_tree h ht he
  | forkEnd mem pid => exact sysForkEnd_tree h ht he
  | exitBegin status => exact sysExitBegin_tree h ht he
  | exitEnd => exact sysExitEnd_tree h ht he
  | wait => exact sysWait_tree h ht
  | mainExit => exact mainExit_tree h ht he

end Events

/-- The invariant of the runs with a history. -/
structure ReapInv (x : Traced) : Prop where
  base : TreeSched x.kernel
  exits : ∀ p, x.exits p ≠ none ↔ x.kernel.inSyscall p = some .exit
  stored : ∀ p e, x.exits p = some e → x.released p = 0 →
    ∃ t, x.kernel.threads.pcb p = some t ∧ e = (t.pid, t.exitStatus) ∧ t.status ≠ taskDied
  present : ∀ p t, x.kernel.threads.pcb p = some t → x.released p = 0
  gone : ∀ p, x.released p ≠ 0 → p < x.kernel.threads.nextPcb
  once : (x.reaps.map Reap.child).Nodup
  returned : ∀ r ∈ x.reaps, ∃ p, r.child = some p ∧ x.exits p = some (r.pid, r.status) ∧
    r.parent = some r.waiter
  released : ∀ p, x.released p = (x.reaps.map Reap.child).count (some p)

section History

variable {x : Traced} {e : KernelEvent} {k' : Kernel} {p : ℕ}

theorem Traced.released_record : (x.record e k').released p =
    if (x.kernel.threads.pcb p).isSome ∧ (k'.threads.pcb p).isNone then x.released p + 1
    else x.released p := rfl

/-- A PCB that is kept is not freed, nor does it come back. -/
theorem PcbKept.released (h : PcbKept x.kernel k' p) : (x.record e k').released p = x.released p := by
  rw [Traced.released_record, if_neg]
  rintro ⟨hsome, hnone⟩
  obtain ⟨t, ht⟩ := Option.isSome_iff_exists.mp hsome
  obtain ⟨u, hu, -⟩ := h.pcb t ht
  rw [hu] at hnone
  cases hnone

theorem ReapInv.stored_kept (h : ReapInv x) (hkept : PcbKept x.kernel k' p) {ex : ℕ × Int8}
    (hexit : x.exits p = some ex) (hrel : x.released p = 0) :
    ∃ t, k'.threads.pcb p = some t ∧ ex = (t.pid, t.exitStatus) ∧ t.status ≠ taskDied := by
  obtain ⟨t, ht, heq, hst⟩ := h.stored p ex hexit hrel
  obtain ⟨u, hu, hpid, hstatus, hdied⟩ := hkept.pcb t ht
  have hin := (h.exits p).mp (by rw [hexit]; nofun)
  have hpg := h.base.tree.syscall p t (by rw [hin]; nofun) ht
  refine ⟨u, hu, by rw [heq, hpid, hstatus], fun hud => ?_⟩
  rcases hdied hud with htd | hpg'
  · exact hst htd
  · rw [hpg] at hpg'
    cases hpg'

theorem ReapInv.present_kept (h : ReapInv x) (hkept : PcbKept x.kernel k' p) {u : TaskStruct}
    (hu : k'.threads.pcb p = some u) : x.released p = 0 := by
  by_contra hne
  cases ht : x.kernel.threads.pcb p with
  | some t => exact hne (h.present p t ht)
  | none => cases (hkept.none (h.gone p hne) ht).symm.trans hu

/-- Every event keeps the invariant. -/
theorem ReapInv.record (h : ReapInv x) (hsched : SchedInv k') (hstep : TreeStep x.kernel e k') :
    ReapInv (x.record e k') := by
  have hbase : TreeSched k' := ⟨hsched, hstep.tree⟩
  cases hstep.outcome with
  | kept hexit hreap hkept =>
    have hreaps : (x.record e k').reaps = x.reaps := by
      unfold Traced.record
      simp [hreap]
    have hexits : (x.record e k').exits = x.exits := by
      unfold Traced.record
      cases e with
      | exitBegin status => exact absurd rfl (hexit status)
      | _ => rfl
    have hrel (p : ℕ) : (x.record e k').released p = x.released p := (hkept p).released
    refine ⟨hbase, fun p => ?_, fun p ex hp hp' => ?_, fun p u hu => ?_, fun p hp => ?_, ?_, ?_,
      fun p => ?_⟩
    · rw [hexits]
      exact (h.exits p).trans (hkept p).exit.symm
    · rw [hexits] at hp
      exact h.stored_kept (hkept p) hp ((hrel p).symm.trans hp')
    · exact (hrel p).trans (h.present_kept (hkept p) hu)
    · rw [hrel] at hp
      exact lt_of_lt_of_le (h.gone p hp) hstep.nextPcb
    · rw [hreaps]
      exact h.once
    · rw [hreaps, hexits]
      exact h.returned
    · rw [hreaps, hrel]
      exact h.released p
  | exited status he ht hu hpid hstatus hst hin hin' hkept =>
    rename_i t u
    subst he
    have hreaps : (x.record (.exitBegin status) k').reaps = x.reaps := List.append_nil _
    have hself : (x.record (.exitBegin status) k').exits x.kernel.cur =
        some (t.pid, status.toInt8) := by
      refine (Function.update_self ..).trans ?_
      rw [ht]
      rfl
    have hother {p : ℕ} (hp : p ≠ x.kernel.cur) :
        (x.record (.exitBegin status) k').exits p = x.exits p := Function.update_of_ne hp ..
    have hnone : x.exits x.kernel.cur = none := by
      by_contra hne
      cases hin.symm.trans ((h.exits _).mp hne)
    have hrel (p : ℕ) : (x.record (.exitBegin status) k').released p = x.released p := by
      by_cases hp : p = x.kernel.cur
      · rw [Traced.released_record, if_neg]
        rintro ⟨-, hnone⟩
        rw [hp, hu] at hnone
        cases hnone
      · exact (hkept p hp).released
    refine ⟨hbase, fun p => ?_, fun p ex hp hp' => ?_, fun p v hv => ?_, fun p hp => ?_, ?_, ?_,
      fun p => ?_⟩
    · by_cases heq : p = x.kernel.cur
      · subst heq
        exact ⟨fun _ => hin', fun _ => by rw [hself]; nofun⟩
      · rw [hother heq]
        exact (h.exits p).trans (hkept p heq).exit.symm
    · by_cases heq : p = x.kernel.cur
      · subst heq
        refine ⟨u, hu, ?_, hst⟩
        rw [hpid, hstatus]
        exact (Option.some.inj (hself.symm.trans hp)).symm
      · rw [hother heq] at hp
        exact h.stored_kept (hkept p heq) hp ((hrel p).symm.trans hp')
    · rw [hrel]
      by_cases heq : p = x.kernel.cur
      · exact h.present p t (heq ▸ ht)
      · exact h.present_kept (hkept p heq) hv
    · rw [hrel] at hp
      exact lt_of_lt_of_le (h.gone p hp) hstep.nextPcb
    · rw [hreaps]
      exact h.once
    · rw [hreaps]
      intro r hr
      obtain ⟨p, hp, hexit, hparent⟩ := h.returned r hr
      refine ⟨p, hp, ?_, hparent⟩
      rw [hother, hexit]
      rintro rfl
      cases hnone.symm.trans hexit
    · rw [hreaps, hrel]
      exact h.released p
  | reaped he hu hreap hin hu' hin' hkept =>
    rename_i c u
    subst he
    have hexits : (x.record .wait k').exits = x.exits := rfl
    have hreaps : (x.record .wait k').reaps =
        x.reaps ++ [⟨some c, some x.kernel.cur, x.kernel.cur, u.pid, u.exitStatus⟩] := by
      unfold Traced.record
      rw [hreap]
      rfl
    have hzero : x.released c = 0 := h.present c u hu
    have hself : (x.record .wait k').released c = 1 := by
      rw [Traced.released_record, if_pos, hzero]
      rw [hu, hu']
      exact ⟨rfl, rfl⟩
    have hother {p : ℕ} (hp : p ≠ c) : (x.record .wait k').released p = x.released p :=
      (hkept p hp).released
    refine ⟨hbase, fun p => ?_, fun p ex hp hp' => ?_, fun p v hv => ?_, fun p hp => ?_, ?_, ?_,
      fun p => ?_⟩
    · rw [hexits]
      by_cases heq : p = c
      · subst heq
        exact ⟨fun _ => hin', fun _ => (h.exits p).mpr hin⟩
      · exact (h.exits p).trans (hkept p heq).exit.symm
    · have heq : p ≠ c := by
        rintro rfl
        cases hself.symm.trans hp'
      exact h.stored_kept (hkept p heq) hp ((hother heq).symm.trans hp')
    · have heq : p ≠ c := by
        rintro rfl
        cases hu'.symm.trans hv
      rw [hother heq]
      exact h.present_kept (hkept p heq) hv
    · refine lt_of_lt_of_le ?_ hstep.nextPcb
      by_cases heq : p = c
      · exact heq ▸ h.base.sched.ready.lt_nextPcb hu
      · exact h.gone p (by rwa [hother heq] at hp)
    · have hnot : some c ∉ x.reaps.map Reap.child := by
        rw [← List.count_eq_zero, ← h.released, hzero]
      rw [hreaps, List.map_append]
      refine h.once.append (List.nodup_singleton _) ?_
      simpa using hnot
    · rw [hreaps, hexits]
      intro r hr
      rcases List.mem_append.mp hr with hr | hr
      · exact h.returned r hr
      · obtain rfl := List.mem_singleton.mp hr
        obtain ⟨ex, hex⟩ := Option.ne_none_iff_exists'.mp ((h.exits c).mpr hin)
        obtain ⟨v, hv, heq, -⟩ := h.stored c ex hex hzero
        obtain rfl := Option.some.inj (hu.symm.trans hv)
        exact ⟨c, rfl, hex.trans (congrArg some heq), rfl⟩
    · rw [hreaps, List.map_append, List.count_append]
      by_cases heq : p = c
      · subst heq
        rw [hself, ← h.released, hzero]
        simp
      · rw [hother heq, h.released]
        simp [Ne.symm heq]

end History

theorem ReapInv.reapSafe {x : Traced} (h : ReapInv x) : ReapSafe x where
  once := h.once
  returned := h.returned
  released := h.released
  kept p pid status hexit hrel := by
    obtain ⟨t, ht, heq, hst⟩ := h.stored p _ hexit hrel
    obtain ⟨rfl, rfl⟩ : pid = t.pid ∧ status = t.exitStatus := by simpa using heq
    have hp := (h.base.tree.listed p t ht).mpr hst
    refine ⟨hp, ⟨t, ht, rfl, rfl⟩, h.base.tree.pid.used p hp t ht,
      fun q hq u hu hpid => h.base.tree.pid.inj q hq p hp u t hu ht hpid, fun q hq => ?_⟩
    obtain ⟨-, -, hown, -⟩ := h.base.tree.reserved q t.pid hq
    exact hown p hp t ht rfl
  parent t ht hin := by
    obtain ⟨u, hu, hrun⟩ := h.base.sched.cur_running
    obtain rfl := Option.some.inj (ht.symm.trans hu)
    exact h.base.tree.parent_alive ht (h.base.tree.mem_of_running ht hrun) hin

theorem treeInv_boot (value : ℕ → UInt8) : TreeInv (Kernel.boot value) := by
  have hpcb (p : ℕ) (t : TaskStruct) (ht : (Kernel.boot value).threads.pcb p = some t) :
      p < 3 ∧ t.pid = p + 1 ∧ t.parentPid = -1 ∧ t.pgdir = (p == 0) ∧
        (t.status = taskReady ∨ t.status = taskRunning) := by
    match p with
    | 0 => obtain rfl := Option.some.inj ht; exact ⟨by omega, rfl, rfl, rfl, Or.inl rfl⟩
    | 1 => obtain rfl := Option.some.inj ht; exact ⟨by omega, rfl, rfl, rfl, Or.inr rfl⟩
    | 2 => obtain rfl := Option.some.inj ht; exact ⟨by omega, rfl, rfl, rfl, Or.inl rfl⟩
    | _ + 3 => cases ht
  have hmem (p : ℕ) : p ∈ (Kernel.boot value).threads.threadAllList ↔ p < 3 := by
    change p ∈ [0, 1, 2] ↔ _
    simp only [List.mem_cons, List.not_mem_nil, or_false]
    omega
  refine ⟨procInv_boot.1, fun p t ht => ?_, fun p hp => ?_, nofun, fun p t ht hst => ?_, nofun,
    fun p _ t ht hne => ?_, nofun, ⟨(hmem 0).mpr (by decide), _, rfl, rfl, rfl, rfl⟩, fun t ht => ?_⟩
  · obtain ⟨hlt, -, -, -, hst⟩ := hpcb p t ht
    refine ⟨fun _ hdied => ?_, fun _ => (hmem p).mpr hlt⟩
    rcases hst with hst | hst <;> cases hst.symm.trans hdied
  · have hlt := (hmem p).mp hp
    interval_cases p <;> exact ⟨_, rfl⟩
  · obtain ⟨-, -, -, -, hst'⟩ := hpcb p t ht
    rcases hst' with hst' | hst' <;> cases hst'.symm.trans hst
  · exact absurd (hpcb p t ht).2.2.1 hne
  · obtain ⟨-, -, -, hpg, -⟩ := hpcb _ t ht
    exact hpg

theorem reapInv_boot (value : ℕ → UInt8) : ReapInv (Traced.boot value) where
  base := ⟨schedInv_boot value, treeInv_boot value⟩
  exits _ := ⟨fun h => absurd rfl h, nofun⟩
  stored := nofun
  present _ _ _ := rfl
  gone _ h := absurd rfl h
  once := List.nodup_nil
  returned := nofun
  released _ := rfl

/-- In every run reaping is safe. -/
theorem reapSafe_of_run {value : ℕ → UInt8} {x : Traced} (h : Traced.Run value x) : ReapSafe x := by
  refine (h.invariant (reapInv_boot value) fun x e hI he => ?_).reapSafe
  have hsched := (e.run_schedInv hI.base.sched he.1).ensures
  have htree := e.run_treeStep hI.base he.1 he.2
  exact Traced.post_event.mpr ((hsched.and htree).mono fun _ _ h' => hI.record h'.1 h'.2)

/-- `init` forks a child, which exits with a status that `init` gets. -/
theorem reapSafe_of_run_reaped : ∃ x, Traced.Run (fun _ => 1) x ∧
    x.reaps = [⟨some 3, some 0, 0, 4, 7⟩] ∧ ReapSafe x := by
  have h : (Exec.runList Traced.event (fun x e => e.Admitted x.kernel ∧ e.BlocksForEvent)
      [.tick, .forkBegin .enough, .forkEnd .enough 4, .wait, .tick, .tick, .exitBegin 7, .exitEnd, .wait]
      (Traced.boot fun _ => 1)).any (fun x => x.reaps == [⟨some 3, some 0, 0, 4, 7⟩]) = true := by
    decide +kernel
  obtain ⟨x, hrun, hreaps⟩ := Exec.Run.exists_of_any h
  exact ⟨x, hrun, by simpa using hreaps, reapSafe_of_run hrun⟩

end Winx
