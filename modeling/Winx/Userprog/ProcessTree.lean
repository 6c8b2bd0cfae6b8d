import Winx.Userprog.Scheduler

/-! # The process tree

Every thread on the list that has a parent has one that is a process on the
list and has not begun to exit: `sys_exit` gives the children away before it can
block, and `init`, which has no parent, does not exit. So the parent that an
exiting process looks up is there.
-/

namespace Winx

open TaskStatus

/-- The invariant of the process tree. -/
structure TreeInv (k : Kernel) : Prop where
  pid : PidInv k.threads
  listed : ∀ p t, k.threads.pcb p = some t → (p ∈ k.threads.threadAllList ↔ t.status ≠ taskDied)
  present : ∀ p ∈ k.threads.threadAllList, ∃ t, k.threads.pcb p = some t
  syscall : ∀ p t, k.inSyscall p ≠ none → k.threads.pcb p = some t → t.pgdir = true
  hanging : ∀ p t, k.threads.pcb p = some t → t.status = taskHanging → k.inSyscall p = some .exit
  reserved : ∀ p pid, k.inSyscall p = some (.fork pid) →
    0 < pid ∧ k.threads.pidBitmap.scanTest (pid - 1) = true ∧
    (∀ q ∈ k.threads.threadAllList, ∀ u, k.threads.pcb q = some u → u.pid ≠ pid) ∧
    ∀ q, k.inSyscall q = some (.fork pid) → q = p
  parent : ∀ p ∈ k.threads.threadAllList, ∀ t, k.threads.pcb p = some t → t.parentPid ≠ -1 →
    ∃ q ∈ k.threads.threadAllList, ∃ u, k.threads.pcb q = some u ∧ (u.pid : Int) = t.parentPid ∧
      u.pgdir = true ∧ k.inSyscall q ≠ some .exit
  exiting : ∀ p t, k.inSyscall p = some .exit → k.threads.pcb p = some t → t.parentPid ≠ -1
  init : 0 ∈ k.threads.threadAllList ∧
    ∃ t, k.threads.pcb 0 = some t ∧ t.pid = 1 ∧ t.parentPid = -1 ∧ t.pgdir = true
  main : ∀ t, k.threads.pcb k.threads.mainThread = some t → t.pgdir = false

/-- Threads with the same process tree: the statuses may differ, but nobody died, and only a
process that exits came to hang. -/
structure TreeRel (k : Kernel) (s : Threads) : Prop where
  allList : s.threadAllList = k.threads.threadAllList
  nextPcb : s.nextPcb = k.threads.nextPcb
  pidBitmap : s.pidBitmap = k.threads.pidBitmap
  mainThread : s.mainThread = k.threads.mainThread
  none : ∀ p, k.threads.pcb p = none → s.pcb p = none
  pcb : ∀ p t, k.threads.pcb p = some t → ∃ u, s.pcb p = some u ∧ u.pid = t.pid ∧
    u.parentPid = t.parentPid ∧ u.pgdir = t.pgdir ∧ u.exitStatus = t.exitStatus ∧
    (u.status = taskDied ↔ t.status = taskDied) ∧
    (u.status = taskHanging → t.status = taskHanging ∨ k.inSyscall p = some .exit)

section Relations

variable {k k' : Kernel} {s s' : Threads} {p : ℕ} {t u : TaskStruct}

theorem TreeRel.back (h : TreeRel k s) (hu : s.pcb p = some u) :
    ∃ t, k.threads.pcb p = some t ∧ u.pid = t.pid ∧
      u.parentPid = t.parentPid ∧ u.pgdir = t.pgdir ∧ u.exitStatus = t.exitStatus ∧
      (u.status = taskDied ↔ t.status = taskDied) ∧
      (u.status = taskHanging → t.status = taskHanging ∨ k.inSyscall p = some .exit) := by
  cases ht : k.threads.pcb p with
  | none =>
    rw [h.none p ht] at hu
    cases hu
  | some t =>
    obtain ⟨v, hv, hrel⟩ := h.pcb p t ht
    obtain rfl := Option.some.inj (hu.symm.trans hv)
    exact ⟨t, rfl, hrel⟩

theorem TreeRel.trans (h : TreeRel k s) (h' : TreeRel (k.setThreads s) s') : TreeRel k s' := by
  refine ⟨h'.1.trans h.1, h'.2.trans h.2, h'.3.trans h.3, h'.4.trans h.4,
    fun p hp => h'.none p (h.none p hp), fun p t ht => ?_⟩
  obtain ⟨u, hu, h₁, h₂, h₃, h₄, h₅, h₆⟩ := h.pcb p t ht
  obtain ⟨v, hv, h₁', h₂', h₃', h₄', h₅', h₆'⟩ := h'.pcb p u hu
  refine ⟨v, hv, h₁'.trans h₁, h₂'.trans h₂, h₃'.trans h₃, h₄'.trans h₄, h₅'.trans h₅, ?_⟩
  exact fun hst => (h₆' hst).elim h₆ Or.inr

/-- Changing one PCB. -/
theorem TreeRel.of_update (ht : k.threads.pcb p = some t) (hpid : u.pid = t.pid)
    (hparent : u.parentPid = t.parentPid) (hpgdir : u.pgdir = t.pgdir)
    (hexit : u.exitStatus = t.exitStatus) (hdied : u.status = taskDied ↔ t.status = taskDied)
    (hhang : u.status = taskHanging → t.status = taskHanging ∨ k.inSyscall p = some .exit)
    (hall : s.threadAllList = k.threads.threadAllList) (hnext : s.nextPcb = k.threads.nextPcb)
    (hbits : s.pidBitmap = k.threads.pidBitmap) (hmain : s.mainThread = k.threads.mainThread)
    (hpcb : s.pcb = Function.update k.threads.pcb p (some u)) : TreeRel k s := by
  refine ⟨hall, hnext, hbits, hmain, fun q hq => ?_, fun q v hv => ?_⟩
  · have hne : q ≠ p := fun hne => nomatch (hne ▸ ht).symm.trans hq
    rw [hpcb, Function.update_of_ne hne, hq]
  · rw [hpcb]
    by_cases hq : q = p
    · subst hq
      obtain rfl := Option.some.inj (ht.symm.trans hv)
      exact ⟨u, Function.update_self .., hpid, hparent, hpgdir, hexit, hdied, hhang⟩
    · exact ⟨v, by rw [Function.update_of_ne hq, hv], rfl, rfl, rfl, rfl, Iff.rfl, Or.inl⟩

/-- Scheduling, and blocking for an event. -/
theorem Shuffled.treeRel (hidle : ∀ t, k.threads.pcb k.threads.idleThread = some t →
    t.status ≠ taskDied) (hrel : Shuffled k.threads s) : TreeRel k s := by
  refine ⟨hrel.1, hrel.2, hrel.3, hrel.4, hrel.none, fun p t ht => ?_⟩
  obtain ⟨st, hst, hmove⟩ := hrel.pcb p t ht
  refine ⟨_, hst, rfl, rfl, rfl, rfl, ?_⟩
  rw [TaskStruct.setStatus_status]
  rcases hmove with rfl | ⟨hold, hnew⟩
  · exact ⟨Iff.rfl, Or.inl⟩
  · have hlive : st ≠ taskDied ∧ st ≠ taskHanging := by
      rcases hnew with rfl | rfl | rfl <;> decide
    have hdied : t.status ≠ taskDied := by
      rcases hold with hold | rfl
      · rcases hold with hst | hst | hst <;> rw [hst] <;> decide
      · exact hidle t ht
    exact ⟨⟨fun h => absurd h hlive.1, fun h => absurd h hdied⟩, fun h => absurd h hlive.2⟩

/-- The tree stays in order. -/
theorem TreeInv.of_treeRel (h : TreeInv k) (hrel : TreeRel k k'.threads)
    (hsyscall : k'.inSyscall = k.inSyscall) : TreeInv k' where
  pid := by
    have hpcb : PcbRel (fun t u => u.pid = t.pid) k.threads k'.threads := by
      refine ⟨hrel.allList, hrel.nextPcb, hrel.pidBitmap, fun p u hu => ?_⟩
      obtain ⟨t, ht, hpid, -⟩ := hrel.back hu
      exact ⟨t, ht, hpid⟩
    exact h.pid.of_pcbRel hpcb fun _ _ hpid => hpid
  listed p u hu := by
    obtain ⟨t, ht, -, -, -, -, hdied, -⟩ := hrel.back hu
    rw [hrel.allList, h.listed p t ht, Ne, Ne, hdied]
  present p hp := by
    obtain ⟨t, ht⟩ := h.present p (hrel.allList ▸ hp)
    obtain ⟨u, hu, -⟩ := hrel.pcb p t ht
    exact ⟨u, hu⟩
  syscall p u hin hu := by
    obtain ⟨t, ht, -, -, hpg, -⟩ := hrel.back hu
    rw [hpg]
    exact h.syscall p t (hsyscall ▸ hin) ht
  hanging p u hu hst := by
    obtain ⟨t, ht, -, -, -, -, -, hhang⟩ := hrel.back hu
    rw [hsyscall]
    exact (hhang hst).elim (h.hanging p t ht) id
  reserved p pid hin := by
    obtain ⟨hpos, hbit, hown, hone⟩ := h.reserved p pid (hsyscall ▸ hin)
    refine ⟨hpos, hrel.pidBitmap ▸ hbit, fun q hq u hu => ?_, hsyscall ▸ hone⟩
    obtain ⟨t, ht, hpid, -⟩ := hrel.back hu
    rw [hpid]
    exact hown q (hrel.allList ▸ hq) t ht
  parent p hp u hu hne := by
    obtain ⟨t, ht, -, hparent, -⟩ := hrel.back hu
    obtain ⟨q, hq, v, hv, hvpid, hpg, hin⟩ := h.parent p (hrel.allList ▸ hp) t ht (hparent ▸ hne)
    obtain ⟨v', hv', hpid', -, hpg', -⟩ := hrel.pcb q v hv
    exact ⟨q, hrel.allList ▸ hq, v', hv', by rw [hpid', hvpid, hparent], hpg' ▸ hpg, hsyscall ▸ hin⟩
  exiting p u hin hu := by
    obtain ⟨t, ht, -, hparent, -⟩ := hrel.back hu
    rw [hparent]
    exact h.exiting p t (hsyscall ▸ hin) ht
  init := by
    obtain ⟨h0, t, ht, hpid, hparent, hpg⟩ := h.init
    obtain ⟨u, hu, hpid', hparent', hpg', -⟩ := hrel.pcb 0 t ht
    exact ⟨hrel.allList ▸ h0, u, hu, hpid'.trans hpid, hparent'.trans hparent, hpg'.trans hpg⟩
  main u hu := by
    rw [hrel.mainThread] at hu
    obtain ⟨t, ht, -, -, hpg, -⟩ := hrel.back hu
    rw [hpg]
    exact h.main t ht

end Relations

/-- In the middle of `sys_exit`, the parent is there and neither hangs nor died. -/
theorem TreeInv.parent_alive {k : Kernel} {t : TaskStruct} {p : ℕ} (h : TreeInv k)
    (ht : k.threads.pcb p = some t) (hp : p ∈ k.threads.threadAllList)
    (hin : k.inSyscall p = some .exit) :
    ∃ q u, pid2thread k.threads t.parentPid = some q ∧ k.threads.pcb q = some u ∧
      u.status ≠ taskHanging ∧ u.status ≠ taskDied := by
  obtain ⟨q, hq, u, hu, hpid, -, hnot⟩ := h.parent p hp t ht (h.exiting p t hin ht)
  cases hfind : pid2thread k.threads t.parentPid with
  | none =>
    have hmiss := Threads.traverse_eq_none hfind u (Threads.mem_threadAll.mpr ⟨q, hq, hu⟩)
    simp [hpid] at hmiss
  | some r =>
    obtain ⟨hr, v, hv, hmatch⟩ := Threads.traverse_eq_some hfind
    have hvpid : (v.pid : Int) = t.parentPid := by simpa using hmatch
    obtain rfl : q = r := h.pid.inj q hq r hr u v hu hv (by omega)
    obtain rfl := Option.some.inj (hu.symm.trans hv)
    exact ⟨q, u, rfl, hu, fun hst => hnot (h.hanging q u hu hst), (h.listed q u hu).mp hq⟩

section Steps

variable {k : Kernel} {s : Threads} {p pid : ℕ} {t : TaskStruct}

/-- A thread that runs is on the list. -/
theorem TreeInv.mem_of_running (h : TreeInv k) (ht : k.threads.pcb p = some t)
    (hst : t.status = taskRunning) : p ∈ k.threads.threadAllList := by
  rw [h.listed p t ht, hst]
  decide

/-- The running process took a number for a child. -/
theorem TreeInv.forkBegin (h : TreeInv k) (ht : k.threads.pcb p = some t) (hpg : t.pgdir = true)
    (hst : t.status = taskRunning) (hin : k.inSyscall p = none) (hpos : 0 < pid)
    (hfree : k.threads.pidBitmap.scanTest (pid - 1) = false) :
    TreeInv ((k.setThreads (k.threads.setPidBitmap
      (k.threads.pidBitmap.set (pid - 1) true))).setInSyscall p (some (.fork pid))) := by
  have hexit {q : ℕ} (hq : q ≠ p) : (Function.update k.inSyscall p (some (.fork pid))) q =
      k.inSyscall q := Function.update_of_ne hq ..
  have hself : (Function.update k.inSyscall p (some (.fork pid))) p = some (.fork pid) :=
    Function.update_self ..
  refine ⟨h.pid.of_pidBitmap _, h.listed, h.present, fun q u hq hu => ?_, fun q u hu hhang => ?_,
    fun q n hq => ?_, fun q hq u hu hne => ?_, fun q u hq hu => ?_, h.init, h.main⟩
  · by_cases heq : q = p
    · subst heq
      obtain rfl := Option.some.inj (ht.symm.trans hu)
      exact hpg
    · exact h.syscall q u ((hexit heq) ▸ hq) hu
  · have heq : q ≠ p := by
      rintro rfl
      obtain rfl := Option.some.inj (ht.symm.trans hu)
      rw [hst] at hhang
      cases hhang
    exact (hexit heq).trans (h.hanging q u hu hhang)
  · have hbit (i : ℕ) : (k.threads.pidBitmap.set (pid - 1) true).scanTest i =
        if i = pid - 1 then true else k.threads.pidBitmap.scanTest i := Bitmap.scanTest_set ..
    by_cases heq : q = p
    · subst heq
      obtain rfl : pid = n := by simpa using hself.symm.trans hq
      refine ⟨hpos, by rw [Kernel.setInSyscall_threads, Kernel.setThreads_threads,
        Threads.setPidBitmap_pidBitmap, hbit, if_pos rfl], fun r hr u hu hupid => ?_, fun r hr => ?_⟩
      · have hused := h.pid.used r hr u hu
        rw [hupid, hfree] at hused
        cases hused
      · by_contra hne
        obtain ⟨-, hused, -⟩ := h.reserved r pid ((hexit hne).symm.trans hr)
        rw [hfree] at hused
        cases hused
    · obtain ⟨hnpos, hnbit, hown, hone⟩ := h.reserved q n ((hexit heq).symm.trans hq)
      refine ⟨hnpos, ?_, hown, fun r hr => ?_⟩
      · rw [Kernel.setInSyscall_threads, Kernel.setThreads_threads,
          Threads.setPidBitmap_pidBitmap, hbit, hnbit, ite_self]
      · by_cases hne : r = p
        · subst hne
          obtain rfl : pid = n := by simpa using hself.symm.trans hr
          rw [hfree] at hnbit
          cases hnbit
        · exact hone r ((hexit hne).symm.trans hr)
  · obtain ⟨r, hr, v, hv, hvpid, hvpg, hrin⟩ := h.parent q hq u hu hne
    refine ⟨r, hr, v, hv, hvpid, hvpg, fun hrexit => ?_⟩
    by_cases heq : r = p
    · subst heq
      cases hself.symm.trans hrexit
    · exact hrin ((hexit heq).symm.trans hrexit)
  · by_cases heq : q = p
    · subst heq
      cases hself.symm.trans hq
    · exact h.exiting q u ((hexit heq).symm.trans hq) hu

/-- The number of a fork is no longer taken note of. -/
theorem TreeInv.forgetFork (h : TreeInv k) (hin : k.inSyscall p ≠ some .exit) :
    TreeInv (k.setInSyscall p none) := by
  have hof {q : ℕ} {o : InSyscall} (hq : (k.setInSyscall p none).inSyscall q = some o) :
      q ≠ p ∧ k.inSyscall q = some o := by
    by_cases heq : q = p
    · subst heq
      cases (Function.update_self ..).symm.trans hq
    · exact ⟨heq, (Function.update_of_ne heq ..).symm.trans hq⟩
  refine ⟨h.pid, h.listed, h.present, fun q u hq hu => ?_, fun q u hu hhang => ?_,
    fun q n hq => ?_, fun q hq u hu hne => ?_, fun q u hq hu => ?_, h.init, h.main⟩
  · obtain ⟨o, ho⟩ := Option.ne_none_iff_exists'.mp hq
    exact h.syscall q u (by rw [(hof ho).2]; nofun) hu
  · have hexit := h.hanging q u hu hhang
    have hne : q ≠ p := fun heq => hin (heq ▸ hexit)
    exact (Function.update_of_ne hne ..).trans hexit
  · obtain ⟨hpos, hbit, hown, hone⟩ := h.reserved q n (hof hq).2
    exact ⟨hpos, hbit, hown, fun r hr => hone r (hof hr).2⟩
  · obtain ⟨r, hr, v, hv, hvpid, hvpg, hrin⟩ := h.parent q hq u hu hne
    exact ⟨r, hr, v, hv, hvpid, hvpg, fun hrexit => hrin (hof hrexit).2⟩
  · exact h.exiting q u (hof hq).2 hu

/-- The running process has a new child, with a number that no other thread has or will have. -/
theorem TreeInv.forked (h : TreeInv k) (ht : k.threads.pcb p = some t)
    (hp : p ∈ k.threads.threadAllList) (hpg : t.pgdir = true) (hin : k.inSyscall p ≠ some .exit)
    (hfresh : ∀ q, k.threads.nextPcb ≤ q → k.threads.pcb q = none ∧ k.inSyscall q = none)
    (hmain : k.threads.mainThread < k.threads.nextPcb) (hpos : 0 < pid)
    (hused : k.threads.pidBitmap.scanTest (pid - 1) = true)
    (hown : ∀ q ∈ k.threads.threadAllList, ∀ u, k.threads.pcb q = some u → u.pid ≠ pid)
    (hfork : ∀ q, k.inSyscall q ≠ some (.fork pid)) :
    TreeInv (k.setThreads (k.threads.forked t pid)) := by
  have hself : (k.threads.forked t pid).pcb k.threads.nextPcb = some (t.forkChild pid) :=
    Function.update_self ..
  have hold {q : ℕ} {u : TaskStruct} (hu : k.threads.pcb q = some u) :
      q ≠ k.threads.nextPcb ∧ (k.threads.forked t pid).pcb q = some u := by
    have hne : q ≠ k.threads.nextPcb := by
      rintro rfl
      cases (hfresh _ le_rfl).1.symm.trans hu
    exact ⟨hne, (Function.update_of_ne hne ..).trans hu⟩
  have hcases {q : ℕ} {u : TaskStruct} (hu : (k.threads.forked t pid).pcb q = some u) :
      q = k.threads.nextPcb ∧ u = t.forkChild pid ∨
        q ≠ k.threads.nextPcb ∧ k.threads.pcb q = some u := by
    by_cases hq : q = k.threads.nextPcb
    · subst hq
      exact Or.inl ⟨rfl, (Option.some.inj (hself.symm.trans hu)).symm⟩
    · exact Or.inr ⟨hq, (Function.update_of_ne hq ..).symm.trans hu⟩
  have hmem {q : ℕ} : q ∈ (k.threads.forked t pid).threadAllList ↔
      q ∈ k.threads.threadAllList ∨ q = k.threads.nextPcb := by
    simp [Threads.forked]
  refine ⟨?_, fun q u hu => ?_, fun q hq => ?_, fun q u hq hu => ?_, fun q u hu hhang => ?_,
    fun q n hq => ?_, fun q hq u hu hne => ?_, fun q u hq hu => ?_, ?_, fun u hu => ?_⟩
  · exact h.pid.append (t := t.forkChild pid) hpos hown rfl rfl (fun _ => id) hused rfl
  · rcases hcases hu with ⟨rfl, rfl⟩ | ⟨hq, hu⟩
    · exact ⟨fun _ => nofun, fun _ => hmem.mpr (Or.inr rfl)⟩
    · exact hmem.trans ((or_iff_left hq).trans (h.listed q u hu))
  · rcases hmem.mp hq with hq | rfl
    · obtain ⟨u, hu⟩ := h.present q hq
      exact ⟨u, (hold hu).2⟩
    · exact ⟨_, hself⟩
  · rcases hcases hu with ⟨rfl, rfl⟩ | ⟨-, hu⟩
    · exact hpg
    · exact h.syscall q u hq hu
  · rcases hcases hu with ⟨rfl, rfl⟩ | ⟨-, hu⟩
    · cases hhang
    · exact h.hanging q u hu hhang
  · obtain ⟨hnpos, hbit, hnown, hone⟩ := h.reserved q n hq
    refine ⟨hnpos, hbit, fun r hr u hu hupid => ?_, hone⟩
    rcases hcases hu with ⟨rfl, rfl⟩ | ⟨hne, hu⟩
    · obtain rfl : pid = n := hupid
      exact hfork q hq
    · exact hnown r ((hmem.mp hr).resolve_right hne) u hu hupid
  · rcases hcases hu with ⟨rfl, rfl⟩ | ⟨hqn, hu⟩
    · exact ⟨p, hmem.mpr (Or.inl hp), t, (hold ht).2, rfl, hpg, hin⟩
    · obtain ⟨r, hr, v, hv, hrest⟩ := h.parent q ((hmem.mp hq).resolve_right hqn) u hu hne
      exact ⟨r, hmem.mpr (Or.inl hr), v, (hold hv).2, hrest⟩
  · rcases hcases hu with ⟨rfl, rfl⟩ | ⟨-, hu⟩
    · cases (hfresh _ le_rfl).2.symm.trans hq
    · exact h.exiting q u hq hu
  · obtain ⟨h0, u, hu, hrest⟩ := h.init
    exact ⟨hmem.mpr (Or.inl h0), u, (hold hu).2, hrest⟩
  · rcases hcases hu with ⟨heq, -⟩ | ⟨-, hu⟩
    · exact absurd heq hmain.ne
    · exact h.main u hu

/-- The PCBs after the children of the running process are adopted. -/
theorem Threads.orphaned_back (status : Int8) {q : ℕ} {u' : TaskStruct}
    (ht : s.pcb s.cur = some t) (hu' : (s.orphaned t status).pcb q = some u') :
    ∃ u, s.pcb q = some u ∧ u'.pid = u.pid ∧ u'.status = u.status ∧ u'.pgdir = u.pgdir ∧
      u'.exitStatus = (if q = s.cur then status else u.exitStatus) ∧
      u'.parentPid = if q ∈ s.threadAllList ∧ u.parentPid = t.pid then 1 else u.parentPid := by
  rw [Threads.orphaned_pcb ht] at hu'
  cases hu : s.pcb q with
  | none =>
    rw [hu] at hu'
    cases hu'
  | some u =>
    rw [hu] at hu'
    obtain rfl := Option.some.inj hu'
    refine ⟨u, rfl, ?_⟩
    unfold initAdoptAChild
    split_ifs with h₁ h₂ h₃ h₄ h₅ <;> simp_all

theorem Threads.orphaned_some (status : Int8) {q : ℕ} {u : TaskStruct}
    (ht : s.pcb s.cur = some t) (hu : s.pcb q = some u) :
    ∃ u', (s.orphaned t status).pcb q = some u' := by
  rw [Threads.orphaned_pcb ht, hu]
  exact ⟨_, rfl⟩

/-- The running process gave its children away and exits. -/
theorem TreeInv.exitBegin (h : TreeInv k) (ht : k.threads.pcb k.cur = some t)
    (hpg : t.pgdir = true) (hst : t.status = taskRunning)
    (hparent : t.parentPid ≠ -1) (status : Int8) :
    TreeInv ((k.setThreads (k.threads.orphaned t status)).setInSyscall k.cur (some .exit)) := by
  have hcur : k.cur ∈ k.threads.threadAllList := h.mem_of_running ht hst
  have hself : (Function.update k.inSyscall k.cur (some .exit)) k.cur = some .exit :=
    Function.update_self ..
  have hother {q : ℕ} (hq : q ≠ k.cur) : (Function.update k.inSyscall k.cur (some .exit)) q =
      k.inSyscall q := Function.update_of_ne hq ..
  have hback {q : ℕ} {u : TaskStruct} (hu : (k.threads.orphaned t status).pcb q = some u) :=
    Threads.orphaned_back status ht hu
  obtain ⟨h0, t₀, ht₀, hpid₀, hparent₀, hpg₀⟩ := h.init
  have hne₀ : 0 ≠ k.cur := by
    intro heq
    obtain rfl := Option.some.inj ((heq ▸ ht₀).symm.trans ht)
    exact hparent hparent₀
  refine ⟨?_, fun q u hu => ?_, fun q hq => ?_, fun q u hq hu => ?_, fun q u hu hhang => ?_,
    fun q n hq => ?_, fun q hq u hu hne => ?_, fun q u hq hu => ?_, ⟨h0, ?_⟩, fun u hu => ?_⟩
  · have hrel : PcbRel (fun t u => u.pid = t.pid) k.threads (k.threads.orphaned t status) := by
      refine ⟨rfl, rfl, rfl, fun q u hu => ?_⟩
      obtain ⟨v, hv, hpid, -⟩ := hback hu
      exact ⟨v, hv, hpid⟩
    exact h.pid.of_pcbRel hrel fun _ _ hpid => hpid
  · obtain ⟨v, hv, -, hvst, -⟩ := hback hu
    rw [hvst]
    exact h.listed q v hv
  · obtain ⟨u, hu⟩ := h.present q hq
    exact Threads.orphaned_some status ht hu
  · obtain ⟨v, hv, -, -, hvpg, -⟩ := hback hu
    rw [hvpg]
    by_cases heq : q = k.cur
    · subst heq
      obtain rfl := Option.some.inj (ht.symm.trans hv)
      exact hpg
    · exact h.syscall q v (hother heq ▸ hq) hv
  · obtain ⟨v, hv, -, hvst, -⟩ := hback hu
    by_cases heq : q = k.cur
    · exact heq ▸ hself
    · exact (hother heq).trans (h.hanging q v hv (hvst ▸ hhang))
  · have hold {r m : ℕ} (hr : (Function.update k.inSyscall k.cur (some .exit)) r =
        some (.fork m)) : k.inSyscall r = some (.fork m) := by
      by_cases heq : r = k.cur
      · subst heq
        cases hself.symm.trans hr
      · exact (hother heq).symm.trans hr
    obtain ⟨hpos, hbit, hown, hone⟩ := h.reserved q n (hold hq)
    refine ⟨hpos, hbit, fun r hr u hu => ?_, fun r hr => hone r (hold hr)⟩
    obtain ⟨v, hv, hpid, -⟩ := hback hu
    rw [hpid]
    exact hown r hr v hv
  · obtain ⟨v, hv, -, -, -, -, hvparent⟩ := hback hu
    by_cases hchild : v.parentPid = t.pid
    · -- a child of the process that exits is a child of `init` now
      rw [if_pos ⟨hq, hchild⟩] at hvparent
      obtain ⟨t₀', ht₀'⟩ := Threads.orphaned_some status ht ht₀
      obtain ⟨w, hw, hwpid, -, hwpg, -⟩ := hback ht₀'
      obtain rfl := Option.some.inj (ht₀.symm.trans hw)
      refine ⟨0, h0, t₀', ht₀', by rw [hwpid, hpid₀, hvparent]; rfl, hwpg.trans hpg₀, ?_⟩
      intro hexit
      exact h.exiting 0 t₀ ((hother hne₀).symm.trans hexit) ht₀ hparent₀
    · rw [if_neg fun hc => hchild hc.2] at hvparent
      obtain ⟨r, hr, w, hw, hwpid, hwpg, hrin⟩ := h.parent q hq v hv (hvparent ▸ hne)
      obtain ⟨w', hw'⟩ := Threads.orphaned_some status ht hw
      obtain ⟨w₀, hw₀, hwpid', -, hwpg', -⟩ := hback hw'
      obtain rfl := Option.some.inj (hw.symm.trans hw₀)
      have hrne : r ≠ k.cur := by
        rintro rfl
        obtain rfl := Option.some.inj (ht.symm.trans hw)
        exact hchild hwpid.symm
      exact ⟨r, hr, w', hw', by rw [hwpid', hvparent, hwpid], hwpg'.trans hwpg,
        fun hexit => hrin ((hother hrne).symm.trans hexit)⟩
  · obtain ⟨v, hv, -, -, -, -, hvparent⟩ := hback hu
    have hvne : v.parentPid ≠ -1 := by
      by_cases heq : q = k.cur
      · subst heq
        obtain rfl := Option.some.inj (ht.symm.trans hv)
        exact hparent
      · exact h.exiting q v ((hother heq).symm.trans hq) hv
    rw [hvparent]
    split
    · decide
    · exact hvne
  · obtain ⟨t₀', ht₀'⟩ := Threads.orphaned_some status ht ht₀
    obtain ⟨w, hw, hwpid, -, hwpg, -, hwparent⟩ := hback ht₀'
    obtain rfl := Option.some.inj (ht₀.symm.trans hw)
    refine ⟨t₀', ht₀', hwpid.trans hpid₀, ?_, hwpg.trans hpg₀⟩
    rw [hwparent, if_neg, hparent₀]
    rintro ⟨-, hc⟩
    rw [hparent₀] at hc
    omega
  · obtain ⟨v, hv, -, -, hvpg, -⟩ := hback hu
    rw [hvpg]
    exact h.main v hv

/-- A thread that is nobody's parent goes away. -/
theorem TreeInv.unlisted (h : TreeInv k) (ht : k.threads.pcb p = some t)
    (hp : p ∈ k.threads.threadAllList) (hnot : t.pgdir = false ∨ k.inSyscall p = some .exit)
    {o : Option TaskStruct} (ho : o = none ∨ o = some (t.setStatus taskDied)) :
    TreeInv (k.setThreads (k.threads.unlisted p t o)) := by
  have hself : (k.threads.unlisted p t o).pcb p = o := Function.update_self ..
  have hother {q : ℕ} (hq : q ≠ p) : (k.threads.unlisted p t o).pcb q = k.threads.pcb q :=
    Function.update_of_ne hq ..
  have hcases {q : ℕ} {u : TaskStruct} (hu : (k.threads.unlisted p t o).pcb q = some u) :
      q = p ∧ u = t.setStatus taskDied ∨ q ≠ p ∧ k.threads.pcb q = some u := by
    by_cases hq : q = p
    · subst hq
      rw [hself] at hu
      rcases ho with rfl | rfl
      · cases hu
      · exact Or.inl ⟨rfl, (Option.some.inj hu).symm⟩
    · exact Or.inr ⟨hq, (hother hq).symm.trans hu⟩
  have hmem {q : ℕ} : q ∈ (k.threads.unlisted p t o).threadAllList ↔
      q ≠ p ∧ q ∈ k.threads.threadAllList := h.pid.nodup.mem_erase_iff
  obtain ⟨h0, t₀, ht₀, hpid₀, hparent₀, hpg₀⟩ := h.init
  have hne₀ : 0 ≠ p := by
    rintro rfl
    obtain rfl := Option.some.inj (ht₀.symm.trans ht)
    rcases hnot with hpg | hexit
    · rw [hpg] at hpg₀
      cases hpg₀
    · exact h.exiting _ _ hexit ht hparent₀
  refine ⟨?_, fun q u hu => ?_, fun q hq => ?_, fun q u hq hu => ?_, fun q u hu hhang => ?_,
    fun q n hq => ?_, fun q hq u hu hne => ?_, fun q u hq hu => ?_, ?_, fun u hu => ?_⟩
  · exact h.pid.erase hp ht rfl rfl rfl fun q hq => hother hq
  · rcases hcases hu with ⟨rfl, rfl⟩ | ⟨hq, hu⟩
    · exact ⟨fun hq => absurd rfl (hmem.mp hq).1, fun hne => absurd rfl hne⟩
    · exact hmem.trans ((and_iff_right hq).trans (h.listed q u hu))
  · obtain ⟨hq, hq'⟩ := hmem.mp hq
    obtain ⟨u, hu⟩ := h.present q hq'
    exact ⟨u, (hother hq).trans hu⟩
  · rcases hcases hu with ⟨rfl, rfl⟩ | ⟨-, hu⟩
    · exact h.syscall q t hq ht
    · exact h.syscall q u hq hu
  · rcases hcases hu with ⟨rfl, rfl⟩ | ⟨-, hu⟩
    · cases hhang
    · exact h.hanging q u hu hhang
  · obtain ⟨hpos, hbit, hown, hone⟩ := h.reserved q n hq
    refine ⟨hpos, ?_, fun r hr u hu => ?_, hone⟩
    · have hpid : t.pid ≠ n := hown p hp t ht
      have hpidpos := h.pid.pos p hp t ht
      change (k.threads.pidBitmap.set (t.pid - 1) false).scanTest (n - 1) = true
      rw [Bitmap.scanTest_set, if_neg (by omega), hbit]
    · obtain ⟨hrp, hr'⟩ := hmem.mp hr
      exact hown r hr' u ((hother hrp).symm.trans hu)
  · obtain ⟨hqp, hq'⟩ := hmem.mp hq
    obtain ⟨r, hr, v, hv, hvpid, hvpg, hrin⟩ := h.parent q hq' u ((hother hqp).symm.trans hu) hne
    have hrp : r ≠ p := by
      rintro rfl
      obtain rfl := Option.some.inj (ht.symm.trans hv)
      rcases hnot with hpg | hexit
      · rw [hpg] at hvpg
        cases hvpg
      · exact hrin hexit
    exact ⟨r, hmem.mpr ⟨hrp, hr⟩, v, (hother hrp).trans hv, hvpid, hvpg, hrin⟩
  · rcases hcases hu with ⟨rfl, rfl⟩ | ⟨-, hu⟩
    · exact h.exiting q t hq ht
    · exact h.exiting q u hq hu
  · exact ⟨hmem.mpr ⟨hne₀, h0⟩, t₀, (hother hne₀).trans ht₀, hpid₀, hparent₀, hpg₀⟩
  · rcases hcases hu with ⟨heq, rfl⟩ | ⟨-, hu⟩
    · exact h.main t ((congrArg _ heq).trans ht)
    · exact h.main u hu

end Steps

end Winx
