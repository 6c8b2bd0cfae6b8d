import Winx.Userprog.WaitExit

/-! # No child exit is lost

A process that waits is woken when a child exits, so no process waits while a
child of it hangs. The exception are orphans: `init` adopts the children of a
process that exits, hanging ones included, but is woken only if it is the
parent of that process.
-/

namespace Winx

open TaskStatus

/-- No thread waits while a child of it hangs. -/
def NoLostExit (s : Threads) : Prop :=
  ∀ w ∈ s.threadAll, ∀ z ∈ s.threadAll,
    w.status = taskWaiting → z.status = taskHanging → z.parentPid ≠ w.pid

instance (s : Threads) : Decidable (NoLostExit s) := by unfold NoLostExit; infer_instance

/-- `init` waits, and the running process has a hanging child that `init` would adopt without
being woken. -/
def StrandsChild (s : Threads) : Prop :=
  ∃ cur ∈ s.pcb s.cur, cur.parentPid ≠ 1 ∧
    (∃ init ∈ s.threadAll, init.pid = 1 ∧ init.status = taskWaiting) ∧
    ∃ z ∈ s.threadAll, z.status = taskHanging ∧ z.parentPid = cur.pid

instance (s : Threads) : Decidable (StrandsChild s) := by unfold StrandsChild; infer_instance

/-- The numbers of the threads are distinct and taken from the pool. -/
structure PidInv (s : Threads) : Prop where
  fresh : ∀ p ∈ s.threadAllList, p < s.nextPcb
  nodup : s.threadAllList.Nodup
  pos : ∀ p ∈ s.threadAllList, ∀ t, s.pcb p = some t → 0 < t.pid
  used : ∀ p ∈ s.threadAllList, ∀ t, s.pcb p = some t → s.pidBitmap.scanTest (t.pid - 1) = true
  inj : ∀ p ∈ s.threadAllList, ∀ q ∈ s.threadAllList, ∀ t u,
    s.pcb p = some t → s.pcb q = some u → t.pid = u.pid → p = q

/-- Two PCBs of a thread whose status, if it changed, is neither waiting nor hanging now. -/
def Moved (t t' : TaskStruct) : Prop :=
  t'.pid = t.pid ∧ t'.parentPid = t.parentPid ∧
    (t'.status = t.status ∨ t'.status ≠ taskWaiting ∧ t'.status ≠ taskHanging)

/-- The lists and the pool are the same, and the PCBs are related by `R`. -/
structure PcbRel (R : TaskStruct → TaskStruct → Prop) (s s' : Threads) : Prop where
  allList : s'.threadAllList = s.threadAllList
  nextPcb : s'.nextPcb = s.nextPcb
  pidBitmap : s'.pidBitmap = s.pidBitmap
  pcb : ∀ p t', s'.pcb p = some t' → ∃ t, s.pcb p = some t ∧ R t t'

section Relations

variable {R R' : TaskStruct → TaskStruct → Prop} {s s' s'' : Threads} {p : ℕ} {t t' : TaskStruct}

theorem Moved.refl (t : TaskStruct) : Moved t t := ⟨rfl, rfl, Or.inl rfl⟩

theorem Moved.setStatus (t : TaskStruct) {status : TaskStatus} (hw : status ≠ taskWaiting)
    (hh : status ≠ taskHanging) : Moved t (t.setStatus status) :=
  ⟨rfl, rfl, Or.inr ⟨hw, hh⟩⟩

theorem Moved.inWait (t : TaskStruct) (b : Bool) : Moved t (t.setInWait b) :=
  ⟨rfl, rfl, Or.inl rfl⟩

theorem Moved.ready (t : TaskStruct) : Moved t (t.setStatus taskReady) :=
  .setStatus t (by decide) (by decide)

theorem Moved.running (t : TaskStruct) : Moved t (t.setStatus taskRunning) :=
  .setStatus t (by decide) (by decide)

theorem Moved.trans {t'' : TaskStruct} (h : Moved t t') (h' : Moved t' t'') : Moved t t'' := by
  obtain ⟨hpid, hparent, hstatus⟩ := h
  obtain ⟨hpid', hparent', hstatus'⟩ := h'
  refine ⟨hpid'.trans hpid, hparent'.trans hparent, ?_⟩
  rcases hstatus' with h' | h'
  · rwa [h']
  · exact Or.inr h'

theorem PcbRel.refl (s : Threads) : PcbRel Moved s s :=
  ⟨rfl, rfl, rfl, fun _ t ht => ⟨t, ht, .refl t⟩⟩

theorem PcbRel.trans (h : PcbRel Moved s s') (h' : PcbRel Moved s' s'') : PcbRel Moved s s'' := by
  refine ⟨h'.1.trans h.1, h'.2.trans h.2, h'.3.trans h.3, fun p t'' ht'' => ?_⟩
  obtain ⟨t', ht', hmoved'⟩ := h'.pcb p t'' ht''
  obtain ⟨t, ht, hmoved⟩ := h.pcb p t' ht'
  exact ⟨t, ht, hmoved.trans hmoved'⟩

/-- Changing one PCB relates it and leaves the others. -/
theorem PcbRel.of_update (hrefl : ∀ t, R t t) (ht : s.pcb p = some t) (h : R t t')
    (hall : s'.threadAllList = s.threadAllList) (hnext : s'.nextPcb = s.nextPcb)
    (hbits : s'.pidBitmap = s.pidBitmap)
    (hpcb : s'.pcb = Function.update s.pcb p (some t')) : PcbRel R s s' := by
  refine ⟨hall, hnext, hbits, fun q u hu => ?_⟩
  rw [hpcb, Function.update_apply] at hu
  split at hu
  · rename_i hq
    obtain rfl := Option.some.inj hu
    exact ⟨t, hq ▸ ht, h⟩
  · exact ⟨u, hu, hrefl u⟩

/-- Distinct numbers stay distinct as long as no number changes. -/
theorem PidInv.of_pcbRel (h : PidInv s) (hrel : PcbRel R s s') (hpid : ∀ t t', R t t' → t'.pid = t.pid) :
    PidInv s' where
  fresh := by rw [hrel.allList, hrel.nextPcb]; exact h.fresh
  nodup := by rw [hrel.allList]; exact h.nodup
  pos p hp t' ht' := by
    obtain ⟨t, ht, hR⟩ := hrel.pcb p t' ht'
    rw [hpid t t' hR]
    exact h.pos p (hrel.allList ▸ hp) t ht
  used p hp t' ht' := by
    obtain ⟨t, ht, hR⟩ := hrel.pcb p t' ht'
    rw [hpid t t' hR, hrel.pidBitmap]
    exact h.used p (hrel.allList ▸ hp) t ht
  inj p hp q hq t' u' ht' hu' heq := by
    obtain ⟨t, ht, hRt⟩ := hrel.pcb p t' ht'
    obtain ⟨u, hu, hRu⟩ := hrel.pcb q u' hu'
    rw [hpid t t' hRt, hpid u u' hRu] at heq
    exact h.inj p (hrel.allList ▸ hp) q (hrel.allList ▸ hq) t u ht hu heq

theorem Threads.mem_threadAll : t ∈ s.threadAll ↔ ∃ p ∈ s.threadAllList, s.pcb p = some t := by
  simp [Threads.threadAll]

theorem PcbRel.mem_threadAll (hrel : PcbRel R s s') (ht' : t' ∈ s'.threadAll) :
    ∃ t ∈ s.threadAll, R t t' := by
  obtain ⟨p, hp, hpt'⟩ := Threads.mem_threadAll.mp ht'
  obtain ⟨t, ht, hR⟩ := hrel.pcb p t' hpt'
  exact ⟨t, Threads.mem_threadAll.mpr ⟨p, hrel.allList ▸ hp, ht⟩, hR⟩

/-- A thread that waits or hangs did so before. -/
theorem PcbRel.status_eq (hrel : PcbRel Moved s s') (ht' : t' ∈ s'.threadAll)
    (hst : t'.status = taskWaiting ∨ t'.status = taskHanging) :
    ∃ t ∈ s.threadAll, t.pid = t'.pid ∧ t.parentPid = t'.parentPid ∧ t.status = t'.status := by
  obtain ⟨t, ht, hpid, hparent, hstatus⟩ := hrel.mem_threadAll ht'
  refine ⟨t, ht, hpid.symm, hparent.symm, ?_⟩
  rcases hstatus with h | ⟨hw, hh⟩
  · exact h.symm
  · rcases hst with hst | hst
    · exact absurd hst hw
    · exact absurd hst hh

/-- Scheduling loses no exit. -/
theorem NoLostExit.of_moved (h : NoLostExit s) (hrel : PcbRel Moved s s') : NoLostExit s' := by
  intro w' hw' z' hz' hwait hhang
  obtain ⟨w, hw, hwpid, -, hwst⟩ := hrel.status_eq hw' (Or.inl hwait)
  obtain ⟨z, hz, -, hzparent, hzst⟩ := hrel.status_eq hz' (Or.inr hhang)
  rw [← hwpid, ← hzparent]
  exact h w hw z hz (hwst.trans hwait) (hzst.trans hhang)

end Relations

/-- What holds between events: the numbers are distinct and no exit is lost. -/
def ProcInv (s : Threads) : Prop := PidInv s ∧ NoLostExit s

theorem ProcInv.of_moved {s s' : Threads} (h : ProcInv s) (hrel : PcbRel Moved s s') : ProcInv s' :=
  ⟨h.1.of_pcbRel hrel fun _ _ hR => hR.1, h.2.of_moved hrel⟩

section Specs

variable {s : Threads} {p : ℕ}

/-- `thread_unblock` makes a thread ready. -/
theorem threadUnblock_spec (p : ℕ) : Exec.Ensures (threadUnblock p) s fun _ s' =>
    PcbRel Moved s s' ∧ s'.cur = s.cur ∧ ∃ t, s'.pcb p = some t ∧ t.status = taskReady := by
  simp only [threadUnblock, derefPcb, storePcb, Exec.post_bind, Exec.post_get, post_deref,
    post_assert, Exec.post_modify]
  refine ⟨fun t ht => ⟨fun _ => ⟨fun _ => ⟨?_, rfl, ?_⟩, fun _ => trivial⟩, fun _ => trivial⟩,
    fun _ => trivial⟩
  · exact .of_update Moved.refl ht (Moved.ready t) rfl rfl rfl rfl
  · exact ⟨_, Function.update_self .., rfl⟩

/-- After `sys_exit` woke the parent, the parent does not wait. -/
theorem wakeParent_spec {q : ℕ} : Exec.Ensures (wakeParent q) s fun _ s' =>
    PcbRel Moved s s' ∧ s'.cur = s.cur ∧ ∃ t, s'.pcb q = some t ∧ t.status ≠ taskWaiting := by
  simp only [wakeParent, derefPcb, Exec.post_bind, Exec.post_get, post_deref, Exec.post_ite,
    Exec.post_pure]
  refine ⟨fun t ht => ⟨fun _ => ?_, fun hne => ⟨.refl s, trivial, t, ht, hne⟩⟩, fun _ => trivial⟩
  refine (threadUnblock_spec q).mono fun _ s' hpost => ?_
  obtain ⟨hrel, hcur, u, hu, hready⟩ := hpost
  exact ⟨hrel, hcur, u, hu, by rw [hready]; decide⟩

theorem preemptCur_spec : Exec.Ensures preemptCur s fun _ s' => PcbRel Moved s s' := by
  simp only [preemptCur, curThread, derefPcb, storePcb, Exec.post_bind, Exec.post_get, post_deref,
    Exec.post_ite, post_assert, Exec.post_modify, Exec.post_pure]
  refine ⟨fun t ht => ⟨fun _ => ⟨fun _ => ?_, fun _ => trivial⟩, fun _ => .refl s⟩, fun _ => trivial⟩
  exact .of_update Moved.refl ht (Moved.ready t) rfl rfl rfl rfl

theorem wakeIdle_spec : Exec.Ensures wakeIdle s fun _ s' => PcbRel Moved s s' := by
  simp only [wakeIdle, Exec.post_bind, Exec.post_get, Exec.post_ite, Exec.post_pure]
  exact ⟨fun _ => (threadUnblock_spec _).mono fun _ _ h => h.1, fun _ => .refl s⟩

theorem switchToNext_spec : Exec.Ensures switchToNext s fun _ s' => PcbRel Moved s s' := by
  simp only [switchToNext, Exec.post_bind, Exec.post_get]
  split
  · trivial
  · simp only [derefPcb, storePcb, Exec.post_bind, Exec.post_get, post_deref, Exec.post_modify]
    refine ⟨fun t ht => ?_, fun _ => trivial⟩
    exact .of_update Moved.refl ht (Moved.running t) rfl rfl rfl rfl

/-- `schedule` makes threads ready and one of them running. -/
theorem schedule_spec : Exec.Ensures schedule s fun _ s' => PcbRel Moved s s' := by
  refine preemptCur_spec.bind fun _ s₁ h₁ => ?_
  refine wakeIdle_spec.bind fun _ s₂ h₂ => ?_
  exact switchToNext_spec.mono fun _ _ h₃ => (h₁.trans h₂).trans h₃

/-- `thread_block` gives the running thread a status and schedules. -/
theorem threadBlock_spec {stat : TaskStatus} {P : Threads → Prop}
    (hP : ∀ s s', P s → PcbRel Moved s s' → P s')
    (h : ∀ t, s.pcb s.cur = some t → P (s.setPcb s.cur (some (t.setStatus stat)))) :
    Exec.Ensures (threadBlock stat) s fun _ s' => P s' := by
  simp only [threadBlock, curThread, derefPcb, storePcb, Exec.post_bind, Exec.post_get, post_deref,
    post_assert, Exec.post_modify]
  refine ⟨fun _ => ⟨fun t ht => ?_, fun _ => trivial⟩, fun _ => trivial⟩
  exact schedule_spec.mono fun _ _ hrel => hP _ _ (h t ht) hrel

end Specs

section Steps

variable {s s' : Threads} {p : ℕ} {t : TaskStruct}

/-- What is left of the list without one thread. -/
theorem PidInv.mem_erase (h : PidInv s) (hall : s'.threadAllList = s.threadAllList.erase p)
    (hpcb : ∀ q, q ≠ p → s'.pcb q = s.pcb q) {q : ℕ} (hq : q ∈ s'.threadAllList) :
    q ∈ s.threadAllList ∧ q ≠ p ∧ s'.pcb q = s.pcb q := by
  rw [hall, h.nodup.mem_erase_iff] at hq
  exact ⟨hq.2, hq.1, hpcb q hq.1⟩

/-- Taking a thread off the list and freeing its number keeps the numbers distinct. -/
theorem PidInv.erase (h : PidInv s) (hp : p ∈ s.threadAllList) (ht : s.pcb p = some t)
    (hall : s'.threadAllList = s.threadAllList.erase p) (hnext : s'.nextPcb = s.nextPcb)
    (hbits : s'.pidBitmap = s.pidBitmap.set (t.pid - 1) false)
    (hpcb : ∀ q, q ≠ p → s'.pcb q = s.pcb q) : PidInv s' := by
  have hmem {q : ℕ} := h.mem_erase hall hpcb (q := q)
  refine ⟨fun q hq => ?_, ?_, fun q hq u hu => ?_, fun q hq u hu => ?_,
    fun q hq r hr u v hu hv => ?_⟩
  · rw [hnext]
    exact h.fresh q (hmem hq).1
  · rw [hall]
    exact h.nodup.erase p
  · obtain ⟨hq, -, heq⟩ := hmem hq
    exact h.pos q hq u (heq ▸ hu)
  · obtain ⟨hq, hne, heq⟩ := hmem hq
    rw [heq] at hu
    have hupos := h.pos q hq u hu
    have htpos := h.pos p hp t ht
    have hdiff : u.pid ≠ t.pid := fun heq => hne (h.inj q hq p hp u t hu ht heq)
    rw [hbits, Bitmap.scanTest_set, if_neg (by omega)]
    exact h.used q hq u hu
  · obtain ⟨hq, -, heq⟩ := hmem hq
    obtain ⟨hr, -, heq'⟩ := hmem hr
    exact h.inj q hq r hr u v (heq ▸ hu) (heq' ▸ hv)

/-- Taking a thread off the list loses no exit. -/
theorem ProcInv.erase (h : ProcInv s) (hp : p ∈ s.threadAllList) (ht : s.pcb p = some t)
    (hall : s'.threadAllList = s.threadAllList.erase p) (hnext : s'.nextPcb = s.nextPcb)
    (hbits : s'.pidBitmap = s.pidBitmap.set (t.pid - 1) false)
    (hpcb : ∀ q, q ≠ p → s'.pcb q = s.pcb q) : ProcInv s' := by
  have hsub {w : TaskStruct} (hw : w ∈ s'.threadAll) : w ∈ s.threadAll := by
    obtain ⟨q, hq, hw⟩ := Threads.mem_threadAll.mp hw
    obtain ⟨hq, -, heq⟩ := h.1.mem_erase hall hpcb hq
    exact Threads.mem_threadAll.mpr ⟨q, hq, heq ▸ hw⟩
  exact ⟨h.1.erase hp ht hall hnext hbits hpcb, fun w hw z hz => h.2 w (hsub hw) z (hsub hz)⟩

/-- `thread_exit` of a thread on the list. -/
theorem threadExit_procInv (h : ProcInv s) (hp : p ∈ s.threadAllList) (b : Bool) :
    Exec.Ensures (threadExit p b) s fun _ s' => ProcInv s' := by
  simp only [threadExit, derefPcb, storePcb, releasePid, Exec.post_bind, Exec.post_get, post_deref,
    Exec.post_modify, Exec.post_ite, Exec.post_pure]
  refine ⟨fun t ht => ?_, fun _ => trivial⟩
  have hend : ∀ s', s'.threadAllList = s.threadAllList.erase p → s'.nextPcb = s.nextPcb →
      s'.pidBitmap = s.pidBitmap.set (t.pid - 1) false → (∀ q, q ≠ p → s'.pcb q = s.pcb q) →
      (b = true → Exec.Ensures schedule s' fun _ s' => ProcInv s') ∧ (¬ b = true → ProcInv s') := by
    intro s' h₁ h₂ h₃ h₄
    have h' := h.erase hp ht h₁ h₂ h₃ h₄
    exact ⟨fun _ => schedule_spec.mono fun _ _ hrel => h'.of_moved hrel, fun _ => h'⟩
  refine ⟨fun _ => hend _ rfl rfl rfl fun q hq => ?_, fun _ => hend _ rfl rfl rfl fun q hq => ?_⟩
  · simp [hq]
  · simp [hq]

/-- More used numbers do no harm. -/
theorem PidInv.of_pidBitmap (h : PidInv s) (i : ℕ) :
    PidInv (s.setPidBitmap (s.pidBitmap.set i true)) := by
  refine ⟨h.fresh, h.nodup, h.pos, fun p hp t ht => ?_, h.inj⟩
  rw [Threads.setPidBitmap_pidBitmap, Bitmap.scanTest_set, h.used p hp t ht, ite_self]

theorem ProcInv.of_pidBitmap (h : ProcInv s) (i : ℕ) :
    ProcInv (s.setPidBitmap (s.pidBitmap.set i true)) :=
  ⟨h.1.of_pidBitmap i, h.2⟩

/-- The list with a new thread. -/
theorem PidInv.mem_append (h : PidInv s)
    (hall : s'.threadAllList = s.threadAllList ++ [s.nextPcb])
    (hpcb : s'.pcb = Function.update s.pcb s.nextPcb (some t)) {q : ℕ} {u : TaskStruct}
    (hq : q ∈ s'.threadAllList) (hu : s'.pcb q = some u) :
    (q ∈ s.threadAllList ∧ s.pcb q = some u) ∨ (q = s.nextPcb ∧ u = t) := by
  rw [hall, List.mem_append, List.mem_singleton] at hq
  rw [hpcb, Function.update_apply] at hu
  rcases hq with hq | rfl
  · rw [if_neg (h.fresh q hq).ne] at hu
    exact Or.inl ⟨hq, hu⟩
  · rw [if_pos rfl] at hu
    exact Or.inr ⟨rfl, (Option.some.inj hu).symm⟩

/-- A new thread with a number of its own keeps the numbers distinct. -/
theorem PidInv.append (h : PidInv s) (hpos : 0 < t.pid)
    (hown : ∀ q ∈ s.threadAllList, ∀ u, s.pcb q = some u → u.pid ≠ t.pid)
    (hall : s'.threadAllList = s.threadAllList ++ [s.nextPcb]) (hnext : s'.nextPcb = s.nextPcb + 1)
    (hused : ∀ i, s.pidBitmap.scanTest i = true → s'.pidBitmap.scanTest i = true)
    (hused' : s'.pidBitmap.scanTest (t.pid - 1) = true)
    (hpcb : s'.pcb = Function.update s.pcb s.nextPcb (some t)) : PidInv s' := by
  have hmem {q : ℕ} {u : TaskStruct} := h.mem_append hall hpcb (q := q) (u := u)
  refine ⟨fun q hq => ?_, ?_, fun q hq u hu => ?_, fun q hq u hu => ?_,
    fun q hq r hr u v hu hv heq => ?_⟩
  · rw [hall, List.mem_append, List.mem_singleton] at hq
    rw [hnext]
    rcases hq with hq | rfl
    · exact Nat.lt_succ_of_lt (h.fresh q hq)
    · exact Nat.lt_succ_self _
  · rw [hall]
    refine h.nodup.append (List.nodup_singleton _) ?_
    rw [List.disjoint_singleton]
    exact fun hq => (h.fresh _ hq).ne rfl
  · rcases hmem hq hu with ⟨hq, hu⟩ | ⟨-, rfl⟩
    · exact h.pos q hq u hu
    · exact hpos
  · rcases hmem hq hu with ⟨hq, hu⟩ | ⟨-, rfl⟩
    · exact hused _ (h.used q hq u hu)
    · exact hused'
  · rcases hmem hq hu with ⟨hq, hu⟩ | ⟨rfl, rfl⟩ <;> rcases hmem hr hv with ⟨hr, hv⟩ | ⟨rfl, rfl⟩
    · exact h.inj q hq r hr u v hu hv heq
    · exact absurd heq (hown q hq u hu)
    · exact absurd heq.symm (hown r hr v hv)
    · rfl

/-- A new thread that is ready and has a number of its own. -/
theorem ProcInv.append (h : ProcInv s) (hpos : 0 < t.pid) (hready : t.status = taskReady)
    (hfree : s.pidBitmap.scanTest (t.pid - 1) = false)
    (hall : s'.threadAllList = s.threadAllList ++ [s.nextPcb]) (hnext : s'.nextPcb = s.nextPcb + 1)
    (hbits : s'.pidBitmap = s.pidBitmap.set (t.pid - 1) true)
    (hpcb : s'.pcb = Function.update s.pcb s.nextPcb (some t)) : ProcInv s' := by
  obtain ⟨hpid, hlost⟩ := h
  refine ⟨hpid.append hpos (fun q hq u hu heq => ?_) hall hnext (fun i hi => ?_) ?_ hpcb, ?_⟩
  · have hset := hpid.used q hq u hu
    rw [heq, hfree] at hset
    cases hset
  · rw [hbits, Bitmap.scanTest_set, hi, ite_self]
  · rw [hbits, Bitmap.scanTest_set, if_pos rfl]
  · intro w hw z hz hwait hhang
    obtain ⟨q, hq, hqw⟩ := Threads.mem_threadAll.mp hw
    obtain ⟨r, hr, hrz⟩ := Threads.mem_threadAll.mp hz
    rcases hpid.mem_append hall hpcb hq hqw with ⟨hq, hqw⟩ | ⟨-, rfl⟩
    · rcases hpid.mem_append hall hpcb hr hrz with ⟨hr, hrz⟩ | ⟨-, rfl⟩
      · exact hlost w (Threads.mem_threadAll.mpr ⟨q, hq, hqw⟩) z
          (Threads.mem_threadAll.mpr ⟨r, hr, hrz⟩) hwait hhang
      · rw [hready] at hhang
        cases hhang
    · rw [hready] at hwait
      cases hwait

theorem sysForkProcess_procInv (h : ProcInv s) (mem : ForkMemory) :
    Exec.Ensures (sysForkProcess mem) s fun _ s' => ProcInv s' := by
  simp only [sysForkProcess, curThread, derefPcb, storePcb, allocatePid, Exec.post_bind,
    Exec.post_get, post_deref, Exec.post_ite, post_assert, Exec.post_pure]
  refine ⟨fun parent hparent => ⟨fun _ => h, fun _ => ⟨fun _ => ?_, fun _ => trivial⟩⟩,
    fun _ => trivial⟩
  split
  · trivial
  · rename_i bitIdx hscan
    obtain ⟨-, hfree, -⟩ := Bitmap.scan_one_eq_some_iff.mp hscan
    simp only [Exec.post_bind, Exec.post_set, Exec.post_pure, Exec.post_modify]
    refine ⟨fun _ => h.of_pidBitmap bitIdx, fun _ => ?_⟩
    exact h.append (t := parent.forkChild (bitIdx + 1)) (Nat.succ_pos _) rfl hfree rfl rfl rfl rfl

/-- The thread `list_traversal` stops at is on the list and passes the test. -/
theorem Threads.traverse_eq_some {f : TaskStruct → Bool} (h : s.traverse f = some p) :
    p ∈ s.threadAllList ∧ ∃ t, s.pcb p = some t ∧ f t = true := by
  refine ⟨List.mem_of_find?_eq_some h, ?_⟩
  have hany := List.find?_some h
  cases ht : s.pcb p with
  | none => simp [ht] at hany
  | some t => exact ⟨t, rfl, by simpa [ht] using hany⟩

/-- If `list_traversal` finds no thread, none passes the test. -/
theorem Threads.traverse_eq_none {f : TaskStruct → Bool} (h : s.traverse f = none) :
    ∀ t ∈ s.threadAll, f t = false := by
  intro t ht
  obtain ⟨p, hp, hpt⟩ := Threads.mem_threadAll.mp ht
  have := List.find?_eq_none.mp h p hp
  simpa [hpt] using this

/-- The threads after one PCB is changed. -/
theorem Threads.mem_threadAll_setPcb {u : TaskStruct}
    (h : u ∈ (s.setPcb p (some t)).threadAll) : u = t ∨ u ∈ s.threadAll := by
  obtain ⟨q, hq, hu⟩ := Threads.mem_threadAll.mp h
  rw [Threads.setPcb_pcb, Function.update_apply] at hu
  split at hu
  · exact Or.inl (Option.some.inj hu).symm
  · exact Or.inr (Threads.mem_threadAll.mpr ⟨q, hq, hu⟩)

/-- A process without a hanging child may start to wait. -/
theorem ProcInv.wait (h : ProcInv s) (ht : s.pcb p = some t)
    (hnone : ∀ z ∈ s.threadAll, z.status = taskHanging → z.parentPid ≠ t.pid) :
    ProcInv (s.setPcb p (some (t.setStatus taskWaiting))) := by
  have hrel : PcbRel (fun t t' => t'.pid = t.pid) s (s.setPcb p (some (t.setStatus taskWaiting))) :=
    .of_update (fun _ => rfl) ht (show (t.setStatus taskWaiting).pid = t.pid from rfl) rfl rfl rfl rfl
  refine ⟨h.1.of_pcbRel hrel fun _ _ hpid => hpid, fun w hw z hz hwait hhang => ?_⟩
  rcases Threads.mem_threadAll_setPcb hz with rfl | hz
  · cases hhang
  · rcases Threads.mem_threadAll_setPcb hw with rfl | hw
    · exact hnone z hz hhang
    · exact h.2 w hw z hz hwait hhang

theorem sysWait_procInv (h : ProcInv s) : Exec.Ensures sysWait s fun _ s' => ProcInv s' := by
  simp only [sysWait, curThread, derefPcb, storePcb, Exec.post_bind, Exec.post_get, post_deref,
    Exec.post_modify]
  refine ⟨fun parent hparent => ?_, fun _ => trivial⟩
  have hrel (b : Bool) : PcbRel Moved s (s.setPcb s.cur (some (parent.setInWait b))) :=
    .of_update Moved.refl hparent (Moved.inWait parent b) rfl rfl rfl rfl
  split
  · rename_i child hchild
    obtain ⟨hmem, -⟩ := Threads.traverse_eq_some hchild
    simp only [Exec.post_bind, Exec.post_get, post_deref]
    refine ⟨fun childThread _ => ?_, fun _ => trivial⟩
    exact threadExit_procInv (h.of_moved (hrel false)) hmem false
  · rename_i hnone
    split
    · exact h.of_moved (hrel false)
    · simp only [Exec.post_bind, Exec.post_modify, Exec.post_pure]
      refine threadBlock_spec (fun _ _ h hrel => h.of_moved hrel) fun t ht => ?_
      have hstep : PcbRel Moved (s.setPcb s.cur (some (parent.setInWait false)))
          ((s.setPcb s.cur (some (parent.setInWait false))).setPcb s.cur
            (some (parent.setInWait true))) :=
        .of_update Moved.refl (Function.update_self ..)
          (show Moved (parent.setInWait false) (parent.setInWait true) from
            ⟨rfl, rfl, Or.inl rfl⟩) rfl rfl rfl rfl
      have hrel' := (hrel false).trans hstep
      refine (h.of_moved hrel').wait ht fun z' hz' hhang => ?_
      obtain ⟨z, hz, -, hzparent, hzst⟩ := hrel'.status_eq hz' (Or.inr hhang)
      have htpid : t.pid = parent.pid := by
        obtain rfl : parent.setInWait true = t := by simpa using ht
        rfl
      have hfound := Threads.traverse_eq_none hnone z hz
      rw [← hzparent, htpid]
      simpa [hzst, hhang] using hfound

/-- A process may start to hang once its parent does not wait. -/
theorem ProcInv.hang {q : ℕ} {u : TaskStruct} (h : ProcInv s) (ht : s.pcb p = some t)
    (hq : q ∈ s.threadAllList) (hu : s.pcb q = some u) (hparent : t.parentPid = u.pid)
    (hnowait : u.status ≠ taskWaiting) :
    ProcInv (s.setPcb p (some (t.setStatus taskHanging))) := by
  have hrel : PcbRel (fun t t' => t'.pid = t.pid) s (s.setPcb p (some (t.setStatus taskHanging))) :=
    .of_update (fun _ => rfl) ht (show (t.setStatus taskHanging).pid = t.pid from rfl) rfl rfl rfl rfl
  refine ⟨h.1.of_pcbRel hrel fun _ _ hpid => hpid, fun w hw z hz hwait hhang => ?_⟩
  rcases Threads.mem_threadAll_setPcb hw with rfl | hw
  · cases hwait
  · rcases Threads.mem_threadAll_setPcb hz with rfl | hz
    · intro heq
      obtain ⟨r, hr, hrw⟩ := Threads.mem_threadAll.mp hw
      rw [TaskStruct.setStatus_parentPid, hparent] at heq
      obtain rfl := h.1.inj q hq r hr u w hu hrw (by exact_mod_cast heq)
      obtain rfl := Option.some.inj (hu.symm.trans hrw)
      exact hnowait hwait
    · exact h.2 w hw z hz hwait hhang

/-- Two PCBs of a thread that `init` may have adopted from the process with number `n`. -/
def Adopted (n : ℕ) (t t' : TaskStruct) : Prop :=
  t'.pid = t.pid ∧ t'.status = t.status ∧
    (t'.parentPid = t.parentPid ∨ t.parentPid = n ∧ t'.parentPid = 1)

theorem adopted_initAdoptAChild (n : ℕ) (t : TaskStruct) : Adopted n t (initAdoptAChild n t) := by
  unfold initAdoptAChild
  split
  · rename_i h
    exact ⟨rfl, rfl, Or.inr ⟨h, rfl⟩⟩
  · exact ⟨rfl, rfl, Or.inl rfl⟩

/-- The threads after the orphans of the running process are adopted. -/
theorem adopted_mapAll {cur : TaskStruct} (hcur : s.pcb s.cur = some cur) (st : Int8) :
    PcbRel (Adopted cur.pid) s
      ((s.setPcb s.cur (some (cur.setExitStatus st))).mapAll (initAdoptAChild cur.pid)) := by
  have hself (t : TaskStruct) : Adopted cur.pid t t := ⟨rfl, rfl, Or.inl rfl⟩
  refine ⟨rfl, rfl, rfl, fun p t' ht' => ?_⟩
  have hpcb : (s.setPcb s.cur (some (cur.setExitStatus st))).pcb p =
      if p = s.cur then some (cur.setExitStatus st) else s.pcb p := by
    rw [Threads.setPcb_pcb, Function.update_apply]
  simp only [Threads.mapAll_pcb, hpcb] at ht'
  by_cases hp : p = s.cur
  · subst hp
    refine ⟨cur, hcur, ?_⟩
    simp only [if_true] at ht'
    split at ht' <;> obtain rfl := Option.some.inj ht'
    · exact adopted_initAdoptAChild _ (cur.setExitStatus st)
    · exact hself cur
  · simp only [hp, if_false] at ht'
    split at ht'
    · rw [Option.map_eq_some_iff] at ht'
      obtain ⟨t, ht, rfl⟩ := ht'
      exact ⟨t, ht, adopted_initAdoptAChild _ t⟩
    · exact ⟨t', ht', hself t'⟩

/-- No exit is lost when the parent of the process that exits does not wait any more, unless a
hanging child was stranded. -/
theorem NoLostExit.of_adopted {s₁ s₂ : Threads} {cur u : TaskStruct} {q : ℕ} (h : ProcInv s)
    (hs : ¬ StrandsChild s) (hcur : s.pcb s.cur = some cur) (hrel₁ : PcbRel (Adopted cur.pid) s s₁)
    (hrel₂ : PcbRel Moved s₁ s₂) (hpid : PidInv s₂) (hq : q ∈ s₂.threadAllList)
    (hu : s₂.pcb q = some u) (hnowait : u.status ≠ taskWaiting)
    (hparent : cur.parentPid = 1 → u.pid = 1) : NoLostExit s₂ := by
  intro w₂ hw₂ z₂ hz₂ hwait hhang heq
  obtain ⟨w₁, hw₁, hwpid₁, -, hwst₁⟩ := hrel₂.status_eq hw₂ (Or.inl hwait)
  obtain ⟨z₁, hz₁, -, hzparent₁, hzst₁⟩ := hrel₂.status_eq hz₂ (Or.inr hhang)
  obtain ⟨w, hw, hwpid, hwst, -⟩ := hrel₁.mem_threadAll hw₁
  obtain ⟨z, hz, -, hzst, hzparent⟩ := hrel₁.mem_threadAll hz₁
  have hwwait : w.status = taskWaiting := by rw [← hwst, hwst₁, hwait]
  have hzhang : z.status = taskHanging := by rw [← hzst, hzst₁, hhang]
  rcases hzparent with hsame | ⟨hchild, hadopted⟩
  · refine h.2 w hw z hz hwwait hzhang ?_
    rw [← hsame, hzparent₁, heq, ← hwpid₁, hwpid]
  · -- the hanging thread is an orphan, so `init` waits, and it must be the parent that was woken
    have hinit : w₂.pid = 1 := by
      rw [← hzparent₁, hadopted] at heq
      exact_mod_cast heq.symm
    have hone : cur.parentPid = 1 := by
      by_contra hne
      exact hs ⟨cur, hcur, hne, ⟨w, hw, by rw [← hwpid, hwpid₁, hinit], hwwait⟩, z, hz, hzhang, hchild⟩
    obtain ⟨r, hr, hrw⟩ := Threads.mem_threadAll.mp hw₂
    obtain rfl := hpid.inj q hq r hr u w₂ hu hrw (by rw [hparent hone, hinit])
    obtain rfl := Option.some.inj (hu.symm.trans hrw)
    exact hnowait hwait

theorem sysExitProcess_procInv (h : ProcInv s) (hs : ¬ StrandsChild s) (status : Int32) :
    Exec.Ensures (sysExitProcess status) s fun _ s' => ProcInv s' := by
  simp only [sysExitProcess, adoptChildren, curThread, derefPcb, storePcb, Exec.post_bind,
    Exec.post_get, post_deref, Exec.post_modify, post_assert]
  refine ⟨fun cur hcur => ⟨fun _ => ⟨fun child hchild => ⟨fun q hq => ?_, fun _ => trivial⟩,
    fun _ => trivial⟩, fun _ => trivial⟩, fun _ => trivial⟩
  have hrel₁ := adopted_mapAll hcur status.toInt8
  set s₁ := (s.setPcb s.cur (some (cur.setExitStatus status.toInt8))).mapAll
    (initAdoptAChild cur.pid)
  have hpid₁ : PidInv s₁ := h.1.of_pcbRel hrel₁ fun _ _ hR => hR.1
  obtain ⟨hqmem, t, ht, hpid⟩ := Threads.traverse_eq_some hq
  have hpid : (t.pid : Int) = child.parentPid := by simpa using hpid
  have hone : cur.parentPid = 1 → t.pid = 1 := by
    intro hcur₁
    obtain ⟨cur', hcur', -, -, hparent⟩ := hrel₁.pcb _ child hchild
    obtain rfl := Option.some.inj (hcur.symm.trans hcur')
    rcases hparent with hparent | ⟨-, hparent⟩
    · rw [hparent, hcur₁] at hpid
      exact_mod_cast hpid
    · rw [hparent] at hpid
      exact_mod_cast hpid
  refine wakeParent_spec.mono fun _ s₂ hpost => ?_
  obtain ⟨hrel₂, hcur₂, u, hu, hnowait⟩ := hpost
  have hpid₂ : PidInv s₂ := hpid₁.of_pcbRel hrel₂ fun _ _ hR => hR.1
  obtain ⟨t₁, ht₁, hut, -⟩ := hrel₂.pcb q u hu
  obtain rfl := Option.some.inj (ht.symm.trans ht₁)
  have hqmem₂ : q ∈ s₂.threadAllList := by rwa [hrel₂.allList]
  have hlost₂ : NoLostExit s₂ := .of_adopted h hs hcur hrel₁ hrel₂ hpid₂ hqmem₂ hu hnowait
    fun hcur₁ => hut.trans (hone hcur₁)
  refine threadBlock_spec (fun _ _ h hrel => h.of_moved hrel) fun child₂ hchild₂ => ?_
  obtain ⟨child₁, hchild₁, -, hparent, -⟩ := hrel₂.pcb _ child₂ hchild₂
  rw [hcur₂] at hchild₁
  obtain rfl := Option.some.inj (hchild.symm.trans hchild₁)
  exact ProcInv.hang ⟨hpid₂, hlost₂⟩ hchild₂ hqmem₂ hu (by rw [hparent, hut, hpid]) hnowait

/-- Every event keeps the invariant, unless an exit strands a hanging child. -/
theorem ThreadEvent.run_procInv (e : ThreadEvent) (h : ProcInv s) (he : e.Admitted s)
    (hs : e.IsExit → ¬ StrandsChild s) :
    Exec.Ensures e.run s fun _ s' => ProcInv s' := by
  cases e with
  | fork mem => exact (sysForkProcess_procInv h mem).bind fun _ _ h => h
  | exit status => exact sysExitProcess_procInv h (hs trivial) status
  | wait => exact (sysWait_procInv h).bind fun _ _ h => h
  | tick => exact schedule_spec.mono fun _ _ hrel => h.of_moved hrel
  | block =>
    refine threadBlock_spec (fun _ _ h hrel => h.of_moved hrel) fun t ht => ?_
    exact h.of_moved (.of_update Moved.refl ht
      (show Moved t (t.setStatus taskBlocked) from .setStatus t (by decide) (by decide))
      rfl rfl rfl rfl)
  | unblock p => exact (threadUnblock_spec p).mono fun _ _ hrel => h.of_moved hrel.1
  | mainExit =>
    refine Exec.post_bind.mpr ?_
    exact threadExit_procInv h he.2 true

end Steps

/-- An event may happen, and an exit strands no hanging child. -/
def Spares (s : Threads) (e : ThreadEvent) : Prop :=
  e.Admitted s ∧ (e.IsExit → ¬ StrandsChild s)

instance (s : Threads) (e : ThreadEvent) : Decidable (Spares s e) := by
  unfold Spares; infer_instance

theorem procInv_boot : ProcInv Threads.boot := by
  have hmem (p : ℕ) (hp : p ∈ Threads.boot.threadAllList) : p = 0 ∨ p = 1 ∨ p = 2 := by
    simpa [Threads.boot] using hp
  have hpcb (p : ℕ) (hp : p ∈ Threads.boot.threadAllList) (t : TaskStruct)
      (ht : Threads.boot.pcb p = some t) : t.pid = p + 1 := by
    rcases hmem p hp with rfl | rfl | rfl <;> obtain rfl := Option.some.inj ht <;> rfl
  refine ⟨⟨by decide, by decide, ?_, ?_, ?_⟩, by decide⟩
  · intro p hp t ht
    rw [hpcb p hp t ht]
    exact Nat.succ_pos p
  · intro p hp t ht
    rw [hpcb p hp t ht]
    rcases hmem p hp with rfl | rfl | rfl <;> decide
  · intro p hp q hq t u ht hu heq
    rw [hpcb p hp t ht, hpcb q hq u hu] at heq
    exact Nat.succ.inj heq

/-- No process waits while a child of it hangs, after every run in which no exit strands a hanging
child. -/
theorem noLostExit_of_run {s : Threads} (h : Exec.Run ThreadEvent.run Spares Threads.boot s) :
    NoLostExit s :=
  (h.invariant procInv_boot fun _ e hI he => e.run_procInv hI he.1 he.2).2

/-- `init` forks a child and waits; the child exits; `init` reaps it. -/
theorem noLostExit_of_run_reaped : ∃ s, Exec.Run ThreadEvent.run Spares Threads.boot s ∧
    s.threadAll.length = 3 ∧ NoLostExit s := by
  have h : (Exec.runList ThreadEvent.run Spares
      [.tick, .fork .enough, .wait, .block, .tick, .exit 0, .wait] Threads.boot).any
        (fun s => s.threadAll.length == 3) = true := by
    decide +kernel
  obtain ⟨s, hrun, hlen⟩ := Exec.Run.exists_of_any h
  exact ⟨s, hrun, by simpa using hlen, noLostExit_of_run hrun⟩

/-- A process exits after its child did, while `init` waits for the process's parent: `init` adopts
the hanging child and goes on waiting. -/
theorem lostExit_of_stranded :
    ∃ s, Exec.Run ThreadEvent.run (fun s e => e.Admitted s) Threads.boot s ∧ ¬ NoLostExit s := by
  have h : (Exec.runList ThreadEvent.run (fun s e => e.Admitted s)
      [.tick, .fork .enough, .wait, .block, .tick, .fork .enough, .tick, .tick, .fork .enough,
        .tick, .tick, .tick, .exit 0, .exit 0] Threads.boot).any
        (fun s => !decide (NoLostExit s)) = true := by
    decide +kernel
  obtain ⟨s, hrun, hlost⟩ := Exec.Run.exists_of_any h
  exact ⟨s, hrun, by simpa using hlost⟩

end Winx
