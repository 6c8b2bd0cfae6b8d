import Winx.Thread.Thread

/-! # The ready list

One thread runs, the ready list holds the threads that are ready and no others,
and the idle thread can always be woken. In the middle of `schedule` no thread
runs.
-/

namespace Winx

open TaskStatus

/-- A thread that runs or is ready. -/
def TaskStatus.Runnable (status : TaskStatus) : Prop := status = taskRunning ∨ status = taskReady

/-- The thread that runs is `run`, and the ready list is in order. -/
structure ReadyInv (run : Option ℕ) (s : Threads) : Prop where
  running : ∀ p t, s.pcb p = some t → (t.status = taskRunning ↔ run = some p)
  present : ∀ p, run = some p → ∃ t, s.pcb p = some t
  ready : ∀ p, p ∈ s.threadReadyList ↔ ∃ t, s.pcb p = some t ∧ t.status = taskReady
  nodup : s.threadReadyList.Nodup
  idle : ∃ t, s.pcb s.idleThread = some t ∧ t.status ≠ taskDied ∧ t.parentPid = -1
  fresh : ∀ p, s.nextPcb ≤ p → s.pcb p = none

/-- A thread that runs, is ready or is blocked for an event. -/
def TaskStatus.Live (status : TaskStatus) : Prop := status = taskBlocked ∨ status.Runnable

/-- Threads that differ in the statuses only, by `R`. -/
structure StatusRel (R : ℕ → TaskStatus → TaskStatus → Prop) (s s' : Threads) : Prop where
  allList : s'.threadAllList = s.threadAllList
  nextPcb : s'.nextPcb = s.nextPcb
  pidBitmap : s'.pidBitmap = s.pidBitmap
  mainThread : s'.mainThread = s.mainThread
  idleThread : s'.idleThread = s.idleThread
  none : ∀ p, s.pcb p = none → s'.pcb p = none
  pcb : ∀ p t, s.pcb p = some t → ∃ st, s'.pcb p = some (t.setStatus st) ∧ R p t.status st

/-- Scheduling moves threads between running and ready, and may wake the idle thread. -/
def Reschedules (idle p : ℕ) (st st' : TaskStatus) : Prop :=
  st' = st ∨ (st.Runnable ∨ p = idle) ∧ st'.Runnable

/-- Threads that wait for no child move between running, ready and blocked. -/
def Shuffles (idle p : ℕ) (st st' : TaskStatus) : Prop :=
  st' = st ∨ (st.Live ∨ p = idle) ∧ st'.Live

/-- Threads between which only scheduling lies. -/
abbrev Rescheduled (s s' : Threads) : Prop := StatusRel (Reschedules s.idleThread) s s'

/-- Threads between which no process waited, exited or was reaped. -/
abbrev Shuffled (s s' : Threads) : Prop := StatusRel (Shuffles s.idleThread) s s'

section Moves

variable {s s' s'' : Threads} {run : Option ℕ} {p : ℕ} {t : TaskStruct} {st : TaskStatus}

theorem StatusRel.mono {R R' : ℕ → TaskStatus → TaskStatus → Prop}
    (hR : ∀ p a b, R p a b → R' p a b) (h : StatusRel R s s') : StatusRel R' s s' := by
  refine ⟨h.1, h.2, h.3, h.4, h.5, h.6, fun p t ht => ?_⟩
  obtain ⟨st, hst, hmove⟩ := h.pcb p t ht
  exact ⟨st, hst, hR _ _ _ hmove⟩

theorem StatusRel.trans {R : ℕ → ℕ → TaskStatus → TaskStatus → Prop}
    (hR : ∀ {i p a b c}, R i p a b → R i p b c → R i p a c)
    (h : StatusRel (R s.idleThread) s s') (h' : StatusRel (R s'.idleThread) s' s'') :
    StatusRel (R s.idleThread) s s'' := by
  refine ⟨h'.1.trans h.1, h'.2.trans h.2, h'.3.trans h.3, h'.4.trans h.4, h'.5.trans h.5,
    fun p hp => h'.none p (h.none p hp), fun p t ht => ?_⟩
  obtain ⟨st, hst, hmove⟩ := h.pcb p t ht
  obtain ⟨st', hst', hmove'⟩ := h'.pcb p _ hst
  rw [h.idleThread] at hmove'
  exact ⟨st', hst', hR hmove hmove'⟩

/-- Changing the status of one thread. -/
theorem StatusRel.of_update {R : ℕ → TaskStatus → TaskStatus → Prop} (hrefl : ∀ p a, R p a a)
    (ht : s.pcb p = some t) (hmove : R p t.status st)
    (hall : s'.threadAllList = s.threadAllList) (hnext : s'.nextPcb = s.nextPcb)
    (hbits : s'.pidBitmap = s.pidBitmap) (hmain : s'.mainThread = s.mainThread)
    (hidle : s'.idleThread = s.idleThread)
    (hpcb : s'.pcb = Function.update s.pcb p (some (t.setStatus st))) : StatusRel R s s' := by
  refine ⟨hall, hnext, hbits, hmain, hidle, fun q hq => ?_, fun q u hu => ?_⟩
  · rw [hpcb, Function.update_of_ne, hq]
    rintro rfl
    rw [ht] at hq
    cases hq
  · rw [hpcb]
    by_cases hqp : q = p
    · subst hqp
      obtain rfl := Option.some.inj (ht.symm.trans hu)
      exact ⟨st, Function.update_self .., hmove⟩
    · exact ⟨u.status, by rw [Function.update_of_ne hqp, hu]; rfl, hrefl q u.status⟩

theorem Reschedules.trans {i q : ℕ} {a b c : TaskStatus} (h : Reschedules i q a b)
    (h' : Reschedules i q b c) : Reschedules i q a c := by
  rcases h' with rfl | ⟨hrun', hrun''⟩
  · exact h
  · rcases h with rfl | ⟨hrun, -⟩
    · exact Or.inr ⟨hrun', hrun''⟩
    · exact Or.inr ⟨hrun, hrun''⟩

theorem Shuffles.trans {i q : ℕ} {a b c : TaskStatus} (h : Shuffles i q a b)
    (h' : Shuffles i q b c) : Shuffles i q a c := by
  rcases h' with rfl | ⟨hrun', hrun''⟩
  · exact h
  · rcases h with rfl | ⟨hrun, -⟩
    · exact Or.inr ⟨hrun', hrun''⟩
    · exact Or.inr ⟨hrun, hrun''⟩

theorem Rescheduled.refl (s : Threads) : Rescheduled s s :=
  ⟨rfl, rfl, rfl, rfl, rfl, fun _ => id, fun _ t ht => ⟨t.status, ht, Or.inl rfl⟩⟩

theorem Rescheduled.trans (h : Rescheduled s s') (h' : Rescheduled s' s'') : Rescheduled s s'' :=
  StatusRel.trans (R := Reschedules) Reschedules.trans h h'

theorem Shuffled.trans (h : Shuffled s s') (h' : Shuffled s' s'') : Shuffled s s'' :=
  StatusRel.trans (R := Shuffles) Shuffles.trans h h'

theorem Rescheduled.shuffled (h : Rescheduled s s') : Shuffled s s' := by
  refine StatusRel.mono (fun p a b hmove => ?_) h
  rcases hmove with rfl | ⟨hrun | hidle, hrun'⟩
  · exact Or.inl rfl
  · exact Or.inr ⟨Or.inl (Or.inr hrun), Or.inr hrun'⟩
  · exact Or.inr ⟨Or.inr hidle, Or.inr hrun'⟩

theorem Rescheduled.of_update (ht : s.pcb p = some t)
    (hmove : (t.status.Runnable ∨ p = s.idleThread) ∧ st.Runnable)
    (hall : s'.threadAllList = s.threadAllList) (hnext : s'.nextPcb = s.nextPcb)
    (hbits : s'.pidBitmap = s.pidBitmap) (hmain : s'.mainThread = s.mainThread)
    (hidle : s'.idleThread = s.idleThread)
    (hpcb : s'.pcb = Function.update s.pcb p (some (t.setStatus st))) : Rescheduled s s' :=
  StatusRel.of_update (fun _ _ => Or.inl rfl) ht (Or.inr hmove) hall hnext hbits hmain hidle hpcb

theorem Shuffled.of_update (ht : s.pcb p = some t) (hmove : t.status.Live ∧ st.Live)
    (hall : s'.threadAllList = s.threadAllList) (hnext : s'.nextPcb = s.nextPcb)
    (hbits : s'.pidBitmap = s.pidBitmap) (hmain : s'.mainThread = s.mainThread)
    (hidle : s'.idleThread = s.idleThread)
    (hpcb : s'.pcb = Function.update s.pcb p (some (t.setStatus st))) : Shuffled s s' :=
  StatusRel.of_update (fun _ _ => Or.inl rfl) ht (Or.inr ⟨Or.inl hmove.1, hmove.2⟩) hall hnext hbits
    hmain hidle hpcb

/-- The PCBs after the status of one thread changed. -/
theorem Threads.setPcb_status {q : ℕ} {u : TaskStruct}
    (hu : (s.setPcb p (some (t.setStatus st))).pcb q = some u) :
    q = p ∧ u = t.setStatus st ∨ q ≠ p ∧ s.pcb q = some u := by
  rw [Threads.setPcb_pcb, Function.update_apply] at hu
  split at hu
  · rename_i hqp
    exact Or.inl ⟨hqp, (Option.some.inj hu).symm⟩
  · rename_i hqp
    exact Or.inr ⟨hqp, hu⟩

/-- A thread changes its status, and the running thread and the ready list change with it. -/
theorem ReadyInv.move {run' : Option ℕ} {l : List ℕ} (h : ReadyInv run s) (ht : s.pcb p = some t)
    (hself : run' = some p ↔ st = taskRunning) (hother : ∀ q, q ≠ p → (run' = some q ↔ run = some q))
    (hl : l.Nodup) (hlself : p ∈ l ↔ st = taskReady)
    (hlother : ∀ q, q ≠ p → (q ∈ l ↔ q ∈ s.threadReadyList))
    (hdied : p = s.idleThread → st ≠ taskDied) :
    ReadyInv run' ((s.setReadyList l).setPcb p (some (t.setStatus st))) where
  running q u hu := by
    rcases Threads.setPcb_status hu with ⟨rfl, rfl⟩ | ⟨hqp, hu⟩
    · exact hself.symm
    · rw [hother q hqp]
      exact h.running q u hu
  present q hq := by
    by_cases hqp : q = p
    · subst hqp
      exact ⟨_, Function.update_self ..⟩
    · obtain ⟨u, hu⟩ := h.present q ((hother q hqp).mp hq)
      exact ⟨u, (Function.update_of_ne hqp ..).trans hu⟩
  ready q := by
    by_cases hqp : q = p
    · subst hqp
      refine hlself.trans ⟨fun hst => ⟨_, Function.update_self .., hst⟩, ?_⟩
      rintro ⟨u, hu, hready⟩
      rcases Threads.setPcb_status hu with ⟨-, rfl⟩ | ⟨hne, -⟩
      · exact hready
      · exact absurd rfl hne
    · refine (hlother q hqp).trans ((h.ready q).trans (exists_congr fun u => ?_))
      rw [Threads.setPcb_pcb, Function.update_of_ne hqp]
      rfl
  nodup := hl
  idle := by
    obtain ⟨u, hu, hnotDied, hparent⟩ := h.idle
    by_cases hp : s.idleThread = p
    · subst hp
      obtain rfl := Option.some.inj (ht.symm.trans hu)
      exact ⟨_, Function.update_self .., hdied rfl, hparent⟩
    · exact ⟨u, (Function.update_of_ne hp ..).trans hu, hnotDied, hparent⟩
  fresh q hq := by
    have hqp : q ≠ p := by
      rintro rfl
      rw [h.fresh q hq] at ht
      cases ht
    exact (Function.update_of_ne hqp ..).trans (h.fresh q hq)

/-- A thread with some other status is not in the ready list. -/
theorem ReadyInv.notMem (h : ReadyInv run s) (ht : s.pcb p = some t) (hst : t.status ≠ taskReady) :
    p ∉ s.threadReadyList := by
  rw [h.ready]
  rintro ⟨u, hu, hready⟩
  obtain rfl := Option.some.inj (ht.symm.trans hu)
  exact hst hready

/-- A thread with some other status does not run. -/
theorem ReadyInv.ne_run (h : ReadyInv run s) (ht : s.pcb p = some t) (hst : t.status ≠ taskRunning) :
    run ≠ some p :=
  fun hrun => hst ((h.running p t ht).mpr hrun)

/-- The running thread gets a status in which it neither runs nor is ready. -/
theorem ReadyInv.quit (h : ReadyInv (some p) s) (ht : s.pcb p = some t) (hrun : ¬ st.Runnable)
    (hdied : p = s.idleThread → st ≠ taskDied) :
    ReadyInv none (s.setPcb p (some (t.setStatus st))) := by
  have hrunning : t.status = taskRunning := (h.running p t ht).mpr rfl
  have hnot : p ∉ s.threadReadyList := h.notMem ht (by rw [hrunning]; decide)
  refine h.move (l := s.threadReadyList) ht ?_ ?_ h.nodup ?_ (fun q _ => Iff.rfl) hdied
  · exact ⟨nofun, fun hst => absurd (Or.inl hst) hrun⟩
  · exact fun q hq => ⟨nofun, fun heq => absurd (Option.some.inj heq).symm hq⟩
  · exact ⟨fun hmem => absurd hmem hnot, fun hst => absurd (Or.inr hst) hrun⟩

/-- The running thread is queued and stops to run. -/
theorem ReadyInv.requeue (h : ReadyInv (some p) s) (ht : s.pcb p = some t) :
    p ∉ s.threadReadyList ∧ ReadyInv none
      ((s.setReadyList (s.threadReadyList ++ [p])).setPcb p (some (t.setStatus taskReady))) := by
  have hrunning : t.status = taskRunning := (h.running p t ht).mpr rfl
  have hnot : p ∉ s.threadReadyList := h.notMem ht (by rw [hrunning]; decide)
  refine ⟨hnot, h.move ht ⟨nofun, nofun⟩ ?_ ?_ ?_ ?_ fun _ => nofun⟩
  · exact fun q hq => ⟨nofun, fun heq => absurd (Option.some.inj heq).symm hq⟩
  · exact h.nodup.append (List.nodup_singleton _) (by simpa using hnot)
  · exact ⟨fun _ => rfl, fun _ => by simp⟩
  · exact fun q hq => by simp [hq]

/-- A change to the PCBs that keeps the statuses, and leaves a thread without a parent alone. -/
theorem ReadyInv.congr (h : ReadyInv run s) (hlist : s'.threadReadyList = s.threadReadyList)
    (hidle : s'.idleThread = s.idleThread) (hnext : s'.nextPcb = s.nextPcb)
    (hnone : ∀ p, s.pcb p = none → s'.pcb p = none)
    (hpcb : ∀ p t, s.pcb p = some t → ∃ t', s'.pcb p = some t' ∧ t'.status = t.status ∧
      (t.parentPid = -1 → t'.parentPid = -1)) : ReadyInv run s' := by
  have hback (p : ℕ) (t' : TaskStruct) (ht' : s'.pcb p = some t') :
      ∃ t, s.pcb p = some t ∧ t'.status = t.status := by
    cases ht : s.pcb p with
    | none => rw [hnone p ht] at ht'; cases ht'
    | some t =>
      obtain ⟨u, hu, hst, -⟩ := hpcb p t ht
      obtain rfl := Option.some.inj (ht'.symm.trans hu)
      exact ⟨t, rfl, hst⟩
  refine ⟨fun p t' ht' => ?_, fun p hp => ?_, fun p => ?_, ?_, ?_, fun p hp => ?_⟩
  · obtain ⟨t, ht, hst⟩ := hback p t' ht'
    rw [hst]
    exact h.running p t ht
  · obtain ⟨t, ht⟩ := h.present p hp
    obtain ⟨t', ht', -⟩ := hpcb p t ht
    exact ⟨t', ht'⟩
  · rw [hlist, h.ready]
    constructor
    · rintro ⟨t, ht, hready⟩
      obtain ⟨t', ht', hst, -⟩ := hpcb p t ht
      exact ⟨t', ht', hst.trans hready⟩
    · rintro ⟨t', ht', hready⟩
      obtain ⟨t, ht, hst⟩ := hback p t' ht'
      exact ⟨t, ht, hst.symm.trans hready⟩
  · rw [hlist]
    exact h.nodup
  · obtain ⟨t, ht, hdied, hparent⟩ := h.idle
    obtain ⟨t', ht', hst, hkept⟩ := hpcb _ t ht
    exact ⟨t', hidle ▸ ht', hst ▸ hdied, hkept hparent⟩
  · exact hnone p (h.fresh p (hnext ▸ hp))

/-- A new thread is ready. -/
theorem ReadyInv.append (h : ReadyInv run s) (hready : t.status = taskReady)
    (hlist : s'.threadReadyList = s.threadReadyList ++ [s.nextPcb])
    (hidle : s'.idleThread = s.idleThread) (hnext : s'.nextPcb = s.nextPcb + 1)
    (hpcb : s'.pcb = Function.update s.pcb s.nextPcb (some t)) : ReadyInv run s' := by
  have hnew := h.fresh s.nextPcb le_rfl
  have hold (p : ℕ) (u : TaskStruct) (hu : s.pcb p = some u) : p ≠ s.nextPcb := by
    rintro rfl
    rw [hnew] at hu
    cases hu
  have hnot : s.nextPcb ∉ s.threadReadyList := by
    rw [h.ready]
    rintro ⟨u, hu, -⟩
    exact hold _ u hu rfl
  refine ⟨fun p u hu => ?_, fun p hp => ?_, fun p => ?_, ?_, ?_, fun p hp => ?_⟩
  · rw [hpcb, Function.update_apply] at hu
    split at hu
    · rename_i hp
      obtain rfl := Option.some.inj hu
      refine ⟨fun hrun => absurd (hready.symm.trans hrun) (by decide), fun hrun => ?_⟩
      obtain ⟨v, hv⟩ := h.present p hrun
      exact absurd hp (hold p v hv)
    · exact h.running p u hu
  · obtain ⟨u, hu⟩ := h.present p hp
    exact ⟨u, by rw [hpcb, Function.update_of_ne (hold p u hu), hu]⟩
  · rw [hlist, hpcb, List.mem_append, List.mem_singleton, h.ready]
    by_cases hp : p = s.nextPcb
    · subst hp
      simp [hready]
    · simp [hp]
  · rw [hlist]
    exact h.nodup.append (List.nodup_singleton _) (by simpa using hnot)
  · obtain ⟨u, hu, hidle'⟩ := h.idle
    exact ⟨u, by rw [hpcb, hidle, Function.update_of_ne (hold _ u hu), hu], hidle'⟩
  · rw [hpcb, Function.update_of_ne (by omega)]
    exact h.fresh p (by omega)

/-- The PCB of a thread that neither runs nor is ready is freed. -/
theorem ReadyInv.remove (h : ReadyInv run s) (ht : s.pcb p = some t) (hst : ¬ t.status.Runnable)
    (hidle : p ≠ s.idleThread) : ReadyInv run (s.setPcb p none) := by
  have hother {q : ℕ} {u : TaskStruct} (hu : (s.setPcb p none).pcb q = some u) :
      q ≠ p ∧ s.pcb q = some u := by
    by_cases hq : q = p
    · subst hq
      cases (Function.update_self ..).symm.trans hu
    · exact ⟨hq, (Function.update_of_ne hq ..).symm.trans hu⟩
  refine ⟨fun q u hu => h.running q u (hother hu).2, fun q hq => ?_, fun q => ?_, h.nodup, ?_,
    fun q hq => ?_⟩
  · have hqp : q ≠ p := by
      rintro rfl
      exact hst (Or.inl ((h.running q t ht).mpr hq))
    obtain ⟨u, hu⟩ := h.present q hq
    exact ⟨u, (Function.update_of_ne hqp ..).trans hu⟩
  · refine (h.ready q).trans ⟨?_, fun ⟨u, hu, hready⟩ => ⟨u, (hother hu).2, hready⟩⟩
    rintro ⟨u, hu, hready⟩
    have hqp : q ≠ p := by
      rintro rfl
      obtain rfl := Option.some.inj (ht.symm.trans hu)
      exact hst (Or.inr hready)
    exact ⟨u, (Function.update_of_ne hqp ..).trans hu, hready⟩
  · obtain ⟨u, hu, hidle'⟩ := h.idle
    exact ⟨u, (Function.update_of_ne hidle.symm ..).trans hu, hidle'⟩
  · have hqp : q ≠ p := by
      rintro rfl
      rw [h.fresh q hq] at ht
      cases ht
    exact (Function.update_of_ne hqp ..).trans (h.fresh q hq)

end Moves

section Specs

variable {s : Threads} {run : Option ℕ} {p : ℕ} {t : TaskStruct} {stat : TaskStatus}

/-- The threads after `thread_unblock`. -/
def Threads.unblocked (s : Threads) (p : ℕ) (t : TaskStruct) : Threads :=
  (s.setReadyList (p :: s.threadReadyList)).setPcb p (some (t.setStatus taskReady))

/-- `thread_unblock` of a blocked thread trips no assertion. -/
theorem threadUnblock_ready (h : ReadyInv run s) (ht : s.pcb p = some t)
    (hst : t.status = taskBlocked ∨ t.status = taskWaiting ∨ t.status = taskHanging) :
    threadUnblock p s = .ok ((), s.unblocked p t) ∧ ReadyInv run (s.unblocked p t) := by
  have hne : ¬ t.status.Runnable := by
    rintro (hrun | hready)
    · rw [hrun] at hst
      exact absurd hst (by decide)
    · rw [hready] at hst
      exact absurd hst (by decide)
  have hnot : p ∉ s.threadReadyList := h.notMem ht fun hready => hne (Or.inr hready)
  have hrun : run ≠ some p := h.ne_run ht fun hrun => hne (Or.inl hrun)
  refine ⟨?_, h.move ht ⟨fun heq => absurd heq hrun, nofun⟩ (fun _ _ => Iff.rfl)
    (List.nodup_cons.mpr ⟨hnot, h.nodup⟩) ?_ (fun q hq => ?_) fun _ => nofun⟩
  · rw [Exec.eq_ok_iff]
    simp only [threadUnblock, derefPcb, storePcb, Exec.post_bind, Exec.post_get, post_deref,
      post_assert, Exec.post_modify]
    refine ⟨fun u hu => ?_, fun hnone => by rw [ht] at hnone; cases hnone⟩
    obtain rfl := Option.some.inj (ht.symm.trans hu)
    exact ⟨fun _ => ⟨fun _ => ⟨trivial, rfl⟩, fun hmem => hmem hnot⟩, fun hn => hn hst⟩
  · exact ⟨fun _ => rfl, fun _ => List.mem_cons_self⟩
  · exact ⟨fun hmem => (List.mem_cons.mp hmem).resolve_left hq, List.mem_cons_of_mem p⟩

/-- The first part of `schedule`, by the running thread. -/
theorem preemptCur_running (h : ReadyInv (some s.cur) s) :
    Exec.Returns preemptCur s fun _ s' =>
      ReadyInv none s' ∧ Rescheduled s s' ∧ s'.threadReadyList ≠ [] := by
  obtain ⟨t, ht⟩ := h.present s.cur rfl
  have hrun : t.status = taskRunning := (h.running _ t ht).mpr rfl
  obtain ⟨hnot, hinv⟩ := h.requeue ht
  simp only [preemptCur, curThread, derefPcb, storePcb, Exec.post_bind, Exec.post_get, post_deref,
    Exec.post_ite, post_assert, Exec.post_modify, Exec.post_pure]
  refine ⟨fun u hu => ?_, fun hnone => by rw [ht] at hnone; cases hnone⟩
  obtain rfl := Option.some.inj (ht.symm.trans hu)
  refine ⟨fun _ => ⟨fun _ => ⟨hinv, ?_, ?_⟩, fun hmem => hmem hnot⟩, fun hne => absurd hrun hne⟩
  · exact .of_update ht ⟨Or.inl (Or.inl hrun), Or.inr rfl⟩ rfl rfl rfl rfl rfl rfl
  · simp

/-- The first part of `schedule`, by a thread that gives up the processor. -/
theorem preemptCur_none (h : ReadyInv none s) (ht : s.pcb s.cur = some t) :
    preemptCur s = .ok ((), s) := by
  have hrun : t.status ≠ taskRunning := by
    intro hrun
    cases (h.running _ t ht).mp hrun
  rw [Exec.eq_ok_iff]
  simp only [preemptCur, curThread, derefPcb, Exec.post_bind, Exec.post_get, post_deref,
    Exec.post_ite, Exec.post_pure]
  refine ⟨fun u hu => ?_, fun hnone => by rw [ht] at hnone; cases hnone⟩
  obtain rfl := Option.some.inj (ht.symm.trans hu)
  exact ⟨fun hrun' => absurd hrun' hrun, fun _ => ⟨trivial, trivial⟩⟩

/-- `schedule` wakes the idle thread only when it is blocked. -/
theorem wakeIdle_ready (h : ReadyInv none s) : Exec.Returns wakeIdle s fun _ s' =>
    ReadyInv none s' ∧ Rescheduled s s' ∧ s'.threadReadyList ≠ [] := by
  simp only [wakeIdle, Exec.post_bind, Exec.post_get, Exec.post_ite, Exec.post_pure]
  refine ⟨fun hempty => ?_, fun hne => ⟨h, .refl s, hne⟩⟩
  obtain ⟨t, ht, hdied, -⟩ := h.idle
  have hrun : t.status ≠ taskRunning := by
    intro hrun
    cases (h.running _ t ht).mp hrun
  have hready : t.status ≠ taskReady := by
    intro hready
    have hmem := (h.ready _).mpr ⟨t, ht, hready⟩
    rw [hempty] at hmem
    cases hmem
  have hst : t.status = taskBlocked ∨ t.status = taskWaiting ∨ t.status = taskHanging := by
    cases hs : t.status <;> simp_all
  obtain ⟨hcall, hinv⟩ := threadUnblock_ready h ht hst
  refine Exec.returns_iff.mpr ⟨_, _, hcall, hinv, ?_, List.cons_ne_nil _ _⟩
  exact Rescheduled.of_update ht ⟨Or.inr rfl, Or.inr rfl⟩ rfl rfl rfl rfl rfl rfl

/-- The last part of `schedule`. -/
theorem switchToNext_ready (h : ReadyInv none s) (hne : s.threadReadyList ≠ []) :
    Exec.Returns switchToNext s fun _ s' => ReadyInv (some s'.cur) s' ∧ Rescheduled s s' := by
  obtain ⟨next, rest, hlist⟩ := List.exists_cons_of_ne_nil hne
  obtain ⟨t, ht, hready⟩ := (h.ready next).mp (by rw [hlist]; exact List.mem_cons_self)
  have hnodup : next ∉ rest ∧ rest.Nodup := List.nodup_cons.mp (hlist ▸ h.nodup)
  simp only [switchToNext, Exec.post_bind, Exec.post_get, hlist, derefPcb, storePcb, post_deref,
    Exec.post_modify]
  refine ⟨fun u hu => ?_, fun hnone => by rw [Threads.setReadyList_pcb, ht] at hnone; cases hnone⟩
  obtain rfl := Option.some.inj (ht.symm.trans hu)
  constructor
  · have hmove : ReadyInv (some next)
        ((s.setReadyList rest).setPcb next (some (t.setStatus taskRunning))) := by
      refine h.move ht ⟨fun _ => rfl, fun _ => rfl⟩ ?_ hnodup.2 ?_ ?_ fun _ => by simp
      · exact fun q hq => ⟨fun heq => absurd (Option.some.inj heq).symm hq, by simp⟩
      · exact ⟨fun hmem => absurd hmem hnodup.1, by simp⟩
      · exact fun q hq => by rw [hlist, List.mem_cons, or_iff_right hq]
    exact ⟨hmove.1, hmove.2, hmove.3, hmove.4, hmove.5, hmove.6⟩
  · exact .of_update ht ⟨Or.inl (Or.inr hready), Or.inl rfl⟩ rfl rfl rfl rfl rfl rfl

/-- `schedule` by a thread that gives up the processor. -/
theorem schedule_none (h : ReadyInv none s) (ht : s.pcb s.cur = some t) :
    Exec.Returns schedule s fun _ s' => ReadyInv (some s'.cur) s' ∧ Rescheduled s s' := by
  unfold schedule Exec.Returns
  rw [Exec.post_bind]
  refine (Exec.eq_ok_iff.mp (preemptCur_none h ht)).post fun _ s₁ h₁ => ?_
  obtain ⟨-, rfl⟩ := h₁
  refine (wakeIdle_ready h).bind fun _ s₂ ⟨h₂, hrel₂, hne₂⟩ => ?_
  exact (switchToNext_ready h₂ hne₂).mono fun _ _ ⟨h₃, hrel₃⟩ => ⟨h₃, hrel₂.trans hrel₃⟩

/-- `schedule` by the running thread, when its time is up. -/
theorem schedule_running (h : ReadyInv (some s.cur) s) :
    Exec.Returns schedule s fun _ s' => ReadyInv (some s'.cur) s' ∧ Rescheduled s s' := by
  refine (preemptCur_running h).bind fun _ s₁ ⟨h₁, hrel₁, _⟩ => ?_
  refine (wakeIdle_ready h₁).bind fun _ s₂ ⟨h₂, hrel₂, hne₂⟩ => ?_
  refine (switchToNext_ready h₂ hne₂).mono fun _ _ ⟨h₃, hrel₃⟩ => ?_
  exact ⟨h₃, (hrel₁.trans hrel₂).trans hrel₃⟩

/-- `thread_block` gives the running thread a status and runs another one. -/
theorem threadBlock_running (h : ReadyInv (some s.cur) s) (ht : s.pcb s.cur = some t)
    (hstat : stat = taskBlocked ∨ stat = taskWaiting ∨ stat = taskHanging) :
    Exec.Returns (threadBlock stat) s fun _ s' =>
      ReadyInv (some s'.cur) s' ∧ Rescheduled (s.setPcb s.cur (some (t.setStatus stat))) s' := by
  simp only [threadBlock, curThread, derefPcb, storePcb, Exec.post_bind, Exec.post_get, post_deref,
    post_assert, Exec.post_modify]
  refine ⟨fun _ => ⟨fun u hu => ?_, fun hnone => by rw [ht] at hnone; cases hnone⟩,
    fun hne => hne hstat⟩
  obtain rfl := Option.some.inj (ht.symm.trans hu)
  have hquit : ¬ stat.Runnable ∧ stat ≠ taskDied := by
    unfold TaskStatus.Runnable
    rcases hstat with rfl | rfl | rfl <;> decide
  exact schedule_none (h.quit ht hquit.1 fun _ => hquit.2) (Function.update_self ..)

/-- `thread_yield` -/
theorem threadYield_running (h : ReadyInv (some s.cur) s) :
    Exec.Returns threadYield s fun _ s' => ReadyInv (some s'.cur) s' ∧ Rescheduled s s' := by
  obtain ⟨t, ht⟩ := h.present s.cur rfl
  have hrun : t.status = taskRunning := (h.running _ t ht).mpr rfl
  obtain ⟨hnot, hinv⟩ := h.requeue ht
  simp only [threadYield, curThread, derefPcb, storePcb, Exec.post_bind, Exec.post_get, post_deref,
    post_assert, Exec.post_modify]
  refine ⟨fun u hu => ⟨fun _ => ?_, fun hmem => hmem hnot⟩,
    fun hnone => by rw [ht] at hnone; cases hnone⟩
  obtain rfl := Option.some.inj (ht.symm.trans hu)
  refine (schedule_none hinv (Function.update_self ..)).mono fun _ _ h' => ⟨h'.1, ?_⟩
  refine Rescheduled.trans ?_ h'.2
  exact Rescheduled.of_update ht ⟨Or.inl (Or.inl hrun), Or.inr rfl⟩ rfl rfl rfl rfl rfl rfl

end Specs

end Winx
