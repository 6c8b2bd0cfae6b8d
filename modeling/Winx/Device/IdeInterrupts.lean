import Winx.Thread.CriticalSection

/-! # The interrupts of a disk

A thread that transfers sectors gives its commands one after the other with the
lock of the channel held, and waits for the interrupt of each on the semaphore
`disk_done`. The interrupt may come before or after the thread sleeps, late or
twice: `expecting_intr` lets one interrupt through for each command, so that no
completion is lost and none is counted twice.
-/

namespace Winx

namespace Ide

/-- `ide_read` or `ide_write`. -/
inductive Call
  | ideRead
  | ideWrite
  deriving DecidableEq, Repr

/-- Where a thread stands in a call, with the commands that it has still to give: in `lock_acquire` or
at the head of the loop, after `cmd_out`, and after the first of the two things that follow it, which
are `sema_down` and the transfer of the data. -/
inductive Point
  | outside
  | loop (c : Call) (cmds : ℕ)
  | issued (c : Call) (cmds : ℕ)
  | second (c : Call) (cmds : ℕ)
  deriving DecidableEq, Repr

namespace Point

/-- A command is to be given. -/
def cmdNext : Point → Bool
  | loop _ (_ + 1) => true
  | _ => false

/-- `sema_down` comes next: when reading before the transfer, when writing after it. -/
def downNext : Point → Bool
  | issued .ideRead _ | second .ideWrite _ => true
  | _ => false

/-- `busy_wait` and the transfer of the data come next. -/
def moveNext : Point → Bool
  | issued .ideWrite _ | second .ideRead _ => true
  | _ => false

/-- The loop is over. -/
def overNext : Point → Bool
  | loop _ 0 => true
  | _ => false

/-- A command was given, and `sema_down` has not returned since. -/
def pending : Point → Bool
  | issued _ _ | second .ideWrite _ => true
  | _ => false

/-- A command was given, and the turn of the loop is not over. -/
def inTurn : Point → Bool
  | issued _ _ | second _ _ => true
  | _ => false

/-- What comes after a point. -/
def next : Point → Point
  | loop c (cmds + 1) => issued c cmds
  | loop _ 0 => outside
  | issued c cmds => second c cmds
  | second c cmds => loop c cmds
  | outside => outside

end Point

/-- The addresses of the semaphores of `channel->lock` and of `channel->disk_done`. -/
structure Fields where
  lock : ℕ
  diskDone : ℕ
  ne : lock ≠ diskDone

/-- The kernel with a channel. The counts are of the commands given, of the interrupts that
`intr_hd_handler` let through, and of the calls of `sema_down` that returned. -/
structure System where
  locked : Locked
  expectingIntr : Bool
  point : ℕ → Point
  issued : ℕ
  accepted : ℕ
  taken : ℕ

/-- Code that uses the channel. -/
abbrev SystemM (α : Type) := Exec System Fault α

namespace System

variable (s : System)

/-- The running thread. -/
abbrev cur : ℕ := s.locked.cur

/-- Change the kernel and the lock. -/
@[simps -fullyApplied] def setLocked (l : Locked) : System := { s with locked := l }

/-- The running thread goes to a point. -/
@[simps -fullyApplied] def goto (point : Point) : System :=
  { s with point := Function.update s.point s.cur point }

/-- `cmd_out` -/
@[simps -fullyApplied] def cmdOut : System :=
  { s.goto (s.point s.cur).next with expectingIntr := true, issued := s.issued + 1 }

/-- `sema_down` returns. -/
@[simps -fullyApplied] def take : System := { s.goto (s.point s.cur).next with taken := s.taken + 1 }

/-- The interrupt is let through. -/
@[simps -fullyApplied] def accept : System :=
  { s with expectingIntr := false, accepted := s.accepted + 1 }

end System

/-- Code of the lock. -/
def inLock {α : Type} (m : LockM α) : SystemM α := fun s =>
  match m s.locked with
  | .ok (a, l) => .ok (a, s.setLocked l)
  | .error e => .error e

@[simp] theorem post_inLock {α : Type} {m : LockM α} {s : System} {Q : α → System → Prop} {E : Fault → Prop} :
    Exec.Post (inLock m) s Q E ↔ Exec.Post m s.locked (fun a l => Q a (s.setLocked l)) E := by
  unfold Exec.Post inLock
  cases m s.locked <;> rfl

/-- A turn of the loop of `sema_down(&channel->disk_done)`. -/
def down (a : Fields) : SystemM Unit := do
  let taken ← inLock (onKernel (semaDown a.diskDone))
  if taken = true then modify System.take else pure ()

/-- `intr_hd_handler` -/
def intrHdHandler (a : Fields) : SystemM Unit := do
  let s ← get
  if s.expectingIntr = true then
    modify System.accept
    inLock (onKernel (semaUp a.diskDone))
  else pure ()

/-- An event with the channel: the running thread calls `ide_read` or `ide_write` for some sectors, or
goes on with its call; an interrupt of the disk comes; or something else happens in the kernel. -/
inductive Event
  | call (c : Call) (secCnt : ℕ)
  | lockStep
  | cmdOut
  | down
  | move
  | release
  | interrupt
  | other (e : KernelEvent)
  deriving DecidableEq, Repr

namespace Event

/-- The code of an event. A call gives a command for each 256 sectors. -/
def run (a : Fields) : Event → SystemM Unit
  | call c secCnt => do
    modify fun s => s.goto (.loop c ((secCnt + 255) / 256))
    inLock (LockEvent.acquire.run a.lock)
  | lockStep => inLock (LockEvent.step.run a.lock)
  | cmdOut => modify System.cmdOut
  | down => Ide.down a
  | move => modify fun s => s.goto (s.point s.cur).next
  | release => do
    modify fun s => s.goto (s.point s.cur).next
    inLock (LockEvent.release.run a.lock)
  | interrupt => intrHdHandler a
  | other e => inLock ((LockEvent.other e).run a.lock)

/-- Whether an event can happen. In the loop a thread can be interrupted, and it yields while
`busy_wait` waits. An interrupt of the disk can come whenever interrupts are on. -/
def Admitted (a : Fields) (s : System) : Event → Prop
  | call _ secCnt => LockEvent.acquire.Admitted a.lock s.locked ∧ s.point s.cur = .outside ∧ 0 < secCnt
  | lockStep => LockEvent.step.Admitted a.lock s.locked
  | cmdOut => s.locked.kernel.Interruptible ∧ s.locked.point s.cur = .outside ∧
    (s.point s.cur).cmdNext = true
  | down => (s.locked.kernel.Interruptible ∨ s.locked.kernel.blockedIn s.cur = some (.semaDown a.diskDone)) ∧
    s.locked.point s.cur = .outside ∧ (s.point s.cur).downNext = true
  | move => s.locked.kernel.Interruptible ∧ s.locked.point s.cur = .outside ∧
    (s.point s.cur).moveNext = true
  | release => LockEvent.release.Admitted a.lock s.locked ∧ (s.point s.cur).overNext = true
  | interrupt => s.locked.kernel.Interruptible
  | other e => (LockEvent.other e).Admitted a.lock s.locked ∧ ¬ e.Uses a.diskDone ∧
    (s.point s.cur = .outside ∨ e.IsInterrupt ∨ e = .yield ∧ (s.point s.cur).moveNext = true)

instance (a : Fields) (s : System) (e : Event) : Decidable (e.Admitted a s) := by
  cases e <;> unfold Admitted <;> infer_instance

end Event

/-- The kernel after `lock_init(&channel->lock)` and `sema_init(&channel->disk_done, 0)`. -/
def System.boot (a : Fields) (value : ℕ → UInt8) : System where
  locked := Locked.boot a.lock (Function.update value a.diskDone 0)
  expectingIntr := false
  point _ := .outside
  issued := 0
  accepted := 0
  taken := 0

/-- The runs of threads that use the channel. -/
abbrev System.Run (a : Fields) (value : ℕ → UInt8) (s : System) : Prop :=
  Exec.Run (Event.run a) (fun s e => e.Admitted a s) (System.boot a value) s

/-- The commands and their interrupts are in order: each command is let one interrupt through for, and
is waited for once. Between commands none is expected and the semaphore is taken. A thread that sleeps
for a command has still its interrupt to come, and one that was woken finds the semaphore free. No
assertion fails. -/
structure InOrder (a : Fields) (s : System) : Prop where
  counts : s.issued = s.accepted + s.expectingIntr.toNat ∧
    s.accepted = s.taken + (s.locked.kernel.semaphore a.diskDone).value.toNat ∧ s.issued ≤ s.taken + 1
  one : ∀ p q, (s.point p).inTurn = true → (s.point q).inTurn = true → p = q
  idle : (∀ p, (s.point p).pending = false) →
    s.expectingIntr = false ∧ (s.locked.kernel.semaphore a.diskDone).value = 0
  asleep : ∀ p ∈ (s.locked.kernel.semaphore a.diskDone).waiters,
    (s.point p).downNext = true ∧ s.expectingIntr = true
  woken : ∀ p, s.locked.kernel.blockedIn p = some (.semaDown a.diskDone) →
    p ∉ (s.locked.kernel.semaphore a.diskDone).waiters →
    (s.locked.kernel.semaphore a.diskDone).value = 1 ∧
      ∃ t, s.locked.kernel.threads.pcb p = some t ∧ t.status.Runnable
  asserts : ∀ e : Event, e.Admitted a s → (∀ e', e ≠ .other e') → Exec.Returns (e.run a) s fun _ _ => True

/-! ## The points -/

section Points

variable {p : Point}

theorem Point.pending_of_downNext (h : p.downNext = true) : p.pending = true := by
  cases p with
  | issued c cmds => rfl
  | second c cmds => cases c <;> first | rfl | cases h
  | _ => cases h

theorem Point.inTurn_of_pending (h : p.pending = true) : p.inTurn = true := by
  cases p with
  | issued c cmds => rfl
  | second c cmds => rfl
  | _ => cases h

/-- The transfer of the data leaves it open whether a command is under way. -/
theorem Point.next_of_moveNext (h : p.moveNext = true) : p.next ≠ .outside ∧ p.next.pending = p.pending := by
  cases p with
  | issued c cmds =>
    cases c with
    | ideRead => cases h
    | ideWrite => exact ⟨fun heq => (by cases heq), rfl⟩
  | second c cmds =>
    cases c with
    | ideRead => exact ⟨fun heq => (by cases heq), rfl⟩
    | ideWrite => cases h
  | _ => cases h

/-- After `sema_down` no command is under way. -/
theorem Point.next_of_downNext (h : p.downNext = true) : p.next ≠ .outside ∧ p.next.pending = false := by
  cases p with
  | issued c cmds =>
    cases c with
    | ideRead => exact ⟨fun heq => (by cases heq), rfl⟩
    | ideWrite => cases h
  | second c cmds =>
    cases c with
    | ideRead => cases h
    | ideWrite => exact ⟨fun heq => (by cases heq), rfl⟩
  | _ => cases h

end Points

/-! ## The invariant -/

/-- What holds in every run of threads that use the channel. -/
structure Inv (a : Fields) (s : System) : Prop where
  sections : Sections a.lock s.locked fun p => s.point p ≠ .outside
  owner : ∀ p, (s.point p).inTurn = true → 0 < s.locked.depth p
  inDown : ∀ p, s.locked.kernel.blockedIn p = some (.semaDown a.diskDone) → (s.point p).downNext = true
  accepted : s.issued = s.accepted + s.expectingIntr.toNat
  taken : s.accepted = s.taken + (s.locked.kernel.semaphore a.diskDone).value.toNat
  balance : ∀ p, (s.point p).pending = true → s.issued = s.taken + 1
  free : (∀ p, (s.point p).pending = false) → s.issued = s.taken
  asleep : ∀ p ∈ (s.locked.kernel.semaphore a.diskDone).waiters, s.expectingIntr = true
  woken : ∀ p, s.locked.kernel.blockedIn p = some (.semaDown a.diskDone) →
    p ∉ (s.locked.kernel.semaphore a.diskDone).waiters →
    (s.locked.kernel.semaphore a.diskDone).value.toNat = 1

section Inv

variable {a : Fields} {s : System} {value : ℕ → UInt8}

theorem inv_boot (a : Fields) (value : ℕ → UInt8) : Inv a (System.boot a value) where
  sections := sections_boot _ fun _ hp => hp rfl
  owner _ hp := by cases hp
  inDown _ hp := by cases hp
  accepted := rfl
  taken := by
    have hvalue : ((System.boot a value).locked.kernel.semaphore a.diskDone).value = 0 :=
      (Function.update_of_ne a.ne.symm ..).trans (Function.update_self ..)
    rw [hvalue]
    rfl
  balance _ hp := by cases hp
  free _ := rfl
  asleep _ hp := by cases hp
  woken _ hp := by cases hp

/-- At most one thread has a command under way. -/
theorem Inv.one (h : Inv a s) {p q : ℕ} (hp : (s.point p).inTurn = true) (hq : (s.point q).inTurn = true) :
    p = q :=
  h.sections.own.one (h.owner p hp) (h.owner q hq)

/-- The thread that waits for an interrupt, if there is one, is the only one. -/
theorem Inv.waiters (h : Inv a s) {p : ℕ} (hp : p ∈ (s.locked.kernel.semaphore a.diskDone).waiters) :
    (s.locked.kernel.semaphore a.diskDone).waiters = [p] := by
  have hall {q : ℕ} (hq : q ∈ (s.locked.kernel.semaphore a.diskDone).waiters) : (s.point q).inTurn = true :=
    Point.inTurn_of_pending (Point.pending_of_downNext
      (h.inDown q ((h.sections.base.sched.wait.thread q).waiters _ hq).1))
  have hnodup := h.sections.base.sched.wait.nodup a.diskDone
  generalize (s.locked.kernel.semaphore a.diskDone).waiters = l at hp hall hnodup
  cases l with
  | nil => cases hp
  | cons q l =>
    have hrest : l = [] := by
      refine List.eq_nil_iff_forall_not_mem.mpr fun r hr => ?_
      obtain rfl := h.one (hall (List.mem_cons_of_mem _ hr)) (hall List.mem_cons_self)
      exact (List.nodup_cons.mp hnodup).1 hr
    subst hrest
    rw [List.mem_singleton.mp hp]

/-- Another semaphore or another part of the lock changes. -/
theorem Inv.setLocked {l' : Locked} (h : Inv a s) (hsections : Sections a.lock l' fun p => s.point p ≠ .outside)
    (hsame : SameWaiters a.diskDone s.locked.kernel l'.kernel)
    (hdepth : ∀ p, 0 < s.locked.depth p → 0 < l'.depth p) : Inv a (s.setLocked l') := by
  obtain ⟨hsema, hblocked⟩ := hsame
  constructor
  · exact hsections
  · exact fun p hp => hdepth p (h.owner p hp)
  · exact fun p hp => h.inDown p ((hblocked p).mp hp)
  · exact h.accepted
  · rw [System.setLocked_locked, hsema]
    exact h.taken
  · exact h.balance
  · exact h.free
  · rw [System.setLocked_locked, hsema]
    exact h.asleep
  · rw [System.setLocked_locked, hsema]
    exact fun p hp => h.woken p ((hblocked p).mp hp)

/-- The steps of a lock leave the other semaphores alone. -/
theorem lockStep_sameWaiters {l : Locked} {plock done : ℕ} (h : LockBase plock l)
    (he : LockEvent.step.Admitted plock l) (hne : plock ≠ done) :
    Exec.Ensures (lockStep plock) l fun _ l' => SameWaiters done l.kernel l'.kernel := by
  by_cases hdown : l.point l.cur = .acquireDown
  · have hadm : (KernelEvent.semaDown plock).Admitted l.kernel :=
      he.2.imp (fun hfree => ⟨hfree, h.ne_idle he.1⟩) id
    have hsame : Exec.Ensures (KernelEvent.semaDown plock).run l.kernel fun _ k' =>
        SameWaiters done l.kernel k' := KernelEvent.run_sameWaiters h.sched hadm hne
    simp only [KernelEvent.run, Exec.post_bind, Exec.post_pure] at hsame
    simp only [lockStep, Exec.post_bind, Exec.post_get, hdown, post_onKernel]
    refine Exec.Ensures.mono hsame fun taken k' hk' => ?_
    cases taken <;> exact hk'
  · by_cases hup : l.point l.cur = .releaseUp
    · have hfree : l.kernel.Interruptible := he.2.resolve_right fun hin => by
        have := h.inLoop _ hin
        rw [hup] at this
        cases this
      have hsame : Exec.Ensures (KernelEvent.semaUp plock).run l.kernel fun _ k' =>
          SameWaiters done l.kernel k' := KernelEvent.run_sameWaiters h.sched hfree hne
      simp only [lockStep, Exec.post_bind, Exec.post_get, hup, post_onKernel, Exec.post_modify]
      exact hsame
    · refine (lockStep_local hdown hup he.1).mono fun _ l' hl' => ?_
      rw [hl'.1]
      exact ⟨rfl, fun _ => Iff.rfl⟩

/-- A thread that is in no turn of the loop has no command under way. -/
theorem Point.pending_eq_false {p : Point} (h : p.inTurn = false) : p.pending = false :=
  Bool.eq_false_iff.mpr fun hp => Bool.eq_false_iff.mp h (Point.inTurn_of_pending hp)

/-- The count of the commands and the semaphore, when a command is under way and when none is. -/
theorem Inv.count_of_pending (h : Inv a s) {p : ℕ} (hp : (s.point p).pending = true) :
    s.expectingIntr.toNat + (s.locked.kernel.semaphore a.diskDone).value.toNat = 1 := by
  have := h.balance p hp
  have := h.accepted
  have := h.taken
  omega

theorem Inv.count_of_free (h : Inv a s) (hfree : ∀ p, (s.point p).pending = false) :
    s.expectingIntr.toNat = 0 ∧ (s.locked.kernel.semaphore a.diskDone).value.toNat = 0 := by
  have := h.free hfree
  have := h.accepted
  have := h.taken
  omega

/-- Never more than one completion is counted. -/
theorem Inv.count_le (h : Inv a s) :
    s.expectingIntr.toNat + (s.locked.kernel.semaphore a.diskDone).value.toNat ≤ 1 := by
  by_cases hall : ∀ p, (s.point p).pending = false
  · have := h.count_of_free hall
    omega
  · obtain ⟨p, hp⟩ := not_forall.mp hall
    exact (h.count_of_pending (Bool.not_eq_false _ ▸ hp)).le

/-- The running thread, if it holds the lock, is the only one in a turn of the loop. -/
theorem Inv.pending_eq_false (h : Inv a s) (hcur : 0 < s.locked.depth s.cur) {p : ℕ} (hp : p ≠ s.cur) :
    (s.point p).inTurn = false := by
  refine Bool.eq_false_iff.mpr fun hturn => hp ?_
  exact h.sections.own.one (h.owner p hturn) hcur

/-- The running thread goes on without giving a command and without `sema_down`. -/
theorem Inv.goto (h : Inv a s) {point : Point} {l' : Locked}
    (hsections : Sections a.lock l' fun p => Function.update s.point s.cur point p ≠ .outside)
    (hkernel : l'.kernel = s.locked.kernel) (hfree : s.locked.kernel.blockedIn s.cur = none)
    (hdepth : ∀ p, p ≠ s.cur → l'.depth p = s.locked.depth p)
    (hturn : point.inTurn = true → 0 < l'.depth s.cur) (hpending : point.pending = (s.point s.cur).pending) :
    Inv a ((s.goto point).setLocked l') := by
  have hsame (p : ℕ) : (Function.update s.point s.cur point p).pending = (s.point p).pending := by
    rw [Function.update_apply]
    split
    · rename_i hp
      rw [hp, hpending]
    · rfl
  constructor
  · exact hsections
  · intro p hp
    by_cases hcur : p = s.cur
    · subst hcur
      have hself : ((s.goto point).setLocked l').point s.cur = point := Function.update_self ..
      rw [hself] at hp
      exact hturn hp
    · refine Nat.lt_of_lt_of_eq (h.owner p ?_) (hdepth p hcur).symm
      rw [← hp]
      exact congrArg _ (Function.update_of_ne hcur ..).symm
  · intro p hp
    rw [System.setLocked_locked, hkernel] at hp
    have hcur : p ≠ s.cur := by
      rintro rfl
      rw [hfree] at hp
      cases hp
    refine Eq.trans ?_ (h.inDown p hp)
    exact congrArg _ (Function.update_of_ne hcur ..)
  · exact h.accepted
  · rw [System.setLocked_locked, hkernel]
    exact h.taken
  · intro p hp
    exact h.balance p ((hsame p).symm.trans hp)
  · intro hall
    exact h.free fun p => (hsame p).symm.trans (hall p)
  · rw [System.setLocked_locked, hkernel]
    exact h.asleep
  · rw [System.setLocked_locked, hkernel]
    exact h.woken

/-- A thread that moves inside of a call. -/
theorem sections_goto {l : Locked} {plock c : ℕ} {points : ℕ → Point} {point : Point}
    (h : Sections plock l fun p => points p ≠ .outside) (hold : points c ≠ .outside) (hnew : point ≠ .outside) :
    Sections plock l fun p => Function.update points c point p ≠ .outside := by
  refine h.congr fun p => ?_
  rw [Function.update_apply]
  split
  · rename_i hp
    rw [hp]
    exact ⟨fun _ => hold, fun _ => hnew⟩
  · rfl

/-- A thread calls `ide_read` or `ide_write`. -/
theorem Inv.call (h : Inv a s) {c : Call} {secCnt : ℕ} (he : (Event.call c secCnt).Admitted a s) :
    Exec.Ensures ((Event.call c secCnt).run a) s fun _ s' => Inv a s' := by
  obtain ⟨hadm, hout, -⟩ := he
  have hsections := h.sections.acquire hadm fun hne => hne hout
  change Inv a ((s.goto (.loop c ((secCnt + 255) / 256))).setLocked (s.locked.goto .acquireTest))
  refine h.goto (hsections.congr fun p => ?_) rfl hadm.1.1 (fun _ _ => rfl) (fun hturn => ?_) ?_
  · rw [Function.update_apply]
    split
    · rename_i hp
      exact ⟨fun _ => Or.inl hp, fun _ hloop => by cases hloop⟩
    · rename_i hp
      exact ⟨Or.inr, fun hor => hor.resolve_left hp⟩
  · cases hturn
  · rw [hout]
    rfl

/-- A step of the calls of the lock. -/
theorem Inv.lockStep (h : Inv a s) (he : Event.lockStep.Admitted a s) :
    Exec.Ensures (Event.lockStep.run a) s fun _ s' => Inv a s' := by
  refine post_inLock.mpr (((h.sections.step he).and
    (lockStep_sameWaiters h.sections.base he a.ne)).mono fun _ l' hl' => ?_)
  obtain ⟨⟨hsections, hstay⟩, hsame⟩ := hl'
  refine h.setLocked hsections hsame fun p hp => ?_
  by_cases hcur : p = s.cur
  · subst hcur
    exact absurd (h.sections.depth_eq_zero he.1) hp.ne'
  · rw [(hstay p hcur).2]
    exact hp

/-- A command is given. -/
theorem Inv.cmdOut (h : Inv a s) (he : Event.cmdOut.Admitted a s) :
    Exec.Ensures (Event.cmdOut.run a) s fun _ s' => Inv a s' := by
  obtain ⟨hfree, hout, hnext⟩ := he
  cases hpoint : s.point s.cur with
  | loop c cmds =>
    cases cmds with
    | zero => rw [hpoint] at hnext; cases hnext
    | succ cmds =>
      have hbusy : s.point s.cur ≠ .outside := by
        rw [hpoint]
        intro heq
        cases heq
      have hcur : 0 < s.locked.depth s.cur := by
        rw [h.sections.depth_eq_one hbusy hout]
        exact Nat.one_pos
      have hnone (p : ℕ) : (s.point p).inTurn = false := by
        by_cases hp : p = s.cur
        · rw [hp, hpoint]
          rfl
        · exact h.pending_eq_false hcur hp
      obtain ⟨hexpect, hvalue⟩ := h.count_of_free fun p => Point.pending_eq_false (hnone p)
      have hissued := h.free fun p => Point.pending_eq_false (hnone p)
      have hcmd : s.cmdOut.point = Function.update s.point s.cur (.issued c cmds) := by
        rw [System.cmdOut_point, hpoint]
        rfl
      change Inv a s.cmdOut
      constructor
      · rw [hcmd]
        exact sections_goto h.sections hbusy fun heq => by cases heq
      · intro p hp
        by_cases hp' : p = s.cur
        · exact hp' ▸ hcur
        · rw [hcmd, Function.update_of_ne hp', hnone p] at hp
          cases hp
      · intro p hp
        have hdown := Point.inTurn_of_pending (Point.pending_of_downNext (h.inDown p hp))
        rw [hnone p] at hdown
        cases hdown
      · change s.issued + 1 = s.accepted + 1
        have := h.accepted
        omega
      · exact h.taken
      · intro p _
        exact congrArg (· + 1) hissued
      · intro hall
        have hp := hall s.cur
        rw [hcmd, Function.update_self] at hp
        cases hp
      · intro p _
        rfl
      · intro p hp
        have hdown := Point.inTurn_of_pending (Point.pending_of_downNext (h.inDown p hp))
        rw [hnone p] at hdown
        cases hdown
  | _ => rw [hpoint] at hnext; cases hnext

/-- The data of a command is transferred. -/
theorem Inv.move (h : Inv a s) (he : Event.move.Admitted a s) :
    Exec.Ensures (Event.move.run a) s fun _ s' => Inv a s' := by
  obtain ⟨hfree, hout, hnext⟩ := he
  have hbusy : s.point s.cur ≠ .outside := by
    intro heq
    rw [heq] at hnext
    cases hnext
  have hcur : 0 < s.locked.depth s.cur := by
    rw [h.sections.depth_eq_one hbusy hout]
    exact Nat.one_pos
  have hafter := Point.next_of_moveNext hnext
  have hsections := sections_goto h.sections hbusy hafter.1
  exact h.goto hsections rfl hfree.1 (fun _ _ => rfl) (fun _ => hcur) hafter.2

/-- The lock is released. -/
theorem Inv.release (h : Inv a s) (he : Event.release.Admitted a s) :
    Exec.Ensures (Event.release.run a) s fun _ s' => Inv a s' := by
  obtain ⟨hadm, hover⟩ := he
  have hsections := h.sections.release hadm
  have hafter : (s.point s.cur).next = .outside ∧ (s.point s.cur).pending = false := by
    generalize s.point s.cur = point at hover
    cases point with
    | loop c cmds =>
      cases cmds with
      | zero => exact ⟨rfl, rfl⟩
      | succ cmds => cases hover
    | _ => cases hover
  change Inv a ((s.goto (s.point s.cur).next).setLocked (s.locked.leave.goto .releaseAssert))
  rw [hafter.1]
  refine h.goto (hsections.congr fun p => ?_) rfl hadm.1.1 (fun p hp => Function.update_of_ne hp ..)
    (fun hturn => ?_) hafter.2.symm
  · rw [Function.update_apply]
    split
    · rename_i hp
      exact ⟨fun hne => absurd rfl hne, fun hand => absurd hp hand.1⟩
    · rename_i hp
      exact ⟨fun hne => ⟨hp, hne⟩, And.right⟩
  · cases hturn

/-- The running thread calls `sema_down`, or goes on with its loop. -/
theorem Inv.admitted_semaDown (h : Inv a s) (he : Event.down.Admitted a s) :
    (KernelEvent.semaDown a.diskDone).Admitted s.locked.kernel := by
  obtain ⟨hin, hout, hnext⟩ := he
  refine hin.imp_left fun hfree => ⟨hfree, ?_⟩
  rw [h.sections.base.sched.main.2]
  intro heq
  have hzero := h.sections.base.idle.2
  rw [← heq, h.sections.depth_eq_one (fun hp => by rw [hp] at hnext; cases hnext) hout] at hzero
  cases hzero

/-- `sema_down` returns, or the thread sleeps. -/
theorem Inv.down (h : Inv a s) (he : Event.down.Admitted a s) :
    Exec.Ensures (Event.down.run a) s fun _ s' => Inv a s' := by
  have hadm := h.admitted_semaDown he
  obtain ⟨-, hout, hnext⟩ := he
  have hbusy : s.point s.cur ≠ .outside := by
    intro heq
    rw [heq] at hnext
    cases hnext
  have hpending := Point.pending_of_downNext hnext
  have hcur := h.owner _ (Point.inTurn_of_pending hpending)
  have hcount := h.count_of_pending hpending
  -- no other thread has a command under way
  have hothers {p : ℕ} (hp : p ≠ s.cur) : (s.point p).inTurn = false := h.pending_eq_false hcur hp
  have hblocked {p : ℕ} (hp : p ≠ s.cur) :
      s.locked.kernel.blockedIn p ≠ some (.semaDown a.diskDone) := by
    intro hin
    have hdown := Point.inTurn_of_pending (Point.pending_of_downNext (h.inDown p hin))
    rw [hothers hp] at hdown
    cases hdown
  have hsections := h.sections.other (e := .semaDown a.diskDone) ⟨hadm, a.ne.symm, Or.inl hout⟩
  simp only [KernelEvent.run, Exec.post_bind, Exec.post_pure] at hsections
  simp only [Event.run, Ide.down, Exec.post_bind, post_inLock, post_onKernel]
  refine Exec.Ensures.mono (Exec.Ensures.and hsections
    (semaDown_sched h.sections.base.sched hadm).ensures) fun taken k' hk' => ?_
  obtain ⟨hsections, -, -, hk'⟩ := hk'
  cases taken with
  | true =>
    obtain ⟨hvalue, rfl⟩ := hk'
    rw [hvalue] at hcount
    have hone : (1 : UInt8).toNat = 1 := rfl
    have hnext' := Point.next_of_downNext hnext
    have hfree (p : ℕ) : (Function.update s.point s.cur (s.point s.cur).next p).pending = false := by
      rw [Function.update_apply]
      split
      · exact hnext'.2
      · rename_i hp
        exact Point.pending_eq_false (hothers hp)
    have hissued := h.balance _ hpending
    have hvalue' : ((s.locked.kernel.taken a.diskDone).semaphore a.diskDone).value.toNat = 0 := by
      rw [Kernel.value_taken, hvalue]
      rfl
    have hwoken {p : ℕ} : (s.locked.kernel.taken a.diskDone).blockedIn p ≠ some (.semaDown a.diskDone) := by
      change Function.update s.locked.kernel.blockedIn s.cur none p ≠ _
      rw [Function.update_apply]
      split
      · exact (Option.some_ne_none _).symm
      · rename_i hp
        exact hblocked hp
    change Inv a (s.setLocked (s.locked.setKernel (s.locked.kernel.taken a.diskDone))).take
    constructor
    · exact sections_goto hsections hbusy hnext'.1
    · intro p hp
      by_cases hp' : p = s.cur
      · exact hp' ▸ hcur
      · have hsame : (s.setLocked (s.locked.setKernel (s.locked.kernel.taken a.diskDone))).take.point p =
            s.point p := Function.update_of_ne hp' ..
        rw [hsame, hothers hp'] at hp
        cases hp
    · intro p hp
      exact absurd hp hwoken
    · exact h.accepted
    · change s.accepted = s.taken + 1 + ((s.locked.kernel.taken a.diskDone).semaphore a.diskDone).value.toNat
      have := h.taken
      rw [hvalue, hone] at this
      rw [hvalue']
      exact this
    · intro p hp
      cases (hfree p).symm.trans hp
    · intro _
      exact hissued
    · intro p hp
      exact h.asleep p (Kernel.waiters_taken a.diskDone ▸ hp)
    · intro p hp
      exact absurd hp hwoken
  | false =>
    obtain ⟨hvalue, hk'⟩ := hk'
    have hsema : k'.semaphore a.diskDone = (s.locked.kernel.queued a.diskDone).semaphore a.diskDone := by
      rw [hk']
      rfl
    have hin : k'.blockedIn = Function.update s.locked.kernel.blockedIn s.cur (some (.semaDown a.diskDone)) := by
      rw [hk']
      rfl
    have hvalue' : (k'.semaphore a.diskDone).value = 0 := by
      rw [hsema, Kernel.value_queued, hvalue]
    have hwaiters : (k'.semaphore a.diskDone).waiters =
        (s.locked.kernel.semaphore a.diskDone).waiters ++ [s.cur] := by
      rw [hsema, Kernel.waiters_queued, if_pos rfl]
    have hexpect : s.expectingIntr = true := by
      rw [hvalue] at hcount
      cases hb : s.expectingIntr with
      | true => rfl
      | false => rw [hb] at hcount; cases hcount
    change Inv a (s.setLocked (s.locked.setKernel k'))
    constructor
    · exact hsections
    · exact h.owner
    · intro p hp
      by_cases hp' : p = s.cur
      · exact hp' ▸ hnext
      · refine absurd ?_ (hblocked hp')
        rw [← Function.update_of_ne hp' (some (.semaDown a.diskDone)) s.locked.kernel.blockedIn, ← hin]
        exact hp
    · exact h.accepted
    · have := h.taken
      rw [hvalue] at this
      change s.accepted = s.taken + (k'.semaphore a.diskDone).value.toNat
      rw [hvalue']
      exact this
    · exact h.balance
    · exact h.free
    · intro p _
      exact hexpect
    · intro p hp hnot
      refine absurd ?_ hnot
      change p ∈ (k'.semaphore a.diskDone).waiters
      rw [hwaiters]
      by_cases hp' : p = s.cur
      · exact List.mem_append_right _ (List.mem_singleton.mpr hp')
      · refine absurd ?_ (hblocked hp')
        rw [← Function.update_of_ne hp' (some (.semaDown a.diskDone)) s.locked.kernel.blockedIn, ← hin]
        exact hp

/-- An interrupt of the disk. -/
theorem Inv.interrupt (h : Inv a s) (he : Event.interrupt.Admitted a s) :
    Exec.Ensures (Event.interrupt.run a) s fun _ s' => Inv a s' := by
  simp only [Event.run, intrHdHandler, Exec.post_bind, Exec.post_get, Exec.post_ite, Exec.post_modify,
    post_inLock, post_onKernel, Exec.post_pure]
  refine ⟨fun hexpect => ?_, fun _ => h⟩
  have hsections := h.sections.other (e := .semaUp a.diskDone) ⟨he, a.ne.symm, Or.inr trivial⟩
  refine Exec.Ensures.mono (Exec.Ensures.and hsections (semaUp_sched h.sections.base.sched).ensures)
    fun _ k' hk' => ?_
  obtain ⟨hsections, -, -, hvalue, -, hk'⟩ := hk'
  have hsema : k'.semaphore a.diskDone = ⟨1, (s.locked.kernel.semaphore a.diskDone).waiters.tail⟩ := by
    rw [hk', Kernel.setThreads_semaphore, Kernel.setSemaphore_semaphore, Function.update_self]
  have hin : k'.blockedIn = s.locked.kernel.blockedIn := by
    rw [hk']
    rfl
  have hzero := congrArg UInt8.toNat hvalue
  change Inv a (s.accept.setLocked (s.locked.setKernel k'))
  constructor
  · exact hsections
  · exact h.owner
  · intro p hp
    change k'.blockedIn p = _ at hp
    rw [hin] at hp
    exact h.inDown p hp
  · have := h.accepted
    rw [hexpect] at this
    exact this
  · change s.accepted + 1 = s.taken + (k'.semaphore a.diskDone).value.toNat
    have := h.taken
    rw [hzero] at this
    rw [hsema, this]
    rfl
  · exact h.balance
  · exact h.free
  · intro p hp
    change p ∈ (k'.semaphore a.diskDone).waiters at hp
    rw [hsema] at hp
    have hmem := List.mem_of_mem_tail hp
    have hone := h.waiters hmem
    simp only [hone, List.tail_cons] at hp
    cases hp
  · intro p _ _
    change (k'.semaphore a.diskDone).value.toNat = 1
    rw [hsema]
    rfl

/-- Something else happens in the kernel. -/
theorem Inv.other (h : Inv a s) {e : KernelEvent} (he : (Event.other e).Admitted a s) :
    Exec.Ensures ((Event.other e).run a) s fun _ s' => Inv a s' := by
  obtain ⟨hadm, huses, -⟩ := he
  have hsame := e.run_sameWaiters h.sections.base.sched hadm.1 huses
  refine post_inLock.mpr (post_onKernel.mpr (((h.sections.other hadm).and hsame).mono fun _ k' hk' => ?_))
  exact h.setLocked hk'.1 hk'.2 fun _ => id

/-- Every event keeps the invariant. -/
theorem Event.run_inv {e : Event} (h : Inv a s) (he : e.Admitted a s) :
    Exec.Ensures (e.run a) s fun _ s' => Inv a s' := by
  cases e with
  | call c secCnt => exact h.call he
  | lockStep => exact h.lockStep he
  | cmdOut => exact h.cmdOut he
  | down => exact h.down he
  | move => exact h.move he
  | release => exact h.release he
  | interrupt => exact h.interrupt he
  | other e => exact h.other he

/-- No assertion of the lock, of `sema_down` and of `sema_up` fails. -/
theorem Inv.returns (h : Inv a s) {e : Event} (he : e.Admitted a s) (hother : ∀ e', e ≠ .other e') :
    Exec.Returns (e.run a) s fun _ _ => True := by
  have hle := h.count_le
  cases e with
  | call c secCnt => trivial
  | lockStep =>
    refine post_inLock.mpr ((LockEvent.run_ownership h.sections.base h.sections.own (e := .step)
      ⟨he, ?_⟩ ?_).mono fun _ _ _ => trivial)
    · intro heq
      cases heq
    · intro e' heq
      cases heq
  | cmdOut => trivial
  | down =>
    simp only [Event.run, Ide.down, Exec.post_bind, post_inLock, post_onKernel]
    refine Exec.Post.mono (semaDown_sched h.sections.base.sched (h.admitted_semaDown he))
      (fun taken k' _ => ?_) fun _ hgt => ?_
    · cases taken <;> trivial
    · rw [UInt8.lt_iff_toNat_lt] at hgt
      change 1 < _ at hgt
      omega
  | move => trivial
  | release => trivial
  | interrupt =>
    simp only [Event.run, intrHdHandler, Exec.post_bind, Exec.post_get, Exec.post_ite, Exec.post_modify,
      post_inLock, post_onKernel, Exec.post_pure]
    refine ⟨fun hexpect => ?_, fun _ => trivial⟩
    refine Exec.Post.mono (semaUp_sched h.sections.base.sched) (fun _ _ _ => trivial) fun _ hne => hne ?_
    rw [hexpect] at hle
    have hzero : (s.locked.kernel.semaphore a.diskDone).value.toNat = 0 := by
      change 1 + _ ≤ 1 at hle
      omega
    exact UInt8.toNat_inj.mp hzero
  | other e => exact absurd rfl (hother e)

/-- In every run the commands and their interrupts are in order. -/
theorem inOrder_of_run (h : System.Run a value s) : InOrder a s := by
  have hinv : Inv a s := h.invariant (inv_boot a value) fun _ _ hI he => Event.run_inv hI he
  have hle := hinv.count_le
  constructor
  · refine ⟨hinv.accepted, hinv.taken, ?_⟩
    have := hinv.accepted
    have := hinv.taken
    omega
  · exact fun p q hp hq => hinv.one hp hq
  · intro hall
    obtain ⟨hexpect, hvalue⟩ := hinv.count_of_free hall
    refine ⟨?_, UInt8.toNat_inj.mp hvalue⟩
    cases hb : s.expectingIntr with
    | false => rfl
    | true => rw [hb] at hexpect; cases hexpect
  · intro p hp
    have hin := ((hinv.sections.base.sched.wait.thread p).waiters _ hp).1
    exact ⟨hinv.inDown p hin, hinv.asleep p hp⟩
  · intro p hin hnot
    exact ⟨UInt8.toNat_inj.mp (hinv.woken p hin hnot),
      (hinv.sections.base.sched.wait.thread p).woken _ hin hnot⟩
  · exact fun e he hother => hinv.returns he hother

/-- `main` reads 300 sectors: it sleeps for the first command, and the interrupt of the second one
comes before `sema_down`. -/
theorem inOrder_of_run_read : ∃ s, System.Run ⟨0, 1, by decide⟩ (fun _ => 0) s ∧ s.taken = 2 ∧
    InOrder ⟨0, 1, by decide⟩ s := by
  have h : (Exec.runList (Event.run ⟨0, 1, by decide⟩) (fun s e => e.Admitted ⟨0, 1, by decide⟩ s)
      [.call .ideRead 300, .lockStep, .lockStep, .lockStep, .lockStep, .lockStep, .cmdOut, .down,
        .interrupt, .interrupt, .other .tick, .down, .move, .cmdOut, .interrupt, .down, .move, .release]
      (System.boot ⟨0, 1, by decide⟩ fun _ => 0)).any (fun s => s.taken == 2) = true := by
    decide +kernel
  obtain ⟨s, hrun, hs⟩ := Exec.Run.exists_of_any h
  exact ⟨s, hrun, by simpa using hs, inOrder_of_run hrun⟩

end Inv

end Ide

end Winx
