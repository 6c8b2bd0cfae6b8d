import Winx.Thread.MutualExclusion

/-! # Critical sections

Threads that touch some data only while they hold a lock do so one call after
the other, although another thread may run between any two of their actions: the
data is what the finished calls make of it in some order, with a part of one
more call.
-/

namespace Winx

/-- A thread has called `lock_acquire` and not returned from it. -/
def LockPoint.acquiring : LockPoint → Bool
  | .acquireTest | .acquireDown | .setHolder | .assertFree | .setRepeat => true
  | _ => false

/-- A thread has called `lock_release`, or is in no call. -/
def LockPoint.releasing : LockPoint → Bool
  | .outside | .releaseAssert | .releaseTest | .assertLast | .clearHolder | .clearRepeat | .releaseUp => true
  | _ => false

/-- The kernel with a lock and the data that it protects. `doing` is for each thread between its calls
of `lock_acquire` and `lock_release` what it has done to the data and what it has still to do, `called`
lists what it was called for, and `finished` the calls that are over. -/
structure Guarded (σ α : Type) where
  locked : Locked
  data : σ
  doing : ℕ → Option (List α × List α)
  called : ℕ → List (List α)
  finished : List (ℕ × List α)

/-- Code of threads that share the data. -/
abbrev GuardM (σ α : Type) (β : Type) := Exec (Guarded σ α) Fault β

/-- An event: the running thread begins a call, goes on with `lock_acquire` or `lock_release`, does
something to the data, or calls `lock_release`; or something else happens in the kernel. -/
inductive GuardEvent (α : Type)
  | call (work : List α)
  | step
  | act
  | leave
  | other (e : KernelEvent)

section Model

variable {σ α : Type} (apply : α → σ → σ) (plock : ℕ)

namespace Guarded

variable (g : Guarded σ α)

/-- The running thread. -/
abbrev cur : ℕ := g.locked.cur

/-- Change the kernel and the lock. -/
@[simps -fullyApplied] def setLocked (l : Locked) : Guarded σ α := { g with locked := l }

/-- The running thread begins a call. -/
@[simps -fullyApplied] def begin (work : List α) : Guarded σ α :=
  { g with
    doing := Function.update g.doing g.cur (some ([], work))
    called := Function.update g.called g.cur (g.called g.cur ++ [work]) }

/-- The running thread does the next thing to the data. -/
def act : Guarded σ α :=
  match g.doing g.cur with
  | some (done, a :: left) =>
    { g with
      data := apply a g.data
      doing := Function.update g.doing g.cur (some (done ++ [a], left)) }
  | _ => g

/-- The running thread is done with the data. -/
def finish : Guarded σ α :=
  match g.doing g.cur with
  | some (done, _) =>
    { g with
      doing := Function.update g.doing g.cur none
      finished := g.finished ++ [(g.cur, done)] }
  | none => g

end Guarded

/-- Code of a lock. -/
def onLocked {β : Type} (m : LockM β) : GuardM σ α β := fun g =>
  match m g.locked with
  | .ok (b, l) => .ok (b, g.setLocked l)
  | .error e => .error e

@[simp] theorem post_onLocked {β : Type} {m : LockM β} {g : Guarded σ α} {Q : β → Guarded σ α → Prop}
    {E : Fault → Prop} :
    Exec.Post (onLocked m) g Q E ↔ Exec.Post m g.locked (fun b l => Q b (g.setLocked l)) E := by
  unfold Exec.Post onLocked
  cases m g.locked <;> rfl

/-- The code of an event. -/
def GuardEvent.run : GuardEvent α → GuardM σ α Unit
  | call work => do
    modify fun g => g.begin work
    onLocked (LockEvent.acquire.run plock)
  | step => onLocked (LockEvent.step.run plock)
  | act => modify fun g => g.act apply
  | leave => do
    modify fun g => g.finish
    onLocked (LockEvent.release.run plock)
  | other e => onLocked ((LockEvent.other e).run plock)

/-- Whether an event can happen. Between its calls of `lock_acquire` and `lock_release` a thread can
only be interrupted. -/
def GuardEvent.Admitted (g : Guarded σ α) : GuardEvent α → Prop
  | call _ => LockEvent.acquire.Admitted plock g.locked ∧ (g.doing g.cur).isNone = true
  | step => LockEvent.step.Admitted plock g.locked
  | act => g.locked.kernel.Interruptible ∧ g.locked.point g.cur = .outside ∧
    (g.doing g.cur).any (fun w => !w.2.isEmpty) = true
  | leave => LockEvent.release.Admitted plock g.locked ∧
    (g.doing g.cur).any (fun w => w.2.isEmpty) = true
  | other e => (LockEvent.other e).Admitted plock g.locked ∧
    ((g.doing g.cur).isNone = true ∨ e.IsInterrupt)

instance (g : Guarded σ α) (e : GuardEvent α) : Decidable (e.Admitted plock g) := by
  cases e <;> unfold GuardEvent.Admitted <;> infer_instance

/-- The kernel after `lock_init`, before any call. -/
def Guarded.boot (value : ℕ → UInt8) (data : σ) : Guarded σ α where
  locked := Locked.boot plock value
  data := data
  doing _ := none
  called _ := []
  finished := []

/-- The runs of threads that share the data. -/
abbrev Guarded.Run (value : ℕ → UInt8) (data : σ) (g : Guarded σ α) : Prop :=
  Exec.Run (GuardEvent.run apply plock) (fun g e => e.Admitted plock g) (Guarded.boot plock value data) g

/-- The data after some actions. -/
def replay (data : σ) (work : List α) : σ := work.foldl (fun s a => apply a s) data

/-- The actions of the calls that are over. -/
def Guarded.history (g : Guarded σ α) : List α := g.finished.flatMap Prod.snd

/-- The threads take turns: the data is what the finished calls make of it, one after the other, with a
part of at most one call that is not finished. No call is lost or done twice, those of a thread are in
their order, and no assertion in the lock fails. -/
structure TakesTurns (data : σ) (g : Guarded σ α) : Prop where
  data : ∃ part, g.data = replay apply data (g.history ++ part) ∧
    (part = [] ∨ ∃ p left, g.doing p = some (part, left))
  calls : ∀ p, (g.finished.filter fun c => c.1 = p).map Prod.snd ++
    (g.doing p).toList.map (fun w => w.1 ++ w.2) = g.called p
  asserts : ∀ e : GuardEvent α, e.Admitted plock g → (∀ e', e ≠ .other e') →
    Exec.Returns (e.run apply plock) g fun _ _ => True

end Model

/-! ## The points of a call -/

section Points

variable {l : Locked} {plock : ℕ}

/-- Nothing but the running thread moves. -/
def Locked.OthersStay (l l' : Locked) : Prop :=
  ∀ q, q ≠ l.cur → l'.point q = l.point q ∧ l'.depth q = l.depth q

/-- A thread goes on with `lock_acquire` until it has the lock. -/
theorem lockStep_acquiring (h : LockBase plock l) (hown : Ownership plock l)
    (he : LockEvent.step.Admitted plock l) (hdepth : l.depth l.cur = 0)
    (hpoint : (l.point l.cur).acquiring = true) :
    Exec.Ensures (lockStep plock) l fun _ l' => l.OthersStay l' ∧
      ((l'.point l.cur).acquiring = true ∧ l'.depth l.cur = 0 ∨
        l'.point l.cur = .outside ∧ l'.depth l.cur = 1) := by
  have hmove (l' : Locked) {point : LockPoint} (hp : l'.point = Function.update l.point l.cur point)
      (hd : l'.depth = l.depth) (hpt : point.acquiring = true) : l.OthersStay l' ∧
      ((l'.point l.cur).acquiring = true ∧ l'.depth l.cur = 0 ∨
        l'.point l.cur = .outside ∧ l'.depth l.cur = 1) := by
    refine ⟨fun q hq => ⟨?_, by rw [hd]⟩, Or.inl ⟨?_, by rw [hd, hdepth]⟩⟩
    · rw [hp, Function.update_of_ne hq]
    · rw [hp, Function.update_self, hpt]
  cases hp : l.point l.cur with
  | acquireTest =>
    have hout : l.Out l.cur := (hown.cases l.cur).resolve_left fun howner => by
      simp only [Locked.Owner, hp] at howner
      omega
    have hholder := hown.holder_of_out hout
    simp only [lockStep, Exec.post_bind, Exec.post_get, hp, Exec.post_ite, Exec.post_set]
    exact ⟨fun _ => hmove _ rfl rfl rfl, fun hn => absurd hholder hn⟩
  | acquireDown =>
    have hadm : (KernelEvent.semaDown plock).Admitted l.kernel :=
      he.2.imp (fun hfree => ⟨hfree, h.ne_idle he.1⟩) id
    simp only [lockStep, Exec.post_bind, Exec.post_get, hp, post_onKernel]
    refine Exec.Post.mono (semaDown_sched h.sched hadm) (fun taken k' hk' => ?_) fun _ _ => trivial
    obtain ⟨-, -, hk'⟩ := hk'
    cases taken with
    | true =>
      obtain ⟨-, rfl⟩ := hk'
      exact hmove _ rfl rfl rfl
    | false =>
      refine ⟨fun q _ => ⟨rfl, rfl⟩, Or.inl ⟨?_, hdepth⟩⟩
      change (l.point l.cur).acquiring = true
      rw [hp]
      rfl
  | setHolder =>
    simp only [lockStep, Exec.post_bind, Exec.post_get, hp, Exec.post_set]
    exact hmove _ rfl rfl rfl
  | assertFree =>
    simp only [lockStep, Exec.post_bind, Exec.post_get, hp, post_assert, Exec.post_set]
    exact ⟨fun _ => hmove _ rfl rfl rfl, fun _ => trivial⟩
  | setRepeat =>
    simp only [lockStep, Exec.post_bind, Exec.post_get, hp, Exec.post_set]
    refine ⟨fun q hq => ⟨Function.update_of_ne hq .., Function.update_of_ne hq ..⟩, Or.inr ⟨?_, ?_⟩⟩
    · exact Function.update_self ..
    · refine (Function.update_self ..).trans ?_
      change l.depth l.cur + 1 = 1
      rw [hdepth]
  | _ => rw [hp] at hpoint; cases hpoint

/-- A thread goes on with `lock_release` until it has no part in the lock. -/
theorem lockStep_releasing (h : LockBase plock l) (hown : Ownership plock l)
    (he : LockEvent.step.Admitted plock l) (hdepth : l.depth l.cur = 0)
    (hpoint : (l.point l.cur).releasing = true) :
    Exec.Ensures (lockStep plock) l fun _ l' => l.OthersStay l' ∧
      (l'.point l.cur).releasing = true ∧ l'.depth l.cur = 0 := by
  have hmove (l' : Locked) {point : LockPoint} (hp : l'.point = Function.update l.point l.cur point)
      (hd : l'.depth = l.depth) (hpt : point.releasing = true) : l.OthersStay l' ∧
      (l'.point l.cur).releasing = true ∧ l'.depth l.cur = 0 := by
    refine ⟨fun q hq => ⟨?_, by rw [hd]⟩, ?_, by rw [hd, hdepth]⟩
    · rw [hp, Function.update_of_ne hq]
    · rw [hp, Function.update_self, hpt]
  cases hp : l.point l.cur with
  | outside => exact absurd hp he.1
  | releaseAssert =>
    simp only [lockStep, Exec.post_bind, Exec.post_get, hp, post_assert, Exec.post_set]
    exact ⟨fun _ => hmove _ rfl rfl rfl, fun _ => trivial⟩
  | releaseTest =>
    -- the count is one, as the thread owns the lock and nests no calls
    have howner : l.Owner l.cur := (hown.cases l.cur).resolve_right fun hout => by
      rcases hout.2 with hout | hout | hout <;> (rw [hp] at hout; cases hout)
    simp only [Locked.Owner, hp, hdepth] at howner
    simp only [lockStep, Exec.post_bind, Exec.post_get, hp, Exec.post_ite, Exec.post_set]
    refine ⟨fun hgt => ?_, fun _ => hmove _ rfl rfl rfl⟩
    rw [gt_iff_lt, UInt32.lt_iff_toNat_lt, howner.2] at hgt
    exact absurd hgt (Nat.lt_irrefl _)
  | assertLast =>
    simp only [lockStep, Exec.post_bind, Exec.post_get, hp, post_assert, Exec.post_set]
    exact ⟨fun _ => hmove _ rfl rfl rfl, fun _ => trivial⟩
  | clearHolder =>
    simp only [lockStep, Exec.post_bind, Exec.post_get, hp, Exec.post_set]
    exact hmove _ rfl rfl rfl
  | clearRepeat =>
    simp only [lockStep, Exec.post_bind, Exec.post_get, hp, Exec.post_set]
    exact hmove _ rfl rfl rfl
  | releaseUp =>
    simp only [lockStep, Exec.post_bind, Exec.post_get, hp, post_onKernel, Exec.post_modify]
    refine Exec.Post.mono (semaUp_sched h.sched) (fun _ k' hk' => ?_) fun _ _ => trivial
    obtain ⟨-, -, -, hcur, -⟩ := hk'
    have hpoint' : ((l.setKernel k').goto .outside).point = Function.update l.point l.cur .outside := by
      change Function.update l.point k'.cur .outside = _
      rw [hcur]
    exact hmove _ hpoint' rfl rfl
  | _ => rw [hp] at hpoint; cases hpoint

/-- Two threads cannot be between their calls of the lock. -/
theorem Ownership.one (h : Ownership plock l) {p q : ℕ} (hp : 0 < l.depth p) (hq : 0 < l.depth q) : p = q := by
  rcases h with ⟨-, -, -, hall⟩ | ⟨-, o, -, hothers⟩
  · exact absurd (hall p).1 hp.ne'
  · have heq {r : ℕ} (hr : 0 < l.depth r) : r = o := by
      by_contra hne
      exact hr.ne' (hothers r hne).1
    rw [heq hp, heq hq]

/-- The threads in `busy` have called `lock_acquire` and not yet `lock_release`, and nest no calls. -/
structure Sections (plock : ℕ) (l : Locked) (busy : ℕ → Prop) : Prop where
  base : LockBase plock l
  own : Ownership plock l
  idle : ∀ p, ¬ busy p → (l.point p).releasing = true ∧ l.depth p = 0
  busy : ∀ p, busy p → (l.point p).acquiring = true ∧ l.depth p = 0 ∨ l.point p = .outside ∧ l.depth p = 1

variable {busy : ℕ → Prop} {p : ℕ}

/-- A thread that calls `lock_acquire`. -/
theorem Sections.acquire (h : Sections plock l busy) (he : LockEvent.acquire.Admitted plock l)
    (hcur : ¬ busy l.cur) : Sections plock (l.goto .acquireTest) fun p => p = l.cur ∨ busy p := by
  have hdepth := (h.idle _ hcur).2
  have hshallow : Shallow plock l .acquire := ⟨he, fun _ => by
    rw [hdepth]
    decide⟩
  obtain ⟨hbase, hown⟩ := (LockEvent.run_lockInv h.base h.own hshallow).of_ok rfl
  have hpoint {p : ℕ} (hp : p ≠ l.cur) : (l.goto .acquireTest).point p = l.point p := Function.update_of_ne hp ..
  constructor
  · exact hbase
  · exact hown
  · intro p hp
    rw [not_or] at hp
    rw [hpoint hp.1]
    exact h.idle p hp.2
  · intro p hp
    by_cases heq : p = l.cur
    · subst heq
      refine Or.inl ⟨?_, hdepth⟩
      change (Function.update l.point l.cur .acquireTest l.cur).acquiring = true
      rw [Function.update_self]
      rfl
    · rw [hpoint heq]
      exact h.busy p (hp.resolve_left heq)

/-- A thread that calls `lock_release`. -/
theorem Sections.release (h : Sections plock l busy) (he : LockEvent.release.Admitted plock l) :
    Sections plock (l.leave.goto .releaseAssert) fun p => p ≠ l.cur ∧ busy p := by
  obtain ⟨hbase, hown⟩ :=
    (LockEvent.run_lockInv h.base h.own (e := .release) ⟨he, fun heq => by cases heq⟩).of_ok rfl
  have hone : l.depth l.cur = 1 := by
    by_cases hcur : busy l.cur
    · exact ((h.busy _ hcur).resolve_left fun hacq => he.2.2.ne' hacq.2).2
    · exact absurd (h.idle _ hcur).2 he.2.2.ne'
  have hstay : l.OthersStay (l.leave.goto .releaseAssert) :=
    fun q hq => ⟨Function.update_of_ne hq .., Function.update_of_ne hq ..⟩
  constructor
  · exact hbase
  · exact hown
  · intro p hp
    by_cases heq : p = l.cur
    · subst heq
      refine ⟨?_, (Function.update_self ..).trans ?_⟩
      · change (Function.update l.point l.cur .releaseAssert l.cur).releasing = true
        rw [Function.update_self]
        rfl
      · rw [hone]
    · have hidle := h.idle p fun hb => hp ⟨heq, hb⟩
      rwa [← (hstay p heq).1, ← (hstay p heq).2] at hidle
  · intro p hp
    have hb := h.busy p hp.2
    rwa [← (hstay p hp.1).1, ← (hstay p hp.1).2] at hb

/-- A thread inside of a call of the lock does not own it, or gives it back. -/
theorem Sections.depth_eq_zero (h : Sections plock l busy) (he : l.point p ≠ .outside) : l.depth p = 0 := by
  by_cases hp : busy p
  · exact ((h.busy p hp).resolve_right fun hout => he hout.1).2
  · exact (h.idle p hp).2

/-- A thread that goes on with a call of the lock. -/
theorem Sections.step (h : Sections plock l busy) (he : LockEvent.step.Admitted plock l) :
    Exec.Ensures (lockStep plock) l fun _ l' => Sections plock l' busy ∧ l.OthersStay l' := by
  have hlock := LockEvent.run_lockInv h.base h.own (e := .step) ⟨he, fun heq => by cases heq⟩
  have hdepth := h.depth_eq_zero he.1
  -- the threads that do not move keep their part
  have hkeep {l' : Locked} (hstay : l.OthersStay l') (hbase : LockBase plock l') (hown : Ownership plock l')
      (hidle : ¬ busy l.cur → (l'.point l.cur).releasing = true ∧ l'.depth l.cur = 0)
      (hbusy : busy l.cur → (l'.point l.cur).acquiring = true ∧ l'.depth l.cur = 0 ∨
        l'.point l.cur = .outside ∧ l'.depth l.cur = 1) : Sections plock l' busy := by
    refine ⟨hbase, hown, fun p hp => ?_, fun p hp => ?_⟩
    · by_cases heq : p = l.cur
      · exact heq ▸ hidle (heq ▸ hp)
      · rw [(hstay p heq).1, (hstay p heq).2]
        exact h.idle p hp
    · by_cases heq : p = l.cur
      · exact heq ▸ hbusy (heq ▸ hp)
      · rw [(hstay p heq).1, (hstay p heq).2]
        exact h.busy p hp
  by_cases hcur : busy l.cur
  · have hacq := ((h.busy _ hcur).resolve_right fun hout => he.1 hout.1).1
    refine (hlock.and (lockStep_acquiring h.base h.own he hdepth hacq)).mono fun _ l' hl' => ?_
    obtain ⟨⟨hbase, hown⟩, hstay, hafter⟩ := hl'
    exact ⟨hkeep hstay hbase hown (fun hn => absurd hcur hn) fun _ => hafter, hstay⟩
  · have hrel := (h.idle _ hcur).1
    refine (hlock.and (lockStep_releasing h.base h.own he hdepth hrel)).mono fun _ l' hl' => ?_
    obtain ⟨⟨hbase, hown⟩, hstay, hafter⟩ := hl'
    exact ⟨hkeep hstay hbase hown (fun _ => hafter) fun hb => absurd hb hcur, hstay⟩

/-- Something else happens in the kernel. -/
theorem Sections.other (h : Sections plock l busy) {e : KernelEvent}
    (he : (LockEvent.other e).Admitted plock l) :
    Exec.Ensures e.run l.kernel fun _ k' => Sections plock (l.setKernel k') busy := by
  have hlock := LockEvent.run_lockInv h.base h.own (e := .other e) ⟨he, fun heq => by cases heq⟩
  exact Exec.Ensures.mono (post_onKernel.mp hlock) fun _ _ hk' => ⟨hk'.1, hk'.2, h.idle, h.busy⟩

/-- A thread between its calls of the lock owns it. -/
theorem Sections.depth_eq_one (h : Sections plock l busy) (hp : busy p) (hout : l.point p = .outside) :
    l.depth p = 1 := by
  refine ((h.busy p hp).resolve_left fun hacq => ?_).2
  rw [hout] at hacq
  cases hacq.1

theorem sections_boot (value : ℕ → UInt8) (hbusy : ∀ p, ¬ busy p) : Sections plock (Locked.boot plock value) busy where
  base := lockBase_boot value
  own := ownership_boot value
  idle _ _ := ⟨rfl, rfl⟩
  busy p hp := absurd hp (hbusy p)

theorem Sections.congr {busy' : ℕ → Prop} (h : Sections plock l busy) (hiff : ∀ p, busy' p ↔ busy p) :
    Sections plock l busy' where
  base := h.base
  own := h.own
  idle p hp := h.idle p fun hb => hp ((hiff p).mpr hb)
  busy p hp := h.busy p ((hiff p).mp hp)

end Points

/-! ## The invariant -/

section Inv

variable {σ α : Type} {apply : α → σ → σ} {plock : ℕ} {data : σ} {g : Guarded σ α}

/-- What holds in every run of threads that share the data. -/
structure SectionInv (apply : α → σ → σ) (plock : ℕ) (data : σ) (g : Guarded σ α) : Prop where
  sections : Sections plock g.locked fun p => g.doing p ≠ none
  fresh : ∀ p done left, g.doing p = some (done, left) → g.locked.depth p = 0 → done = []
  owner : ∀ p done left, g.doing p = some (done, left) → 0 < g.locked.depth p →
    g.data = replay apply data (g.history ++ done)
  free : (∀ p, g.locked.depth p = 0) → g.data = replay apply data g.history
  calls : ∀ p, (g.finished.filter fun c => c.1 = p).map Prod.snd ++
    (g.doing p).toList.map (fun w => w.1 ++ w.2) = g.called p

theorem replay_append (work work' : List α) :
    replay apply data (work ++ work') = replay apply (replay apply data work) work' := List.foldl_append

theorem Guarded.act_eq {done left : List α} {a : α} (h : g.doing g.cur = some (done, a :: left)) :
    g.act apply =
      { g with
        data := apply a g.data
        doing := Function.update g.doing g.cur (some (done ++ [a], left)) } := by
  unfold Guarded.act
  rw [h]

theorem Guarded.finish_eq {done left : List α} (h : g.doing g.cur = some (done, left)) :
    g.finish =
      { g with
        doing := Function.update g.doing g.cur none
        finished := g.finished ++ [(g.cur, done)] } := by
  unfold Guarded.finish
  rw [h]

@[simp] theorem Guarded.act_called (g : Guarded σ α) : (g.act apply).called = g.called := by
  unfold Guarded.act
  split <;> rfl

@[simp] theorem Guarded.finish_called (g : Guarded σ α) : g.finish.called = g.called := by
  unfold Guarded.finish
  split <;> rfl

theorem sectionInv_boot (value : ℕ → UInt8) : SectionInv apply plock data (Guarded.boot plock value data) where
  sections := sections_boot value fun _ hp => hp rfl
  fresh _ _ _ hp := by cases hp
  owner _ _ _ hp := by cases hp
  free _ := rfl
  calls _ := rfl

/-- What a thread does after its place is known. -/
theorem doing_update_iff {o : Option (List α × List α)} {c p : ℕ} (doing : ℕ → Option (List α × List α)) :
    Function.update doing c o p ≠ none ↔ if p = c then o ≠ none else doing p ≠ none := by
  rw [Function.update_apply]
  split <;> rfl

/-- The running thread goes on with a call of the lock. -/
theorem SectionInv.step (h : SectionInv apply plock data g) (he : LockEvent.step.Admitted plock g.locked) :
    Exec.Ensures (GuardEvent.step.run apply plock) g fun _ g' => SectionInv apply plock data g' := by
  refine post_onLocked.mpr ((h.sections.step he).mono fun _ l' hl' => ?_)
  obtain ⟨hsections, hstay⟩ := hl'
  have hdepth := h.sections.depth_eq_zero he.1
  have hothers (hall : ∀ p, p ≠ g.cur → l'.depth p = 0) (p : ℕ) : g.locked.depth p = 0 := by
    by_cases hp : p = g.cur
    · rw [hp, hdepth]
    · rw [← (hstay p hp).2, hall p hp]
  constructor
  · exact hsections
  · intro p done left hp hzero
    by_cases hcur : p = g.cur
    · exact h.fresh p done left hp (by rw [hcur, hdepth])
    · exact h.fresh p done left hp ((hstay p hcur).2.symm.trans hzero)
  · intro p done left hp hpos
    by_cases hcur : p = g.cur
    · subst hcur
      obtain rfl := h.fresh _ done left hp hdepth
      rw [List.append_nil]
      refine h.free (hothers fun q hq => ?_)
      by_contra hne
      exact hq (hsections.own.one (Nat.pos_of_ne_zero hne) hpos)
    · refine h.owner p done left hp ?_
      rw [← (hstay p hcur).2]
      exact hpos
  · intro hall
    exact h.free (hothers fun p _ => hall p)
  · exact h.calls

/-- A thread calls `lock_acquire`. -/
theorem SectionInv.call (h : SectionInv apply plock data g) (work : List α)
    (he : (GuardEvent.call work).Admitted plock g) :
    Exec.Ensures ((GuardEvent.call work).run apply plock) g fun _ g' => SectionInv apply plock data g' := by
  obtain ⟨hadm, hnone⟩ := he
  rw [Option.isNone_iff_eq_none] at hnone
  have hsections := h.sections.acquire hadm fun hne => hne hnone
  have hdepth := (h.sections.idle _ fun hne => hne hnone).2
  change SectionInv apply plock data ((g.begin work).setLocked (g.locked.goto .acquireTest))
  constructor
  · refine hsections.congr fun p => (doing_update_iff g.doing).trans ?_
    by_cases hp : p = g.cur
    · rw [if_pos hp]
      exact ⟨fun _ => Or.inl hp, fun _ => Option.some_ne_none _⟩
    · rw [if_neg hp]
      exact ⟨Or.inr, fun hor => hor.resolve_left hp⟩
  · intro p done left hp hzero
    by_cases hcur : p = g.cur
    · subst hcur
      have hself : (g.begin work).doing g.cur = some ([], work) := Function.update_self ..
      cases hself.symm.trans hp
      rfl
    · exact h.fresh p done left ((Function.update_of_ne hcur ..).symm.trans hp) hzero
  · intro p done left hp hpos
    have hne : p ≠ g.cur := by
      rintro rfl
      exact hpos.ne' hdepth
    exact h.owner p done left ((Function.update_of_ne hne ..).symm.trans hp) hpos
  · exact h.free
  · intro p
    have hcalls := h.calls p
    by_cases hcur : p = g.cur
    · subst hcur
      rw [hnone, Option.toList_none, List.map_nil, List.append_nil] at hcalls
      simp only [Guarded.setLocked_finished, Guarded.setLocked_doing, Guarded.setLocked_called,
        Guarded.begin_finished, Guarded.begin_doing, Guarded.begin_called, Function.update_self, hcalls]
      simp
    · simp only [Guarded.setLocked_finished, Guarded.setLocked_doing, Guarded.setLocked_called,
        Guarded.begin_finished, Guarded.begin_doing, Guarded.begin_called, Function.update_of_ne hcur]
      exact hcalls

/-- The owner of the lock does something to the data. -/
theorem SectionInv.act (h : SectionInv apply plock data g) (he : GuardEvent.act.Admitted plock g) :
    Exec.Ensures (GuardEvent.act.run apply plock) g fun _ g' => SectionInv apply plock data g' := by
  obtain ⟨-, hpoint, hdoing⟩ := he
  obtain ⟨⟨done, work⟩, hcur, hwork⟩ := (Option.any_eq_true _ _).mp hdoing
  have hbusy : g.doing g.cur ≠ none := by
    rw [hcur]
    exact Option.some_ne_none _
  have hdepth := h.sections.depth_eq_one hbusy hpoint
  have hpos : 0 < g.locked.depth g.cur := by
    rw [hdepth]
    exact Nat.one_pos
  cases work with
  | nil => cases hwork
  | cons a left =>
    change SectionInv apply plock data (g.act apply)
    rw [Guarded.act_eq hcur]
    constructor
    · refine h.sections.congr fun p => (doing_update_iff g.doing).trans ?_
      split
      · rename_i hp
        rw [hp]
        exact ⟨fun _ => hbusy, fun _ => Option.some_ne_none _⟩
      · rfl
    · intro p done' left' hp hzero
      have hne : p ≠ g.cur := by
        rintro rfl
        exact hpos.ne' hzero
      exact h.fresh p done' left' ((Function.update_of_ne hne ..).symm.trans hp) hzero
    · intro p done' left' hp hpos'
      obtain rfl := h.sections.own.one hpos' hpos
      have hself : Function.update g.doing g.cur (some (done ++ [a], left)) g.cur = some (done ++ [a], left) :=
        Function.update_self ..
      cases hself.symm.trans hp
      have hdata := h.owner _ _ _ hcur hpos
      change apply a g.data = replay apply data (g.history ++ (done ++ [a]))
      rw [← List.append_assoc, replay_append, ← hdata]
      rfl
    · intro hall
      exact absurd (hall g.cur) hpos.ne'
    · intro p
      have hcalls := h.calls p
      by_cases hp : p = g.cur
      · subst hp
        rw [hcur] at hcalls
        simp only [Function.update_self, ← hcalls]
        simp
      · simp only [Function.update_of_ne hp]
        exact hcalls

/-- The owner of the lock calls `lock_release`. -/
theorem SectionInv.leave (h : SectionInv apply plock data g) (he : GuardEvent.leave.Admitted plock g) :
    Exec.Ensures (GuardEvent.leave.run apply plock) g fun _ g' => SectionInv apply plock data g' := by
  obtain ⟨hadm, hdoing⟩ := he
  obtain ⟨⟨done, work⟩, hcur, hwork⟩ := (Option.any_eq_true _ _).mp hdoing
  obtain rfl : work = [] := List.isEmpty_iff.mp hwork
  have hpos := hadm.2.2
  have hsections := h.sections.release hadm
  have hdata := h.owner _ _ _ hcur hpos
  simp only [GuardEvent.run, Exec.post_bind, Exec.post_modify, post_onLocked, Guarded.finish_eq hcur]
  have hzero (p : ℕ) : (g.locked.leave.goto .releaseAssert).depth p = 0 := by
    by_contra hne
    have hp : p ≠ g.cur := by
      rintro rfl
      refine hne ((Function.update_self ..).trans ?_)
      rw [h.sections.depth_eq_one (by rw [hcur]; exact Option.some_ne_none _) hadm.2.1]
    refine hp (h.sections.own.one (Nat.pos_of_ne_zero ?_) hpos)
    rwa [← show (g.locked.leave.goto .releaseAssert).depth p = g.locked.depth p from Function.update_of_ne hp ..]
  constructor
  · refine hsections.congr fun p => (doing_update_iff g.doing).trans ?_
    split
    · rename_i hp
      exact ⟨fun hne => absurd rfl hne, fun hand => absurd hp hand.1⟩
    · rename_i hp
      exact ⟨fun hne => ⟨hp, hne⟩, And.right⟩
  · intro p done' left' hp _
    have hne : p ≠ g.cur := by
      rintro rfl
      cases (Function.update_self ..).symm.trans hp
    refine h.fresh p done' left' ((Function.update_of_ne hne ..).symm.trans hp) ?_
    exact (Function.update_of_ne hne ..).symm.trans (hzero p)
  · intro p done' left' _ hpos'
    exact absurd (hzero p) hpos'.ne'
  · intro _
    refine hdata.trans (congrArg _ ?_)
    simp [Guarded.history]
  · intro p
    have hcalls := h.calls p
    by_cases hp : p = g.cur
    · subst hp
      rw [hcur] at hcalls
      simp only [Guarded.setLocked_finished, Guarded.setLocked_doing, Guarded.setLocked_called,
        Function.update_self, ← hcalls]
      simp
    · simp only [Guarded.setLocked_finished, Guarded.setLocked_doing, Guarded.setLocked_called,
        Function.update_of_ne hp, ← hcalls]
      simp [Ne.symm hp]

/-- Something else happens in the kernel. -/
theorem SectionInv.other (h : SectionInv apply plock data g) {e : KernelEvent}
    (he : (LockEvent.other e).Admitted plock g.locked) :
    Exec.Ensures ((GuardEvent.other e).run apply plock) g fun _ g' => SectionInv apply plock data g' :=
  post_onLocked.mpr (post_onKernel.mpr ((h.sections.other he).mono fun _ _ hsections =>
    ⟨hsections, h.fresh, h.owner, h.free, h.calls⟩))

/-- Every event keeps the invariant. -/
theorem GuardEvent.run_sectionInv {e : GuardEvent α} (h : SectionInv apply plock data g)
    (he : e.Admitted plock g) :
    Exec.Ensures (e.run apply plock) g fun _ g' => SectionInv apply plock data g' := by
  cases e with
  | call work => exact h.call work he
  | step => exact h.step he
  | act => exact h.act he
  | leave => exact h.leave he
  | other e => exact h.other he.1

/-- No assertion in the lock fails. -/
theorem SectionInv.returns (h : SectionInv apply plock data g) {e : GuardEvent α} (he : e.Admitted plock g)
    (hother : ∀ e', e ≠ .other e') : Exec.Returns (e.run apply plock) g fun _ _ => True := by
  cases e with
  | call work => trivial
  | step =>
    refine post_onLocked.mpr ((LockEvent.run_ownership h.sections.base h.sections.own (e := .step)
      ⟨he, ?_⟩ ?_).mono fun _ _ _ => trivial)
    · intro heq
      cases heq
    · intro e' heq
      cases heq
  | act => trivial
  | leave => trivial
  | other e => exact absurd rfl (hother e)

/-- In every run the threads take turns with the data. -/
theorem Guarded.Run.takesTurns {value : ℕ → UInt8} (h : Guarded.Run apply plock value data g) :
    TakesTurns apply plock data g := by
  have hinv : SectionInv apply plock data g :=
    h.invariant (sectionInv_boot value) fun _ _ hI he => GuardEvent.run_sectionInv hI he
  refine ⟨?_, hinv.calls, fun e he hother => hinv.returns he hother⟩
  by_cases hall : ∀ p, g.locked.depth p = 0
  · refine ⟨[], ?_, Or.inl rfl⟩
    rw [List.append_nil]
    exact hinv.free hall
  · obtain ⟨p, hp⟩ := not_forall.mp hall
    cases hdoing : g.doing p with
    | none => exact absurd (hinv.sections.idle p fun hne => hne hdoing).2 hp
    | some w => exact ⟨w.1, hinv.owner p w.1 w.2 hdoing (Nat.pos_of_ne_zero hp), Or.inr ⟨p, w.2, hdoing⟩⟩

end Inv

end Winx
