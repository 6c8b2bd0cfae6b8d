import Winx.Thread.Lock

/-! # Mutual exclusion

At most one thread owns the lock, from the `sema_down` that took the semaphore
to the `sema_up` that gives it back, and the fields of the lock tell where that
thread stands. The count of nested calls has 32 bits, so this holds as long as
no thread nests 2^32 of them.
-/

namespace Winx

/-- A thread that has no part in the lock. -/
def Locked.Out (l : Locked) (p : ℕ) : Prop :=
  l.depth p = 0 ∧ (l.point p = .outside ∨ l.point p = .acquireTest ∨ l.point p = .acquireDown)

/-- The fields of a lock that `p` holds with some count. -/
def Locked.Holds (l : Locked) (p n : ℕ) : Prop :=
  l.holder = some p ∧ l.holderRepeatNr.toNat = n

/-- The fields of the lock and the place of its owner. -/
def Locked.Owner (l : Locked) (p : ℕ) : Prop :=
  match l.point p with
  | .outside => 0 < l.depth p ∧ l.Holds p (l.depth p)
  | .acquireTest | .readRepeat => 0 < l.depth p ∧ l.depth p + 1 < 2 ^ 32 ∧ l.Holds p (l.depth p)
  | .writeRepeat nr =>
    0 < l.depth p ∧ l.depth p + 1 < 2 ^ 32 ∧ l.Holds p (l.depth p) ∧ nr = l.holderRepeatNr
  | .acquireDown => False
  | .setHolder | .releaseUp => l.depth p = 0 ∧ l.holder = none ∧ l.holderRepeatNr = 0
  | .assertFree | .setRepeat => l.depth p = 0 ∧ l.Holds p 0
  | .releaseAssert | .releaseTest => l.Holds p (l.depth p + 1)
  | .readNested => 0 < l.depth p ∧ l.Holds p (l.depth p + 1)
  | .writeNested nr => 0 < l.depth p ∧ l.Holds p (l.depth p + 1) ∧ nr = l.holderRepeatNr
  | .assertLast | .clearHolder => l.depth p = 0 ∧ l.Holds p 1
  | .clearRepeat => l.depth p = 0 ∧ l.holder = none

/-- The lock is free, or it has one owner. -/
def Ownership (plock : ℕ) (l : Locked) : Prop :=
  ((l.kernel.semaphore plock).value = 1 ∧ l.holder = none ∧ l.holderRepeatNr = 0 ∧
    ∀ p, l.Out p) ∨
  ((l.kernel.semaphore plock).value = 0 ∧ ∃ o, l.Owner o ∧ ∀ p, p ≠ o → l.Out p)

/-- An event may happen and nests no 2^32 calls of `lock_acquire`. -/
def Shallow (plock : ℕ) (l : Locked) (e : LockEvent) : Prop :=
  e.Admitted plock l ∧ (e = .acquire → l.depth l.cur + 1 < 2 ^ 32)

instance (plock : ℕ) (l : Locked) (e : LockEvent) : Decidable (Shallow plock l e) := by
  unfold Shallow; infer_instance

section Frame

variable {l l' : Locked} {plock p : ℕ}

theorem Locked.Out.congr (h : l.Out p) (hpoint : l'.point p = l.point p)
    (hdepth : l'.depth p = l.depth p) : l'.Out p := by
  unfold Locked.Out
  rwa [hpoint, hdepth]

theorem Locked.Owner.congr (h : l.Owner p) (hpoint : l'.point p = l.point p)
    (hdepth : l'.depth p = l.depth p) (hholder : l'.holder = l.holder)
    (hnr : l'.holderRepeatNr = l.holderRepeatNr) : l'.Owner p := by
  unfold Locked.Owner Locked.Holds at *
  rwa [hpoint, hdepth, hholder, hnr]

/-- The owner has a part in the lock. -/
theorem Locked.Owner.not_out (h : l.Owner p) : ¬ l.Out p := by
  rintro ⟨hdepth, hpoint | hpoint | hpoint⟩
  · simp only [Locked.Owner, hpoint] at h
    omega
  · simp only [Locked.Owner, hpoint] at h
    omega
  · simp only [Locked.Owner, hpoint] at h

/-- Between its calls, and inside of nested ones, the owner is the holder. -/
theorem Locked.Owner.holder_eq (h : l.Owner p) (hdepth : 0 < l.depth p) : l.holder = some p := by
  unfold Locked.Owner Locked.Holds at h
  split at h
  case h_1 => exact h.2.1
  case h_2 => exact h.2.2.1
  case h_3 => exact h.2.2.1
  case h_4 => exact h.2.2.1.1
  case h_5 => exact h.elim
  case h_6 => omega
  case h_7 => omega
  case h_8 => exact h.2.1
  case h_9 => exact h.2.1
  case h_10 => exact h.1
  case h_11 => exact h.1
  case h_12 => exact h.2.1
  case h_13 => exact h.2.1.1
  case h_14 => exact h.2.1
  case h_15 => exact h.2.1
  case h_16 => omega

/-- A thread without a part in the lock goes on. -/
theorem Ownership.out_step (h : Ownership plock l) (hout : l.Out p) (hout' : l'.Out p)
    (hsema : (l'.kernel.semaphore plock).value = (l.kernel.semaphore plock).value)
    (hholder : l'.holder = l.holder) (hnr : l'.holderRepeatNr = l.holderRepeatNr)
    (hpoint : ∀ q, q ≠ p → l'.point q = l.point q)
    (hdepth : ∀ q, q ≠ p → l'.depth q = l.depth q) : Ownership plock l' := by
  have hkept {q : ℕ} (hq : l.Out q) : l'.Out q := by
    by_cases hqp : q = p
    · exact hqp ▸ hout'
    · exact hq.congr (hpoint q hqp) (hdepth q hqp)
  rcases h with ⟨hval, hfree, hzero, hall⟩ | ⟨hval, o, howner, hothers⟩
  · exact Or.inl ⟨hsema.trans hval, hholder.trans hfree, hnr.trans hzero, fun q => hkept (hall q)⟩
  · have ho : o ≠ p := fun ho => howner.not_out (ho ▸ hout)
    refine Or.inr ⟨hsema.trans hval, o, ?_, fun q hq => hkept (hothers q hq)⟩
    exact howner.congr (hpoint o ho) (hdepth o ho) hholder hnr

/-- The owner goes on. -/
theorem Ownership.owner_step (h : Ownership plock l) (howner : l.Owner p) (howner' : l'.Owner p)
    (hsema : (l'.kernel.semaphore plock).value = (l.kernel.semaphore plock).value)
    (hpoint : ∀ q, q ≠ p → l'.point q = l.point q)
    (hdepth : ∀ q, q ≠ p → l'.depth q = l.depth q) : Ownership plock l' := by
  rcases h with ⟨-, -, -, hall⟩ | ⟨hval, o, ho, hothers⟩
  · exact absurd (hall p) howner.not_out
  · have hop : p = o := by
      by_contra hne
      exact howner.not_out (hothers p hne)
    subst hop
    exact Or.inr ⟨hsema.trans hval, p, howner', fun q hq =>
      (hothers q hq).congr (hpoint q hq) (hdepth q hq)⟩

/-- Every thread owns the lock or has no part in it. -/
theorem Ownership.cases (h : Ownership plock l) (p : ℕ) : l.Owner p ∨ l.Out p := by
  rcases h with ⟨-, -, -, hall⟩ | ⟨-, o, howner, hothers⟩
  · exact Or.inr (hall p)
  · by_cases hp : p = o
    · exact Or.inl (hp ▸ howner)
    · exact Or.inr (hothers p hp)

theorem Ownership.holder_of_out (h : Ownership plock l) (hout : l.Out p) : l.holder ≠ some p := by
  rcases h with ⟨-, hfree, -⟩ | ⟨-, o, howner, -⟩
  · rw [hfree]
    nofun
  · have hne : o ≠ p := fun heq => howner.not_out (heq ▸ hout)
    have hholder : l.holder = none ∨ l.holder = some o := by
      unfold Locked.Owner Locked.Holds at howner
      split at howner <;> simp_all
    rcases hholder with hholder | hholder
    · rw [hholder]
      nofun
    · rw [hholder, Ne, Option.some.injEq]
      exact hne

/-- A free semaphore belongs to a free lock. -/
theorem Ownership.free_of_value (h : Ownership plock l)
    (hval : (l.kernel.semaphore plock).value ≠ 0) :
    (l.kernel.semaphore plock).value = 1 ∧ l.holder = none ∧ l.holderRepeatNr = 0 ∧
      ∀ p, l.Out p :=
  h.resolve_right fun hzero => hval hzero.1

/-- What the owner at a given point is to know. -/
theorem Locked.Owner.of_point {point : LockPoint} (hpoint : l.point p = point)
    (h : Locked.Owner { l with point := fun _ => point } p) : l.Owner p := by
  unfold Locked.Owner at *
  rw [hpoint]
  exact h

end Frame

section Steps

variable {l : Locked} {plock : ℕ}

/-- The step of a thread without a part in the lock: it tests the holder, or it takes the semaphore
or queues itself. -/
theorem lockStep_out (h : LockBase plock l) (hown : Ownership plock l) (hout : l.Out l.cur)
    (he : LockEvent.step.Admitted plock l) :
    Exec.Returns (lockStep plock) l fun _ l' => Ownership plock l' := by
  rcases hout.2 with hpoint | hpoint | hpoint
  · exact absurd hpoint he.1
  · have hholder := hown.holder_of_out hout
    simp only [lockStep, Exec.post_bind, Exec.post_get, hpoint, Exec.post_ite, Exec.post_set]
    refine ⟨fun _ => ?_, fun hn => absurd hholder hn⟩
    refine hown.out_step hout ⟨hout.1, Or.inr (Or.inr (Function.update_self ..))⟩ rfl rfl rfl
      (fun q hq => Function.update_of_ne hq ..) fun _ _ => rfl
  · have hadm : (KernelEvent.semaDown plock).Admitted l.kernel :=
      he.2.imp (fun hfree => ⟨hfree, h.ne_idle he.1⟩) id
    simp only [lockStep, Exec.post_bind, Exec.post_get, hpoint, post_onKernel]
    refine Exec.Post.mono (semaDown_sched h.sched hadm) (fun taken k' hk' => ?_) fun _ hval => ?_
    · obtain ⟨-, -, hk'⟩ := hk'
      cases taken with
      | true =>
        obtain ⟨hval, rfl⟩ := hk'
        obtain ⟨-, hfree, hzero, hall⟩ := hown.free_of_value (by rw [hval]; decide)
        refine Or.inr ⟨?_, l.cur, ?_, fun q hq => ?_⟩
        · refine Kernel.value_taken.trans ?_
          rw [hval]
          rfl
        · refine Locked.Owner.of_point (Function.update_self ..) ?_
          exact ⟨hout.1, hfree, hzero⟩
        · exact (hall q).congr (Function.update_of_ne hq ..) rfl
      | false =>
        obtain ⟨hval, hk'⟩ := hk'
        refine hown.out_step hout hout ?_ rfl rfl (fun _ _ => rfl) fun _ _ => rfl
        rw [Locked.setKernel_kernel, hk']
        exact Kernel.value_queued
    · rcases hown with ⟨hone, -⟩ | ⟨hzero, -⟩
      · rw [hone] at hval
        exact absurd hval (by decide)
      · rw [hzero] at hval
        exact absurd hval (by decide)

/-- The step of the owner. -/
theorem lockStep_owner (h : LockBase plock l) (hown : Ownership plock l) (howner : l.Owner l.cur)
    (he : LockEvent.step.Admitted plock l) :
    Exec.Returns (lockStep plock) l fun _ l' => Ownership plock l' := by
  have hval : (l.kernel.semaphore plock).value = 0 ∧ ∀ q, q ≠ l.cur → l.Out q := by
    rcases hown with ⟨-, -, -, hall⟩ | ⟨hval, o, -, hothers⟩
    · exact absurd (hall _) howner.not_out
    · have heq : l.cur = o := by
        by_contra hne
        exact howner.not_out (hothers _ hne)
      exact ⟨hval, heq ▸ hothers⟩
  -- the step leaves the semaphore and the others alone, and the owner knows enough afterwards
  have hstep {l' : Locked} {point : LockPoint} (hkernel : l'.kernel = l.kernel)
      (hpoint : l'.point = Function.update l.point l.cur point)
      (hdepth : ∀ q, q ≠ l.cur → l'.depth q = l.depth q)
      (hl' : Locked.Owner { l' with point := fun _ => point } l.cur) : Ownership plock l' := by
    refine hown.owner_step howner (.of_point ?_ hl') (by rw [hkernel]) (fun q hq => ?_) hdepth
    · rw [hpoint, Function.update_self]
    · rw [hpoint, Function.update_of_ne hq]
  have hkept (q : ℕ) (_ : q ≠ l.cur) : l.depth q = l.depth q := rfl
  cases hp : l.point l.cur with
  | outside => exact absurd hp he.1
  | acquireDown => simp only [Locked.Owner, hp] at howner
  | acquireTest =>
    simp only [Locked.Owner, hp] at howner
    simp only [lockStep, Exec.post_bind, Exec.post_get, hp, Exec.post_ite, Exec.post_set]
    refine ⟨fun hne => absurd howner.2.2.1 hne, fun _ => hstep rfl rfl hkept ?_⟩
    exact howner
  | setHolder =>
    simp only [Locked.Owner, hp] at howner
    simp only [lockStep, Exec.post_bind, Exec.post_get, hp, Exec.post_set]
    refine hstep rfl rfl hkept ⟨howner.1, rfl, ?_⟩
    change l.holderRepeatNr.toNat = 0
    rw [howner.2.2]
    rfl
  | assertFree =>
    simp only [Locked.Owner, hp] at howner
    simp only [lockStep, Exec.post_bind, Exec.post_get, hp, post_assert, Exec.post_set]
    refine ⟨fun _ => hstep rfl rfl hkept howner, fun hne => hne ?_⟩
    exact UInt32.toNat_inj.mp howner.2.2
  | setRepeat =>
    simp only [Locked.Owner, hp] at howner
    simp only [lockStep, Exec.post_bind, Exec.post_get, hp, Exec.post_set]
    have hone : (Function.update l.depth l.cur (l.depth l.cur + 1)) l.cur = 1 := by
      rw [Function.update_self, howner.1]
    refine hstep rfl rfl (fun q hq => Function.update_of_ne hq ..) ⟨?_, howner.2.1, ?_⟩
    · exact Nat.lt_of_lt_of_eq Nat.one_pos hone.symm
    · exact hone.symm
  | readRepeat =>
    simp only [Locked.Owner, hp] at howner
    simp only [lockStep, Exec.post_bind, Exec.post_get, hp, Exec.post_set]
    exact hstep rfl rfl hkept ⟨howner.1, howner.2.1, howner.2.2, rfl⟩
  | writeRepeat nr =>
    simp only [Locked.Owner, hp] at howner
    simp only [lockStep, Exec.post_bind, Exec.post_get, hp, Exec.post_set]
    obtain ⟨-, hbound, ⟨hholder, hnr⟩, rfl⟩ := howner
    have hnext : (Function.update l.depth l.cur (l.depth l.cur + 1)) l.cur = l.depth l.cur + 1 :=
      Function.update_self ..
    refine hstep rfl rfl (fun q hq => Function.update_of_ne hq ..) ⟨?_, hholder, ?_⟩
    · exact Nat.lt_of_lt_of_eq (Nat.succ_pos _) hnext.symm
    · refine Eq.trans ?_ hnext.symm
      change (l.holderRepeatNr + 1).toNat = _
      rw [UInt32.toNat_add, hnr]
      exact Nat.mod_eq_of_lt hbound
  | releaseAssert =>
    simp only [Locked.Owner, hp] at howner
    simp only [lockStep, Exec.post_bind, Exec.post_get, hp, post_assert, Exec.post_set]
    exact ⟨fun _ => hstep rfl rfl hkept howner, fun hne => hne howner.1⟩
  | releaseTest =>
    simp only [Locked.Owner, hp] at howner
    simp only [lockStep, Exec.post_bind, Exec.post_get, hp, Exec.post_ite, Exec.post_set]
    have hnested : l.holderRepeatNr > 1 ↔ 0 < l.depth l.cur := by
      rw [gt_iff_lt, UInt32.lt_iff_toNat_lt, howner.2]
      exact Nat.lt_succ_iff
    refine ⟨fun hgt => hstep rfl rfl hkept ⟨hnested.mp hgt, howner⟩, fun hle => hstep rfl rfl hkept ?_⟩
    have hzero : l.depth l.cur = 0 := by
      rw [hnested] at hle
      omega
    rw [hzero] at howner
    exact ⟨hzero, howner⟩
  | readNested =>
    simp only [Locked.Owner, hp] at howner
    simp only [lockStep, Exec.post_bind, Exec.post_get, hp, Exec.post_set]
    exact hstep rfl rfl hkept ⟨howner.1, howner.2, rfl⟩
  | writeNested nr =>
    simp only [Locked.Owner, hp] at howner
    simp only [lockStep, Exec.post_bind, Exec.post_get, hp, Exec.post_set]
    obtain ⟨hpos, ⟨hholder, hnr⟩, rfl⟩ := howner
    refine hstep rfl rfl hkept ⟨hpos, hholder, ?_⟩
    change (l.holderRepeatNr - 1).toNat = l.depth l.cur
    have hone : (1 : UInt32) ≤ l.holderRepeatNr := by
      rw [UInt32.le_iff_toNat_le, hnr]
      exact Nat.succ_pos _
    rw [UInt32.toNat_sub_of_le _ _ hone, hnr]
    rfl
  | assertLast =>
    simp only [Locked.Owner, hp] at howner
    simp only [lockStep, Exec.post_bind, Exec.post_get, hp, post_assert, Exec.post_set]
    refine ⟨fun _ => hstep rfl rfl hkept howner, fun hne => hne ?_⟩
    exact UInt32.toNat_inj.mp howner.2.2
  | clearHolder =>
    simp only [Locked.Owner, hp] at howner
    simp only [lockStep, Exec.post_bind, Exec.post_get, hp, Exec.post_set]
    exact hstep rfl rfl hkept ⟨howner.1, rfl⟩
  | clearRepeat =>
    simp only [Locked.Owner, hp] at howner
    simp only [lockStep, Exec.post_bind, Exec.post_get, hp, Exec.post_set]
    exact hstep rfl rfl hkept ⟨howner.1, howner.2, rfl⟩
  | releaseUp =>
    simp only [Locked.Owner, hp] at howner
    simp only [lockStep, Exec.post_bind, Exec.post_get, hp, post_onKernel, Exec.post_modify]
    refine Exec.Post.mono (semaUp_sched h.sched) (fun _ k' hk' => ?_) fun _ hne => hne hval.1
    obtain ⟨-, -, -, hcur, hk'⟩ := hk'
    refine Or.inl ⟨?_, howner.2.1, howner.2.2, fun q => ?_⟩
    · change (k'.semaphore plock).value = 1
      rw [hk', Kernel.setThreads_semaphore, Kernel.setSemaphore_semaphore, Function.update_self]
    · by_cases hq : q = l.cur
      · refine ⟨hq ▸ howner.1, Or.inl ?_⟩
        change Function.update l.point k'.cur .outside q = .outside
        rw [hcur, hq, Function.update_self]
      · refine (hval.2 q hq).congr (Function.update_of_ne ?_ ..) rfl
        rw [Locked.setKernel_kernel, hcur]
        exact hq

/-- A call of `lock_acquire` or `lock_release`, or a step of one, trips no assertion. -/
theorem LockEvent.run_ownership {e : LockEvent} (h : LockBase plock l) (hown : Ownership plock l)
    (he : Shallow plock l e) (hlock : ∀ e', e ≠ .other e') :
    Exec.Returns (e.run plock) l fun _ l' => Ownership plock l' := by
  cases e with
  | acquire =>
    obtain ⟨⟨-, -, hpoint⟩, hbound⟩ := he
    refine Exec.post_modify _ |>.mpr ?_
    rcases hown.cases l.cur with howner | hout
    · refine hown.owner_step howner (.of_point (Function.update_self ..) ?_) rfl
        (fun q hq => Function.update_of_ne hq ..) fun _ _ => rfl
      simp only [Locked.Owner, hpoint] at howner
      exact ⟨howner.1, hbound rfl, howner.2⟩
    · exact hown.out_step hout ⟨hout.1, Or.inr (Or.inl (Function.update_self ..))⟩ rfl rfl rfl
        (fun q hq => Function.update_of_ne hq ..) fun _ _ => rfl
  | release =>
    obtain ⟨⟨-, hpoint, hdepth⟩, -⟩ := he
    refine Exec.post_modify _ |>.mpr ?_
    rcases hown.cases l.cur with howner | hout
    · refine hown.owner_step howner (.of_point (Function.update_self ..) ?_) rfl
        (fun q hq => Function.update_of_ne hq ..) fun q hq => Function.update_of_ne hq ..
      simp only [Locked.Owner, hpoint] at howner
      refine ⟨howner.2.1, ?_⟩
      change l.holderRepeatNr.toNat = Function.update l.depth l.cur (l.depth l.cur - 1) l.cur + 1
      rw [Function.update_self, howner.2.2]
      omega
    · exact absurd hout.1 hdepth.ne'
  | step =>
    rcases hown.cases l.cur with howner | hout
    · exact lockStep_owner h hown howner he.1
    · exact lockStep_out h hown hout he.1
  | other e => exact absurd rfl (hlock e)

/-- Every event keeps the owner. -/
theorem LockEvent.run_lockInv {e : LockEvent} (h : LockBase plock l) (hown : Ownership plock l)
    (he : Shallow plock l e) :
    Exec.Ensures (e.run plock) l fun _ l' => LockBase plock l' ∧ Ownership plock l' := by
  refine (LockEvent.run_lockBase h he.1).and ?_
  cases e with
  | acquire => exact (LockEvent.run_ownership h hown he nofun).ensures
  | release => exact (LockEvent.run_ownership h hown he nofun).ensures
  | step => exact (LockEvent.run_ownership h hown he nofun).ensures
  | other e =>
    obtain ⟨⟨hadm, huses, -⟩, -⟩ := he
    refine post_onKernel.mpr ((e.run_sameWaiters h.sched hadm huses).mono fun _ k' hsame => ?_)
    rcases hown with ⟨hval, hfree, hzero, hall⟩ | ⟨hval, o, howner, hothers⟩
    · refine Or.inl ⟨?_, hfree, hzero, hall⟩
      rw [Locked.setKernel_kernel, hsame.1, hval]
    · refine Or.inr ⟨?_, o, howner, hothers⟩
      rw [Locked.setKernel_kernel, hsame.1, hval]

/-- At most one thread is between its outermost `lock_acquire` and the matching `lock_release`; it
is the holder, the count is its nesting depth, the semaphore is 0 or 1, and the next call or step
of a call trips no assertion. -/
structure Exclusive (plock : ℕ) (l : Locked) : Prop where
  one : ∀ p q, 0 < l.depth p → 0 < l.depth q → p = q
  holder : ∀ p, 0 < l.depth p → l.holder = some p
  repeatNr : ∀ p, 0 < l.depth p → l.point p = .outside → l.holderRepeatNr.toNat = l.depth p
  value : (l.kernel.semaphore plock).value = 0 ∨ (l.kernel.semaphore plock).value = 1
  asserts : ∀ e, Shallow plock l e → (∀ e', e ≠ .other e') →
    Exec.Returns (e.run plock) l fun _ _ => True

/-- The runs with a lock in which no thread nests 2^32 calls of `lock_acquire`. -/
abbrev Locked.ShallowRun (plock : ℕ) (value : ℕ → UInt8) (l : Locked) : Prop :=
  Exec.Run (LockEvent.run plock) (Shallow plock) (Locked.boot plock value) l

theorem ownership_boot (value : ℕ → UInt8) : Ownership plock (Locked.boot plock value) := by
  refine Or.inl ⟨?_, rfl, rfl, fun _ => ⟨rfl, Or.inl rfl⟩⟩
  change Function.update value plock 1 plock = 1
  rw [Function.update_self]

/-- The lock is exclusive in every run in which no thread nests 2^32 calls. -/
theorem exclusive_of_run {value : ℕ → UInt8} (h : Locked.ShallowRun plock value l) :
    Exclusive plock l := by
  obtain ⟨hbase, hown⟩ : LockBase plock l ∧ Ownership plock l :=
    Exec.Run.invariant (I := fun l => LockBase plock l ∧ Ownership plock l)
      ⟨lockBase_boot value, ownership_boot value⟩
      (fun _ _ hI he => LockEvent.run_lockInv hI.1 hI.2 he) h
  have howner {p : ℕ} (hp : 0 < l.depth p) : l.Owner p :=
    (hown.cases p).resolve_right fun hout => hp.ne' hout.1
  refine ⟨fun p q hp hq => ?_, fun p hp => ?_, fun p hp hpoint => ?_, ?_, fun e he hlock => ?_⟩
  · rcases hown with ⟨-, -, -, hall⟩ | ⟨-, o, -, hothers⟩
    · exact absurd (hall p).1 hp.ne'
    · have heq {r : ℕ} (hr : 0 < l.depth r) : r = o := by
        by_contra hne
        exact hr.ne' (hothers r hne).1
      rw [heq hp, heq hq]
  · exact (howner hp).holder_eq hp
  · have hp' := howner hp
    simp only [Locked.Owner, hpoint] at hp'
    exact hp'.2.2
  · exact (hown.imp And.left And.left).symm
  · exact (LockEvent.run_ownership hbase hown he hlock).mono fun _ _ _ => trivial

/-- `main` acquires the lock twice. -/
theorem exclusive_of_run_nested : ∃ l, Locked.ShallowRun 0 (fun _ => 0) l ∧ l.depth 1 = 2 ∧
    Exclusive 0 l := by
  have h : (Exec.runList (LockEvent.run 0) (Shallow 0)
      [.acquire, .step, .step, .step, .step, .step, .acquire, .step, .step, .step]
      (Locked.boot 0 fun _ => 0)).any (fun l => l.depth 1 == 2) = true := by
    decide +kernel
  obtain ⟨l, hrun, hdepth⟩ := Exec.Run.exists_of_any h
  exact ⟨l, hrun, by simpa using hdepth, exclusive_of_run hrun⟩

/-- The running thread holds the lock and is in none of the calls. -/
structure Nested (l : Locked) (n : ℕ) : Prop where
  free : l.kernel.Interruptible
  idle : l.cur ≠ l.kernel.threads.idleThread
  point : l.point l.cur = .outside
  depth : l.depth l.cur = n
  holder : l.holder = some l.cur
  repeatNr : l.holderRepeatNr = UInt32.ofNat n

theorem lockStep_acquireTest (hpoint : l.point l.cur = .acquireTest)
    (hholder : l.holder = some l.cur) : lockStep plock l = .ok ((), l.goto .readRepeat) := by
  rw [Exec.eq_ok_iff]
  simp only [lockStep, Exec.post_bind, Exec.post_get, hpoint, Exec.post_ite, Exec.post_set]
  exact ⟨fun hne => absurd hholder hne, fun _ => ⟨trivial, trivial⟩⟩

theorem lockStep_readRepeat (hpoint : l.point l.cur = .readRepeat) :
    lockStep plock l = .ok ((), l.goto (.writeRepeat l.holderRepeatNr)) := by
  rw [Exec.eq_ok_iff]
  simp only [lockStep, Exec.post_bind, Exec.post_get, hpoint, Exec.post_set]
  exact ⟨trivial, trivial⟩

theorem lockStep_writeRepeat {nr : UInt32} (hpoint : l.point l.cur = .writeRepeat nr) :
    lockStep plock l = .ok ((), (l.setRepeatNr (nr + 1)).enter.goto .outside) := by
  rw [Exec.eq_ok_iff]
  simp only [lockStep, Exec.post_bind, Exec.post_get, hpoint, Exec.post_set]
  exact ⟨trivial, trivial⟩

/-- One more nested call of `lock_acquire`. -/
theorem Nested.acquire {n : ℕ} {value : ℕ → UInt8} (h : Nested l n)
    (hrun : Locked.Run plock value l) : ∃ l', Locked.Run plock value l' ∧ Nested l' (n + 1) := by
  obtain ⟨hfree, hidle, hpoint, hdepth, hholder, hnr⟩ := h
  have hat (l : Locked) (point : LockPoint) : (l.goto point).point (l.goto point).cur = point :=
    Function.update_self ..
  have hin (l : Locked) (point : LockPoint) (hfree : l.kernel.Interruptible)
      (hpoint : point ≠ .outside) : LockEvent.step.Admitted plock (l.goto point) :=
    ⟨(hat l point).symm ▸ hpoint, Or.inl hfree⟩
  let l₁ := l.goto .acquireTest
  let l₂ := l₁.goto .readRepeat
  have hcall : LockEvent.acquire.Admitted plock l := ⟨hfree, hidle, hpoint⟩
  have h₁ : Locked.Run plock value l₁ := hrun.tail hcall rfl
  have h₂ : Locked.Run plock value l₂ :=
    h₁.tail (hin l .acquireTest hfree nofun) (lockStep_acquireTest (hat l .acquireTest) hholder)
  have h₃ := h₂.tail (hin l₁ .readRepeat hfree nofun) (lockStep_readRepeat (hat l₁ .readRepeat))
  have h₄ := h₃.tail (hin l₂ (.writeRepeat l.holderRepeatNr) hfree nofun)
    (lockStep_writeRepeat (hat l₂ (.writeRepeat l.holderRepeatNr)))
  refine ⟨_, h₄, hfree, hidle, hat _ _, ?_, hholder, ?_⟩
  · refine (Function.update_self ..).trans ?_
    exact congrArg (· + 1) hdepth
  · change l.holderRepeatNr + 1 = UInt32.ofNat (n + 1)
    rw [hnr, UInt32.ofNat_add]
    rfl

/-- Some run nests any number of calls. -/
theorem nested_of_run (n : ℕ) : ∃ l, Locked.Run 0 (fun _ => 0) l ∧ Nested l (n + 1) := by
  induction n with
  | zero =>
    have h : (Exec.runList (LockEvent.run 0) (fun l e => e.Admitted 0 l)
        [.acquire, .step, .step, .step, .step, .step] (Locked.boot 0 fun _ => 0)).any
        (fun l => decide (l.kernel.Interruptible ∧ l.cur ≠ l.kernel.threads.idleThread ∧
          l.point l.cur = .outside ∧ l.depth l.cur = 1 ∧ l.holder = some l.cur ∧
          l.holderRepeatNr = 1)) = true := by
      decide +kernel
    obtain ⟨l, hrun, hl⟩ := Exec.Run.exists_of_any h
    obtain ⟨hfree, hidle, hpoint, hdepth, hholder, hnr⟩ := of_decide_eq_true hl
    exact ⟨l, hrun, hfree, hidle, hpoint, hdepth, hholder, hnr⟩
  | succ n ih =>
    obtain ⟨l, hrun, hl⟩ := ih
    exact hl.acquire hrun

/-- With 2^32 nested calls the count is 0. -/
theorem exclusive_fails_of_wrap : ∃ l, Locked.Run 0 (fun _ => 0) l ∧ l.depth l.cur = 2 ^ 32 ∧
    l.holderRepeatNr = 0 ∧ ¬ Exclusive 0 l := by
  obtain ⟨l, hrun, hl⟩ := nested_of_run (2 ^ 32 - 1)
  have hdepth : l.depth l.cur = 2 ^ 32 := hl.depth
  have hzero : l.holderRepeatNr = 0 := by
    rw [hl.repeatNr]
    rfl
  refine ⟨l, hrun, hdepth, hzero, fun h => ?_⟩
  have hnr := h.repeatNr l.cur (by rw [hdepth]; decide) hl.point
  rw [hzero, hdepth] at hnr
  exact absurd hnr (by decide)

end Steps

end Winx
