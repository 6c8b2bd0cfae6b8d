import Winx.Fs.Descriptors
import Winx.Lib.Run
import Winx.Shell.PipeCalls

/-! # Reference counts of pipes

The entry of a pipe counts its descriptors in `fd_pos`. Making a pipe sets the
count to two, `sys_fork` and `sys_exit` walk over a table and adjust the count of
each pipe in it, and the page of the pipe goes with its last descriptor.
-/

namespace Winx

namespace PipeState

/-- An entry belongs to a pipe. -/
def IsPipe (s : PipeState) (g : ℕ) : Prop :=
  g < maxFileOpen ∧ (s.fs.fileTable g).fdFlag = pipeFlag

/-- An entry holds the page of a pipe. -/
def Holds (s : PipeState) (g p : ℕ) : Prop :=
  s.IsPipe g ∧ (s.fs.fileTable g).fdInode = some p

/-- The entries of pipes count what `cnt` says, the free ones are those with the count zero, and each
page was released as often as it was allocated, but for the one time that an entry holds it. -/
structure Counted (s : PipeState) (cnt : ℕ → ℕ) : Prop where
  pos : ∀ g, s.IsPipe g → (s.fs.fileTable g).fdPos.toNat = cnt g
  freed : ∀ g, s.IsPipe g → ((s.fs.fileTable g).fdInode = none ↔ cnt g = 0)
  holder : ∀ g h p, s.Holds g p → s.Holds h p → g = h
  held : ∀ g p, s.Holds g p → s.allocated.count p = s.released.count p + 1
  returned : ∀ p, (∀ g, ¬ s.Holds g p) → s.allocated.count p = s.released.count p

/-- The entry of a pipe counts the descriptors of the live processes that name it, and the page goes
with the last of them. -/
def PipeCounts (s : PipeState) : Prop := s.Counted s.fs.names

/-- The entries of regular files do not hold the pages of pipes. -/
def FilesApart (s : PipeState) : Prop :=
  ∀ g p, g < maxFileOpen → (s.fs.fileTable g).fdFlag ≠ pipeFlag →
    (s.fs.fileTable g).fdInode = some p → s.pages p = none

/-- The state before any pipe was made. -/
structure NoPipes (s : PipeState) : Prop where
  flags : ∀ g < maxFileOpen, (s.fs.fileTable g).fdFlag ≠ pipeFlag
  pages : s.pages = fun _ => none
  lists : s.allocated = [] ∧ s.released = []
  pids : s.fs.PidsDistinct
  range : ∀ t ∈ s.fs.tasks, t.pid ≤ 1024

/-- What every admitted call keeps. -/
structure Inv (s : PipeState) : Prop where
  counts : s.PipeCounts
  files : s.FilesApart
  pids : s.fs.PidsDistinct
  range : ∀ t ∈ s.fs.tasks, t.pid ≤ 1024

end PipeState

/-- Two descriptors of a process are free. -/
def Task.TwoFree (t : Task) : Prop :=
  ∃ k < maxFilesOpenPerProc, 3 ≤ k ∧ t.fdTable k = -1 ∧
    ∃ l < maxFilesOpenPerProc, 3 ≤ l ∧ l ≠ k ∧ t.fdTable l = -1

namespace PipeCall

/-- What the kernel promises about a call: the page is unused, and so is the number of the child. The
other system calls are left out. -/
def Granted (s : PipeState) : PipeCall → Prop
  | sysPipe page => ∀ p ∈ page, s.pages p = none ∧
      ∀ g < maxFileOpen, (s.fs.fileTable g).fdInode ≠ some p
  | sysFork childPid => childPid ≤ 1024 ∧ ∀ t ∈ s.fs.tasks, t.pid ≠ childPid
  | sysClose _ => True
  | sysExit => True
  | _ => False

/-- Whether process `pid` may make a call. -/
def Admitted (pid : ℕ) (s : PipeState) (c : PipeCall) : Prop :=
  (∃ t ∈ s.fs.tasks, t.pid = pid) ∧ c.Granted s

/-- The calls that keep the counts: `sys_pipe` with two free descriptors and an entry that no
descriptor names, and `sys_close` of something else than a pipe. -/
def Counts (pid : ℕ) (s : PipeState) (c : PipeCall) : Prop :=
  match c with
  | sysPipe _ => (∀ t ∈ s.fs.tasks, t.pid = pid → t.TwoFree) ∧
      ∀ g ∈ s.fs.freeSlot, s.fs.names g = 0
  | sysClose _ => ¬ c.OnPipe pid s
  | _ => True

instance decidableOnPipe (pid : ℕ) (s : PipeState) (c : PipeCall) : Decidable (c.OnPipe pid s) :=
  decidable_of_iff ((c.entry pid s).any fun g => (s.fs.fileTable g).fdFlag == pipeFlag) (by
    simp [OnPipe, Option.any_eq_true])

instance decidableGranted (s : PipeState) (c : PipeCall) : Decidable (c.Granted s) := by
  cases c <;> unfold Granted <;> infer_instance

instance decidableAdmitted (pid : ℕ) (s : PipeState) (c : PipeCall) :
    Decidable (c.Admitted pid s) :=
  inferInstanceAs (Decidable (_ ∧ _))

instance decidableCounts (pid : ℕ) (s : PipeState) (c : PipeCall) : Decidable (c.Counts pid s) := by
  cases c <;> unfold Counts Task.TwoFree <;> infer_instance

end PipeCall

namespace PipeState

section Tables

variable {s s' : PipeState} {cnt cnt' : ℕ → ℕ} {f : File} {g h p q : ℕ}

theorem isPipe_of_ne (hfile : s'.fs.fileTable = Function.update s.fs.fileTable g f) (hne : h ≠ g) :
    s'.IsPipe h ↔ s.IsPipe h := by
  rw [IsPipe, IsPipe, hfile, Function.update_of_ne hne]

theorem isPipe_self (hfile : s'.fs.fileTable = Function.update s.fs.fileTable g f) :
    s'.IsPipe g ↔ g < maxFileOpen ∧ f.fdFlag = pipeFlag := by
  rw [IsPipe, hfile, Function.update_self]

theorem holds_of_ne (hfile : s'.fs.fileTable = Function.update s.fs.fileTable g f) (hne : h ≠ g) :
    s'.Holds h q ↔ s.Holds h q := by
  rw [Holds, Holds, isPipe_of_ne hfile hne, hfile, Function.update_of_ne hne]

theorem holds_self (hfile : s'.fs.fileTable = Function.update s.fs.fileTable g f) :
    s'.Holds g q ↔ (g < maxFileOpen ∧ f.fdFlag = pipeFlag) ∧ f.fdInode = some q := by
  rw [Holds, isPipe_self hfile, hfile, Function.update_self]

theorem Counted.congr (hc : s.Counted cnt) (h : ∀ g, s.IsPipe g → cnt' g = cnt g) :
    s.Counted cnt' where
  pos g hg := (hc.pos g hg).trans (h g hg).symm
  freed g hg := by rw [hc.freed g hg, h g hg]
  holder := hc.holder
  held := hc.held
  returned := hc.returned

/-- The counts are about the file table and the lists of pages. -/
theorem Counted.of_eq (hc : s.Counted cnt) (hfile : s'.fs.fileTable = s.fs.fileTable)
    (hallocated : s'.allocated = s.allocated) (hreleased : s'.released = s.released) :
    s'.Counted cnt := by
  obtain ⟨fs, pages, allocated, released⟩ := s
  obtain ⟨fs', pages', allocated', released'⟩ := s'
  dsimp only at hfile hallocated hreleased
  subst hallocated hreleased
  have hpipe (g : ℕ) : PipeState.IsPipe ⟨fs', pages', allocated', released'⟩ g ↔
      PipeState.IsPipe ⟨fs, pages, allocated', released'⟩ g := by
    simp only [IsPipe, hfile]
  have hholds (g p : ℕ) : PipeState.Holds ⟨fs', pages', allocated', released'⟩ g p ↔
      PipeState.Holds ⟨fs, pages, allocated', released'⟩ g p := by
    simp only [Holds, hpipe, hfile]
  refine ⟨fun g hg => ?_, fun g hg => ?_, fun g h p hg hh => ?_, fun g p hg => ?_, fun p hp => ?_⟩
  · rw [hfile]
    exact hc.pos g ((hpipe g).mp hg)
  · rw [hfile]
    exact hc.freed g ((hpipe g).mp hg)
  · exact hc.holder g h p ((hholds g p).mp hg) ((hholds h p).mp hh)
  · exact hc.held g p ((hholds g p).mp hg)
  · exact hc.returned p fun g hg => hp g ((hholds g p).mpr hg)

theorem FilesApart.setFile (hf : s.FilesApart)
    (hfile : s'.fs.fileTable = Function.update s.fs.fileTable g f) (hpages : s'.pages = s.pages)
    (hflag : f.fdFlag = (s.fs.fileTable g).fdFlag)
    (hinode : f.fdInode = (s.fs.fileTable g).fdInode ∨ f.fdInode = none) : s'.FilesApart := by
  intro h q hh hflag' hq
  rw [hfile] at hflag' hq
  rw [hpages]
  by_cases hne : h = g
  · subst hne
    rw [Function.update_self] at hflag' hq
    rcases hinode with hsame | hnone
    · exact hf h q hh (hflag ▸ hflag') (hsame ▸ hq)
    · rw [hnone] at hq
      cases hq
  · rw [Function.update_of_ne hne] at hflag' hq
    exact hf h q hh hflag' hq

/-- A change of one entry that leaves each page where it is. -/
theorem Counted.setFile (hc : s.Counted cnt)
    (hfile : s'.fs.fileTable = Function.update s.fs.fileTable g f)
    (hallocated : s'.allocated = s.allocated) (hreleased : s'.released = s.released)
    (hself : ∀ q, s'.Holds g q ↔ s.Holds g q)
    (hpos : s'.IsPipe g → f.fdPos.toNat = cnt' g)
    (hzero : s'.IsPipe g → (f.fdInode = none ↔ cnt' g = 0))
    (hother : ∀ h, s.IsPipe h → h ≠ g → cnt' h = cnt h) : s'.Counted cnt' := by
  have hholds (h q : ℕ) : s'.Holds h q ↔ s.Holds h q := by
    by_cases hne : h = g
    · rw [hne, hself]
    · exact holds_of_ne hfile hne
  refine ⟨fun h hh => ?_, fun h hh => ?_, fun h k q hh hk => ?_, fun h q hh => ?_, fun q hq => ?_⟩
  · by_cases hne : h = g
    · subst hne
      rw [hfile, Function.update_self, hpos hh]
    · have hpipe := (isPipe_of_ne hfile hne).mp hh
      rw [hfile, Function.update_of_ne hne, hc.pos h hpipe, hother h hpipe hne]
  · by_cases hne : h = g
    · subst hne
      rw [hfile, Function.update_self, hzero hh]
    · have hpipe := (isPipe_of_ne hfile hne).mp hh
      rw [hfile, Function.update_of_ne hne, hc.freed h hpipe, hother h hpipe hne]
  · exact hc.holder h k q ((hholds h q).mp hh) ((hholds k q).mp hk)
  · rw [hallocated, hreleased]
    exact hc.held h q ((hholds h q).mp hh)
  · rw [hallocated, hreleased]
    exact hc.returned q fun h hh => hq h ((hholds h q).mpr hh)

/-- An entry that is not in use takes a new page. -/
theorem Counted.takePage (hc : s.Counted cnt)
    (hfile : s'.fs.fileTable = Function.update s.fs.fileTable g f)
    (hallocated : s'.allocated = p :: s.allocated) (hreleased : s'.released = s.released)
    (hflag : f.fdFlag = pipeFlag) (hinode : f.fdInode = some p) (hlt : g < maxFileOpen)
    (hfree : (s.fs.fileTable g).fdInode = none) (hfresh : ∀ h, ¬ s.Holds h p)
    (hpos : f.fdPos.toNat = cnt' g) (hzero : cnt' g ≠ 0)
    (hother : ∀ h, s.IsPipe h → h ≠ g → cnt' h = cnt h) : s'.Counted cnt' := by
  have hnone (q : ℕ) : ¬ s.Holds g q := by
    rintro ⟨-, hq⟩
    rw [hfree] at hq
    cases hq
  have hself (q : ℕ) : s'.Holds g q ↔ q = p := by
    rw [holds_self hfile, hinode, Option.some.injEq]
    exact ⟨fun h => h.2.symm, fun h => ⟨⟨hlt, hflag⟩, h.symm⟩⟩
  refine ⟨fun h hh => ?_, fun h hh => ?_, fun h k q hh hk => ?_, fun h q hh => ?_, fun q hq => ?_⟩
  · by_cases hne : h = g
    · subst hne
      rw [hfile, Function.update_self, hpos]
    · have hpipe := (isPipe_of_ne hfile hne).mp hh
      rw [hfile, Function.update_of_ne hne, hc.pos h hpipe, hother h hpipe hne]
  · by_cases hne : h = g
    · subst hne
      rw [hfile, Function.update_self, hinode]
      simpa using hzero
    · have hpipe := (isPipe_of_ne hfile hne).mp hh
      rw [hfile, Function.update_of_ne hne, hc.freed h hpipe, hother h hpipe hne]
  · by_cases hh' : h = g <;> by_cases hk' : k = g
    · rw [hh', hk']
    · subst hh'
      rw [hself] at hh
      rw [holds_of_ne hfile hk', hh] at hk
      exact absurd hk (hfresh k)
    · subst hk'
      rw [hself] at hk
      rw [holds_of_ne hfile hh', hk] at hh
      exact absurd hh (hfresh h)
    · exact hc.holder h k q ((holds_of_ne hfile hh').mp hh) ((holds_of_ne hfile hk').mp hk)
  · rw [hallocated, hreleased]
    by_cases hh' : h = g
    · subst hh'
      rw [hself] at hh
      rw [hh, List.count_cons_self, hc.returned p hfresh]
    · rw [holds_of_ne hfile hh'] at hh
      have hqp : p ≠ q := by
        rintro rfl
        exact hfresh h hh
      rw [List.count_cons_of_ne hqp, hc.held h q hh]
  · rw [hallocated, hreleased]
    have hqp : p ≠ q := by
      rintro rfl
      exact hq g ((hself p).mpr rfl)
    rw [List.count_cons_of_ne hqp]
    refine hc.returned q fun h hh => ?_
    by_cases hh' : h = g
    · exact hnone q (hh' ▸ hh)
    · exact hq h ((holds_of_ne hfile hh').mpr hh)

/-- An entry whose page is released. -/
theorem Counted.dropPage (hc : s.Counted cnt)
    (hfile : s'.fs.fileTable = Function.update s.fs.fileTable g f)
    (hallocated : s'.allocated = s.allocated) (hreleased : s'.released = p :: s.released)
    (hinode : f.fdInode = none) (hholds : s.Holds g p) (hpos : f.fdPos.toNat = 0)
    (hzero : cnt' g = 0) (hother : ∀ h, s.IsPipe h → h ≠ g → cnt' h = cnt h) :
    s'.Counted cnt' := by
  have hself (q : ℕ) : ¬ s'.Holds g q := by
    rw [holds_self hfile, hinode]
    rintro ⟨-, h⟩
    cases h
  refine ⟨fun h hh => ?_, fun h hh => ?_, fun h k q hh hk => ?_, fun h q hh => ?_, fun q hq => ?_⟩
  · by_cases hne : h = g
    · subst hne
      rw [hfile, Function.update_self, hpos, hzero]
    · have hpipe := (isPipe_of_ne hfile hne).mp hh
      rw [hfile, Function.update_of_ne hne, hc.pos h hpipe, hother h hpipe hne]
  · by_cases hne : h = g
    · subst hne
      rw [hfile, Function.update_self, hinode]
      simpa using hzero
    · have hpipe := (isPipe_of_ne hfile hne).mp hh
      rw [hfile, Function.update_of_ne hne, hc.freed h hpipe, hother h hpipe hne]
  · have hh' : h ≠ g := fun heq => hself q (heq ▸ hh)
    have hk' : k ≠ g := fun heq => hself q (heq ▸ hk)
    exact hc.holder h k q ((holds_of_ne hfile hh').mp hh) ((holds_of_ne hfile hk').mp hk)
  · have hh' : h ≠ g := fun heq => hself q (heq ▸ hh)
    rw [holds_of_ne hfile hh'] at hh
    have hqp : p ≠ q := by
      rintro rfl
      exact hh' (hc.holder h g p hh hholds)
    rw [hallocated, hreleased, List.count_cons_of_ne hqp]
    exact hc.held h q hh
  · rw [hallocated, hreleased]
    by_cases hqp : p = q
    · subst hqp
      rw [List.count_cons_self]
      exact hc.held g p hholds
    · rw [List.count_cons_of_ne hqp]
      refine hc.returned q fun h hh => ?_
      by_cases hh' : h = g
      · subst hh'
        exact hqp (Option.some.inj (hholds.2.symm.trans hh.2))
      · exact hq h ((holds_of_ne hfile hh').mpr hh)

end Tables

end PipeState

section Calls

variable {s : PipeState} {t : Task} {cnt : ℕ → ℕ} {g k : ℕ}

/-- A free descriptor that gets an entry. -/
theorem Fs.names_install {fs : Fs} (hpids : fs.PidsDistinct) (ht : fs.Running t) (hk : 3 ≤ k)
    (hlt : k < maxFilesOpenPerProc) (hfree : t.fdTable k = -1) (h : ℕ) :
    (fs.setFd k g).names h = fs.names h + if g = h then 1 else 0 := by
  have hsum := Fs.names_setFd (g := h) (v := (g : Int)) hpids ht hk hlt
  rw [hfree, if_neg (by omega)] at hsum
  simpa using hsum

/-- The processes after a descriptor was changed. -/
theorem Fs.range_setFd {fs : Fs} {v : Int} {m : ℕ} (h : ∀ t ∈ fs.tasks, t.pid ≤ m) :
    ∀ t ∈ (fs.setFd k v).tasks, t.pid ≤ m := by
  intro u hu
  obtain ⟨t, ht, hpid, -⟩ := Fs.mem_setFd hu
  rw [hpid]
  exact h t ht

/-- A process with two free descriptors installs an entry twice. -/
theorem installTwice_spec {fs : Fs} (hpids : fs.PidsDistinct) (ht : fs.Running t)
    (htwo : t.TwoFree) {α : Type} (a : Int → Int → α) :
    Exec.Returns (do
      let fd₀ ← pcbFdInstall g
      let fd₁ ← pcbFdInstall g
      pure (a fd₀ fd₁)) fs fun _ fs' =>
        fs'.fileTable = fs.fileTable ∧ fs'.PidsDistinct ∧
          (∀ m, (∀ t ∈ fs.tasks, t.pid ≤ m) → ∀ t ∈ fs'.tasks, t.pid ≤ m) ∧
          ∀ h, fs'.names h = fs.names h + if g = h then 2 else 0 := by
  obtain ⟨k, hklt, hkle, hk, l, hllt, hlle, hne, hl⟩ := htwo
  refine (pcbFdInstall_spec ht).bind fun _ fs₁ h₁ => ?_
  obtain ⟨k₁, hle₁, hlt₁, hfree₁, -, rfl⟩ | ⟨hfull, -⟩ := h₁
  · have hpids₁ : (fs.setFd k₁ g).PidsDistinct := by
      rw [Fs.PidsDistinct, Fs.pids_setFd]
      exact hpids
    refine (pcbFdInstall_spec ht.setFd).bind fun _ fs₂ h₂ => ?_
    obtain ⟨k₂, hle₂, hlt₂, hfree₂, -, rfl⟩ | ⟨hfull, -⟩ := h₂
    · refine Exec.post_pure _ |>.mpr ⟨rfl, ?_, fun m h => Fs.range_setFd (Fs.range_setFd h), ?_⟩
      · rw [Fs.PidsDistinct, Fs.pids_setFd]
        exact hpids₁
      · intro h
        rw [Fs.names_install hpids₁ ht.setFd hle₂ hlt₂ hfree₂,
          Fs.names_install hpids ht hle₁ hlt₁ hfree₁]
        split <;> omega
    · -- the descriptor that was not taken is still free
      by_cases hk₁ : k₁ = k
      · subst hk₁
        exact absurd ((Function.update_of_ne hne _ _).trans hl) (hfull l hlle hllt)
      · exact absurd ((Function.update_of_ne (Ne.symm hk₁) _ _).trans hk) (hfull k hkle hklt)
  · exact absurd hk (hfull k hkle hklt)

/-- `sys_pipe` with two free descriptors and an entry that no descriptor names. -/
theorem sysPipe_inv (hi : s.Inv) (ht : s.fs.Running t) {page : Option ℕ}
    (hgranted : (PipeCall.sysPipe page).Granted s) (htwo : t.TwoFree)
    (hnamed : ∀ g ∈ s.fs.freeSlot, s.fs.names g = 0) :
    Exec.Ensures (sysPipe page) s fun _ s' => s'.Inv := by
  rw [sysPipe, Exec.Ensures, Exec.post_bind, post_onFs, post_getFreeSlotInGlobal]
  cases hslot : s.fs.freeSlot with
  | none => exact trivial
  | some g =>
    cases page with
    | none => exact trivial
    | some p =>
      obtain ⟨hpage, hfresh⟩ := hgranted p rfl
      obtain ⟨-, hlt, hfree⟩ := Fs.of_freeSlot hslot
      have hname := hnamed g hslot
      have hpids : (s.fs.setFile g ⟨2, pipeFlag, some p⟩).PidsDistinct := hi.pids
      have hinstall := installTwice_spec (g := g) hpids ht htwo fun fd₀ fd₁ => ((0 : Int), fd₀, fd₁)
      simp only [Exec.post_bind, Exec.post_modify, post_onFs, Exec.Returns, Exec.post_pure]
        at hinstall ⊢
      refine hinstall.mono (fun _ fs₁ h₁ => h₁.mono (fun _ fs₂ h₂ => ?_) fun _ => False.elim)
        fun _ => False.elim
      obtain ⟨htable, hpids', hrange, hnames⟩ := h₂
      refine ⟨?_, fun h q hh hflag hq => ?_, hpids', hrange 1024 hi.range⟩
      · refine hi.counts.takePage (g := g) (p := p) htable rfl rfl rfl rfl hlt hfree ?_ ?_ ?_ ?_
        · rintro h ⟨⟨hh, -⟩, hq⟩
          exact hfresh h hh hq
        · exact ((hnames g).trans (by rw [if_pos rfl]; exact congrArg (· + 2) hname)).symm
        · intro hzero
          have := (hnames g).symm.trans hzero
          rw [if_pos rfl] at this
          omega
        · intro h _ hne
          exact (hnames h).trans (by rw [if_neg (Ne.symm hne)]; rfl)
      · simp only [PipeState.setFs_fs, htable] at hflag hq
        by_cases hne : h = g
        · rw [hne, Fs.setFile_fileTable, Function.update_self] at hflag
          exact absurd rfl hflag
        · rw [Fs.setFile_fileTable, Function.update_of_ne hne] at hflag hq
          have hqp : q ≠ p := by
            rintro rfl
            exact hfresh h hh hq
          exact (Function.update_of_ne hqp _ _).trans (hi.files h q hh hflag hq)

/-- `update_inode_open_cnts` counts the descriptors of the child. -/
theorem updateInodeOpenCnts_spec {child : Task} {n localFd : ℕ} (hc : s.Counted cnt)
    (hf : s.FilesApart) (ht : s.fs.Running t) (hchild : child.fdTable = t.fdTable)
    (hbound : ∀ g, cnt g + n < 2 ^ 32)
    (hnamed : ∀ k, localFd ≤ k → k < localFd + n → ∀ g : ℕ, child.fdTable k = g → cnt g ≠ 0) :
    Exec.Ensures (updateInodeOpenCnts child n localFd) s.fs fun _ fs' =>
      (s.setFs fs').Counted (fun g => cnt g + child.namesFrom localFd n g) ∧
        (s.setFs fs').FilesApart ∧ fs'.tasks = s.fs.tasks ∧ fs'.cur = s.fs.cur := by
  induction n generalizing localFd s cnt with
  | zero => exact ⟨hc, hf, rfl, rfl⟩
  | succ n ih =>
    rw [Exec.Ensures, updateInodeOpenCnts]
    simp only [Exec.post_bind, post_assert, implies_true, and_true]
    intro hlt
    -- the rest of the loop counts on from what the first descriptor added
    have hrest (fs' : Fs) (hc' : (s.setFs fs').Counted fun g =>
        cnt g + if child.fdTable localFd = g then 1 else 0) (hf' : (s.setFs fs').FilesApart)
        (htasks : fs'.tasks = s.fs.tasks) (hcur : fs'.cur = s.fs.cur) :
        Exec.Ensures (updateInodeOpenCnts child n (localFd + 1)) fs' fun _ fs'' =>
          (s.setFs fs'').Counted (fun g => cnt g + child.namesFrom localFd (n + 1) g) ∧
            (s.setFs fs'').FilesApart ∧ fs''.tasks = s.fs.tasks ∧ fs''.cur = s.fs.cur := by
      have ht' : fs'.Running t := by
        rw [Fs.Running, htasks, hcur]
        exact ht
      refine (ih hc' hf' ht' (fun g => ?_) fun k hle hk g hg hzero => ?_).mono fun _ fs'' h => ?_
      · have := hbound g
        split <;> omega
      · exact hnamed k (by omega) (by omega) g hg (by omega)
      · obtain ⟨hc'', hf'', htasks', hcur'⟩ := h
        refine ⟨hc''.congr fun g _ => ?_, hf'', htasks'.trans htasks, hcur'.trans hcur⟩
        rw [Task.namesFrom_succ]
        omega
    split
    · refine (isPipe_spec ht).bind fun pipe fs' => ?_
      rintro ⟨rfl, g, hg, hglt, rfl⟩
      rw [← hchild] at hg
      have hnat : (child.fdTable localFd).toNat = g := by omega
      have hname := hnamed localFd le_rfl (by omega) g hg
      simp only [hnat, Exec.post_bind, Exec.post_get]
      split
      · rename_i hflag
        rw [beq_iff_eq] at hflag
        have hpipe : s.IsPipe g := ⟨hglt, hflag⟩
        have := hbound g
        rw [Exec.post_bind, Exec.post_modify]
        refine hrest _ (hc.setFile (g := g) rfl rfl rfl (fun q => ?_) (fun _ => ?_) (fun _ => ?_)
          fun h _ hne => ?_) (hf.setFile (g := g) rfl rfl rfl (.inl rfl)) rfl rfl
        · rw [PipeState.holds_self rfl]
          rfl
        · have hone : (1 : UInt32).toNat = 1 := rfl
          have hpos := hc.pos g hpipe
          rw [Word.toNat_add (by omega), hpos, if_pos hg, hone]
        · rw [hc.freed g hpipe, if_pos hg]
          omega
        · rw [if_neg (by omega)]
          rfl
      · rename_i hflag
        rw [beq_iff_eq] at hflag
        simp only [derefInode, storeInode, Exec.post_bind, post_deref, Exec.post_get,
          Exec.post_modify, implies_true, and_true]
        intro p _ inode _
        refine hrest _ (((hc.congr fun h hh => ?_)).of_eq rfl rfl rfl) hf rfl rfl
        have hgh : ¬ (g : Int) = h := by
          intro heq
          obtain rfl : g = h := by omega
          exact hflag hh.2
        rw [hg, if_neg hgh]
        rfl
    · rename_i heq
      rw [ne_eq, not_not] at heq
      refine hrest s.fs (hc.congr fun g _ => ?_) hf rfl rfl
      rw [heq, if_neg (by omega)]
      rfl

/-- `sys_fork` counts the descriptors of the child. -/
theorem sysFork_inv (hi : s.Inv) (ht : s.fs.Running t) {childPid : ℕ}
    (hgranted : (PipeCall.sysFork childPid).Granted s) :
    Exec.Ensures (sysFork childPid) s.fs fun _ fs' => (s.setFs fs').Inv := by
  obtain ⟨hmax, hfresh⟩ := hgranted
  have htick : (s.setFs s.fs.tick).Inv :=
    ⟨hi.counts.of_eq rfl rfl rfl, hi.files, hi.pids, hi.range⟩
  rw [Exec.Ensures, sysFork, Exec.post_bind, post_sysMalloc]
  split
  · have ht' : s.fs.tick.Running t := ht
    rw [Exec.post_bind, post_runningThread ht']
    have hbound (g : ℕ) : s.fs.names g + (maxFilesOpenPerProc - 3) < 2 ^ 32 := by
      have hle := Fs.names_le (g := g) hi.pids hi.range
      unfold maxFilesOpenPerProc at *
      omega
    have hnamed (k : ℕ) (hle : 3 ≤ k) (hlt : k < 3 + (maxFilesOpenPerProc - 3)) (g : ℕ)
        (hg : t.fdTable k = g) : s.fs.names g ≠ 0 :=
      (Fs.names_pos ht.mem.1 hle (by unfold maxFilesOpenPerProc at *; omega) hg).ne'
    have hloop : Exec.Ensures (updateInodeOpenCnts { t with pid := childPid }
        (maxFilesOpenPerProc - 3) 3) s.fs.tick _ :=
      updateInodeOpenCnts_spec htick.counts htick.files ht' rfl hbound hnamed
    refine hloop.bind fun _ fs' h => ?_
    obtain ⟨hc, hf, htasks, -⟩ := h
    rw [Exec.post_bind, Exec.post_modify]
    refine ⟨(hc.congr fun g _ => ?_).of_eq rfl rfl rfl, hf, ?_, ?_⟩
    · have hnames : fs'.names g = s.fs.names g := by
        unfold Fs.names
        rw [htasks]
        rfl
      exact (Fs.names_append _).trans (congrArg (· + _) hnames)
    · change ((fs'.tasks ++ [_]).map Task.pid).Nodup
      rw [htasks, List.map_append, List.nodup_append]
      refine ⟨hi.pids, by simp, fun pid hpid pid' hpid' heq => ?_⟩
      obtain ⟨u, hu, rfl⟩ := List.mem_map.mp hpid
      rw [List.map_singleton, List.mem_singleton] at hpid'
      exact hfresh u hu (heq.trans hpid')
    · intro u hu
      change u ∈ fs'.tasks ++ [_] at hu
      rw [htasks, List.mem_append, List.mem_singleton] at hu
      obtain hu | rfl := hu
      · exact hi.range u hu
      · exact hmax
  · exact htick

/-- What `sys_close` of something else than a pipe does. -/
theorem pipeSysClose_spec (hf : s.FilesApart) (ht : s.fs.Running t) {fd : Int}
    (hfile : 2 < fd → fd < maxFilesOpenPerProc →
      ∀ g : ℕ, t.fdTable fd.toNat = g → ¬ s.IsPipe g) :
    Exec.Ensures (pipeSysClose fd) s fun _ s' =>
      fd ≤ 2 ∧ s' = s ∨ 2 < fd ∧ fd < maxFilesOpenPerProc ∧ ∃ g : ℕ, t.fdTable fd.toNat = g ∧ ¬ s.IsPipe g ∧
        s'.fs.fileTable =
          Function.update s.fs.fileTable g { s.fs.fileTable g with fdInode := none } ∧
        s'.fs.tasks = (s.fs.setFd fd.toNat (-1)).tasks ∧ s'.fs.cur = s.fs.cur ∧
        s'.pages = s.pages ∧ s'.allocated = s.allocated ∧ s'.released = s.released := by
  rw [Exec.Ensures, pipeSysClose]
  split
  · rename_i hfd
    rw [Exec.post_bind, post_onFs]
    refine (fdLocal2global_spec ht).mono fun g fs' => ?_
    rintro ⟨rfl, -, hmax, hg, hlt⟩
    have hpipe := hfile hfd hmax g hg
    simp only [closeEntry, Exec.post_bind, Exec.post_get]
    split
    · exact trivial
    · rename_i p hp
      have hpages : s.pages p = none := hf g p hlt (fun hflag => hpipe ⟨hlt, hflag⟩) hp
      simp only [PipeState.setFs_pages, hpages, post_onFs]
      refine Exec.Ensures.mono fileClose_frame fun _ fs' => ?_
      rintro ⟨htasks, hcur, htable⟩
      refine Or.inr ⟨hfd, hmax, g, hg, hpipe, htable, ?_, hcur, rfl, rfl, rfl⟩
      change (fs'.setFd fd.toNat (-1)).tasks = _
      rw [Fs.setFd, Fs.setFd, Fs.setTasks_tasks, Fs.setTasks_tasks, htasks, hcur]
      rfl
  · rename_i hfd
    exact .inl ⟨by omega, rfl⟩

/-- Closing the entry of a regular file leaves the counts of pipes. -/
theorem closeFile_counted {s' : PipeState} {cnt' : ℕ → ℕ} (hc : s.Counted cnt) (hg : ¬ s.IsPipe g)
    (hfile : s'.fs.fileTable =
      Function.update s.fs.fileTable g { s.fs.fileTable g with fdInode := none })
    (hallocated : s'.allocated = s.allocated) (hreleased : s'.released = s.released)
    (hother : ∀ h, s.IsPipe h → h ≠ g → cnt' h = cnt h) : s'.Counted cnt' := by
  have hg' : ¬ s'.IsPipe g := by
    rw [PipeState.isPipe_self hfile]
    exact hg
  refine hc.setFile hfile hallocated hreleased (fun q => ?_) (fun h => absurd h hg')
    (fun h => absurd h hg') hother
  exact ⟨fun h => absurd h.1 hg', fun h => absurd h.1 hg⟩

/-- `sys_close` of something else than a pipe. -/
theorem pipeSysClose_inv (hi : s.Inv) (ht : s.fs.Running t) {fd : Int}
    (hfile : 2 < fd → fd < maxFilesOpenPerProc →
      ∀ g : ℕ, t.fdTable fd.toNat = g → ¬ s.IsPipe g) :
    Exec.Ensures (pipeSysClose fd) s fun _ s' => s'.Inv := by
  refine (pipeSysClose_spec hi.files ht hfile).mono fun _ s' h => ?_
  obtain ⟨-, rfl⟩ |
    ⟨hgt, hmax, g, hg, hpipe, htable, htasks, hcur, hpages, hallocated, hreleased⟩ := h
  · exact hi
  · have hnames (h : ℕ) (hne : h ≠ g) : s'.fs.names h = s.fs.names h := by
      have hsum := Fs.names_setFd (g := h) (v := -1) hi.pids ht (k := fd.toNat) (by omega)
        (by omega)
      rw [hg, if_neg (by omega), if_neg (by omega)] at hsum
      rw [Fs.names, htasks]
      exact hsum
    refine ⟨closeFile_counted hi.counts hpipe htable hallocated hreleased fun h _ => hnames h,
      hi.files.setFile htable hpages rfl (.inr rfl), ?_, ?_⟩
    · rw [Fs.PidsDistinct, htasks, Fs.pids_setFd]
      exact hi.pids
    · rw [htasks]
      exact Fs.range_setFd hi.range

/-- `release_prog_resource` of a descriptor of a pipe counts down. -/
theorem releasePipe_spec (hc : s.Counted fun h => cnt h + if g = h then 1 else 0)
    (hf : s.FilesApart) (hg : s.IsPipe g) :
    Exec.Ensures (releasePipe g) s fun _ s' => s'.Counted cnt ∧ s'.FilesApart ∧
      s'.fs.tasks = s.fs.tasks ∧ s'.fs.cur = s.fs.cur := by
  have hpos := hc.pos g hg
  simp only [if_true] at hpos
  have hone : (1 : UInt32).toNat = 1 := rfl
  have hsub : ((s.fs.fileTable g).fdPos - 1).toNat = cnt g := by
    rw [Word.toNat_sub (by omega)]
    omega
  have hother (h : ℕ) (_ : s.IsPipe h) (hne : h ≠ g) :
      cnt h = cnt h + if g = h then 1 else 0 := by
    rw [if_neg (Ne.symm hne)]
    rfl
  simp only [releasePipe, Exec.post_bind, Exec.post_get, post_onFs, Exec.post_modify]
  split
  · rename_i hzero
    simp only [post_deref, Exec.post_bind, Exec.post_modify, post_onFs, implies_true, and_true]
    intro p hp
    have hcnt : cnt g = 0 := by
      rw [hzero] at hsub
      exact hsub.symm
    have htable (f f' : File) : ((s.fs.setFile g f).setFile g f').fileTable =
        Function.update s.fs.fileTable g f' :=
      congrArg Fs.fileTable (Fs.setFile_setFile ..)
    refine ⟨hc.dropPage (htable _ _) rfl rfl rfl ⟨hg, hp⟩ (hsub.trans hcnt) hcnt hother,
      fun h q hh hflag hq => ?_, rfl, rfl⟩
    have hne : h ≠ g := by
      rintro rfl
      simp only [PipeState.setFs_fs, PipeState.release_fs, htable, Function.update_self] at hflag
      exact hflag hg.2
    simp only [PipeState.setFs_fs, PipeState.release_fs, htable, Function.update_of_ne hne]
      at hflag hq
    refine (Function.update_apply ..).trans ?_
    rw [ite_eq_left_iff]
    exact fun _ => hf h q hh hflag hq
  · rename_i hzero
    refine ⟨hc.setFile (g := g) rfl rfl rfl (fun q => ?_) (fun _ => hsub) (fun _ => ?_) hother,
      hf.setFile (g := g) rfl rfl rfl (.inl rfl), rfl, rfl⟩
    · rw [PipeState.holds_self rfl]
      rfl
    · have hcnt : cnt g ≠ 0 := by
        intro hcnt
        exact hzero (UInt32.toNat_inj.mp (hsub.trans hcnt))
      have hused := hc.freed g hg
      rw [if_pos rfl] at hused
      exact ⟨fun h => absurd (hused.mp h) (by omega), fun h => absurd h hcnt⟩

/-- The loop of `release_prog_resource` counts down the descriptors it walks over. -/
theorem releasePipeFds_spec {n localFd : ℕ} (hle : 3 ≤ localFd)
    (hc : s.Counted fun g => cnt g + t.namesFrom localFd n g) (hf : s.FilesApart)
    (ht : s.fs.Running t) : Exec.Ensures (releasePipeFds n localFd) s fun _ s' =>
      s'.Counted cnt ∧ s'.FilesApart ∧ s'.fs.cur = s.fs.cur ∧
        (s'.fs.tasks.filter fun t => t.pid ≠ s.fs.cur) =
          s.fs.tasks.filter fun t => t.pid ≠ s.fs.cur := by
  induction n generalizing localFd s t with
  | zero => exact ⟨hc, hf, rfl, rfl⟩
  | succ n ih =>
    have hcount (g : ℕ) : cnt g + t.namesFrom localFd (n + 1) g =
        cnt g + t.namesFrom (localFd + 1) n g + if t.fdTable localFd = g then 1 else 0 := by
      rw [Task.namesFrom_succ]
      omega
    rw [Exec.Ensures, releasePipeFds, Exec.post_bind, post_onFs, post_runningThread ht]
    split
    · rw [Exec.post_bind, post_onFs]
      refine Exec.Ensures.mono (isPipe_spec ht) fun pipe fs' => ?_
      rintro ⟨rfl, g, hg, hlt, rfl⟩
      split
      · rename_i hflag
        rw [beq_iff_eq] at hflag
        rw [Exec.post_bind, post_onFs]
        refine Exec.Ensures.mono (fdLocal2global_spec ht) fun g' fs' => ?_
        rintro ⟨rfl, -, -, hg', -⟩
        obtain rfl : g = g' := by
          rw [Int.toNat_natCast] at hg'
          omega
        have hhead : s.Counted fun h =>
            cnt h + t.namesFrom (localFd + 1) n h + if g = h then 1 else 0 := by
          refine hc.congr fun h _ => ?_
          rw [hcount, hg]
          simp only [Nat.cast_inj]
        refine (releasePipe_spec hhead hf ⟨hlt, hflag⟩).bind fun _ s' h => ?_
        obtain ⟨hc', hf', htasks, hcur⟩ := h
        have ht' : s'.fs.Running t := by
          rw [Fs.Running, htasks, hcur]
          exact ht
        have hrest := ih (by omega) hc' hf' ht'
        rw [htasks, hcur] at hrest
        exact hrest
      · rename_i hflag
        rw [beq_iff_eq] at hflag
        have hfile (h : ℕ) (hh : t.fdTable ((localFd : Int)).toNat = h) : ¬ s.IsPipe h := by
          rw [Int.toNat_natCast, hg, Nat.cast_inj] at hh
          rw [← hh]
          exact fun hpipe => hflag hpipe.2
        rw [Exec.post_bind]
        refine Exec.Ensures.mono (pipeSysClose_spec hf ht fun _ _ => hfile) fun _ s' h => ?_
        obtain ⟨hle2, -⟩ |
          ⟨-, -, g', hg', hpipe, htable, htasks, hcur, hpages, hallocated, hreleased⟩ := h
        · omega
        · have ht' : s'.fs.Running (t.setFd localFd (-1)) := by
            rw [Fs.Running, htasks, hcur]
            exact ht.setFd
          have hothers : (s'.fs.tasks.filter fun t => t.pid ≠ s.fs.cur) =
              s.fs.tasks.filter fun t => t.pid ≠ s.fs.cur := by
            rw [htasks]
            exact Fs.others_setFd
          have hc' : s'.Counted fun h => cnt h + (t.setFd localFd (-1)).namesFrom (localFd + 1) n h :=
            closeFile_counted hc hpipe htable hallocated hreleased fun h _ hne => by
              rw [Task.namesFrom_update_of_lt (Nat.lt_add_one localFd), hcount,
                if_neg fun heq => hne (Nat.cast_inj.mp (heq.symm.trans hg'))]
              rfl
          have hrest := ih (by omega) hc' (hf.setFile htable hpages rfl (.inr rfl)) ht'
          rw [hcur, hothers] at hrest
          exact hrest
    · rename_i heq
      rw [ne_eq, not_not] at heq
      refine ih (by omega) (hc.congr fun g _ => ?_) hf ht
      rw [hcount, heq, if_neg (by omega)]
      rfl

/-- `sys_exit` takes the descriptors of the process out of the counts. -/
theorem pipeSysExit_inv (hi : s.Inv) (ht : s.fs.Running t) :
    Exec.Ensures pipeSysExit s fun _ s' => s'.Inv := by
  have hstart : s.Counted fun g =>
      s.fs.namesOther g + t.namesFrom 3 (maxFilesOpenPerProc - 3) g :=
    hi.counts.congr fun g _ => (Fs.names_eq hi.pids ht).symm
  refine (releasePipeFds_spec le_rfl hstart hi.files ht).bind fun _ s' h => ?_
  obtain ⟨hc, hf, hcur, hothers⟩ := h
  rw [post_onFs, Exec.post_modify, hcur, hothers]
  have hsub : (s.fs.tasks.filter fun t => t.pid ≠ s.fs.cur).Sublist s.fs.tasks :=
    List.filter_sublist
  refine ⟨hc.of_eq rfl rfl rfl, hf, ?_, fun u hu => hi.range u (hsub.mem hu)⟩
  exact (hsub.map Task.pid).nodup hi.pids

end Calls

section Runs

variable {s s₀ : PipeState} {pid : ℕ} {c : PipeCall}

/-- Runs of admitted calls. -/
abbrev PipeState.Run (ok : PipeState → ℕ × PipeCall → Prop) : PipeState → PipeState → Prop :=
  Exec.Run (fun x : ℕ × PipeCall => x.2.run x.1) ok

theorem PipeState.NoPipes.inv (h : s.NoPipes) : s.Inv := by
  have hnone (g : ℕ) : ¬ s.IsPipe g := fun hg => h.flags g hg.1 hg.2
  refine ⟨⟨fun g hg => absurd hg (hnone g), fun g hg => absurd hg (hnone g),
    fun g _ _ hg _ => absurd hg.1 (hnone g), fun g _ hg => absurd hg.1 (hnone g), fun p _ => ?_⟩,
    fun g p _ _ _ => ?_, h.pids, h.range⟩
  · rw [h.lists.1, h.lists.2]
  · rw [h.pages]

/-- Closing a descriptor of a pipe goes to it. -/
theorem PipeCall.onPipe_of_isPipe {t : Task} {fd : Int} {g : ℕ} (ht : (s.setCur pid).fs.Running t)
    (hgt : 2 < fd) (hmax : fd < maxFilesOpenPerProc) (hg : t.fdTable fd.toNat = g)
    (hpipe : s.IsPipe g) : (PipeCall.sysClose fd).OnPipe pid s := by
  have hcall : fdLocal2global fd (s.setCur pid).fs = .ok (g, (s.setCur pid).fs) := by
    rw [Exec.eq_ok_iff, fdLocal2global, Exec.Returns, Exec.post_bind, post_runningThread ht]
    have hlt : (g : Int) < maxFileOpen := Int.ofNat_lt.mpr hpipe.1
    simp only [Exec.post_bind, post_inBounds, post_assert, Exec.post_pure, hg, Int.toNat_natCast]
    exact ⟨fun _ => ⟨fun _ => ⟨trivial, trivial⟩, fun h => h ⟨by omega, hlt⟩⟩,
      fun h => h ⟨by omega, hmax⟩⟩
  refine ⟨g, ?_, hpipe.2⟩
  rw [PipeCall.entry, PipeCall.descriptor, if_pos hgt, Option.bind_some, hcall]
  rfl

/-- One admitted call. -/
theorem PipeCall.run_inv (hi : s.Inv) (hadmitted : c.Admitted pid s) (hcounts : c.Counts pid s) :
    Exec.Ensures (c.run pid) s fun _ s' => s'.Inv := by
  obtain ⟨hlive, hgranted⟩ := hadmitted
  obtain ⟨t, ht⟩ : ∃ t, (s.setCur pid).fs.Running t := Fs.exists_running hlive
  have hcur : (s.setCur pid).Inv := ⟨hi.counts.of_eq rfl rfl rfl, hi.files, hi.pids, hi.range⟩
  unfold PipeCall.run Exec.Ensures
  rw [Exec.post_bind, Exec.post_modify]
  cases c with
  | sysPipe page =>
    rw [Exec.post_bind]
    exact sysPipe_inv hcur ht hgranted (hcounts.1 t ht.mem.1 ht.mem.2) hcounts.2
  | sysFork childPid =>
    rw [Exec.post_bind, post_onFs]
    exact sysFork_inv hcur ht hgranted
  | sysClose fd =>
    rw [Exec.post_bind]
    exact pipeSysClose_inv hcur ht fun hgt hmax g hg hpipe =>
      hcounts (PipeCall.onPipe_of_isPipe ht hgt hmax hg hpipe)
  | sysExit =>
    rw [Exec.post_bind]
    exact pipeSysExit_inv hcur ht
  | sysWrite fd buf count => exact hgranted.elim
  | sysRead keys fd buf count => exact hgranted.elim

/-- The entries of pipes count their descriptors in every run in which `sys_pipe` finds two free
descriptors and an entry without names, and no pipe is closed. -/
theorem pipeCounts_of_run (hstart : s₀.NoPipes)
    (hrun : PipeState.Run (fun s x => x.2.Admitted x.1 s ∧ x.2.Counts x.1 s) s₀ s) :
    s.PipeCounts :=
  (hrun.invariant hstart.inv fun _ _ hi hok => PipeCall.run_inv hi hok.1 hok.2).counts

/-- Nothing is open after booting. -/
theorem PipeState.noPipes_unmounted :
    PipeState.NoPipes ⟨Fs.unmounted Bytes.zero, fun _ => none, [], []⟩ where
  flags _ _ := (by decide : (0 : UInt32) ≠ pipeFlag)
  pages := rfl
  lists := ⟨rfl, rfl⟩
  pids := List.nodup_singleton 1
  range t ht := by
    rw [List.mem_singleton.mp ht]
    decide

/-- A process makes a pipe and a child that shares it; both exit, and the page is released. -/
theorem pipeCounts_of_run_fork :
    ∃ s : PipeState, s.released = [100] ∧ s.fs.tasks = [] ∧ s.PipeCounts := by
  have h : (Exec.runList (fun x : ℕ × PipeCall => x.2.run x.1)
      (fun s x => x.2.Admitted x.1 s ∧ x.2.Counts x.1 s)
      [(1, .sysPipe (some 100)), (1, .sysFork 2), (2, .sysExit), (1, .sysExit)]
      ⟨Fs.unmounted Bytes.zero, fun _ => none, [], []⟩).any
        (fun s => s.released == [100] && s.fs.tasks.isEmpty) = true := by
    decide +kernel
  obtain ⟨s, hrun, hs⟩ := Exec.Run.exists_of_any h
  obtain ⟨hreleased, htasks⟩ : s.released = [100] ∧ s.fs.tasks = [] := by simpa using hs
  exact ⟨s, hreleased, htasks, pipeCounts_of_run PipeState.noPipes_unmounted hrun⟩

/-- A process makes three pipes: the third one counts two descriptors and has one. -/
theorem not_pipeCounts_of_run : ¬ ∀ s₀ s : PipeState, s₀.NoPipes →
    PipeState.Run (fun s x => x.2.Admitted x.1 s) s₀ s → s.PipeCounts := by
  intro hall
  have h : (Exec.runList (fun x : ℕ × PipeCall => x.2.run x.1)
      (fun s x => x.2.Admitted x.1 s)
      [(1, .sysPipe (some 100)), (1, .sysPipe (some 101)), (1, .sysPipe (some 102))]
      ⟨Fs.unmounted Bytes.zero, fun _ => none, [], []⟩).any
        (fun s => (s.fs.fileTable 5).fdFlag == pipeFlag && (s.fs.fileTable 5).fdPos.toNat == 2 &&
          s.fs.names 5 == 1) = true := by
    decide +kernel
  obtain ⟨s, hrun, hs⟩ := Exec.Run.exists_of_any h
  simp only [Bool.and_eq_true, beq_iff_eq] at hs
  obtain ⟨⟨hflag, hpos⟩, hnames⟩ := hs
  have hcount := (hall _ s PipeState.noPipes_unmounted hrun).pos 5 ⟨by decide, hflag⟩
  omega

end Runs

end Winx
