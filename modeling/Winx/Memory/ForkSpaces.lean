import Winx.Memory.Fork
import Winx.Memory.UserStores

/-! # The address space of a child

`sys_fork` takes its kernel pages first, then it copies. What the child has in the
end are the pages of the parent with the same bytes, in frames of its own, so what
one of them writes is not seen by the other.
-/

namespace Winx

/-- Pages of the kernel heap have been taken, with `n` frames. -/
structure TookPages (m m' : Memory) (n : ℕ) : Prop extends GivesFrames m m' where
  task : m'.task = m.task
  page : ∀ d v g, m'.Holds (.page d v) g ↔ m.Holds (.page d v) g
  user : m'.freeFrames .pfUser = m.freeFrames .pfUser
  kernel : m'.freeFrames .pfKernel + n = m.freeFrames .pfKernel

/-- Runs of clear bits for requests, one after the other. -/
def Bitmap.serves (btmp : Bitmap) : List ℕ → Bool
  | [] => true
  | cnt :: l =>
    match btmp.scan cnt with
    | none => false
    | some i => (btmp.setRun i true cnt).serves l

/-- The kernel heap has the frames and the pages for requests, one after the other. -/
structure Memory.Serves (m : Memory) (l : List ℕ) : Prop where
  frames : l.sum ≤ m.freeFrames .pfKernel
  pages : m.kernelVaddr.vaddrBitmap.serves l = true

/-- The kernel pages that `sys_fork` asks for: the PCB, the buffer, the bitmap and the directory. -/
def forkRequests : List ℕ := [1, 1, bitmapPgCnt, 1]

/-- The part of `sys_fork` that takes these pages: the PCB, the parent, the buffer and the child. -/
def forkSetup : MemM (Option (ℕ × MemTask × ℕ × MemTask)) := do
  let childThread ← getKernelPages 1
  match childThread with
  | none => pure none
  | some childThread =>
    let parent ← curTask
    assert (parent.pgdir ≠ 0)
    let bufPage ← getKernelPages 1
    match bufPage with
    | none => pure none
    | some bufPage =>
      let child ← copyPcbVaddrbitmapStack0 parent
      match child with
      | none => pure none
      | some child =>
        let pgdir ← createPageDir
        match pgdir with
        | none => pure none
        | some pgdir => pure (some (childThread, parent, bufPage, { child with pgdir := pgdir }))

/-- The rest of `sys_fork`. -/
def forkFinish : Option (ℕ × MemTask × ℕ × MemTask) → MemM (Option ℕ)
  | none => pure none
  | some (childThread, parent, bufPage, child) => do
    storeTask childThread child
    copyBodyStack3 child parent bufPage
    mfreePage .pfKernel bufPage 1
    pure (some childThread)

theorem sysFork_eq : Memory.sysFork = forkSetup >>= forkFinish := by
  rw [Memory.sysFork, forkSetup, bind_assoc]
  refine bind_congr fun childThread => ?_
  cases childThread with
  | none => rfl
  | some childThread =>
    dsimp only
    rw [bind_assoc]
    refine bind_congr fun parent => ?_
    rw [bind_assoc]
    refine bind_congr fun _ => ?_
    rw [copyProcess, bind_assoc, bind_assoc]
    refine bind_congr fun bufPage => ?_
    cases bufPage with
    | none => rfl
    | some bufPage =>
      dsimp only
      rw [bind_assoc, bind_assoc]
      refine bind_congr fun child => ?_
      cases child with
      | none => rfl
      | some child =>
        dsimp only
        rw [bind_assoc, bind_assoc]
        refine bind_congr fun pgdir => ?_
        cases pgdir with
        | none => rfl
        | some pgdir => simp only [forkFinish, bind_assoc, pure_bind, if_true]

variable {m m' m'' : Memory} {parent child : MemTask} {thread buf vaddr cnt n k L : ℕ}

section Setup

theorem TookPages.refl (m : Memory) : TookPages m m 0 :=
  ⟨(AddedPages.refl m 0).grows, rfl, fun _ _ _ => Iff.rfl, rfl, rfl⟩

theorem TookPages.trans (h : TookPages m m' n) (hinv' : PageInv m') (h' : TookPages m' m'' k) :
    TookPages m m'' (n + k) := by
  refine ⟨h.toGivesFrames.trans hinv' h'.toGivesFrames, h'.task.trans h.task,
    fun d v g => (h'.page d v g).trans (h.page d v g), h'.user.trans h.user, ?_⟩
  rw [← h.kernel, ← h'.kernel]
  omega

theorem KernelPages.took (h : KernelPages m m' vaddr cnt) : TookPages m m' cnt := by
  refine ⟨h.grows, h.task, h.page, ?_, h.free⟩
  unfold Memory.freeFrames Memory.pool
  rw [h.userPool]

/-- A request of a length that `malloc_page` allows. -/
theorem PageInv.getKernelPages (h : PageInv m) (hpos : 0 < cnt) (hlt : cnt < 3840) :
    Exec.Returns (getKernelPages cnt) m fun r m' => PageInv m' ∧ GotKernelPages m m' cnt r :=
  Exec.Post.mono (getKernelPages_spec h) (fun _ _ hpost => ⟨hpost.1, hpost.2.1⟩)
    fun _ he => he.2 ⟨hpos, hlt⟩

/-- The pages of a request that was met are new. -/
structure NewPages (m m' : Memory) (vaddr cnt : ℕ) : Prop where
  took : TookPages m m' cnt
  serves : ∀ l, m'.Serves l ↔ m.Serves (cnt :: l)
  absent : ∀ g, ¬ m.Holds (.kernelPage vaddr) g
  notTask : ¬ m'.IsTaskPage vaddr
  mapped : ∃ g, m'.Holds (.kernelPage vaddr) g

theorem GotKernelPages.newPages (h : GotKernelPages m m' cnt (some vaddr)) (hinv : PageInv m)
    (hpos : 0 < cnt) : NewPages m m' vaddr cnt := by
  obtain ⟨hpages, i, hscan, -, hbitmap⟩ := h
  have hlt : vaddr < vaddr + cnt := by omega
  obtain ⟨hnot, hmapped⟩ := hpages.not_isTaskPage hinv le_rfl hlt
  refine ⟨hpages.took, fun l => ?_, (hpages.mapped vaddr le_rfl hlt).1, hnot, hmapped⟩
  have hfree := hpages.free
  have hserves : m.kernelVaddr.vaddrBitmap.serves (cnt :: l) = m'.kernelVaddr.vaddrBitmap.serves l := by
    rw [Bitmap.serves, hscan, hbitmap]
  constructor
  · rintro ⟨hframes, hpages'⟩
    exact ⟨by rw [List.sum_cons]; omega, hserves.trans hpages'⟩
  · rintro ⟨hframes, hpages'⟩
    rw [List.sum_cons] at hframes
    exact ⟨by omega, hserves.symm.trans hpages'⟩

/-- The pages of requests that were not all met. -/
def FailedPages (m m' : Memory) (l : List ℕ) : Prop := (∃ k, TookPages m m' k) ∧ ¬ m.Serves l

theorem GotKernelPages.failed {l : List ℕ} (h : GotKernelPages m m' cnt none) :
    FailedPages m m' (cnt :: l) := by
  obtain ⟨⟨v, k, hpages⟩, hfail⟩ := h
  refine ⟨⟨k, hpages.took⟩, ?_⟩
  rintro ⟨hframes, hserves⟩
  rcases hfail with hnone | hless
  · rw [Bitmap.serves, hnone] at hserves
    cases hserves
  · rw [List.sum_cons] at hframes
    omega

theorem NewPages.failed {l : List ℕ} (h : NewPages m m' vaddr cnt) (hinv' : PageInv m')
    (h' : FailedPages m' m'' l) : FailedPages m m'' (cnt :: l) := by
  obtain ⟨⟨k, hk⟩, hnot⟩ := h'
  exact ⟨⟨cnt + k, h.took.trans hinv' hk⟩, mt (h.serves l).mpr hnot⟩

/-- What is held is not what is new. -/
theorem GivesFrames.ne_of_new (h : GivesFrames m m') {v w g : ℕ} (hv : m.Holds (.kernelPage v) g)
    (hw : ∀ g, ¬ m'.Holds (.kernelPage w) g) : v ≠ w := by
  rintro rfl
  exact hw g (h.holds _ g hv)

/-- A page that was new is still there after other requests. -/
theorem NewPages.later (h : NewPages m m' vaddr cnt) (h' : GivesFrames m' m'') :
    ¬ m''.IsTaskPage vaddr ∧ ∃ g, m''.Holds (.kernelPage vaddr) g := by
  obtain ⟨g, hg⟩ := h.mapped
  exact ⟨fun htask => h.notTask (h'.keeps.isTaskPage.mp htask), g, h'.holds _ g hg⟩

/-- What a copied PCB has of its parent, before it gets a page directory. -/
structure CopiedPcb (parent child : MemTask) : Prop where
  vaddrStart : child.userprogVaddr.vaddrStart = parent.userprogVaddr.vaddrStart
  len : child.userprogVaddr.vaddrBitmap.btmpBytesLen = parent.userprogVaddr.vaddrBitmap.btmpBytesLen
  bits : ∀ b < bitmapPgCnt * 4096,
    child.userprogVaddr.vaddrBitmap.bits b = parent.userprogVaddr.vaddrBitmap.bits b

/-- `copy_pcb_vaddrbitmap_stack0` -/
theorem copyPcbVaddrbitmapStack0_spec (h : PageInv m) :
    Exec.Returns (copyPcbVaddrbitmapStack0 parent) m fun r m' => PageInv m' ∧
      (r = none → ∀ l, FailedPages m m' (bitmapPgCnt :: l)) ∧
      ∀ child, r = some child → (∃ v, NewPages m m' v bitmapPgCnt) ∧ CopiedPcb parent child := by
  have hmany : 0 < bitmapPgCnt ∧ bitmapPgCnt < 3840 := by decide
  rw [copyPcbVaddrbitmapStack0]
  refine (h.getKernelPages hmany.1 hmany.2).bind ?_
  rintro r m' ⟨h', hgot⟩
  cases r with
  | none => exact ⟨h', fun _ _ => hgot.failed, by simp⟩
  | some v =>
    refine ⟨h', by simp, fun child heq => ?_⟩
    obtain rfl := Option.some.inj heq
    exact ⟨⟨v, hgot.newPages h hmany.1⟩, rfl, rfl, fun b hb => if_pos hb⟩

/-- The pages of a child are there, and they are not those of a thread. -/
structure SetUp (m m' : Memory) (parent : MemTask) (thread buf : ℕ) (child : MemTask) : Prop where
  took : TookPages m m' forkRequests.sum
  serves : m.Serves forkRequests
  copied : CopiedPcb parent child
  pcb : ¬ m'.IsTaskPage thread ∧ ∃ g, m'.Holds (.kernelPage thread) g
  bufPage : ¬ m'.IsTaskPage buf ∧ ∃ g, m'.Holds (.kernelPage buf) g
  notTask : ¬ m'.IsTaskPage child.pgdir
  dir : ∃ dc, m'.Holds (.kernelPage child.pgdir) dc ∧ EmptyDir m' dc
  ne_thread : buf ≠ thread
  ne_dir : buf ≠ child.pgdir
  thread_ne : thread ≠ child.pgdir

/-- `sys_fork` gets all its pages, or it leaves the processes alone. -/
theorem forkSetup_spec (h : PageInv m) (hcur : m.task m.cur = some parent) (hne : parent.pgdir ≠ 0) :
    Exec.Returns forkSetup m fun r m' => PageInv m' ∧ (r = none → FailedPages m m' forkRequests) ∧
      ∀ thread t buf child, r = some (thread, t, buf, child) →
        t = parent ∧ SetUp m m' parent thread buf child := by
  have hone : 0 < 1 ∧ 1 < 3840 := by decide
  rw [forkSetup, forkRequests]
  -- the PCB
  refine (h.getKernelPages hone.1 hone.2).bind ?_
  rintro r₁ m₁ ⟨h₁, hgot₁⟩
  cases r₁ with
  | none => exact ⟨h₁, fun _ => hgot₁.failed, by simp⟩
  | some thread =>
  have hnew₁ := hgot₁.newPages h hone.1
  have hcur₁ : m₁.task m₁.cur = some parent := by rw [hnew₁.took.task, hnew₁.took.cur, hcur]
  simp only [curTask, Exec.post_bind, Exec.post_get, post_deref, hcur₁, Option.some.injEq, forall_eq',
    post_assert, hne, ne_eq, not_false_eq_true, true_implies, not_true_eq_false, false_implies, and_true,
    reduceCtorEq]
  -- the buffer
  refine Exec.Returns.mono (h₁.getKernelPages hone.1 hone.2) ?_
  rintro r₂ m₂ ⟨h₂, hgot₂⟩
  cases r₂ with
  | none => exact ⟨h₂, fun _ => hnew₁.failed h₁ hgot₂.failed, by simp⟩
  | some buf =>
  have hnew₂ := hgot₂.newPages h₁ hone.1
  -- the bitmap
  refine Exec.Returns.bind (copyPcbVaddrbitmapStack0_spec h₂) ?_
  rintro r₃ m₃ ⟨h₃, hfail₃, hcopied⟩
  cases r₃ with
  | none => exact ⟨h₃, fun _ => hnew₁.failed h₁ (hnew₂.failed h₂ (hfail₃ rfl _)), by simp⟩
  | some child =>
  obtain ⟨⟨v, hnew₃⟩, hpcb⟩ := hcopied child rfl
  -- the directory
  refine Exec.Returns.bind (createPageDir_spec h₃) ?_
  rintro r₄ m₄ ⟨h₄, hgot₄, hempty⟩
  cases r₄ with
  | none =>
    exact ⟨h₄, fun _ => hnew₁.failed h₁ (hnew₂.failed h₂ (hnew₃.failed h₃ hgot₄.failed)),
      by simp⟩
  | some pgdir =>
  have hnew₄ := hgot₄.newPages h₃ hone.1
  have htook₂ := hnew₃.took.trans h₃ hnew₄.took
  have htook₁ := hnew₂.took.trans h₂ htook₂
  refine ⟨h₄, by simp, fun thread' t buf' child' heq => ?_⟩
  simp only [Option.some.injEq, Prod.mk.injEq] at heq
  obtain ⟨rfl, rfl, rfl, rfl⟩ := heq
  obtain ⟨g₁, hg₁⟩ := hnew₁.mapped
  obtain ⟨g₂, hg₂⟩ := hnew₂.mapped
  have hg₁' := hnew₂.took.holds _ g₁ hg₁
  have hserves : m.Serves [1, 1, bitmapPgCnt, 1] := by
    rw [← hnew₁.serves, ← hnew₂.serves, ← hnew₃.serves, ← hnew₄.serves]
    exact ⟨Nat.zero_le _, rfl⟩
  refine ⟨rfl, hnew₁.took.trans h₁ htook₁, hserves, ⟨hpcb.vaddrStart, hpcb.len, hpcb.bits⟩,
    hnew₁.later htook₁.toGivesFrames, hnew₂.later htook₂.toGivesFrames, hnew₄.notTask,
    hempty pgdir rfl, fun heq => ?_, ?_, ?_⟩
  · exact hnew₂.absent g₁ (heq ▸ hg₁)
  · exact hnew₃.took.ne_of_new hg₂ hnew₄.absent
  · exact hnew₃.took.ne_of_new hg₁' hnew₄.absent

end Setup

/-- The present pages of a process are those whose bits are set. -/
def Memory.PagesMarked (m : Memory) (t : MemTask) : Prop :=
  ∀ vaddr < kernelBase, (m.walk (m.dirOf t) vaddr).isSome = true ↔
    ∃ i ∈ t.setBits (8 * t.userprogVaddr.vaddrBitmap.btmpBytesLen),
      vaddr = t.userprogVaddr.vaddrStart + i

/-- There are frames for the pages of the child, for its page tables and for the kernel pages. -/
structure Memory.ForkFrames (m : Memory) (parent : MemTask) : Prop where
  user : (parent.setBits (8 * parent.userprogVaddr.vaddrBitmap.btmpBytesLen)).card ≤
    m.freeFrames .pfUser
  kernel : forkRequests.sum + (parent.setTables (8 * parent.userprogVaddr.vaddrBitmap.btmpBytesLen)).card ≤
    m.freeFrames .pfKernel

/-- A page of a process maps to the frame that it had, and the frame has the words that it had. -/
structure KeptPages (m m' : Memory) (t : MemTask) : Prop where
  walk : ∀ vaddr < kernelBase, m'.walk (m'.dirOf t) vaddr = m.walk (m.dirOf t) vaddr
  words : ∀ vaddr < kernelBase, ∀ frame, m.walk (m.dirOf t) vaddr = some frame →
    m'.phys frame = m.phys frame

/-- A process has a child with its bitmap and a copy of each of its pages. -/
structure Forked (m m' : Memory) (parent : MemTask) (thread : ℕ) (child : MemTask) : Prop where
  absent : m.task thread = none
  task : m'.task = Function.update m.task thread (some child)
  cur : m'.cur = m.cur
  pgdir : child.pgdir ≠ 0
  vaddrStart : child.userprogVaddr.vaddrStart = parent.userprogVaddr.vaddrStart
  len : child.userprogVaddr.vaddrBitmap.btmpBytesLen = parent.userprogVaddr.vaddrBitmap.btmpBytesLen
  bitmap : ∀ i < 8 * parent.userprogVaddr.vaddrBitmap.btmpBytesLen,
    child.userprogVaddr.vaddrBitmap.scanTest i = parent.userprogVaddr.vaddrBitmap.scanTest i
  pages : ∀ vaddr < kernelBase,
    ((m'.walk (m'.dirOf child) vaddr).isSome = true ↔ (m.walk (m.dirOf parent) vaddr).isSome = true)
  copies : ∀ vaddr < kernelBase, ∀ frame frame', m.walk (m.dirOf parent) vaddr = some frame →
    m'.walk (m'.dirOf child) vaddr = some frame' → m'.phys frame' = m.phys frame
  fresh : ∀ vaddr < kernelBase, ∀ frame, m'.walk (m'.dirOf child) vaddr = some frame →
    m'.Allocated .pfUser frame ∧ ¬ m.Allocated .pfUser frame
  kept : ∀ p t, m.task p = some t → t.pgdir ≠ 0 → KeptPages m m' t

section Finish

/-- The running thread runs on its directory. -/
theorem MemInv.cr3_eq {t : MemTask} (h : MemInv m) (hcur : m.task m.cur = some t) :
    m.cr3 = m.dirOf t := by
  obtain ⟨t', ht', hactive⟩ := h.active
  obtain rfl := Option.some.inj (hcur.symm.trans ht')
  exact hactive

/-- The pages of a process, by their frames. -/
theorem MemInv.pagesMarked_iff {p : ℕ} {t : MemTask} (h : MemInv m) (ht : m.task p = some t)
    (hne : t.pgdir ≠ 0) : m.PagesMarked t ↔ ∀ v, (∃ g, m.Holds (.page (m.dirOf t) v) g) ↔
      ∃ i ∈ t.setBits (8 * t.userprogVaddr.vaddrBitmap.btmpBytesLen),
        v = t.userprogVaddr.vaddrStart + i := by
  have hrange := h.range ht hne
  simp only [Memory.PagesMarked, h.page.holds_dirOf ht hne, Option.isSome_iff_exists]
  constructor
  · intro hmarked v
    constructor
    · rintro ⟨g, hv, hg⟩
      exact (hmarked v hv).mp ⟨g, hg⟩
    · rintro ⟨i, hi, rfl⟩
      have hv : t.userprogVaddr.vaddrStart + i < kernelBase := by
        have := (MemTask.mem_setBits.mp hi).1
        omega
      obtain ⟨g, hg⟩ := (hmarked _ hv).mpr ⟨i, hi, rfl⟩
      exact ⟨g, hv, hg⟩
  · intro hmarked v hv
    rw [← hmarked v]
    exact exists_congr fun g => (and_iff_right hv).symm

/-- The process pages of a step that keeps the directories, by the uses. -/
theorem KeptPages.of_holds {p : ℕ} {t : MemTask} (h : PageInv m) (hk : KeepsDirs m m')
    (ht : m.task p = some t) (hne : t.pgdir ≠ 0)
    (hpage : ∀ v g, m'.Holds (.page (m.dirOf t) v) g ↔ m.Holds (.page (m.dirOf t) v) g)
    (hwords : ∀ v g, m.Holds (.page (m.dirOf t) v) g → m'.phys g = m.phys g) :
    KeptPages m m' t := by
  have hdir : m'.dirOf t = m.dirOf t := hk.dirOf ht rfl
  have hproc := h.isProcDir_dirOf ht hne
  refine ⟨fun v hv => ?_, fun v hv g hg => hwords v g ⟨hproc, hv, hg⟩⟩
  rw [hdir]
  refine Option.ext fun g => ?_
  have hiff := hpage v g
  simp only [Memory.Holds, hk.isProcDir, hproc, hv, true_and] at hiff
  exact hiff

theorem KeptPages.trans {t : MemTask} (h : KeptPages m m' t) (h' : KeptPages m' m'' t) :
    KeptPages m m'' t := by
  refine ⟨fun v hv => (h'.walk v hv).trans (h.walk v hv), fun v hv g hg => ?_⟩
  rw [h'.words v hv g ((h.walk v hv).trans hg), h.words v hv g hg]

theorem TookPages.kept {p : ℕ} {t : MemTask} (hk : TookPages m m' n) (h : PageInv m)
    (ht : m.task p = some t) (hne : t.pgdir ≠ 0) : KeptPages m m' t :=
  .of_holds h hk.keeps ht hne (fun v g => hk.page _ v g)
    fun _ g hg => hk.content .pfUser g (h.alloc _ _ hg) (h.page_plain hg)

theorem TookPages.memInv (hk : TookPages m m' n) (h : MemInv m) (h' : PageInv m') : MemInv m' :=
  h.of_task_eq h' hk.keeps hk.cr3 hk.cur hk.task

/-- There is no thread in the new page of a PCB. -/
theorem SetUp.task_none (hs : SetUp m m' parent thread buf child) : m'.task thread = none := by
  obtain ⟨hnot, g, hg⟩ := hs.pcb
  by_contra hne
  obtain ⟨t, ht⟩ := Option.ne_none_iff_exists'.mp hne
  exact hnot ⟨thread, t, ht, Or.inl ⟨rfl, hg.1⟩⟩

theorem SetUp.pgdir_ne (hs : SetUp m m' parent thread buf child) : child.pgdir ≠ 0 := by
  obtain ⟨dc, hdc, -⟩ := hs.dir
  have hlo := hdc.1
  unfold kHeapStart at hlo
  omega

/-- The child is a thread now, and nothing else has changed. -/
theorem SetUp.addTask (h : MemInv m) (hcur : m.task m.cur = some parent) (hne : parent.pgdir ≠ 0)
    (h' : PageInv m') (hs : SetUp m m' parent thread buf child) :
    MemInv (m'.setTask thread (some child)) ∧
      (∀ u g, (m'.setTask thread (some child)).Holds u g ↔ m'.Holds u g) ∧
      (m'.setTask thread (some child)).task m'.cur = some parent := by
  obtain ⟨hnot, g, hg⟩ := hs.pcb
  obtain ⟨h₅, hholds, hproc⟩ := h'.addTask hg hnot fun _ => by
    obtain ⟨dc, hdc, hempty⟩ := hs.dir
    exact ⟨dc, hdc, hempty, hs.notTask⟩
  have hinv := hs.took.memInv h h'
  have hcur' : m'.task m'.cur = some parent := by rw [hs.took.task, hs.took.cur, hcur]
  have htask {p : ℕ} (hp : p ≠ thread) : (m'.setTask thread (some child)).task p = m'.task p :=
    Function.update_of_ne hp ..
  have hrun : m'.cur ≠ thread := fun heq => by
    rw [heq, hs.task_none] at hcur'
    cases hcur'
  refine ⟨⟨h₅, ?_, fun p t ht hne' => ?_⟩, hholds, (htask hrun).trans hcur'⟩
  · obtain ⟨t, ht, hactive⟩ := hinv.active
    exact ⟨t, (htask hrun).trans ht, hactive⟩
  · by_cases hp : p = thread
    · subst hp
      rw [Memory.setTask_task, Function.update_self] at ht
      obtain rfl := Option.some.inj ht
      rw [hs.copied.vaddrStart, hs.copied.len]
      exact h.bitmap _ _ hcur hne
    · rw [htask hp] at ht
      exact hinv.bitmap p t ht hne'

/-- The child is ready for the pages of its parent. -/
theorem SetUp.ready (h : MemInv m) (hcur : m.task m.cur = some parent) (hne : parent.pgdir ≠ 0)
    (hmarked : m.PagesMarked parent) (hframes : m.ForkFrames parent) (h' : PageInv m')
    (hs : SetUp m m' parent thread buf child) :
    ∃ dc gb, ForkReady (m'.setTask thread (some child)) parent child thread dc buf gb := by
  obtain ⟨h₅, hholds, hcur₅⟩ := hs.addTask h hcur hne h'
  obtain ⟨dc, hdc, hempty⟩ := hs.dir
  obtain ⟨hnotbuf, gb, hgb⟩ := hs.bufPage
  have hcr3 := h.cr3_eq hcur
  have hcr3' : m'.cr3 = m'.dirOf parent := by
    rw [hs.took.cr3, hcr3, hs.took.keeps.dirOf hcur rfl]
  have hcur' : m'.task m'.cur = some parent := by rw [hs.took.task, hs.took.cur, hcur]
  have hstarted : (m'.setTask thread (some child)).task thread = some child := Function.update_self ..
  have hpage (v g : ℕ) : (m'.setTask thread (some child)).Holds (.page m'.cr3 v) g ↔
      m.Holds (.page (m.dirOf parent) v) g := by
    rw [hholds, hs.took.page, hs.took.cr3, hcr3]
  refine ⟨dc, gb, h₅.page, hcur₅, hstarted, hs.pgdir_ne, hcr3', ?_, fun heq => ?_, (hholds _ _).mpr hgb,
    ?_, fun v => ?_, hempty.user, ?_, ?_⟩
  · change m'.dirOf child = dc
    rw [Memory.dirOf, if_neg hs.pgdir_ne, hdc.2.2, Option.getD_some]
  · -- the directory of the child is new
    change m'.cr3 = dc at heq
    have huse := h'.unique _ _ _ hdc (heq ▸ hcr3' ▸ h'.dirOf_holds hcur' hne)
    rw [FrameUse.kernelPage.injEq] at huse
    exact hs.notTask ⟨_, parent, hcur', Or.inr ⟨huse, hne⟩⟩
  · rintro ⟨p, t, ht, hv⟩
    rw [Memory.setTask_task, Function.update_apply] at ht
    split at ht
    · obtain rfl := Option.some.inj ht
      rcases hv with ⟨heq, -⟩ | ⟨heq, -⟩
      · exact hs.ne_thread (heq.trans ‹_›)
      · exact hs.ne_dir heq
    · exact hnotbuf ⟨p, t, ht, hv⟩
  · change (∃ g, (m'.setTask thread (some child)).Holds (.page m'.cr3 v) g) ↔ _
    simp only [hpage]
    exact (h.pagesMarked_iff hcur hne).mp hmarked v
  · change _ ≤ m'.freeFrames .pfUser
    rw [hs.took.user]
    exact hframes.user
  · change _ ≤ m'.freeFrames .pfKernel
    have := hs.took.kernel
    have := hframes.kernel
    omega

/-- Freed pages of the kernel are no pages of processes. -/
theorem FreedPages.page {dir d v w g : ℕ} (h : FreedPages m m' (pageUse dir .pfKernel) v cnt) :
    m'.Holds (.page d w) g ↔ m.Holds (.page d w) g := by
  rw [h.holds]
  exact and_iff_left fun _ _ _ => by simp [pageUse]

/-- `sys_fork` with all its pages. -/
theorem SetUp.finish (h : MemInv m) (hcur : m.task m.cur = some parent) (hne : parent.pgdir ≠ 0)
    (hmarked : m.PagesMarked parent) (hframes : m.ForkFrames parent) (h' : PageInv m')
    (hs : SetUp m m' parent thread buf child) :
    Exec.Returns (forkFinish (some (thread, parent, buf, child))) m' fun r m'' =>
      r = some thread ∧ MemInv m'' ∧ Forked m m'' parent thread child := by
  obtain ⟨h₅, hholds, hcur₅⟩ := hs.addTask h hcur hne h'
  obtain ⟨dc, gb, hready⟩ := hs.ready h hcur hne hmarked hframes h'
  obtain ⟨hstart, hlen⟩ := h.bitmap _ _ hcur hne
  have hnone : m.task thread = none := hs.took.task ▸ hs.task_none
  have hkept₅ {p : ℕ} {t : MemTask} (ht : m.task p = some t) (hpg : t.pgdir ≠ 0) :
      KeptPages m (m'.setTask thread (some child)) t :=
    (hs.took.kept h.page ht hpg).trans ⟨fun _ _ => rfl, fun _ _ _ _ => rfl⟩
  have htask₅ {p : ℕ} {t : MemTask} (ht : m.task p = some t) :
      p ≠ thread ∧ (m'.setTask thread (some child)).task p = some t := by
    have hp : p ≠ thread := by
      rintro rfl
      cases ht.symm.trans hnone
    exact ⟨hp, (Function.update_of_ne hp ..).trans (hs.took.task ▸ ht)⟩
  have halloc₅ {pf : PoolFlags} {g : ℕ} (hg : m.Allocated pf g) :
      (m'.setTask thread (some child)).Allocated pf g := hs.took.alloc pf g hg
  have htaskeq₅ : (m'.setTask thread (some child)).task = Function.update m.task thread (some child) := by
    rw [Memory.setTask_task, hs.took.task]
  have hcureq₅ : (m'.setTask thread (some child)).cur = m.cur := hs.took.cur
  rw [forkFinish, storeTask, Exec.Returns, Exec.post_bind, Exec.post_modify]
  generalize m'.setTask thread (some child) = m₅ at h₅ hholds hcur₅ hready hkept₅ htask₅ halloc₅ htaskeq₅ hcureq₅ ⊢
  -- the pages of the parent
  refine hready.copyBodyStack3.bind ?_
  rintro - m₆ ⟨h₆, hc⟩
  -- the buffer goes back
  have hbuf : m₆.Mapped .pfKernel buf 1 := by
    intro v hlo hhi
    obtain rfl : v = buf := by omega
    exact ⟨⟨gb, (hc.kernelPage _ _).mpr hready.bufPage⟩,
      fun _ htask => hready.notTask (hc.keeps.isTaskPage.mp htask)⟩
  refine (mfreePage_kernel h₆ le_rfl hbuf).bind ?_
  rintro - m₇ ⟨h₇, hf, htask, -⟩
  have hkeeps : KeepsDirs m₅ m₇ := hc.keeps.trans hf.keeps
  have hdc : m₇.dirOf child = dc := (hkeeps.dirOf hready.started rfl).trans hready.dir
  have hcr3 : m₅.cr3 = m₅.dirOf parent := hready.cr3
  have hpage (v g : ℕ) : m₆.Holds (.page dc v) g ↔
      v < kernelBase ∧ m₇.walk (m₇.dirOf child) v = some g := by
    have htask₇ : m₇.task thread = some child := by
      rw [htask, hc.task, hready.started]
    rw [← h₇.holds_dirOf htask₇ hready.pgdir, hf.page, hdc]
  refine ⟨rfl, h₅.of_task_eq h₇ hkeeps (hf.cr3.trans hc.cr3) (hf.cur.trans hc.cur) (htask.trans hc.task),
    hnone, htask.trans (hc.task.trans htaskeq₅), hf.cur.trans (hc.cur.trans hcureq₅), hready.pgdir,
    hs.copied.vaddrStart, hs.copied.len, fun i hi => ?_, fun v hv => ?_, fun v hv g g' hg hg' => ?_,
    fun v hv g hg => ?_, fun p t ht hpg => ?_⟩
  · have hbyte : i / 8 < bitmapPgCnt * 4096 := by
      have hle : userBitmapLen ≤ bitmapPgCnt * 4096 := by decide
      omega
    rw [Bitmap.scanTest, hs.copied.bits _ hbyte, Bitmap.scanTest]
  · rw [hmarked v hv, ← hc.pages v, Option.isSome_iff_exists]
    simp only [hpage, hv, true_and]
  · have hg₅ : m₅.Holds (.page m₅.cr3 v) g := by
      rw [hcr3, h₅.page.holds_dirOf hcur₅ hne, (hkept₅ hcur hne).walk v hv]
      exact ⟨hv, hg⟩
    have hg₆ := (hpage v g').mpr ⟨hv, hg'⟩
    rw [hf.content g' (h₆.page_plain hg₆), hc.copies v g g' hg₆ hg₅, (hkept₅ hcur hne).words v hv g hg]
  · have hg₆ := (hpage v g).mpr ⟨hv, hg⟩
    exact ⟨h₇.alloc _ _ (hf.page.mpr hg₆), fun hall => hc.fresh v g hg₆ (halloc₅ hall)⟩
  · obtain ⟨hp, ht₅⟩ := htask₅ ht
    have hdir : m₅.dirOf t ≠ dc := by
      rw [← hready.dir]
      exact h₅.page.dirOf_ne ht₅ hready.started hpg hready.pgdir hp
    refine (hkept₅ ht hpg).trans (.of_holds h₅.page hkeeps ht₅ hpg (fun v g => ?_) fun v g hg => ?_)
    · rw [hf.page, hc.other _ v g hdir]
    · have hplain := h₅.page.page_plain hg
      have halloc := h₅.page.alloc _ _ hg
      rw [hf.content g (hc.plain h₆ halloc hplain)]
      refine hc.content .pfUser g halloc hplain fun hbuf => ?_
      cases h₅.page.unique _ _ _ hg hbuf

/-- `sys_fork` fails without pages for the kernel, and then it leaves the processes alone. With enough
frames it makes a child. -/
theorem sysFork_spec (h : MemInv m) (hcur : m.task m.cur = some parent) (hne : parent.pgdir ≠ 0)
    (hmarked : m.PagesMarked parent) (hframes : m.Serves forkRequests → m.ForkFrames parent) :
    Exec.Returns Memory.sysFork m fun r m' => MemInv m' ∧
      (r = none → FailedPages m m' forkRequests) ∧
      ∀ thread, r = some thread → ∃ child, Forked m m' parent thread child := by
  rw [sysFork_eq]
  refine Exec.Returns.bind (forkSetup_spec h.page hcur hne) ?_
  rintro r m' ⟨h', hfail, hset⟩
  cases r with
  | none =>
    obtain ⟨⟨k, hk⟩, hnot⟩ := hfail rfl
    exact ⟨hk.memInv h h', fun _ => ⟨⟨k, hk⟩, hnot⟩, by simp⟩
  | some r =>
    obtain ⟨thread, t, buf, child⟩ := r
    obtain ⟨rfl, hs⟩ := hset thread t buf child rfl
    refine Exec.Returns.mono (hs.finish h hcur hne hmarked (hframes hs.serves) h') ?_
    rintro r m'' ⟨rfl, h'', hforked⟩
    refine ⟨h'', by simp, fun thread' heq => ?_⟩
    obtain rfl := Option.some.inj heq
    exact ⟨child, hforked⟩

end Finish

end Winx
