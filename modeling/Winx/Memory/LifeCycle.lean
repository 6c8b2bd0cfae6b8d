import Winx.Memory.PageMarks

/-! # The memory of a child

A child that exits gives back its pages, its page tables and the pages of its
bitmap, and its parent gives back the page directory and the PCB. The pages of
the bitmap are counted in two ways: `sys_fork` rounds their number up, and
`release_prog_resource` rounds it down.
-/

namespace Winx

/-- The loop of `release_prog_resource` over the entries of a page table. -/
def releasePtes (pdeIdx : ℕ) : ℕ → ℕ → MemM Unit
  | _, 0 => pure ()
  | pteIdx, left + 1 => do
    let pte ← load (ptePtr (pdeIdx * 1024) + pteIdx)
    if entryPresent pte then pfree (entryFrame pte)
    releasePtes pdeIdx (pteIdx + 1) left

/-- The loop of `release_prog_resource` over the entries of the page directory. -/
def releasePdes (pgdir : ℕ) : ℕ → ℕ → MemM Unit
  | _, 0 => pure ()
  | pdeIdx, left + 1 => do
    let pde ← load (pgdir * 1024 + pdeIdx)
    if entryPresent pde then
      releasePtes pdeIdx 0 1024
      pfree (entryFrame pde)
    releasePdes pgdir (pdeIdx + 1) left

/-- `release_prog_resource`, without the descriptors: a child that has opened nothing shares them with
its parent, and closing them frees no page. -/
def releaseProgResource (releaseThread : MemTask) : MemM Unit := do
  releasePdes releaseThread.pgdir 0 768
  mfreePage .pfKernel releaseThread.userprogVaddr.bits
    (releaseThread.userprogVaddr.vaddrBitmap.btmpBytesLen / 4096)

/-- `sys_exit`, as far as it goes into memory management. -/
def Memory.sysExit : MemM Unit := do
  let childThread ← curTask
  releaseProgResource childThread

/-- `main_thread` -/
def mainThread : ℕ := 0xc009e

/-- `thread_exit`, as far as it goes into memory management. -/
def Memory.threadExit (threadOver : ℕ) : MemM Unit := do
  let m ← get
  let t ← deref (m.task threadOver)
  if t.pgdir ≠ 0 then mfreePage .pfKernel t.pgdir 1
  if threadOver ≠ mainThread then mfreePage .pfKernel threadOver 1
  modify fun m => m.setTask threadOver none

/-- The running process forks, the child runs and exits, and the parent waits for it. The result says
whether there was a child. -/
def lifeCycle : MemM Bool := do
  let m ← get
  let child ← Memory.sysFork
  match child with
  | none => pure false
  | some thread =>
    switchTo thread
    Memory.sysExit
    switchTo m.cur
    Memory.threadExit thread
    pure true

/-- So many children, one after the other. -/
def lifeCycles : ℕ → MemM Bool
  | 0 => pure true
  | n + 1 => do
    let forked ← lifeCycle
    if forked then lifeCycles n else pure false

/-- What does not concern the kernel heap and the threads. -/
structure KeepsHeap (m m' : Memory) : Prop where
  task : m'.task = m.task
  cur : m'.cur = m.cur
  kernelVaddr : m'.kernelVaddr = m.kernelVaddr

section Keeps

variable {m m' m'' : Memory} {vaddr frame cnt left : ℕ} {t : MemTask}

theorem KeepsHeap.refl (m : Memory) : KeepsHeap m m := ⟨rfl, rfl, rfl⟩

theorem KeepsHeap.trans (h : KeepsHeap m m') (h' : KeepsHeap m' m'') : KeepsHeap m m'' :=
  ⟨h'.task.trans h.task, h'.cur.trans h.cur, h'.kernelVaddr.trans h.kernelVaddr⟩

theorem KeepsMaps.keepsHeap (h : KeepsMaps m m') : KeepsHeap m m' := ⟨h.task, h.cur, h.kernelVaddr⟩

theorem KeepsHeap.bind {α β : Type} {x : MemM α} {f : α → MemM β}
    (hx : Exec.Ensures x m fun _ m' => KeepsHeap m m')
    (hf : ∀ a m', Exec.Ensures (f a) m' fun _ m'' => KeepsHeap m' m'') :
    Exec.Ensures (x >>= f) m fun _ m' => KeepsHeap m m' :=
  Exec.Post.bind hx fun a m' h => (hf a m').mono fun _ _ h' => h.trans h'

theorem load_keepsHeap {addr : ℕ} : Exec.Ensures (load addr) m fun _ m' => KeepsHeap m m' :=
  load_keepsMaps.mono fun _ _ h => h.keepsHeap

theorem keepsHeap_setPoolBitmap {pf : PoolFlags} {b : Bitmap} : KeepsHeap m (m.setPoolBitmap pf b) :=
  ⟨Memory.setPoolBitmap_task _, Memory.setPoolBitmap_cur _, Memory.setPoolBitmap_kernelVaddr _⟩

theorem pfree_keepsHeap : Exec.Ensures (pfree frame) m fun _ m' => KeepsHeap m m' := by
  simp only [pfree, Exec.Ensures, Exec.post_bind, Exec.post_get, post_inBounds, Exec.post_set,
    implies_true, and_true]
  exact fun _ => keepsHeap_setPoolBitmap

theorem addrV2p_keepsHeap : Exec.Ensures (addrV2p vaddr) m fun _ m' => KeepsHeap m m' :=
  KeepsHeap.bind load_keepsHeap fun _ m' => KeepsHeap.refl m'

theorem modify_keepsHeap {f : Memory → Memory} (h : KeepsHeap m (f m)) :
    Exec.Ensures (modify f : MemM Unit) m fun _ m' => KeepsHeap m m' := h

theorem copyPage_keepsHeap {dst src : ℕ} :
    Exec.Ensures (copyPage dst src) m fun _ m' => KeepsHeap m m' := by
  refine KeepsHeap.bind (translate_keepsMaps.mono fun _ _ h => h.keepsHeap) fun _ m₁ => ?_
  refine KeepsHeap.bind (translate_keepsMaps.mono fun _ _ h => h.keepsHeap) fun _ m₂ => ?_
  exact modify_keepsHeap ⟨rfl, rfl, rfl⟩

theorem pageDirActivate_keepsHeap : Exec.Ensures (pageDirActivate t) m fun _ m' => KeepsHeap m m' := by
  unfold pageDirActivate
  split
  · exact modify_keepsHeap ⟨rfl, rfl, rfl⟩
  · exact KeepsHeap.bind addrV2p_keepsHeap fun _ m' => modify_keepsHeap ⟨rfl, rfl, rfl⟩

theorem getAPageWithoutOpvaddrbitmap_keepsHeap {pf : PoolFlags} :
    Exec.Ensures (getAPageWithoutOpvaddrbitmap pf vaddr) m fun _ m' => KeepsHeap m m' := by
  refine KeepsHeap.bind (palloc_keepsMaps.mono fun _ _ h => h.keepsHeap) fun r m₁ => ?_
  cases r with
  | none => exact KeepsHeap.refl m₁
  | some frame =>
    exact KeepsHeap.bind (pageTableAdd_keepsMaps.mono fun _ _ h => h.keepsHeap) fun _ m₂ => .refl m₂

theorem copyBodyPage_keepsHeap {child parent : MemTask} {buf : ℕ} :
    Exec.Ensures (copyBodyPage child parent buf vaddr) m fun _ m' => KeepsHeap m m' := by
  refine KeepsHeap.bind copyPage_keepsHeap fun _ _ => ?_
  refine KeepsHeap.bind pageDirActivate_keepsHeap fun _ _ => ?_
  refine KeepsHeap.bind getAPageWithoutOpvaddrbitmap_keepsHeap fun _ _ => ?_
  exact KeepsHeap.bind copyPage_keepsHeap fun _ _ => pageDirActivate_keepsHeap

theorem copyBodyBits_keepsHeap {child parent : MemTask} {buf idxByte idxBit : ℕ} :
    Exec.Ensures (copyBodyBits child parent buf idxByte idxBit left) m fun _ m' => KeepsHeap m m' := by
  induction left generalizing m idxBit with
  | zero => exact KeepsHeap.refl m
  | succ left ih =>
    rw [copyBodyBits, Exec.Ensures, Exec.post_ite]
    exact ⟨fun _ => KeepsHeap.bind copyBodyPage_keepsHeap fun _ _ => ih, fun _ => ih⟩

theorem copyBodyBytes_keepsHeap {child parent : MemTask} {buf idxByte : ℕ} :
    Exec.Ensures (copyBodyBytes child parent buf idxByte left) m fun _ m' => KeepsHeap m m' := by
  induction left generalizing m idxByte with
  | zero => exact KeepsHeap.refl m
  | succ left ih =>
    rw [copyBodyBytes, Exec.Ensures, Exec.post_ite]
    exact ⟨fun _ => KeepsHeap.bind copyBodyBits_keepsHeap fun _ _ => ih, fun _ => ih⟩

theorem releasePtes_keepsHeap {pdeIdx pteIdx : ℕ} :
    Exec.Ensures (releasePtes pdeIdx pteIdx left) m fun _ m' => KeepsHeap m m' := by
  induction left generalizing m pteIdx with
  | zero => exact KeepsHeap.refl m
  | succ left ih =>
    refine KeepsHeap.bind load_keepsHeap fun pte m₁ => ?_
    rw [Exec.Ensures, Exec.post_ite]
    exact ⟨fun _ => KeepsHeap.bind pfree_keepsHeap fun _ _ => ih, fun _ => ih⟩

theorem releasePdes_keepsHeap {pgdir pdeIdx : ℕ} :
    Exec.Ensures (releasePdes pgdir pdeIdx left) m fun _ m' => KeepsHeap m m' := by
  induction left generalizing m pdeIdx with
  | zero => exact KeepsHeap.refl m
  | succ left ih =>
    refine KeepsHeap.bind load_keepsHeap fun pde m₁ => ?_
    rw [Exec.Ensures, Exec.post_ite]
    refine ⟨fun _ => KeepsHeap.bind releasePtes_keepsHeap fun _ _ => ?_, fun _ => ih⟩
    exact KeepsHeap.bind pfree_keepsHeap fun _ _ => ih

theorem unmapPages_keepsHeap {isUser : Bool} :
    Exec.Ensures (unmapPages isUser vaddr cnt) m fun _ m' => KeepsHeap m m' := by
  induction cnt with
  | zero => exact KeepsHeap.refl m
  | succ cnt ih =>
    refine KeepsHeap.bind ih fun _ m₁ => ?_
    refine KeepsHeap.bind addrV2p_keepsHeap fun frame m₂ => ?_
    rw [Exec.Ensures, Exec.post_bind, Exec.post_get]
    refine KeepsHeap.bind (assert_keepsMaps.mono fun _ _ h => h.keepsHeap) fun _ m₃ => ?_
    refine KeepsHeap.bind pfree_keepsHeap fun _ m₄ => ?_
    refine KeepsHeap.bind load_keepsHeap fun _ m₅ => ?_
    exact store_keepsMaps.mono fun _ _ h => h.keepsHeap

end Keeps

/-- The bits of the kernel heap, and the threads, after a step on the kernel heap. -/
structure HeapStep (m m' : Memory) (b : Bitmap) : Prop where
  task : m'.task = m.task
  cur : m'.cur = m.cur
  kernelVaddr : m'.kernelVaddr = { m.kernelVaddr with vaddrBitmap := b }

section Heap

variable {m m' : Memory} {vaddr cnt : ℕ}

/-- `get_kernel_pages` sets the bits of the run that it found, whatever else happens. -/
theorem getKernelPages_heap : Exec.Ensures (getKernelPages cnt) m fun r m' =>
    ∀ v, r = some v → ∃ i, m.kernelVaddr.vaddrBitmap.scan cnt = some i ∧
      v = m.kernelVaddr.vaddrStart + i ∧
        HeapStep m m' (m.kernelVaddr.vaddrBitmap.setRun i true cnt) := by
  simp only [getKernelPages, mallocPage, vaddrGet, Exec.Ensures, Exec.post_bind, post_assert,
    Exec.post_get, implies_true, and_true]
  intro _
  cases hscan : m.kernelVaddr.vaddrBitmap.scan cnt with
  | none => simp
  | some i =>
    simp only [Exec.post_bind, Exec.post_set, Exec.post_pure]
    refine Exec.Ensures.mono mapPages_keepsMaps fun mapped m₁ h₁ => ?_
    rw [Exec.post_ite]
    refine ⟨fun _ => ?_, fun _ => by simp⟩
    simp only [Exec.post_pure, Exec.post_bind]
    refine Exec.Ensures.mono clearPages_keepsMaps fun _ m₂ h₂ v hv => ?_
    have h := (h₁.trans h₂).keepsHeap
    exact ⟨i, rfl, (Option.some.inj hv).symm, h.task, h.cur, h.kernelVaddr⟩

theorem createPageDir_heap : Exec.Ensures createPageDir m fun r m' =>
    ∀ v, r = some v → ∃ i, m.kernelVaddr.vaddrBitmap.scan 1 = some i ∧
      v = m.kernelVaddr.vaddrStart + i ∧
        HeapStep m m' (m.kernelVaddr.vaddrBitmap.setRun i true 1) := by
  rw [createPageDir]
  refine Exec.Post.bind getKernelPages_heap ?_
  intro r m₁ h₁
  cases r with
  | none => simp
  | some pageDir =>
    obtain ⟨i, hscan, hv, h⟩ := h₁ pageDir rfl
    refine Exec.Post.bind translate_keepsMaps fun srcFrame m₂ h₂ => ?_
    refine Exec.Post.bind translate_keepsMaps fun dstFrame m₃ h₃ => ?_
    rw [Exec.post_bind, Exec.post_modify]
    refine Exec.Post.bind addrV2p_keepsHeap fun frame m₄ h₄ => ?_
    refine Exec.Post.bind store_keepsMaps fun _ m₅ h₅ => ?_
    intro v heq
    have hkeeps := ((h₂.trans h₃).keepsHeap.trans ⟨h₄.task, h₄.cur, h₄.kernelVaddr⟩).trans h₅.keepsHeap
    exact ⟨i, hscan, Option.some.inj heq ▸ hv, hkeeps.task.trans h.task, hkeeps.cur.trans h.cur,
      hkeeps.kernelVaddr.trans h.kernelVaddr⟩

/-- `mfree_page` clears the bits of its pages. -/
theorem mfreePage_heap : Exec.Ensures (mfreePage .pfKernel vaddr cnt) m fun _ m' =>
    m.kernelVaddr.vaddrStart ≤ vaddr ∧ HeapStep m m'
      (m.kernelVaddr.vaddrBitmap.setRun (vaddr - m.kernelVaddr.vaddrStart) false cnt) := by
  rw [mfreePage]
  refine Exec.Post.bind assert_keepsMaps fun _ m₁ h₁ => ?_
  refine Exec.Post.bind addrV2p_keepsHeap fun frame m₂ h₂ => ?_
  refine Exec.Post.bind assert_keepsMaps fun _ m₃ h₃ => ?_
  rw [Exec.post_bind, Exec.post_get]
  refine Exec.Post.bind unmapPages_keepsHeap fun _ m₄ h₄ => ?_
  have h := ((h₁.keepsHeap.trans h₂).trans h₃.keepsHeap).trans h₄
  simp only [vaddrRemove, Exec.post_bind, Exec.post_get, post_inBounds, Exec.post_set, implies_true,
    and_true, h.kernelVaddr]
  rintro ⟨hlo, -⟩
  refine ⟨hlo, h.task, h.cur, ?_⟩
  change { m₄.kernelVaddr with
    vaddrBitmap := m.kernelVaddr.vaddrBitmap.setRun (vaddr - m.kernelVaddr.vaddrStart) false cnt } = _
  rw [h.kernelVaddr]

end Heap

/-- A bit of the kernel heap. -/
abbrev Memory.heapBit (m : Memory) (i : ℕ) : Bool := m.kernelVaddr.vaddrBitmap.scanTest i

section Bits

variable {m m' : Memory} {i cnt v : ℕ} {b : Bool}

theorem HeapStep.heapBit_set (h : HeapStep m m' (m.kernelVaddr.vaddrBitmap.setRun i true cnt))
    (j : ℕ) : m'.heapBit j = true ↔ (i ≤ j ∧ j < i + cnt) ∨ m.heapBit j = true := by
  rw [Memory.heapBit, h.kernelVaddr]
  change (m.kernelVaddr.vaddrBitmap.setRun i true cnt).scanTest j = true ↔ _
  rw [Bitmap.scanTest_setRun]
  split <;> simp [*]

theorem HeapStep.heapBit_clear (h : HeapStep m m' (m.kernelVaddr.vaddrBitmap.setRun i false cnt))
    (j : ℕ) : m'.heapBit j = true ↔ ¬ (i ≤ j ∧ j < i + cnt) ∧ m.heapBit j = true := by
  rw [Memory.heapBit, h.kernelVaddr]
  change (m.kernelVaddr.vaddrBitmap.setRun i false cnt).scanTest j = true ↔ _
  rw [Bitmap.scanTest_setRun]
  split <;> simp [*]

/-- The bits that a scan found are clear. -/
theorem Memory.not_heapBit_of_scan (hscan : m.kernelVaddr.vaddrBitmap.scan cnt = some i) {j : ℕ}
    (hlo : i ≤ j) (hhi : j < i + cnt) : ¬ m.heapBit j = true := by
  have hclear := (Bitmap.scan_eq_some hscan (j - i) (by omega)).1
  rw [Nat.add_sub_cancel' hlo] at hclear
  rw [Memory.heapBit, hclear]
  exact Bool.false_ne_true

theorem HeapStep.vaddrStart {bits : Bitmap} (h : HeapStep m m' bits) :
    m'.kernelVaddr.vaddrStart = m.kernelVaddr.vaddrStart := by
  rw [h.kernelVaddr]

/-- The pages in the kernel heap that `sys_fork` has taken: the PCB, the buffer, the bitmap and the
directory. -/
structure SetUpHeap (m m' : Memory) (thread buf : ℕ) (child : MemTask) (i₁ i₂ i₃ i₄ : ℕ) : Prop where
  task : m'.task = m.task
  cur : m'.cur = m.cur
  vaddrStart : m'.kernelVaddr.vaddrStart = m.kernelVaddr.vaddrStart
  pcb : thread = m.kernelVaddr.vaddrStart + i₁
  bufPage : buf = m.kernelVaddr.vaddrStart + i₂
  bits : child.userprogVaddr.bits = m.kernelVaddr.vaddrStart + i₃
  pgdir : child.pgdir = m.kernelVaddr.vaddrStart + i₄
  clear : ∀ j, j = i₁ ∨ j = i₂ ∨ (i₃ ≤ j ∧ j < i₃ + bitmapPgCnt) ∨ j = i₄ → ¬ m.heapBit j = true
  set : ∀ j, m'.heapBit j = true ↔
    (j = i₁ ∨ j = i₂ ∨ (i₃ ≤ j ∧ j < i₃ + bitmapPgCnt) ∨ j = i₄) ∨ m.heapBit j = true
  buf_apart : i₂ ≠ i₁ ∧ ¬ (i₃ ≤ i₂ ∧ i₂ < i₃ + bitmapPgCnt) ∧ i₂ ≠ i₄
  bits_apart : ∀ j, i₃ ≤ j ∧ j < i₃ + bitmapPgCnt → j ≠ i₁ ∧ j ≠ i₄

theorem copyPcbVaddrbitmapStack0_heap {parent : MemTask} :
    Exec.Ensures (copyPcbVaddrbitmapStack0 parent) m fun r m' => ∀ child, r = some child →
      child.userprogVaddr.vaddrBitmap.btmpBytesLen = parent.userprogVaddr.vaddrBitmap.btmpBytesLen ∧
      ∃ i, m.kernelVaddr.vaddrBitmap.scan bitmapPgCnt = some i ∧
        child.userprogVaddr.bits = m.kernelVaddr.vaddrStart + i ∧
          HeapStep m m' (m.kernelVaddr.vaddrBitmap.setRun i true bitmapPgCnt) := by
  rw [copyPcbVaddrbitmapStack0]
  refine Exec.Post.bind getKernelPages_heap fun r m₁ h₁ => ?_
  cases r with
  | none => simp
  | some bits =>
    intro child heq
    obtain rfl := Option.some.inj heq
    exact ⟨rfl, h₁ bits rfl⟩

theorem forkSetup_heap : Exec.Ensures forkSetup m fun r m' => ∀ thread parent buf child,
    r = some (thread, parent, buf, child) → m.task m.cur = some parent ∧ parent.pgdir ≠ 0 ∧
      child.userprogVaddr.vaddrBitmap.btmpBytesLen = parent.userprogVaddr.vaddrBitmap.btmpBytesLen ∧
        ∃ i₁ i₂ i₃ i₄, SetUpHeap m m' thread buf child i₁ i₂ i₃ i₄ := by
  rw [forkSetup]
  refine Exec.Post.bind getKernelPages_heap fun r₁ m₁ h₁ => ?_
  cases r₁ with
  | none => simp
  | some thread =>
  obtain ⟨i₁, hscan₁, hthread, hs₁⟩ := h₁ thread rfl
  simp only [curTask, Exec.post_bind, Exec.post_get, post_deref, post_assert, implies_true, and_true]
  intro parent hparent hne
  rw [hs₁.task, hs₁.cur] at hparent
  refine Exec.Ensures.mono getKernelPages_heap fun r₂ m₂ h₂ => ?_
  cases r₂ with
  | none => simp
  | some buf =>
  obtain ⟨i₂, hscan₂, hbuf, hs₂⟩ := h₂ buf rfl
  refine Exec.Post.bind copyPcbVaddrbitmapStack0_heap fun r₃ m₃ h₃ => ?_
  cases r₃ with
  | none => simp
  | some child =>
  obtain ⟨hlen, i₃, hscan₃, hbits, hs₃⟩ := h₃ child rfl
  refine Exec.Post.bind createPageDir_heap fun r₄ m₄ h₄ => ?_
  cases r₄ with
  | none => simp
  | some pgdir =>
  obtain ⟨i₄, hscan₄, hpgdir, hs₄⟩ := h₄ pgdir rfl
  intro thread' parent' buf' child' heq
  simp only [Option.some.injEq, Prod.mk.injEq] at heq
  obtain ⟨rfl, rfl, rfl, rfl⟩ := heq
  have hstart₂ := hs₂.vaddrStart.trans hs₁.vaddrStart
  have hstart₃ := hs₃.vaddrStart.trans hstart₂
  -- what each scan found was clear
  have hclear₁ (j : ℕ) (hj : j = i₁) := Memory.not_heapBit_of_scan hscan₁ (j := j) (by omega) (by omega)
  have hclear₂ (j : ℕ) (hj : j = i₂) := Memory.not_heapBit_of_scan hscan₂ (j := j) (by omega) (by omega)
  have hclear₃ (j : ℕ) (hj : i₃ ≤ j ∧ j < i₃ + bitmapPgCnt) :=
    Memory.not_heapBit_of_scan hscan₃ hj.1 hj.2
  have hclear₄ (j : ℕ) (hj : j = i₄) := Memory.not_heapBit_of_scan hscan₄ (j := j) (by omega) (by omega)
  have hone (i j : ℕ) : (i ≤ j ∧ j < i + 1) ↔ j = i := by omega
  simp only [hs₃.heapBit_set, hs₂.heapBit_set, hs₁.heapBit_set, hone, not_or] at hclear₁ hclear₂ hclear₃ hclear₄
  refine ⟨hparent, hne, hlen, i₁, i₂, i₃, i₄, (hs₄.task.trans hs₃.task).trans (hs₂.task.trans hs₁.task),
    (hs₄.cur.trans hs₃.cur).trans (hs₂.cur.trans hs₁.cur), hs₄.vaddrStart.trans hstart₃, hthread,
    hs₁.vaddrStart ▸ hbuf, hstart₂ ▸ hbits, hstart₃ ▸ hpgdir, fun j hj => ?_, fun j => ?_, ?_,
    fun j hj => ⟨(hclear₃ j hj).2.1, fun heq => (hclear₄ j heq).1 hj⟩⟩
  · rcases hj with hj | hj | hj | hj
    · exact hclear₁ j hj
    · exact (hclear₂ j hj).2
    · exact (hclear₃ j hj).2.2
    · exact (hclear₄ j hj).2.2.2
  · rw [hs₄.heapBit_set, hs₃.heapBit_set, hs₂.heapBit_set, hs₁.heapBit_set, hone, hone, hone]
    tauto
  · exact ⟨(hclear₂ i₂ rfl).1, fun hj => (hclear₃ i₂ hj).1 rfl, fun heq => (hclear₄ i₂ heq).2.1 rfl⟩

/-- The pages that a child has got in the kernel heap. -/
structure ForkPages (m m' : Memory) (thread : ℕ) (child : MemTask) (i₁ i₃ i₄ : ℕ) : Prop where
  task : m'.task = Function.update m.task thread (some child)
  cur : m'.cur = m.cur
  vaddrStart : m'.kernelVaddr.vaddrStart = m.kernelVaddr.vaddrStart
  pcb : thread = m.kernelVaddr.vaddrStart + i₁
  bits : child.userprogVaddr.bits = m.kernelVaddr.vaddrStart + i₃
  pgdir : child.pgdir = m.kernelVaddr.vaddrStart + i₄
  clear : ∀ j, j = i₁ ∨ (i₃ ≤ j ∧ j < i₃ + bitmapPgCnt) ∨ j = i₄ → ¬ m.heapBit j = true
  set : ∀ j, m'.heapBit j = true ↔
    (j = i₁ ∨ (i₃ ≤ j ∧ j < i₃ + bitmapPgCnt) ∨ j = i₄) ∨ m.heapBit j = true
  bits_apart : ∀ j, i₃ ≤ j ∧ j < i₃ + bitmapPgCnt → j ≠ i₁ ∧ j ≠ i₄

/-- `sys_fork`, as the kernel heap sees it. -/
theorem sysFork_heap : Exec.Ensures Memory.sysFork m fun r m' => ∀ thread, r = some thread →
    ∃ parent child i₁ i₃ i₄, m.task m.cur = some parent ∧
      child.userprogVaddr.vaddrBitmap.btmpBytesLen = parent.userprogVaddr.vaddrBitmap.btmpBytesLen ∧
        ForkPages m m' thread child i₁ i₃ i₄ := by
  rw [sysFork_eq]
  refine Exec.Post.bind forkSetup_heap fun r m₁ h₁ => ?_
  rcases r with _ | ⟨thread, parent, buf, child⟩
  · simp [forkFinish]
  obtain ⟨hparent, -, hlen, i₁, i₂, i₃, i₄, h⟩ := h₁ thread parent buf child rfl
  simp only [forkFinish, storeTask, Exec.post_bind, Exec.post_modify]
  refine Exec.Ensures.mono copyBodyBytes_keepsHeap fun _ m₂ h₂ => ?_
  refine Exec.Ensures.mono mfreePage_heap fun _ m₃ h₃ => ?_
  obtain ⟨-, hs₃⟩ := h₃
  intro thread' heq
  obtain rfl := Option.some.inj heq
  have hkernel : m₂.kernelVaddr = m₁.kernelVaddr := h₂.kernelVaddr
  have hbuf : buf - m₂.kernelVaddr.vaddrStart = i₂ := by
    rw [hkernel, h.vaddrStart, h.bufPage]
    omega
  rw [hbuf] at hs₃
  have hbit (j : ℕ) : m₂.heapBit j = m₁.heapBit j := by rw [Memory.heapBit, hkernel]
  refine ⟨parent, child, i₁, i₃, i₄, hparent, hlen, ?_, hs₃.cur.trans (h₂.cur.trans h.cur),
    hs₃.vaddrStart.trans (hkernel ▸ h.vaddrStart), h.pcb, h.bits, h.pgdir,
    fun j hj => h.clear j (by tauto), fun j => ?_, h.bits_apart⟩
  · rw [hs₃.task, h₂.task, Memory.setTask_task, h.task]
  · -- the page of the buffer is free again
    rw [hs₃.heapBit_clear, hbit, h.set]
    have hclear := h.clear i₂ (by tauto)
    have hapart := h.buf_apart
    constructor
    · rintro ⟨hne, (rfl | rfl | hj | rfl) | hj⟩
      · tauto
      · omega
      · tauto
      · tauto
      · tauto
    · rintro ((rfl | hj | rfl) | hj)
      · exact ⟨by omega, by tauto⟩
      · exact ⟨fun heq => hapart.2.1 (by omega), by tauto⟩
      · exact ⟨by omega, by tauto⟩
      · refine ⟨fun heq => hclear ?_, by tauto⟩
        obtain rfl : j = i₂ := by omega
        exact hj

end Bits

/-- The running process has a bitmap of the length that every process has, and its PCB is not free. -/
structure HeapReady (m : Memory) : Prop where
  running : ∃ t, m.task m.cur = some t ∧
    t.userprogVaddr.vaddrBitmap.btmpBytesLen = userBitmapLen
  vaddrStart : m.kernelVaddr.vaddrStart = kHeapStart
  pcb : m.cur < kHeapStart ∨ m.heapBit (m.cur - kHeapStart) = true

section Cycle

variable {m m' m'' : Memory} {child t : MemTask} {p thread n : ℕ}

theorem MemInv.heapReady (h : MemInv m) (hcur : m.task m.cur = some t) (hne : t.pgdir ≠ 0) :
    HeapReady m := by
  refine ⟨⟨t, hcur, (h.bitmap _ _ hcur hne).2⟩, h.page.layout.vaddrStart, ?_⟩
  rw [or_iff_not_imp_left, Nat.not_lt]
  intro hlo
  rcases h.page.pcb _ _ hcur with hlt | ⟨hhi, frame, hwalk⟩
  · omega
  · exact (h.page.bits _ frame ⟨hlo, hhi, hwalk⟩).2

theorem switchTo_heap : Exec.Ensures (switchTo p) m fun _ m' =>
    m'.task = m.task ∧ m'.cur = p ∧ m'.kernelVaddr = m.kernelVaddr := by
  simp only [switchTo, Exec.Ensures, Exec.post_bind, Exec.post_get, post_deref, Exec.post_modify,
    implies_true, and_true]
  exact fun t _ => Exec.Ensures.mono pageDirActivate_keepsHeap fun _ m' h => ⟨h.task, h.cur, h.kernelVaddr⟩

/-- `release_prog_resource` gives back as many pages of the bitmap as it has whole pages. -/
theorem releaseProgResource_heap : Exec.Ensures (releaseProgResource t) m fun _ m' =>
    HeapStep m m' (m.kernelVaddr.vaddrBitmap.setRun
      (t.userprogVaddr.bits - m.kernelVaddr.vaddrStart) false
      (t.userprogVaddr.vaddrBitmap.btmpBytesLen / 4096)) := by
  rw [releaseProgResource]
  refine Exec.Post.bind releasePdes_keepsHeap fun _ m₁ h₁ => ?_
  refine Exec.Ensures.mono mfreePage_heap fun _ m₂ h₂ => ?_
  obtain ⟨-, h₂⟩ := h₂
  rw [h₁.kernelVaddr] at h₂
  exact ⟨h₂.task.trans h₁.task, h₂.cur.trans h₁.cur, h₂.kernelVaddr.trans (by rw [h₁.kernelVaddr])⟩

/-- `thread_exit` gives back the directory and the PCB. -/
theorem threadExit_heap (i₁ i₄ : ℕ) (ht : m.task thread = some t) (hne : t.pgdir ≠ 0)
    (hmain : thread ≠ mainThread) (hpcb : thread = m.kernelVaddr.vaddrStart + i₁)
    (hpgdir : t.pgdir = m.kernelVaddr.vaddrStart + i₄) :
    Exec.Ensures (Memory.threadExit thread) m fun _ m' =>
      m'.task = Function.update m.task thread none ∧ m'.cur = m.cur ∧
        m'.kernelVaddr.vaddrStart = m.kernelVaddr.vaddrStart ∧
          ∀ j, m'.heapBit j = true ↔ (j ≠ i₁ ∧ j ≠ i₄) ∧ m.heapBit j = true := by
  simp only [Memory.threadExit, Exec.Ensures, Exec.post_bind, Exec.post_get, post_deref, ht,
    Option.some.injEq, forall_eq', implies_true, and_true, hne, hmain, ne_eq, not_false_eq_true, if_true]
  refine Exec.Ensures.mono mfreePage_heap fun _ m₁ h₁ => ?_
  refine Exec.Ensures.mono mfreePage_heap fun _ m₂ h₂ => ?_
  obtain ⟨-, h₁⟩ := h₁
  obtain ⟨-, h₂⟩ := h₂
  have hstart := h₁.vaddrStart
  have hidx₁ : t.pgdir - m.kernelVaddr.vaddrStart = i₄ := by omega
  have hidx₂ : thread - m₁.kernelVaddr.vaddrStart = i₁ := by omega
  rw [hidx₁] at h₁
  rw [hidx₂] at h₂
  have hone (i j : ℕ) : (i ≤ j ∧ j < i + 1) ↔ j = i := by omega
  rw [Exec.post_modify]
  refine ⟨?_, h₂.cur.trans h₁.cur, h₂.vaddrStart.trans h₁.vaddrStart, fun j => ?_⟩
  · rw [Memory.setTask_task, h₂.task, h₁.task]
  · change m₂.heapBit j = true ↔ _
    rw [h₂.heapBit_clear, h₁.heapBit_clear, hone, hone, and_assoc]

/-- A child leaves one page of the kernel heap behind, the last page of its bitmap. -/
theorem lifeCycle_heap (h : HeapReady m) : Exec.Ensures lifeCycle m fun forked m' => forked = true →
    HeapReady m' ∧ ∃ k, ¬ m.heapBit k = true ∧
      ∀ j, m'.heapBit j = true ↔ j = k ∨ m.heapBit j = true := by
  obtain ⟨t, hcur, hlen⟩ := h.running
  rw [lifeCycle, Exec.Ensures, Exec.post_bind, Exec.post_get]
  refine Exec.Post.bind sysFork_heap fun r m₁ h₁ => ?_
  cases r with
  | none => simp
  | some thread =>
  obtain ⟨parent, child, i₁, i₃, i₄, hparent, hlen', hpages⟩ := h₁ thread rfl
  obtain rfl := Option.some.inj (hcur.symm.trans hparent)
  have hthread : thread = kHeapStart + i₁ := h.vaddrStart ▸ hpages.pcb
  have hchild : m₁.task thread = some child := by rw [hpages.task, Function.update_self]
  have hne : m.cur ≠ thread := by
    rintro heq
    rcases h.pcb with hlo | hset
    · omega
    · refine hpages.clear (m.cur - kHeapStart) (Or.inl ?_) hset
      omega
  -- the child runs
  refine Exec.Post.bind switchTo_heap fun _ m₂ h₂ => ?_
  obtain ⟨htask₂, hcur₂, hkernel₂⟩ := h₂
  simp only [Memory.sysExit, curTask, bind_assoc, Exec.post_bind, Exec.post_get, post_deref, hcur₂, htask₂,
    hchild, Option.some.injEq, forall_eq', implies_true, and_true]
  refine Exec.Ensures.mono releaseProgResource_heap fun _ m₃ h₃ => ?_
  -- the parent runs
  refine Exec.Ensures.mono switchTo_heap fun _ m₄ h₄ => ?_
  obtain ⟨htask₄, hcur₄, hkernel₄⟩ := h₄
  have hstart₄ : m₄.kernelVaddr.vaddrStart = m.kernelVaddr.vaddrStart := by
    rw [hkernel₄, h₃.vaddrStart, hkernel₂, hpages.vaddrStart]
  have htask₃ : m₄.task = Function.update m.task thread (some child) := by
    rw [htask₄, h₃.task, htask₂, hpages.task]
  have hchild₄ : m₄.task thread = some child := by rw [htask₃, Function.update_self]
  have hpgdir := hpages.pgdir
  have hlo : 0 < kHeapStart ∧ mainThread < kHeapStart := by decide
  refine Exec.Ensures.mono (threadExit_heap i₁ i₄ hchild₄ ?_ ?_ ?_ ?_) fun _ m₅ h₅ => ?_
  · rw [hpgdir, h.vaddrStart]
    omega
  · omega
  · rw [hstart₄, hpages.pcb]
  · rw [hstart₄, hpgdir]
  obtain ⟨htask₅, hcur₅, hstart₅, hbit₅⟩ := h₅
  -- the bits of the bitmap of the child
  have hcnt : child.userprogVaddr.vaddrBitmap.btmpBytesLen / 4096 + 1 = bitmapPgCnt := by
    rw [hlen', hlen]
    decide
  have hidx : child.userprogVaddr.bits - m₂.kernelVaddr.vaddrStart = i₃ := by
    rw [hkernel₂, hpages.vaddrStart, hpages.bits]
    omega
  rw [hidx] at h₃
  have hbit₂ (j : ℕ) : m₂.heapBit j = m₁.heapBit j := by rw [Memory.heapBit, hkernel₂]
  have hbit₄ (j : ℕ) : m₄.heapBit j = m₃.heapBit j := by rw [Memory.heapBit, hkernel₄]
  generalize child.userprogVaddr.vaddrBitmap.btmpBytesLen / 4096 = pages at hcnt h₃
  have hbits (j : ℕ) : m₅.heapBit j = true ↔ j = i₃ + pages ∨ m.heapBit j = true := by
    rw [hbit₅, hbit₄, h₃.heapBit_clear, hbit₂, hpages.set]
    have hclear := hpages.clear j
    have hapart := hpages.bits_apart j
    constructor
    · rintro ⟨⟨hne₁, hne₄⟩, hout, (hj | hj | hj) | hj⟩
      · tauto
      · exact Or.inl (by omega)
      · tauto
      · exact Or.inr hj
    · rintro (rfl | hj)
      · exact ⟨hapart (by omega), by omega, Or.inl (Or.inr (Or.inl (by omega)))⟩
      · exact ⟨by tauto, fun hin => hclear (Or.inr (Or.inl (by omega))) hj, Or.inr hj⟩
  refine fun _ => ⟨⟨⟨t, ?_, hlen⟩, ?_, ?_⟩, i₃ + pages, ?_, hbits⟩
  · rw [htask₅, hcur₅, hcur₄, Function.update_of_ne hne, htask₃, Function.update_of_ne hne, hcur]
  · rw [hstart₅, hstart₄, h.vaddrStart]
  · rw [hcur₅, hcur₄]
    exact h.pcb.imp_right fun hset => (hbits _).mpr (Or.inr hset)
  · exact hpages.clear _ (Or.inr (Or.inl (by omega)))

theorem lifeCycles_heap (h : HeapReady m) : Exec.Ensures (lifeCycles n) m fun forked m' =>
    forked = true → ∃ k : Finset ℕ, k.card = n ∧ (∀ i ∈ k, m.heapBit i = false) ∧
      ∀ i, m'.heapBit i = true ↔ i ∈ k ∨ m.heapBit i = true := by
  induction n generalizing m with
  | zero => exact fun _ => ⟨∅, rfl, by simp, by simp⟩
  | succ n ih =>
    refine Exec.Post.bind (lifeCycle_heap h) fun forked m₁ h₁ => ?_
    rw [Exec.post_ite]
    refine ⟨fun hforked => ?_, fun _ => by simp⟩
    obtain ⟨hready, i, hclear, hset⟩ := h₁ hforked
    refine Exec.Ensures.mono (ih hready) fun _ m₂ h₂ hforked₂ => ?_
    obtain ⟨k, hcard, hclear₂, hset₂⟩ := h₂ hforked₂
    -- the page of this child is not free for the next ones
    have hnot : i ∉ k := fun hi => by
      have := hclear₂ i hi
      rw [(hset i).mpr (Or.inl rfl)] at this
      cases this
    refine ⟨insert i k, by rw [Finset.card_insert_of_notMem hnot, hcard], fun j hj => ?_, fun j => ?_⟩
    · rw [← Bool.not_eq_true]
      rcases Finset.mem_insert.mp hj with rfl | hj
      · exact hclear
      · exact fun hbit => by
          have := hclear₂ j hj
          rw [(hset j).mpr (Or.inr hbit)] at this
          cases this
    · rw [hset₂, hset, Finset.mem_insert]
      tauto

/-- A process without pages has nothing to copy. -/
theorem copyBodyBytes_eq_pure {child parent : MemTask} {buf : ℕ}
    (hzero : parent.userprogVaddr.vaddrBitmap.bits = Bytes.zero) (idxByte left : ℕ) :
    copyBodyBytes child parent buf idxByte left = pure () := by
  induction left generalizing idxByte with
  | zero => rfl
  | succ left ih =>
    rw [copyBodyBytes, hzero, ih]
    rfl

/-- `lifeCycle` for a process without pages, where there is nothing to copy. -/
def lifeCycleBare : MemM Bool := do
  let m ← get
  let r ← forkSetup
  r.elim (pure false) fun x => do
    storeTask x.1 x.2.2.2
    mfreePage .pfKernel x.2.2.1 1
    switchTo x.1
    Memory.sysExit
    switchTo m.cur
    Memory.threadExit x.1
    pure true

theorem lifeCycle_eq_bare (hcur : m.task m.cur = some t)
    (hzero : t.userprogVaddr.vaddrBitmap.bits = Bytes.zero) : lifeCycle m = lifeCycleBare m := by
  have hget : (get : MemM Memory) m = .ok (m, m) := rfl
  rw [lifeCycle, lifeCycleBare, Exec.bind_eq_ok hget, Exec.bind_eq_ok hget, sysFork_eq, bind_assoc]
  cases hsetup : forkSetup m with
  | error e => rw [Exec.bind_eq_error hsetup, Exec.bind_eq_error hsetup]
  | ok r =>
    obtain ⟨r, m₁⟩ := r
    rw [Exec.bind_eq_ok hsetup, Exec.bind_eq_ok hsetup]
    rcases r with _ | ⟨thread, parent, buf, child⟩
    · rfl
    · have hparent := (forkSetup_heap.of_ok hsetup thread parent buf child rfl).1
      obtain rfl := Option.some.inj (hcur.symm.trans hparent)
      simp only [forkFinish, copyBodyStack3, copyBodyBytes_eq_pure hzero, bind_assoc, pure_bind,
        Option.elim_some]

/-- Each child of a process that exits and is waited for leaves one page of the kernel heap behind, that
was free before, and no page is given back twice. -/
theorem lifeCycles_leak (h : MemInv m) (hcur : m.task m.cur = some t) (hne : t.pgdir ≠ 0) (n : ℕ) :
    Exec.Ensures (lifeCycles n) m fun forked m' => forked = true →
      ∃ k : Finset ℕ, k.card = n ∧ (∀ i ∈ k, m.heapBit i = false) ∧
        ∀ i, m'.heapBit i = true ↔ i ∈ k ∨ m.heapBit i = true :=
  lifeCycles_heap (h.heapReady hcur hne)

theorem lifeCycle_pgdir : Exec.Ensures lifeCycle m fun forked _ => forked = true →
    ∃ t, m.task m.cur = some t ∧ t.pgdir ≠ 0 := by
  rw [lifeCycle, sysFork_eq, Exec.Ensures, Exec.post_bind, Exec.post_get, bind_assoc]
  refine Exec.Post.bind forkSetup_heap fun r m₁ h₁ => ?_
  rcases r with _ | ⟨thread, parent, buf, child⟩
  · simp [forkFinish]
  · obtain ⟨hparent, hne, -⟩ := h₁ thread parent buf child rfl
    exact Exec.Ensures.mono Exec.ensures_true fun _ _ _ _ => ⟨parent, hparent, hne⟩

theorem lifeCycleBare_init : Exec.returnsWith ((do
    processExecute
    switchTo 0xc0100
    lifeCycleBare) (Memory.boot 0x400000)) (fun forked _ => forked) = true := by
  decide +kernel

/-- `init` forks once, and waits for the child. -/
theorem lifeCycles_leak_init : ∃ m m' t, m.task m.cur = some t ∧ t.pgdir ≠ 0 ∧
    lifeCycles 1 m = .ok (true, m') ∧ ∃ k : Finset ℕ, k.card = 1 ∧ (∀ i ∈ k, m.heapBit i = false) ∧
      ∀ i, m'.heapBit i = true ↔ i ∈ k ∨ m.heapBit i = true := by
  obtain ⟨forked, m', hrun, rfl⟩ := Exec.exists_of_returnsWith lifeCycleBare_init
  -- the process that runs
  obtain ⟨⟨⟩, m₁, hexec, hrun⟩ := Exec.of_bind_eq_ok hrun
  obtain ⟨h₁, -, -, -, p, t, -, htask, hzero⟩ := (processExecute_spec memInv_boot).of_ok hexec
  obtain ⟨⟨⟩, m₂, hswitch, hrun⟩ := Exec.of_bind_eq_ok hrun
  obtain ⟨h₂, t', ht', rfl⟩ := (switchTo_spec h₁).of_ok hswitch
  have hp : p = 0xc0100 := by
    by_contra hne
    rw [htask, Function.update_of_ne (Ne.symm hne)] at ht'
    cases ht'
  subst hp
  rw [htask, Function.update_self] at ht'
  obtain rfl := Option.some.inj ht'
  have hcur : ((m₁.setCur 0xc0100).setCr3 (m₁.dirOf t)).task 0xc0100 = some t := by
    change m₁.task 0xc0100 = some t
    rw [htask, Function.update_self]
  rw [← lifeCycle_eq_bare hcur hzero] at hrun
  obtain ⟨t', ht', hne⟩ := lifeCycle_pgdir.of_ok hrun rfl
  obtain rfl := Option.some.inj (hcur.symm.trans ht')
  have hruns : lifeCycles 1 _ = .ok (true, m') := (Exec.bind_eq_ok hrun).trans rfl
  exact ⟨_, m', t, hcur, hne, hruns, (lifeCycles_leak h₂ hcur hne 1).of_ok hruns rfl⟩

end Cycle

end Winx
