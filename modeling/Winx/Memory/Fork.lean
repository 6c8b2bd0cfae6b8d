import Winx.Memory.PageDirs

/-! # Fork

`sys_fork` gives the child a page directory of its own and copies the pages of
the parent one by one, through a page of the kernel that both directories have.
-/

namespace Winx

/-- `copy_pcb_vaddrbitmap_stack0`, as far as it goes into memory management: the bytes of the bitmap
are copied with the pages that hold them. -/
def copyPcbVaddrbitmapStack0 (parent : MemTask) : MemM (Option MemTask) := do
  let vaddrBtmp ← getKernelPages bitmapPgCnt
  match vaddrBtmp with
  | none => pure none
  | some bits =>
    let va := parent.userprogVaddr
    let copy := fun byteIdx =>
      if byteIdx < bitmapPgCnt * 4096 then va.vaddrBitmap.bits byteIdx else 0
    pure (some ⟨parent.pgdir, ⟨⟨va.vaddrBitmap.btmpBytesLen, copy⟩, bits, va.vaddrStart⟩⟩)

/-- What `copy_body_stack3` does for a page of the parent. -/
def copyBodyPage (child parent : MemTask) (bufPage progVaddr : ℕ) : MemM Unit := do
  copyPage bufPage progVaddr
  pageDirActivate child
  let _ ← getAPageWithoutOpvaddrbitmap .pfUser progVaddr
  copyPage progVaddr bufPage
  pageDirActivate parent

/-- The inner loop of `copy_body_stack3`, over the bits of a byte. -/
def copyBodyBits (child parent : MemTask) (bufPage idxByte : ℕ) : ℕ → ℕ → MemM Unit
  | _, 0 => pure ()
  | idxBit, left + 1 => do
    if Bitmap.mask idxBit &&& parent.userprogVaddr.vaddrBitmap.bits idxByte ≠ 0 then
      copyBodyPage child parent bufPage (parent.userprogVaddr.vaddrStart + (idxByte * 8 + idxBit))
    copyBodyBits child parent bufPage idxByte (idxBit + 1) left

/-- The outer loop of `copy_body_stack3`, over the bytes of the bitmap. -/
def copyBodyBytes (child parent : MemTask) (bufPage : ℕ) : ℕ → ℕ → MemM Unit
  | _, 0 => pure ()
  | idxByte, left + 1 => do
    if parent.userprogVaddr.vaddrBitmap.bits idxByte ≠ 0 then
      copyBodyBits child parent bufPage idxByte 0 8
    copyBodyBytes child parent bufPage (idxByte + 1) left

/-- `copy_body_stack3` -/
def copyBodyStack3 (child parent : MemTask) (bufPage : ℕ) : MemM Unit :=
  copyBodyBytes child parent bufPage 0 parent.userprogVaddr.vaddrBitmap.btmpBytesLen

/-- `copy_process`. The child is a thread as soon as its PCB has the page directory; the stack and the
descriptors that it gets are not in memory that is managed here. -/
def copyProcess (childThread : ℕ) (parent : MemTask) : MemM Bool := do
  let bufPage ← getKernelPages 1
  match bufPage with
  | none => pure false
  | some bufPage =>
    let child ← copyPcbVaddrbitmapStack0 parent
    match child with
    | none => pure false
    | some child =>
      let pgdir ← createPageDir
      match pgdir with
      | none => pure false
      | some pgdir =>
        let child := { child with pgdir := pgdir }
        storeTask childThread child
        copyBodyStack3 child parent bufPage
        mfreePage .pfKernel bufPage 1
        pure true

/-- `sys_fork`. The result is the PCB of the child. -/
def Memory.sysFork : MemM (Option ℕ) := do
  let childThread ← getKernelPages 1
  match childThread with
  | none => pure none
  | some childThread =>
    let parent ← curTask
    assert (parent.pgdir ≠ 0)
    let copied ← copyProcess childThread parent
    if copied then pure (some childThread) else pure none

/-- A page of the parent has been copied to the child, in a frame that was free. -/
structure CopiedPage (m m' : Memory) (dc buf vaddr frame : ℕ) : Prop where
  keeps : KeepsDirs m m'
  cr3 : m'.cr3 = m.cr3
  cur : m'.cur = m.cur
  task : m'.task = m.task
  kernelVaddr : m'.kernelVaddr = m.kernelVaddr
  absent : ∀ g, ¬ m.Holds (.page dc vaddr) g
  fresh : ¬ m.Allocated .pfUser frame
  page : ∀ d v g, m'.Holds (.page d v) g ↔
    if d = dc ∧ v = vaddr then g = frame else m.Holds (.page d v) g
  kernelPage : ∀ v g, m'.Holds (.kernelPage v) g ↔ m.Holds (.kernelPage v) g
  table : ∀ d i g, m'.Holds (.table d i) g → m.Holds (.table d i) g ∨ ¬ m.Allocated .pfKernel g
  present : ∀ i, entryPresent (m'.phys dc i) = true ↔
    entryPresent (m.phys dc i) = true ∨ i = vaddr / 1024
  userFrames : m'.freeFrames .pfUser + 1 = m.freeFrames .pfUser
  kernelFrames : m'.freeFrames .pfKernel +
    (if entryPresent (m.phys dc (vaddr / 1024)) then 0 else 1) = m.freeFrames .pfKernel
  alloc : ∀ pf g, m.Allocated pf g → m'.Allocated pf g
  content : ∀ pf g, m.Allocated pf g → PlainFrame m g → ¬ m.Holds (.kernelPage buf) g →
    m'.phys g = m.phys g

section Copy

variable {m : Memory} {child parent : MemTask} {p q dc dp buf gb vaddr frame g : ℕ}

/-- `memcpy` of a page to a page whose frame is plain. -/
theorem post_copyPage {dst src frame g : ℕ} {Q : Unit → Memory → Prop} {E : Fault → Prop}
    (hsrc : m.walk m.cr3 src = some g) (hdst : m.walk m.cr3 dst = some frame) :
    Exec.Post (copyPage dst src) m Q E ↔ Q () (m.setFrame frame (m.phys g)) := by
  simp only [copyPage, translate, Exec.post_bind, Exec.post_get, post_deref, hsrc, hdst,
    Option.some.injEq, forall_eq', Exec.post_modify, reduceCtorEq, false_implies, and_true]

/-- The step of a directory change. -/
theorem Memory.sameUses_setCr3 (dir : ℕ) : SameUses m (m.setCr3 dir) :=
  .of_phys rfl (fun _ => rfl) (fun _ => rfl) (fun _ => rfl) rfl rfl

theorem PlainFrame.of_sameUses {m' : Memory} (hplain : PlainFrame m frame) (hs : SameUses m m') :
    PlainFrame m' frame :=
  ⟨hplain.low, fun hdir => hplain.dir (hs.keeps.isProcDir.mp hdir),
    fun d i ht => hplain.table d i ((hs.holds _ _).mp ht)⟩

/-- Copying one page of the parent. -/
theorem copyBodyPage_spec (h : PageInv m) (hparent : m.task p = some parent)
    (hchild : m.task q = some child) (hne : child.pgdir ≠ 0) (hcr3 : m.cr3 = m.dirOf parent)
    (hbuf : m.Holds (.kernelPage buf) gb) (hnot : ¬ m.IsTaskPage buf)
    (hv : m.Holds (.page m.cr3 vaddr) g) (habsent : ∀ g, ¬ m.Holds (.page (m.dirOf child) vaddr) g)
    (hf : m.nextFrame .pfUser = some frame)
    (hroom : entryPresent (m.phys (m.dirOf child) (vaddr / 1024)) = true ∨
      m.freeFrames .pfKernel ≠ 0) :
    Exec.Returns (copyBodyPage child parent buf vaddr) m fun _ m' => PageInv m' ∧
      CopiedPage m m' (m.dirOf child) buf vaddr frame ∧ m'.phys frame = m.phys g := by
  generalize hdc : m.dirOf child = dc at habsent hroom
  have hdir : m.IsProcDir dc := hdc ▸ h.isProcDir_dirOf hchild hne
  have hplain := h.kernelPage_plain hbuf hnot
  -- the page goes to the buffer
  obtain ⟨h₁, hw⟩ := h.wrotePage hbuf hnot (m.phys g)
  have hbufwalk : m.walk m.cr3 buf = some gb := by
    rw [h.walk_kernel (kernelBase_le_of_heap hbuf.1) hbuf.2.1, hbuf.2.2]
  rw [copyBodyPage, Exec.Returns, Exec.post_bind, post_copyPage hv.2.2 hbufwalk]
  generalize hm₁ : m.setFrame gb (m.phys g) = m₁ at h₁ hw
  have hgb : m₁.phys gb = m.phys g := by
    rw [← hm₁, Memory.setFrame_phys, Function.update_self]
  -- the directory of the child
  have hchild₁ : m₁.task q = some child := hw.task ▸ hchild
  have hdc₁ : m₁.dirOf child = dc := (hw.same.keeps.dirOf hchild rfl).trans hdc
  have hdir₁ : m₁.IsProcDir dc := hw.same.keeps.isProcDir.mpr hdir
  rw [Exec.post_bind, post_pageDirActivate h₁ hchild₁, hdc₁]
  have h₂ := h₁.setCr3 (Or.inr hdir₁)
  have hsame₂ : SameUses m (m₁.setCr3 dc) := by
    have hs : SameUses m₁ (m₁.setCr3 dc) := Memory.sameUses_setCr3 dc
    exact ⟨hw.same.keeps.trans hs.keeps, fun u g => (hs.holds u g).trans (hw.same.holds u g)⟩
  have hphys₂ (g' : ℕ) (hg' : g' ≠ gb) : (m₁.setCr3 dc).phys g' = m.phys g' := by
    change m₁.phys g' = m.phys g'
    rw [← hm₁, Memory.setFrame_phys, Function.update_of_ne hg']
  have hpool₂ : (m₁.setCr3 dc).pool = m.pool := by
    rw [← hw.pool]
    funext pf
    cases pf <;> rfl
  have halloc₂ (pf : PoolFlags) (g' : ℕ) : (m₁.setCr3 dc).Allocated pf g' ↔ m.Allocated pf g' := by
    unfold Memory.Allocated
    rw [hpool₂]
  have hgb₂ : (m₁.setCr3 dc).phys gb = m.phys g := hgb
  have htask₂ : (m₁.setCr3 dc).task = m.task := hw.task
  have hcur₂ : (m₁.setCr3 dc).cur = m.cur := hw.cur
  have hvaddr₂ : (m₁.setCr3 dc).kernelVaddr = m.kernelVaddr := hw.kernelVaddr
  have hcr3₂ : (m₁.setCr3 dc).cr3 = dc := rfl
  generalize m₁.setCr3 dc = m₂ at h₂ hsame₂ hphys₂ hpool₂ halloc₂ hgb₂ htask₂ hcur₂ hvaddr₂ hcr3₂ ⊢
  -- a page of the child
  have hf₂ : m₂.nextFrame .pfUser = some frame := by
    unfold Memory.nextFrame
    rw [hpool₂]
    exact hf
  have hdcgb : dc ≠ gb := by
    rintro rfl
    exact hplain.dir hdir
  have hdir₂ : (m₂.takeFrame .pfUser).IsProcDir (m₂.takeFrame .pfUser).cr3 := by
    rw [Memory.takeFrame_cr3, hcr3₂]
    exact Memory.sameUses_takeFrame.keeps.isProcDir.mpr (hsame₂.keeps.isProcDir.mpr hdir)
  have hfree (pf : PoolFlags) : m₂.freeFrames pf = m.freeFrames pf := by
    unfold Memory.freeFrames
    rw [hpool₂]
  have htake : (m₂.takeFrame .pfUser).freeFrames .pfKernel = m.freeFrames .pfKernel := by
    have hkernel : (m₂.takeFrame .pfUser).freeFrames .pfKernel + 0 = m₂.freeFrames .pfKernel :=
      Memory.freeFrames_takeFrame hf₂
    rw [← hfree, ← hkernel, Nat.add_zero]
  have hroom₂ : entryPresent ((m₂.takeFrame .pfUser).phys (m₂.takeFrame .pfUser).cr3
      (vaddr / 1024)) = true ∨ (m₂.takeFrame .pfUser).freeFrames .pfKernel ≠ 0 := by
    rw [Memory.takeFrame_phys, Memory.takeFrame_cr3, hcr3₂, hphys₂ dc hdcgb, htake]
    exact hroom
  simp only [getAPageWithoutOpvaddrbitmap, Exec.post_bind, post_palloc, hf₂]
  refine Exec.Post.mono (pageTableAdd_user h₂.takeFrame hdir₂ hv.2.1 (h₂.fresh_nextFrame hf₂) hroom₂)
    (fun _ m₃ ⟨h₃, hadd⟩ => ?_) fun e ⟨_, hmapped⟩ => ?_
  · have hpages := hadd.addedPages h₂ hf₂
    have hcr3₃ : m₃.cr3 = dc := hpages.grows.cr3.trans hcr3₂
    have hpage₃ (d v g' : ℕ) : m₃.Holds (.page d v) g' ↔
        if d = dc ∧ v = vaddr then g' = frame else m.Holds (.page d v) g' := by
      rw [hadd.page, Memory.takeFrame_cr3, hcr3₂, Memory.sameUses_takeFrame.holds, hsame₂.holds]
    have hown : m₃.Holds (.page dc vaddr) frame := (hpage₃ dc vaddr frame).mpr (by simp)
    have hbuf₂ : m₂.Holds (.kernelPage buf) gb := (hsame₂.holds _ _).mpr hbuf
    have hbuf₃ : m₃.Holds (.kernelPage buf) gb := hpages.grows.holds _ _ hbuf₂
    have hwalk₃ : m₃.walk m₃.cr3 vaddr = some frame := by
      rw [hcr3₃]
      exact hown.2.2
    have hbufwalk₃ : m₃.walk m₃.cr3 buf = some gb := by
      rw [h₃.walk_kernel (kernelBase_le_of_heap hbuf.1) hbuf.2.1, hbuf₃.2.2]
    have hgb₃ : m₃.phys gb = m.phys g := by
      rw [hpages.grows.content .pfKernel gb ((halloc₂ _ _).mpr (h.alloc _ _ hbuf))
        (hplain.of_sameUses hsame₂), hgb₂]
    have hplain₃ : PlainFrame m₃ frame := h₃.page_plain hown
    have hs₄ := h₃.sameUses_setFrame hplain₃ (m₃.phys gb)
    have h₄ : PageInv (m₃.setFrame frame (m₃.phys gb)) :=
      h₃.of_sameUses hs₄ rfl (fun _ _ => id) fun _ => id
    have hkeeps₃ : KeepsDirs m m₃ := hsame₂.keeps.trans hpages.grows.keeps
    have htask₃ : m₃.task = m.task := hpages.task.trans htask₂
    have hparent₄ : (m₃.setFrame frame (m₃.phys gb)).task p = some parent := htask₃ ▸ hparent
    have hdp₄ : (m₃.setFrame frame (m₃.phys gb)).dirOf parent = m.cr3 := by
      rw [(hkeeps₃.trans hs₄.keeps).dirOf hparent rfl, hcr3]
    rw [Exec.post_pure, post_copyPage hbufwalk₃ hwalk₃, post_pageDirActivate h₄ hparent₄, hdp₄]
    have hdir₄ : (m₃.setFrame frame (m₃.phys gb)).IsProcDir m.cr3 :=
      (hkeeps₃.trans hs₄.keeps).isProcDir.mpr hv.1
    have hs₅ : SameUses m₃ ((m₃.setFrame frame (m₃.phys gb)).setCr3 m.cr3) := by
      have hs : SameUses (m₃.setFrame frame (m₃.phys gb)) _ := Memory.sameUses_setCr3 m.cr3
      exact ⟨hs₄.keeps.trans hs.keeps, fun u g' => (hs.holds u g').trans (hs₄.holds u g')⟩
    have hphys₅ (g' : ℕ) (hg' : g' ≠ frame) :
        ((m₃.setFrame frame (m₃.phys gb)).setCr3 m.cr3).phys g' = m₃.phys g' :=
      Function.update_of_ne hg' ..
    have hdcframe : dc ≠ frame := by
      rintro rfl
      exact hplain₃.dir (hkeeps₃.isProcDir.mpr hdir)
    refine ⟨h₄.setCr3 (Or.inr hdir₄), ⟨hkeeps₃.trans hs₅.keeps, rfl, ?_, htask₃,
      hpages.kernelVaddr.trans hvaddr₂, habsent, fun hall => Memory.nextFrame_ne h.layout hf hall rfl,
      fun d v g' => ?_, fun v g' => ?_, fun d i g' ht => ?_, fun i => ?_, ?_, ?_, fun pf g' hg' => ?_,
      fun pf g' hg' hplain' hnotbuf => ?_⟩, ?_⟩
    · exact hpages.grows.cur.trans hcur₂
    · rw [hs₅.holds, hpage₃]
    · rw [hs₅.holds, hpages.kernelPage, hsame₂.holds]
    · rcases hpages.grows.new _ _ ((hs₅.holds _ _).mp ht) with hold | hnew
      · exact Or.inl ((hsame₂.holds _ _).mp hold)
      · exact Or.inr fun hall => hnew ((halloc₂ _ _).mpr hall)
    · have hpres := hadd.present i
      rw [Memory.takeFrame_cr3, hcr3₂, Memory.takeFrame_phys, hphys₂ dc hdcgb] at hpres
      rw [hphys₅ dc hdcframe, hpres]
    · have huser := hpages.free
      rw [hfree] at huser
      exact huser
    · have htables := hadd.tables
      rw [Memory.takeFrame_cr3, hcr3₂, Memory.takeFrame_phys, hphys₂ dc hdcgb, htake] at htables
      exact htables
    · exact hpages.grows.alloc pf g' ((halloc₂ _ _).mpr hg')
    · have hne' : g' ≠ frame := by
        rintro rfl
        exact Memory.nextFrame_ne h.layout hf hg' rfl
      have hnegb : g' ≠ gb := by
        rintro rfl
        exact hnotbuf hbuf
      rw [hphys₅ g' hne', hpages.grows.content pf g' ((halloc₂ _ _).mpr hg')
        (hplain'.of_sameUses hsame₂), hphys₂ g' hnegb]
    · change Function.update m₃.phys frame (m₃.phys gb) frame = m.phys g
      rw [Function.update_self, hgb₃]
  · -- the page was not there
    refine hmapped (Option.eq_none_iff_forall_not_mem.mpr fun g' hg' => habsent g' ?_)
    have hown : (m₂.takeFrame .pfUser).Holds (.page (m₂.takeFrame .pfUser).cr3 vaddr) g' :=
      ⟨hdir₂, hv.2.1, hg'⟩
    rw [Memory.takeFrame_cr3, hcr3₂] at hown
    exact (hsame₂.holds _ _).mp ((Memory.sameUses_takeFrame.holds _ _).mp hown)

end Copy

/-- The set bits below a bound. -/
def MemTask.setBits (t : MemTask) (n : ℕ) : Finset ℕ :=
  (Finset.range n).filter fun i => t.userprogVaddr.vaddrBitmap.scanTest i = true

/-- The page directory entries that pages with set bits need. -/
def MemTask.setTables (t : MemTask) (n : ℕ) : Finset ℕ :=
  (t.setBits n).image fun i => (t.userprogVaddr.vaddrStart + i) / 1024

/-- The entries of a directory that have a page table. -/
def Memory.userTables (m : Memory) (dir : ℕ) : Finset ℕ :=
  (Finset.range 768).filter fun i => entryPresent (m.phys dir i) = true

/-- The pages of the first bits of the parent have been copied to the child. -/
structure CopiedBits (m m' : Memory) (t : MemTask) (dc buf n : ℕ) : Prop where
  keeps : KeepsDirs m m'
  cr3 : m'.cr3 = m.cr3
  cur : m'.cur = m.cur
  task : m'.task = m.task
  kernelVaddr : m'.kernelVaddr = m.kernelVaddr
  pages : ∀ v, (∃ g, m'.Holds (.page dc v) g) ↔
    ∃ i ∈ t.setBits n, v = t.userprogVaddr.vaddrStart + i
  copies : ∀ v g g', m'.Holds (.page dc v) g' → m.Holds (.page m.cr3 v) g → m'.phys g' = m.phys g
  fresh : ∀ v g, m'.Holds (.page dc v) g → ¬ m.Allocated .pfUser g
  other : ∀ d v g, d ≠ dc → (m'.Holds (.page d v) g ↔ m.Holds (.page d v) g)
  kernelPage : ∀ v g, m'.Holds (.kernelPage v) g ↔ m.Holds (.kernelPage v) g
  table : ∀ d i g, m'.Holds (.table d i) g → m.Holds (.table d i) g ∨ ¬ m.Allocated .pfKernel g
  tables : m'.userTables dc ⊆ t.setTables n
  userFrames : m'.freeFrames .pfUser + (t.setBits n).card = m.freeFrames .pfUser
  kernelFrames : m'.freeFrames .pfKernel + (m'.userTables dc).card = m.freeFrames .pfKernel
  alloc : ∀ pf g, m.Allocated pf g → m'.Allocated pf g
  content : ∀ pf g, m.Allocated pf g → PlainFrame m g → ¬ m.Holds (.kernelPage buf) g →
    m'.phys g = m.phys g

/-- What holds when `copy_body_stack3` begins: the pages of the running parent are those of the bits,
the child has no page, and there are frames for all of them. -/
structure ForkReady (m : Memory) (parent child : MemTask) (q dc buf gb : ℕ) : Prop where
  inv : PageInv m
  runs : m.task m.cur = some parent
  started : m.task q = some child
  pgdir : child.pgdir ≠ 0
  cr3 : m.cr3 = m.dirOf parent
  dir : m.dirOf child = dc
  ne : m.cr3 ≠ dc
  bufPage : m.Holds (.kernelPage buf) gb
  notTask : ¬ m.IsTaskPage buf
  bits : ∀ v, (∃ g, m.Holds (.page m.cr3 v) g) ↔
    ∃ i ∈ parent.setBits (8 * parent.userprogVaddr.vaddrBitmap.btmpBytesLen),
      v = parent.userprogVaddr.vaddrStart + i
  empty : ∀ i < 768, m.phys dc i = 0
  userFrames : (parent.setBits (8 * parent.userprogVaddr.vaddrBitmap.btmpBytesLen)).card ≤
    m.freeFrames .pfUser
  kernelFrames : (parent.setTables (8 * parent.userprogVaddr.vaddrBitmap.btmpBytesLen)).card ≤
    m.freeFrames .pfKernel

section Loop

variable {m m' : Memory} {child parent : MemTask} {q dc buf gb n : ℕ}

theorem MemTask.mem_setBits {t : MemTask} {i : ℕ} :
    i ∈ t.setBits n ↔ i < n ∧ t.userprogVaddr.vaddrBitmap.scanTest i = true := by
  rw [setBits, Finset.mem_filter, Finset.mem_range]

theorem MemTask.setBits_succ_of_clear {t : MemTask}
    (h : t.userprogVaddr.vaddrBitmap.scanTest n = false) : t.setBits (n + 1) = t.setBits n := by
  ext i
  rw [mem_setBits, mem_setBits]
  refine and_congr_left fun hi => ⟨fun hlt => ?_, fun hlt => by omega⟩
  rcases Nat.eq_or_lt_of_le (Nat.le_of_lt_succ hlt) with rfl | hlt
  · rw [h] at hi
    cases hi
  · exact hlt

theorem MemTask.setBits_succ_of_set {t : MemTask}
    (h : t.userprogVaddr.vaddrBitmap.scanTest n = true) :
    t.setBits (n + 1) = insert n (t.setBits n) := by
  ext i
  rw [Finset.mem_insert, mem_setBits, mem_setBits]
  constructor
  · rintro ⟨hlt, hi⟩
    rcases Nat.eq_or_lt_of_le (Nat.le_of_lt_succ hlt) with rfl | hlt
    · exact Or.inl rfl
    · exact Or.inr ⟨hlt, hi⟩
  · rintro (rfl | ⟨hlt, hi⟩)
    · exact ⟨by omega, h⟩
    · exact ⟨by omega, hi⟩

/-- Before the first bit. -/
theorem ForkReady.start (hr : ForkReady m parent child q dc buf gb) :
    CopiedBits m m parent dc buf 0 := by
  have hnone (v g : ℕ) : ¬ m.Holds (.page dc v) g := by
    rintro ⟨-, hv, hwalk⟩
    have hp := (Memory.walk_eq_some.mp hwalk).1
    unfold kernelBase at hv
    rw [hr.empty _ (by omega)] at hp
    cases hp
  have htables : m.userTables dc = ∅ := by
    refine Finset.filter_eq_empty_iff.mpr fun i hi hp => ?_
    rw [hr.empty i (Finset.mem_range.mp hi)] at hp
    cases hp
  refine ⟨⟨fun _ => rfl, fun _ => rfl, fun _ => rfl, rfl, rfl, fun _ _ => rfl, fun _ _ _ _ => rfl,
    fun _ _ => rfl⟩, rfl, rfl, rfl, rfl, fun v => ?_, fun v g g' hv => absurd hv (hnone v g'),
    fun v g hv => absurd hv (hnone v g), fun _ _ _ _ => Iff.rfl, fun _ _ => Iff.rfl,
    fun _ _ _ => Or.inl, ?_, rfl, ?_, fun _ _ => id, fun _ _ _ _ _ => rfl⟩
  · refine iff_of_false (fun ⟨g, hg⟩ => hnone v g hg) ?_
    rintro ⟨i, hi, -⟩
    cases hi
  · rw [htables]
    exact Finset.empty_subset _
  · rw [htables]
    rfl

/-- A clear bit stands for no page. -/
theorem CopiedBits.skip (h : CopiedBits m m' parent dc buf n)
    (hclear : parent.userprogVaddr.vaddrBitmap.scanTest n = false) :
    CopiedBits m m' parent dc buf (n + 1) := by
  have hbits := MemTask.setBits_succ_of_clear hclear
  refine { h with pages := ?_, tables := ?_, userFrames := ?_ }
  · rw [hbits]
    exact h.pages
  · rw [MemTask.setTables, hbits]
    exact h.tables
  · rw [hbits]
    exact h.userFrames

/-- A frame that was allocated and plain stays plain. -/
theorem CopiedBits.plain {frame : ℕ} {pf : PoolFlags} (h : CopiedBits m m' parent dc buf n)
    (hinv' : PageInv m') (halloc : m.Allocated pf frame) (hplain : PlainFrame m frame) :
    PlainFrame m' frame := by
  refine ⟨hplain.low, fun hdir => hplain.dir (h.keeps.isProcDir.mp hdir), fun d i ht => ?_⟩
  rcases h.table _ _ _ ht with hold | hnew
  · exact hplain.table d i hold
  · obtain rfl := hinv'.layout.pool_eq (h.alloc pf frame halloc) (hinv'.alloc _ _ ht)
    exact hnew halloc

/-- The page tables of the child, with the one for a new page. -/
theorem CopiedPage.card_userTables {vaddr frame : ℕ} (hc : CopiedPage m m' dc buf vaddr frame)
    (hv : vaddr < kernelBase) : (m'.userTables dc).card = (m.userTables dc).card +
      (if entryPresent (m.phys dc (vaddr / 1024)) then 0 else 1) := by
  have hi : vaddr / 1024 < 768 := by
    unfold kernelBase at hv
    omega
  have hmem (i : ℕ) : i ∈ m'.userTables dc ↔ i ∈ insert (vaddr / 1024) (m.userTables dc) := by
    simp only [Memory.userTables, Finset.mem_insert, Finset.mem_filter, Finset.mem_range, hc.present]
    constructor
    · rintro ⟨hlt, hp | rfl⟩
      · exact Or.inr ⟨hlt, hp⟩
      · exact Or.inl rfl
    · rintro (rfl | ⟨hlt, hp⟩)
      · exact ⟨hi, Or.inr rfl⟩
      · exact ⟨hlt, Or.inl hp⟩
  rw [Finset.ext hmem]
  split
  · rename_i hp
    have hin : vaddr / 1024 ∈ m.userTables dc := Finset.mem_filter.mpr ⟨Finset.mem_range.mpr hi, hp⟩
    rw [Finset.insert_eq_of_mem hin, Nat.add_zero]
  · rename_i hp
    exact Finset.card_insert_of_notMem fun hmem => hp (Finset.mem_filter.mp hmem).2

/-- The pages of the parent are those that they were. -/
theorem ForkReady.parentPage {v g : ℕ} (hr : ForkReady m parent child q dc buf gb)
    (h : CopiedBits m m' parent dc buf n) (hv : m.Holds (.page m.cr3 v) g) :
    m'.Holds (.page m'.cr3 v) g ∧ m'.phys g = m.phys g := by
  refine ⟨?_, ?_⟩
  · rw [h.cr3]
    exact (h.other _ _ _ hr.ne).mpr hv
  · exact h.content .pfUser g (hr.inv.alloc _ _ hv) (hr.inv.page_plain hv)
      fun hbuf => nomatch hr.inv.unique _ _ _ hv hbuf

/-- The next set bit: the page is copied. -/
theorem ForkReady.copy (hr : ForkReady m parent child q dc buf gb) (hinv' : PageInv m')
    (h : CopiedBits m m' parent dc buf n)
    (hlt : n < 8 * parent.userprogVaddr.vaddrBitmap.btmpBytesLen)
    (hset : parent.userprogVaddr.vaddrBitmap.scanTest n = true) :
    Exec.Returns (copyBodyPage child parent buf (parent.userprogVaddr.vaddrStart + n)) m' fun _ m'' =>
      PageInv m'' ∧ CopiedBits m m'' parent dc buf (n + 1) := by
  have hbits := MemTask.setBits_succ_of_set hset
  have hnot : n ∉ parent.setBits n := fun hmem => absurd (MemTask.mem_setBits.mp hmem).1 (lt_irrefl n)
  have hsub : insert n (parent.setBits n) ⊆
      parent.setBits (8 * parent.userprogVaddr.vaddrBitmap.btmpBytesLen) := by
    rw [← hbits]
    intro i hi
    obtain ⟨hlt', hi⟩ := MemTask.mem_setBits.mp hi
    exact MemTask.mem_setBits.mpr ⟨by omega, hi⟩
  obtain ⟨g, hg⟩ := (hr.bits (parent.userprogVaddr.vaddrStart + n)).mpr
    ⟨n, MemTask.mem_setBits.mpr ⟨hlt, hset⟩, rfl⟩
  obtain ⟨hg', hcontent⟩ := hr.parentPage h hg
  have hdc : m'.dirOf child = dc := (h.keeps.dirOf hr.started rfl).trans hr.dir
  have hdp : m'.cr3 = m'.dirOf parent := by
    rw [h.cr3, h.keeps.dirOf hr.runs rfl, hr.cr3]
  have habsent (g' : ℕ) : ¬ m'.Holds (.page dc (parent.userprogVaddr.vaddrStart + n)) g' := by
    intro hu
    obtain ⟨i, hi, heq⟩ := (h.pages _).mp ⟨g', hu⟩
    obtain rfl : n = i := by omega
    exact hnot hi
  -- a frame for the page
  have huser : m'.freeFrames .pfUser ≠ 0 := by
    have hcard := Finset.card_le_card hsub
    rw [Finset.card_insert_of_notMem hnot] at hcard
    have := hr.userFrames
    have := h.userFrames
    omega
  obtain ⟨frame, hf⟩ := Option.ne_none_iff_exists'.mp fun hnone =>
    huser (Memory.nextFrame_eq_none.mp hnone)
  -- and one for its page table
  have hroom : entryPresent (m'.phys dc ((parent.userprogVaddr.vaddrStart + n) / 1024)) = true ∨
      m'.freeFrames .pfKernel ≠ 0 := by
    by_cases hp : entryPresent (m'.phys dc ((parent.userprogVaddr.vaddrStart + n) / 1024)) = true
    · exact Or.inl hp
    · refine Or.inr ?_
      have hmem : (parent.userprogVaddr.vaddrStart + n) / 1024 ∉ m'.userTables dc :=
        fun hmem => hp (Finset.mem_filter.mp hmem).2
      have hsubset : insert ((parent.userprogVaddr.vaddrStart + n) / 1024) (m'.userTables dc) ⊆
          parent.setTables (8 * parent.userprogVaddr.vaddrBitmap.btmpBytesLen) := by
        refine Finset.insert_subset (Finset.mem_image_of_mem _ (hsub (Finset.mem_insert_self ..)))
          (h.tables.trans (Finset.image_subset_image ?_))
        exact (Finset.subset_insert ..).trans hsub
      have hcard := Finset.card_le_card hsubset
      rw [Finset.card_insert_of_notMem hmem] at hcard
      have := hr.kernelFrames
      have := h.kernelFrames
      omega
  have hstep := copyBodyPage_spec hinv' (h.task ▸ hr.runs) (h.task ▸ hr.started) hr.pgdir hdp
    ((h.kernelPage _ _).mpr hr.bufPage) (fun htask => hr.notTask (h.keeps.isTaskPage.mp htask)) hg'
    (hdc ▸ habsent) hf (hdc ▸ hroom)
  rw [hdc] at hstep
  refine Exec.Returns.mono hstep fun _ m'' ⟨h'', hc, hcopy⟩ => ⟨h'', ?_⟩
  have hpage (v : ℕ) (g : ℕ) : m''.Holds (.page dc v) g ↔
      if v = parent.userprogVaddr.vaddrStart + n then g = frame else m'.Holds (.page dc v) g := by
    rw [hc.page]
    simp only [true_and]
  refine ⟨h.keeps.trans hc.keeps, hc.cr3.trans h.cr3, hc.cur.trans h.cur, hc.task.trans h.task,
    hc.kernelVaddr.trans h.kernelVaddr, fun v => ?_, fun v g₁ g₂ hv₂ hv₁ => ?_, fun v g₂ hv₂ => ?_,
    fun d v g₂ hd => ?_, fun v g₂ => (hc.kernelPage v g₂).trans (h.kernelPage v g₂),
    fun d i g₂ ht => ?_, fun i hi => ?_, ?_, ?_, fun pf g₂ hg₂ => hc.alloc pf g₂ (h.alloc pf g₂ hg₂),
    fun pf g₂ hg₂ hplain hbuf => ?_⟩
  · simp only [hpage, hbits, Finset.mem_insert]
    by_cases heq : v = parent.userprogVaddr.vaddrStart + n
    · subst heq
      exact iff_of_true ⟨frame, by simp⟩ ⟨n, Or.inl rfl, rfl⟩
    · simp only [if_neg heq, h.pages]
      constructor
      · rintro ⟨i, hi, hv⟩
        exact ⟨i, Or.inr hi, hv⟩
      · rintro ⟨i, rfl | hi, hv⟩
        · exact absurd hv heq
        · exact ⟨i, hi, hv⟩
  · rw [hpage] at hv₂
    split at hv₂
    · rename_i heq
      subst heq hv₂
      obtain rfl := hg.frame_eq hv₁
      rw [hcopy, hcontent]
    · rw [hc.content .pfUser g₂ (hinv'.alloc _ _ hv₂) (hinv'.page_plain hv₂)
        (fun hbuf => nomatch hinv'.unique _ _ _ hv₂ hbuf), h.copies v g₁ g₂ hv₂ hv₁]
  · rw [hpage] at hv₂
    split at hv₂
    · rw [hv₂]
      exact fun hall => hc.fresh (h.alloc _ _ hall)
    · exact h.fresh v g₂ hv₂
  · rw [hc.page, if_neg fun heq => hd heq.1, h.other d v g₂ hd]
  · rcases hc.table d i g₂ ht with hold | hnew
    · exact h.table d i g₂ hold
    · exact Or.inr fun hall => hnew (h.alloc _ _ hall)
  · obtain ⟨hi, hp⟩ := Finset.mem_filter.mp hi
    rw [MemTask.setTables, hbits]
    rcases (hc.present i).mp hp with hp | rfl
    · exact Finset.image_subset_image (Finset.subset_insert ..)
        (h.tables (Finset.mem_filter.mpr ⟨hi, hp⟩))
    · exact Finset.mem_image_of_mem _ (Finset.mem_insert_self ..)
  · rw [hbits, Finset.card_insert_of_notMem hnot]
    have := hc.userFrames
    have := h.userFrames
    omega
  · have htables := hc.card_userTables hg.2.1
    have := hc.kernelFrames
    have := h.kernelFrames
    omega
  · have hnotbuf : ¬ m'.Holds (.kernelPage buf) g₂ := fun hu => hbuf ((h.kernelPage _ _).mp hu)
    rw [hc.content pf g₂ (h.alloc pf g₂ hg₂) (h.plain hinv' hg₂ hplain) hnotbuf,
      h.content pf g₂ hg₂ hplain hbuf]

/-- The inner loop of `copy_body_stack3`. -/
theorem ForkReady.copyBits {left idxByte : ℕ} (hr : ForkReady m parent child q dc buf gb)
    (hbyte : idxByte < parent.userprogVaddr.vaddrBitmap.btmpBytesLen) :
    ∀ {m' : Memory} {idxBit : ℕ}, idxBit + left = 8 → PageInv m' →
      CopiedBits m m' parent dc buf (idxByte * 8 + idxBit) →
      Exec.Returns (copyBodyBits child parent buf idxByte idxBit left) m' fun _ m'' =>
        PageInv m'' ∧ CopiedBits m m'' parent dc buf ((idxByte + 1) * 8) := by
  induction left with
  | zero =>
    intro m' idxBit hleft hinv' h
    obtain rfl : idxBit = 8 := by omega
    exact ⟨hinv', by rwa [Nat.add_mul, Nat.one_mul]⟩
  | succ left ih =>
    intro m' idxBit hleft hinv' h
    have hbit : parent.userprogVaddr.vaddrBitmap.scanTest (idxByte * 8 + idxBit) =
        (Bitmap.mask idxBit &&& parent.userprogVaddr.vaddrBitmap.bits idxByte != 0) := by
      have hdiv : (idxByte * 8 + idxBit) / 8 = idxByte := by omega
      have hmod : (idxByte * 8 + idxBit) % 8 = idxBit % 8 := by omega
      rw [Bitmap.scanTest, Bitmap.mask, Bitmap.mask, hdiv, hmod, UInt8.and_comm]
    rw [copyBodyBits, Exec.Returns, Exec.post_ite]
    refine ⟨fun hset => ?_, fun hclear => ?_⟩
    · have hstep := hr.copy hinv' h (by omega) (by rw [hbit, bne_iff_ne]; exact hset)
      exact hstep.bind fun _ m'' h'' => ih (by omega) h''.1 h''.2
    · rw [ne_eq, not_not] at hclear
      refine ih (by omega) hinv' (h.skip ?_)
      rw [hbit, hclear]
      rfl

/-- The outer loop of `copy_body_stack3`. -/
theorem ForkReady.copyBytes {left : ℕ} (hr : ForkReady m parent child q dc buf gb) :
    ∀ {m' : Memory} {idxByte : ℕ},
      idxByte + left = parent.userprogVaddr.vaddrBitmap.btmpBytesLen → PageInv m' →
      CopiedBits m m' parent dc buf (idxByte * 8) →
      Exec.Returns (copyBodyBytes child parent buf idxByte left) m' fun _ m'' =>
        PageInv m'' ∧ CopiedBits m m'' parent dc buf
          (8 * parent.userprogVaddr.vaddrBitmap.btmpBytesLen) := by
  induction left with
  | zero =>
    intro m' idxByte hleft hinv' h
    obtain rfl : idxByte = parent.userprogVaddr.vaddrBitmap.btmpBytesLen := by omega
    exact ⟨hinv', by rwa [Nat.mul_comm]⟩
  | succ left ih =>
    intro m' idxByte hleft hinv' h
    rw [copyBodyBytes, Exec.Returns, Exec.post_ite]
    refine ⟨fun _ => ?_, fun hzero => ?_⟩
    · have hloop := hr.copyBits (show idxByte < _ by omega) (show 0 + 8 = 8 from rfl) hinv' h
      exact hloop.bind fun _ m'' h'' => ih (by omega) h''.1 h''.2
    · rw [ne_eq, not_not] at hzero
      refine ih (by omega) hinv' ?_
      have hskip (k : ℕ) (hk : k ≤ 8) : CopiedBits m m' parent dc buf (idxByte * 8 + k) := by
        induction k with
        | zero => exact h
        | succ k ihk =>
          refine (ihk (by omega)).skip ?_
          have hdiv : (idxByte * 8 + k) / 8 = idxByte := by omega
          rw [Bitmap.scanTest, hdiv, hzero, UInt8.zero_and]
          rfl
      rw [Nat.add_mul, Nat.one_mul]
      exact hskip 8 le_rfl

/-- `copy_body_stack3` copies all pages of the parent. -/
theorem ForkReady.copyBodyStack3 (hr : ForkReady m parent child q dc buf gb) :
    Exec.Returns (copyBodyStack3 child parent buf) m fun _ m' =>
      PageInv m' ∧ CopiedBits m m' parent dc buf
        (8 * parent.userprogVaddr.vaddrBitmap.btmpBytesLen) :=
  hr.copyBytes (Nat.zero_add _) hr.inv (by simpa using hr.start)

end Loop

end Winx
