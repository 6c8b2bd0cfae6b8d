import Winx.Lib.Holding
import Winx.Memory.Paging

/-! # What frames are used for

A frame of the pools holds a page of a process, a page table of a process, or a
page of the kernel heap, the page directories among them. No frame is used
twice, and a frame in use is marked in the bitmap of its pool. The page tables
of the kernel half are not from the pools, and every page directory has them.
-/

namespace Winx

/-- What a frame of the pools is used for. -/
inductive FrameUse
  | page (dir vaddr : ℕ)
  | table (dir pdeIdx : ℕ)
  | kernelPage (vaddr : ℕ)
  deriving DecidableEq

/-- The pool that a frame for some use comes from. -/
def FrameUse.pool : FrameUse → PoolFlags
  | .page .. => .pfUser
  | .table .. => .pfKernel
  | .kernelPage _ => .pfKernel

namespace Memory

variable (m : Memory)

/-- The page directories of processes. -/
def IsProcDir (dir : ℕ) : Prop :=
  ∃ p t, m.task p = some t ∧ t.pgdir ≠ 0 ∧ m.walk bootDir t.pgdir = some dir

/-- A frame is used for something: it holds a present user page or a present page table of a
process, or a present page of the kernel heap. -/
def Holds : FrameUse → ℕ → Prop
  | .page dir vaddr, frame =>
    m.IsProcDir dir ∧ vaddr < kernelBase ∧ m.walk dir vaddr = some frame
  | .table dir pdeIdx, frame => m.IsProcDir dir ∧ pdeIdx < 768 ∧
    entryPresent (m.phys dir pdeIdx) = true ∧ entryFrame (m.phys dir pdeIdx) = frame
  | .kernelPage vaddr, frame =>
    kHeapStart ≤ vaddr ∧ vaddr < pteBase ∧ m.walk bootDir vaddr = some frame

/-- A frame is marked in the bitmap of its pool. -/
def Allocated (pf : PoolFlags) (frame : ℕ) : Prop :=
  (m.pool pf).phyAddrStart ≤ frame ∧
    frame - (m.pool pf).phyAddrStart < 8 * (m.pool pf).poolBitmap.btmpBytesLen ∧
    (m.pool pf).poolBitmap.scanTest (frame - (m.pool pf).phyAddrStart) = true

/-- A frame that was allocated and is not used yet. -/
def Fresh (pf : PoolFlags) (frame : ℕ) : Prop :=
  m.Allocated pf frame ∧ ∀ u, ¬ m.Holds u frame

end Memory

/-- What `mem_pool_init` and the loader laid out. -/
structure PageLayout (m : Memory) : Prop where
  kernelPool : 0x200 ≤ m.kernelPool.phyAddrStart
  userPool : m.kernelPool.phyAddrStart + 8 * m.kernelPool.poolBitmap.btmpBytesLen ≤
    m.userPool.phyAddrStart
  memory : m.userPool.phyAddrStart + 8 * m.userPool.poolBitmap.btmpBytesLen ≤ 2 ^ 20
  vaddrStart : m.kernelVaddr.vaddrStart = kHeapStart
  kernelHeap : kHeapStart + 8 * m.kernelVaddr.vaddrBitmap.btmpBytesLen ≤ pteBase
  bootTable : ∀ i, 768 ≤ i → i < 1023 → m.phys bootDir i = entry (0x101 + (i - 768))
  bootSelf : m.phys bootDir 1023 = entry bootDir

/-- The invariant of the page tables and the pools. -/
structure PageInv (m : Memory) : Prop where
  layout : PageLayout m
  kernelHalf : ∀ dir, m.IsProcDir dir → ∀ i, 768 ≤ i → i < 1023 → m.phys dir i = m.phys bootDir i
  self : ∀ dir, m.IsProcDir dir → m.phys dir 1023 = entry dir
  alloc : ∀ u frame, m.Holds u frame → m.Allocated u.pool frame
  unique : Exclusive m.Holds
  bits : ∀ vaddr frame, m.Holds (.kernelPage vaddr) frame →
    vaddr - kHeapStart < 8 * m.kernelVaddr.vaddrBitmap.btmpBytesLen ∧
      m.kernelVaddr.vaddrBitmap.scanTest (vaddr - kHeapStart) = true
  pgdir : ∀ p t, m.task p = some t → t.pgdir ≠ 0 →
    kHeapStart ≤ t.pgdir ∧ t.pgdir < pteBase ∧ ∃ dir, m.walk bootDir t.pgdir = some dir
  pgdirs : ∀ p q t u, m.task p = some t → m.task q = some u → t.pgdir ≠ 0 → t.pgdir = u.pgdir → p = q
  pcb : ∀ p t, m.task p = some t →
    p < kHeapStart ∨ p < pteBase ∧ ∃ frame, m.walk bootDir p = some frame
  cr3 : m.cr3 = bootDir ∨ m.IsProcDir m.cr3

section Entries

theorem entryPresent_eq_testBit (e : UInt32) : entryPresent e = e.toNat.testBit 0 := by
  have hand : (e &&& 1).toNat = e.toNat % 2 := by
    rw [UInt32.toNat_and]
    exact Nat.and_one_is_mod _
  rw [entryPresent, Nat.testBit_zero, Bool.eq_iff_iff, bne_iff_ne, ne_eq, ← UInt32.toNat_inj, hand,
    UInt32.toNat_zero, decide_eq_true_iff]
  omega

@[simp] theorem entryPresent_zero : entryPresent 0 = false := by decide

@[simp] theorem entryPresent_entry (frame : ℕ) : entryPresent (entry frame) = true := by
  rw [entryPresent_eq_testBit, entry, UInt32.toNat_or, Nat.testBit_or]
  simp

@[simp] theorem entryPresent_remove (e : UInt32) : entryPresent (e &&& ~~~1) = false := by
  have hmask : (~~~(1 : UInt32)).toNat.testBit 0 = false := by decide
  rw [entryPresent_eq_testBit, UInt32.toNat_and, Nat.testBit_and, hmask, Bool.and_false]

theorem entryFrame_entry {frame : ℕ} (h : frame < 2 ^ 20) : entryFrame (entry frame) = frame := by
  have hlt : 4096 * frame < 2 ^ 32 := by omega
  have hflags : (UInt32.ofNat (4096 * frame) ||| 4 ||| 2 ||| 1).toNat = 2 ^ 12 * frame ||| 7 := by
    rw [UInt32.toNat_or, UInt32.toNat_or, UInt32.toNat_or, UInt32.toNat_ofNat', Nat.mod_eq_of_lt hlt,
      Nat.or_assoc, Nat.or_assoc]
    rfl
  rw [entryFrame, entry, hflags, ← Nat.two_pow_add_eq_or_of_lt (by decide)]
  omega

end Entries

section Walks

variable {m m' : Memory} {dir vaddr frame i : ℕ} {w : UInt32}

theorem Memory.walk_eq_some : m.walk dir vaddr = some frame ↔
    entryPresent (m.phys dir (vaddr / 1024)) = true ∧
      entryPresent (m.phys (entryFrame (m.phys dir (vaddr / 1024))) (vaddr % 1024)) = true ∧
      entryFrame (m.phys (entryFrame (m.phys dir (vaddr / 1024))) (vaddr % 1024)) = frame := by
  unfold walk
  dsimp only
  split_ifs <;> simp_all

/-- A walk reads one entry of the directory and one of a page table. -/
theorem Memory.walk_congr (hpde : m'.phys dir (vaddr / 1024) = m.phys dir (vaddr / 1024))
    (hpte : entryPresent (m.phys dir (vaddr / 1024)) = true →
      m'.phys (entryFrame (m.phys dir (vaddr / 1024))) (vaddr % 1024) =
        m.phys (entryFrame (m.phys dir (vaddr / 1024))) (vaddr % 1024)) :
    m'.walk dir vaddr = m.walk dir vaddr := by
  unfold walk
  rw [hpde]
  by_cases hp : entryPresent (m.phys dir (vaddr / 1024)) = true
  · rw [if_pos hp, if_pos hp, hpte hp]
  · rw [if_neg hp, if_neg hp]

theorem Memory.setWord_phys_apply (frame i : ℕ) (w : UInt32) (dir j : ℕ) :
    (m.setWord frame i w).phys dir j = if dir = frame ∧ j = i then w else m.phys dir j := by
  rw [setWord, setFrame_phys, Function.update_apply]
  by_cases hd : dir = frame
  · subst hd
    simp only [if_true, true_and, Function.update_apply]
  · simp [hd]

end Walks

section Bounds

variable {m : Memory} {dir frame i : ℕ} {pf pf' : PoolFlags} {u : FrameUse}

theorem PageLayout.allocated_bounds (h : PageLayout m) (ha : m.Allocated pf frame) :
    0x200 ≤ frame ∧ frame < 2 ^ 20 := by
  obtain ⟨hlo, hhi, -⟩ := ha
  have := h.kernelPool
  have := h.userPool
  have := h.memory
  cases pf <;> simp only [Memory.pool] at hlo hhi <;> omega

/-- The pools have no frame in common. -/
theorem PageLayout.pool_eq (h : PageLayout m) (ha : m.Allocated pf frame)
    (ha' : m.Allocated pf' frame) : pf = pf' := by
  obtain ⟨hlo, hhi, -⟩ := ha
  obtain ⟨hlo', hhi', -⟩ := ha'
  have := h.userPool
  cases pf <;> cases pf' <;> simp only [Memory.pool] at hlo hhi hlo' hhi' <;> first | rfl | omega

theorem PageInv.holds_bounds (h : PageInv m) (hu : m.Holds u frame) :
    0x200 ≤ frame ∧ frame < 2 ^ 20 := h.layout.allocated_bounds (h.alloc u frame hu)

/-- A page directory is a page of the kernel heap. -/
theorem PageInv.procDir (h : PageInv m) (hdir : m.IsProcDir dir) : ∃ p t, m.task p = some t ∧
    t.pgdir ≠ 0 ∧ m.Holds (.kernelPage t.pgdir) dir := by
  obtain ⟨p, t, ht, hne, hwalk⟩ := hdir
  obtain ⟨hlo, hhi, -⟩ := h.pgdir p t ht hne
  exact ⟨p, t, ht, hne, hlo, hhi, hwalk⟩

theorem PageInv.procDir_bounds (h : PageInv m) (hdir : m.IsProcDir dir) :
    0x200 ≤ dir ∧ dir < 2 ^ 20 := by
  obtain ⟨p, t, -, -, hu⟩ := h.procDir hdir
  exact h.holds_bounds hu

/-- A page directory is not a page table. -/
theorem PageInv.table_ne_dir (h : PageInv m) (ht : m.Holds (.table dir i) frame) :
    frame ≠ bootDir ∧ ¬ m.IsProcDir frame := by
  refine ⟨fun heq => ?_, fun hdir => ?_⟩
  · have := h.holds_bounds ht
    rw [heq, bootDir] at this
    omega
  · obtain ⟨p, t, -, -, hu⟩ := h.procDir hdir
    cases h.unique _ _ _ ht hu

/-- The directories whose entries the walks of the kernel half and of the processes start from. -/
def Memory.IsDir (m : Memory) (dir vaddr : ℕ) : Prop :=
  dir = bootDir ∧ kernelBase ≤ vaddr ∨ m.IsProcDir dir

/-- What the tables of a directory are: those of the kernel and those of the process. -/
theorem PageInv.pde_cases {vaddr : ℕ} (h : PageInv m) (hdir : m.IsDir dir vaddr)
    (hv : vaddr < pteBase) (hp : entryPresent (m.phys dir (vaddr / 1024)) = true) :
    (kernelBase ≤ vaddr ∧ entryFrame (m.phys dir (vaddr / 1024)) = 0x101 + (vaddr / 1024 - 768)) ∨
      vaddr < kernelBase ∧ m.IsProcDir dir ∧
        m.Holds (.table dir (vaddr / 1024)) (entryFrame (m.phys dir (vaddr / 1024))) := by
  unfold pteBase at hv
  unfold kernelBase
  rcases Nat.lt_or_ge vaddr 0xc0000 with hlt | hge
  · have hproc : m.IsProcDir dir := hdir.resolve_left fun heq => absurd heq.2 (Nat.not_le.mpr hlt)
    exact Or.inr ⟨hlt, hproc, hproc, by omega, hp, rfl⟩
  · refine Or.inl ⟨hge, ?_⟩
    have heq : m.phys dir (vaddr / 1024) = entry (0x101 + (vaddr / 1024 - 768)) := by
      rcases hdir with ⟨rfl, -⟩ | hproc
      · exact h.layout.bootTable _ (by omega) (by omega)
      · rw [h.kernelHalf dir hproc _ (by omega) (by omega), h.layout.bootTable _ (by omega) (by omega)]
    rw [heq, entryFrame_entry (by omega)]

/-- A frame that is no page table and no page directory. -/
structure PlainFrame (m : Memory) (frame : ℕ) : Prop where
  low : 0x200 ≤ frame
  dir : ¬ m.IsProcDir frame
  table : ∀ dir i, ¬ m.Holds (.table dir i) frame

theorem Memory.Fresh.plain (h : PageInv m) (hf : m.Fresh pf frame) : PlainFrame m frame := by
  refine ⟨(h.layout.allocated_bounds hf.1).1, fun hdir => ?_, fun _ _ => hf.2 _⟩
  obtain ⟨p, t, -, -, hu⟩ := h.procDir hdir
  exact hf.2 _ hu

theorem PageInv.page_plain {vaddr : ℕ} (h : PageInv m) (hu : m.Holds (.page dir vaddr) frame) :
    PlainFrame m frame := by
  refine ⟨(h.holds_bounds hu).1, fun hdir => ?_, fun d i ht => nomatch h.unique _ _ _ hu ht⟩
  obtain ⟨p, t, -, -, hu'⟩ := h.procDir hdir
  cases h.unique _ _ _ hu hu'

/-- The pages of the PCBs and of the page directories. -/
def Memory.IsTaskPage (m : Memory) (vaddr : ℕ) : Prop :=
  ∃ p t, m.task p = some t ∧ (vaddr = p ∧ kHeapStart ≤ p ∨ vaddr = t.pgdir ∧ t.pgdir ≠ 0)

theorem PageInv.kernelPage_plain {vaddr : ℕ} (h : PageInv m)
    (hu : m.Holds (.kernelPage vaddr) frame) (hnot : ¬ m.IsTaskPage vaddr) : PlainFrame m frame := by
  refine ⟨(h.holds_bounds hu).1, fun hdir => ?_, fun d i ht => nomatch h.unique _ _ _ hu ht⟩
  obtain ⟨p, t, ht, hne, hu'⟩ := h.procDir hdir
  obtain rfl : vaddr = t.pgdir := by simpa using h.unique _ _ _ hu hu'
  exact hnot ⟨p, t, ht, Or.inr ⟨rfl, hne⟩⟩

end Bounds

section Updates

variable {m : Memory} {dir vaddr frame i : ℕ} {w : UInt32}

/-- The content of a plain frame is of no matter. -/
theorem PageInv.walk_setFrame (h : PageInv m) (hf : PlainFrame m frame) (words : ℕ → UInt32)
    {d v : ℕ} (hd : m.IsDir d v) (hv : v < pteBase) :
    (m.setFrame frame words).walk d v = m.walk d v := by
  have hne : d ≠ frame := by
    rintro rfl
    rcases hd with ⟨rfl, -⟩ | hproc
    · exact absurd hf.low (by decide)
    · exact hf.dir hproc
  refine Memory.walk_congr ?_ fun hp => ?_
  · rw [Memory.setFrame_phys, Function.update_of_ne hne]
  · have hframe : entryFrame (m.phys d (v / 1024)) ≠ frame := by
      rintro rfl
      rcases h.pde_cases hd hv hp with ⟨-, heq⟩ | ⟨-, -, ht⟩
      · have := hf.low
        unfold pteBase at hv
        omega
      · exact hf.table _ _ ht
    rw [Memory.setFrame_phys, Function.update_of_ne hframe]

/-- A word of a page table of a process maps one page of it. -/
theorem PageInv.walk_setWord_user (h : PageInv m) (hdir : m.IsProcDir dir) (hv : vaddr < kernelBase)
    (hp : entryPresent (m.phys dir (vaddr / 1024)) = true) {d v : ℕ} (hd : m.IsDir d v)
    (hv' : v < pteBase) :
    (m.setWord (entryFrame (m.phys dir (vaddr / 1024))) (vaddr % 1024) w).walk d v =
      if d = dir ∧ v = vaddr then if entryPresent w then some (entryFrame w) else none
      else m.walk d v := by
  have ht : m.Holds (.table dir (vaddr / 1024)) (entryFrame (m.phys dir (vaddr / 1024))) := by
    unfold kernelBase at hv
    exact ⟨hdir, by omega, hp, rfl⟩
  obtain ⟨hboot, hnot⟩ := h.table_ne_dir ht
  have hne : d ≠ entryFrame (m.phys dir (vaddr / 1024)) := by
    rintro rfl
    rcases hd with ⟨heq, -⟩ | hproc
    · exact hboot heq
    · exact hnot hproc
  have hpde : (m.setWord (entryFrame (m.phys dir (vaddr / 1024))) (vaddr % 1024) w).phys d (v / 1024) =
      m.phys d (v / 1024) := by
    rw [Memory.setWord_phys_apply, if_neg fun heq => hne heq.1]
  by_cases heq : d = dir ∧ v = vaddr
  · obtain ⟨rfl, rfl⟩ := heq
    rw [if_pos ⟨rfl, rfl⟩]
    simp only [Memory.walk, hpde, hp, if_true, Memory.setWord_phys_apply, and_self]
  · rw [if_neg heq]
    refine Memory.walk_congr hpde fun hpd => ?_
    rw [Memory.setWord_phys_apply, if_neg]
    rintro ⟨hframe, hidx⟩
    rcases h.pde_cases hd hv' hpd with ⟨-, hkernel⟩ | ⟨-, -, ht'⟩
    · have := (h.holds_bounds ht).1
      unfold pteBase at hv'
      omega
    · rw [hframe] at ht'
      have huse := h.unique _ _ _ ht' ht
      rw [FrameUse.table.injEq] at huse
      exact heq ⟨huse.1, by omega⟩

/-- A word of a page table of the kernel maps one page for all. -/
theorem PageInv.walk_setWord_kernel (h : PageInv m) (hlo : kernelBase ≤ vaddr) (hhi : vaddr < pteBase)
    {d v : ℕ} (hd : m.IsDir d v) (hv' : v < pteBase) :
    (m.setWord (0x101 + (vaddr / 1024 - 768)) (vaddr % 1024) w).walk d v =
      if v = vaddr then if entryPresent w then some (entryFrame w) else none else m.walk d v := by
  unfold kernelBase at hlo
  have hframe : 0x101 + (vaddr / 1024 - 768) < 0x200 := by
    unfold pteBase at hhi
    omega
  have hne : d ≠ 0x101 + (vaddr / 1024 - 768) := by
    rcases hd with ⟨rfl, -⟩ | hproc
    · unfold bootDir
      omega
    · have := (h.procDir_bounds hproc).1
      omega
  have hpde : (m.setWord (0x101 + (vaddr / 1024 - 768)) (vaddr % 1024) w).phys d (v / 1024) =
      m.phys d (v / 1024) := by
    rw [Memory.setWord_phys_apply, if_neg fun heq => hne heq.1]
  by_cases heq : v = vaddr
  · subst heq
    have hp : m.phys d (v / 1024) = entry (0x101 + (v / 1024 - 768)) := by
      unfold pteBase at hv'
      rcases hd with ⟨rfl, -⟩ | hproc
      · exact h.layout.bootTable _ (by omega) (by omega)
      · rw [h.kernelHalf d hproc _ (by omega) (by omega), h.layout.bootTable _ (by omega) (by omega)]
    rw [if_pos rfl]
    simp only [Memory.walk, hpde, hp, entryPresent_entry, if_true,
      entryFrame_entry (lt_trans hframe (by decide)), Memory.setWord_phys_apply, and_self]
  · rw [if_neg heq]
    refine Memory.walk_congr hpde fun hpd => ?_
    rw [Memory.setWord_phys_apply, if_neg]
    rintro ⟨hframe', hidx⟩
    rcases h.pde_cases hd hv' hpd with ⟨hge, hkernel⟩ | ⟨-, -, ht'⟩
    · unfold kernelBase at hge
      omega
    · have := (h.holds_bounds ht').1
      omega

/-- A new page table, with nothing in it, maps no page. -/
theorem PageInv.walk_newTable {r : ℕ} (h : PageInv m) (hdir : m.IsProcDir dir) (hi : i < 768)
    (hp : ¬ entryPresent (m.phys dir i) = true) (hr : PlainFrame m r) (hlt : r < 2 ^ 20) {d v : ℕ}
    (hd : m.IsDir d v) (hv : v < pteBase) :
    ((m.setWord dir i (entry r)).setFrame r fun _ => 0).walk d v = m.walk d v := by
  have hphys (d j : ℕ) : ((m.setWord dir i (entry r)).setFrame r fun _ => 0).phys d j =
      if d = r then 0 else if d = dir ∧ j = i then entry r else m.phys d j := by
    rw [Memory.setFrame_phys, Function.update_apply]
    split
    · rfl
    · exact Memory.setWord_phys_apply ..
  have hdr : d ≠ r := by
    rintro rfl
    rcases hd with ⟨rfl, -⟩ | hproc
    · exact absurd hr.low (by decide)
    · exact hr.dir hproc
  have hpde := hphys d (v / 1024)
  rw [if_neg hdr] at hpde
  by_cases heq : d = dir ∧ v / 1024 = i
  · rw [if_pos heq] at hpde
    obtain ⟨rfl, rfl⟩ := heq
    unfold Memory.walk
    dsimp only
    rw [hpde, if_neg hp, entryPresent_entry, if_pos rfl, entryFrame_entry hlt, hphys, if_pos rfl,
      entryPresent_zero, if_neg Bool.false_ne_true]
  · rw [if_neg heq] at hpde
    refine Memory.walk_congr hpde fun hpd => ?_
    rcases h.pde_cases hd hv hpd with ⟨-, hframe⟩ | ⟨-, -, ht⟩
    · have hlow : entryFrame (m.phys d (v / 1024)) < 0x200 := by
        unfold pteBase at hv
        omega
      rw [hphys, if_neg (by have := hr.low; omega), if_neg]
      rintro ⟨hfd, -⟩
      have := (h.procDir_bounds hdir).1
      omega
    · rw [hphys, if_neg fun hfr => hr.table _ _ (hfr ▸ ht), if_neg]
      rintro ⟨hfd, -⟩
      exact (h.table_ne_dir ht).2 (hfd ▸ hdir)

end Updates

/-- A step that leaves the directories, the threads and the layout alone. -/
structure KeepsDirs (m m' : Memory) : Prop where
  task : ∀ p, (m'.task p).map MemTask.pgdir = (m.task p).map MemTask.pgdir
  start : ∀ pf, (m'.pool pf).phyAddrStart = (m.pool pf).phyAddrStart
  len : ∀ pf, (m'.pool pf).poolBitmap.btmpBytesLen = (m.pool pf).poolBitmap.btmpBytesLen
  vaddrStart : m'.kernelVaddr.vaddrStart = m.kernelVaddr.vaddrStart
  vaddrLen : m'.kernelVaddr.vaddrBitmap.btmpBytesLen = m.kernelVaddr.vaddrBitmap.btmpBytesLen
  boot : ∀ i, 768 ≤ i → m'.phys bootDir i = m.phys bootDir i
  dirs : ∀ dir, m.IsProcDir dir → ∀ i, 768 ≤ i → m'.phys dir i = m.phys dir i
  mapped : ∀ v, m.IsTaskPage v → m'.walk bootDir v = m.walk bootDir v

section Keeps

variable {m m' : Memory} {dir frame : ℕ}

/-- The threads have the page directories they had. -/
theorem KeepsDirs.of_task (hk : KeepsDirs m m') {p : ℕ} {t' : MemTask} (ht' : m'.task p = some t') :
    ∃ t, m.task p = some t ∧ t.pgdir = t'.pgdir := by
  have htask := hk.task p
  rw [ht', Option.map_some] at htask
  exact Option.map_eq_some_iff.mp htask.symm

theorem KeepsDirs.to_task (hk : KeepsDirs m m') {p : ℕ} {t : MemTask} (ht : m.task p = some t) :
    ∃ t', m'.task p = some t' ∧ t'.pgdir = t.pgdir := by
  have htask := hk.task p
  rw [ht, Option.map_some] at htask
  exact Option.map_eq_some_iff.mp htask

theorem KeepsDirs.isProcDir (hk : KeepsDirs m m') : m'.IsProcDir dir ↔ m.IsProcDir dir := by
  unfold Memory.IsProcDir
  constructor
  · rintro ⟨p, t', ht', hne, hwalk⟩
    obtain ⟨t, ht, heq⟩ := hk.of_task ht'
    rw [← heq] at hne hwalk
    rw [hk.mapped _ ⟨p, t, ht, Or.inr ⟨rfl, hne⟩⟩] at hwalk
    exact ⟨p, t, ht, hne, hwalk⟩
  · rintro ⟨p, t, ht, hne, hwalk⟩
    obtain ⟨t', ht', heq⟩ := hk.to_task ht
    refine ⟨p, t', ht', heq ▸ hne, ?_⟩
    rw [heq, hk.mapped _ ⟨p, t, ht, Or.inr ⟨rfl, hne⟩⟩]
    exact hwalk

theorem KeepsDirs.isTaskPage (hk : KeepsDirs m m') {v : ℕ} : m'.IsTaskPage v ↔ m.IsTaskPage v := by
  unfold Memory.IsTaskPage
  constructor
  · rintro ⟨p, t', ht', hv⟩
    obtain ⟨t, ht, heq⟩ := hk.of_task ht'
    exact ⟨p, t, ht, heq ▸ hv⟩
  · rintro ⟨p, t, ht, hv⟩
    obtain ⟨t', ht', heq⟩ := hk.to_task ht
    exact ⟨p, t', ht', heq.symm ▸ hv⟩

theorem KeepsDirs.trans {m'' : Memory} (hk : KeepsDirs m m') (hk' : KeepsDirs m' m'') :
    KeepsDirs m m'' := by
  refine ⟨fun p => (hk'.task p).trans (hk.task p), fun pf => (hk'.start pf).trans (hk.start pf),
    fun pf => (hk'.len pf).trans (hk.len pf), hk'.vaddrStart.trans hk.vaddrStart,
    hk'.vaddrLen.trans hk.vaddrLen, fun i hi => (hk'.boot i hi).trans (hk.boot i hi),
    fun d hd i hi => ?_, fun v hv => ?_⟩
  · exact (hk'.dirs d (hk.isProcDir.mpr hd) i hi).trans (hk.dirs d hd i hi)
  · exact (hk'.mapped v (hk.isTaskPage.mpr hv)).trans (hk.mapped v hv)

theorem KeepsDirs.isDir (hk : KeepsDirs m m') {v : ℕ} : m'.IsDir dir v ↔ m.IsDir dir v :=
  or_congr_right hk.isProcDir

/-- What is left to show after such a step is about the uses. -/
theorem PageInv.of_keepsDirs (h : PageInv m) (hk : KeepsDirs m m')
    (hcr3 : m'.cr3 = m.cr3) (halloc : ∀ u frame, m'.Holds u frame → m'.Allocated u.pool frame)
    (hunique : Exclusive m'.Holds)
    (hbits : ∀ vaddr frame, m'.Holds (.kernelPage vaddr) frame →
      vaddr - kHeapStart < 8 * m.kernelVaddr.vaddrBitmap.btmpBytesLen ∧
        m'.kernelVaddr.vaddrBitmap.scanTest (vaddr - kHeapStart) = true) : PageInv m' where
  layout := by
    have hstart := hk.start .pfKernel
    have hstart' := hk.start .pfUser
    have hlen := hk.len .pfKernel
    have hlen' := hk.len .pfUser
    simp only [Memory.pool] at hstart hstart' hlen hlen'
    refine ⟨?_, ?_, ?_, ?_, ?_, fun i hi hi' => ?_, ?_⟩
    · rw [hstart]
      exact h.layout.kernelPool
    · rw [hstart, hstart', hlen]
      exact h.layout.userPool
    · rw [hstart', hlen']
      exact h.layout.memory
    · rw [hk.vaddrStart]
      exact h.layout.vaddrStart
    · rw [hk.vaddrLen]
      exact h.layout.kernelHeap
    · rw [hk.boot i hi]
      exact h.layout.bootTable i hi hi'
    · rw [hk.boot 1023 (by decide)]
      exact h.layout.bootSelf
  kernelHalf dir hdir i hi hi' := by
    rw [hk.dirs dir (hk.isProcDir.mp hdir) i hi, hk.boot i hi]
    exact h.kernelHalf dir (hk.isProcDir.mp hdir) i hi hi'
  self dir hdir := by
    rw [hk.dirs dir (hk.isProcDir.mp hdir) 1023 (by decide)]
    exact h.self dir (hk.isProcDir.mp hdir)
  alloc := halloc
  unique := hunique
  bits := by
    rw [hk.vaddrLen]
    exact hbits
  pgdir p t' ht' hne := by
    obtain ⟨t, ht, heq⟩ := hk.of_task ht'
    rw [← heq] at hne ⊢
    rw [hk.mapped _ ⟨p, t, ht, Or.inr ⟨rfl, hne⟩⟩]
    exact h.pgdir p t ht hne
  pgdirs p q t' u' ht' hu' hne heq := by
    obtain ⟨t, ht, htt'⟩ := hk.of_task ht'
    obtain ⟨u, hu, huu'⟩ := hk.of_task hu'
    rw [← htt'] at hne heq
    rw [← huu'] at heq
    exact h.pgdirs p q t u ht hu hne heq
  pcb p t' ht' := by
    obtain ⟨t, ht, -⟩ := hk.of_task ht'
    rcases Nat.lt_or_ge p kHeapStart with hlt | hge
    · exact Or.inl hlt
    · rw [hk.mapped _ ⟨p, t, ht, Or.inl ⟨rfl, hge⟩⟩]
      exact h.pcb p t ht
  cr3 := by
    rw [hcr3, hk.isProcDir]
    exact h.cr3

end Keeps

/-- A step after which one use has another frame, or none. -/
structure Remaps (m m' : Memory) (u : FrameUse) (o : Option ℕ) : Prop where
  keeps : KeepsDirs m m'
  holds : ∀ w frame, m'.Holds w frame ↔ if w = u then o = some frame else m.Holds w frame

/-- A step after which the uses are the same. -/
structure SameUses (m m' : Memory) : Prop where
  keeps : KeepsDirs m m'
  holds : ∀ u frame, m'.Holds u frame ↔ m.Holds u frame

section Uses

variable {m m' : Memory} {dir vaddr frame i : ℕ} {u : FrameUse}

theorem PageInv.isTaskPage (h : PageInv m) {v : ℕ} (hv : m.IsTaskPage v) :
    kHeapStart ≤ v ∧ v < pteBase := by
  obtain ⟨p, t, ht, ⟨rfl, hge⟩ | ⟨rfl, hne⟩⟩ := hv
  · rcases h.pcb v t ht with hlt | ⟨hlt, -⟩
    · omega
    · exact ⟨hge, hlt⟩
  · obtain ⟨hlo, hhi, -⟩ := h.pgdir p t ht hne
    exact ⟨hlo, hhi⟩

/-- The uses after a step that keeps the directories, by the walks and the entries. -/
theorem KeepsDirs.holds_page (hk : KeepsDirs m m') {o : Option ℕ}
    (hwalk : m.IsProcDir dir → vaddr < kernelBase → m'.walk dir vaddr = o) :
    m'.Holds (.page dir vaddr) frame ↔ m.IsProcDir dir ∧ vaddr < kernelBase ∧ o = some frame := by
  simp only [Memory.Holds, hk.isProcDir]
  exact and_congr_right fun hd => and_congr_right fun hv => by rw [hwalk hd hv]

theorem KeepsDirs.holds_table (hk : KeepsDirs m m') {w : UInt32}
    (hpde : m.IsProcDir dir → i < 768 → m'.phys dir i = w) :
    m'.Holds (.table dir i) frame ↔ m.IsProcDir dir ∧ i < 768 ∧
      entryPresent w = true ∧ entryFrame w = frame := by
  simp only [Memory.Holds, hk.isProcDir]
  exact and_congr_right fun hd => and_congr_right fun hi => by rw [hpde hd hi]

theorem KeepsDirs.holds_kernelPage {o : Option ℕ}
    (hwalk : kHeapStart ≤ vaddr → vaddr < pteBase → m'.walk bootDir vaddr = o) :
    m'.Holds (.kernelPage vaddr) frame ↔
      kHeapStart ≤ vaddr ∧ vaddr < pteBase ∧ o = some frame := by
  unfold Memory.Holds
  exact and_congr_right fun hlo => and_congr_right fun hhi => by rw [hwalk hlo hhi]

theorem Memory.isDir_boot (hlo : kHeapStart ≤ vaddr) : m.IsDir bootDir vaddr := by
  refine Or.inl ⟨rfl, ?_⟩
  unfold kHeapStart at hlo
  unfold kernelBase
  omega

/-- A step after which the walks and the entries are the same. -/
theorem SameUses.of_walk (hk : KeepsDirs m m')
    (htable : ∀ dir, m.IsProcDir dir → ∀ i, m'.phys dir i = m.phys dir i)
    (hwalk : ∀ d v, m.IsDir d v → v < pteBase → m'.walk d v = m.walk d v) : SameUses m m' := by
  refine ⟨hk, fun u frame => ?_⟩
  cases u with
  | page dir vaddr =>
    exact hk.holds_page fun hd hv => hwalk _ _ (Or.inr hd) (lt_trans hv (by decide))
  | table dir i => exact hk.holds_table fun hd _ => htable dir hd i
  | kernelPage vaddr =>
    exact KeepsDirs.holds_kernelPage fun hlo hhi => hwalk _ _ (m.isDir_boot hlo) hhi

/-- Code that changes neither the frames nor the threads. -/
theorem SameUses.of_phys (hphys : m'.phys = m.phys)
    (htask : ∀ p, (m'.task p).map MemTask.pgdir = (m.task p).map MemTask.pgdir)
    (hstart : ∀ pf, (m'.pool pf).phyAddrStart = (m.pool pf).phyAddrStart)
    (hlen : ∀ pf, (m'.pool pf).poolBitmap.btmpBytesLen = (m.pool pf).poolBitmap.btmpBytesLen)
    (hvstart : m'.kernelVaddr.vaddrStart = m.kernelVaddr.vaddrStart)
    (hvlen : m'.kernelVaddr.vaddrBitmap.btmpBytesLen = m.kernelVaddr.vaddrBitmap.btmpBytesLen) :
    SameUses m m' := by
  have hwalk (d v : ℕ) : m'.walk d v = m.walk d v := by
    unfold Memory.walk
    rw [hphys]
  refine .of_walk ⟨htask, hstart, hlen, hvstart, hvlen, fun i _ => ?_, fun d _ i _ => ?_,
    fun v _ => hwalk _ v⟩ (fun d _ i => ?_) fun d v _ _ => hwalk d v
  · rw [hphys]
  · rw [hphys]
  · rw [hphys]

/-- The content of a plain frame is of no matter. -/
theorem PageInv.sameUses_setFrame (h : PageInv m) (hf : PlainFrame m frame) (words : ℕ → UInt32) :
    SameUses m (m.setFrame frame words) := by
  have hdir (d : ℕ) (hd : m.IsProcDir d) (i : ℕ) : (m.setFrame frame words).phys d i = m.phys d i := by
    rw [Memory.setFrame_phys, Function.update_of_ne]
    rintro rfl
    exact hf.dir hd
  refine .of_walk ⟨fun _ => rfl, fun _ => rfl, fun _ => rfl, rfl, rfl, fun i _ => ?_,
    fun d hd i _ => hdir d hd i,
    fun v hv => ?_⟩ hdir fun d v hd hv => h.walk_setFrame hf words hd hv
  · rw [Memory.setFrame_phys, Function.update_of_ne]
    rintro heq
    have := hf.low
    rw [← heq, bootDir] at this
    omega
  · obtain ⟨hlo, hhi⟩ := h.isTaskPage hv
    exact h.walk_setFrame hf words (m.isDir_boot hlo) hhi

/-- A word of a page table of a process maps one page of it. -/
theorem PageInv.remaps_user (h : PageInv m) (hdir : m.IsProcDir dir) (hv : vaddr < kernelBase)
    (hp : entryPresent (m.phys dir (vaddr / 1024)) = true) (w : UInt32) :
    Remaps m (m.setWord (entryFrame (m.phys dir (vaddr / 1024))) (vaddr % 1024) w) (.page dir vaddr)
      (if entryPresent w then some (entryFrame w) else none) := by
  have ht : m.Holds (.table dir (vaddr / 1024)) (entryFrame (m.phys dir (vaddr / 1024))) := by
    unfold kernelBase at hv
    exact ⟨hdir, by omega, hp, rfl⟩
  obtain ⟨hboot, hnot⟩ := h.table_ne_dir ht
  have hpde (d i : ℕ) (hd : d = bootDir ∨ m.IsProcDir d) :
      (m.setWord (entryFrame (m.phys dir (vaddr / 1024))) (vaddr % 1024) w).phys d i = m.phys d i := by
    rw [Memory.setWord_phys_apply, if_neg]
    rintro ⟨rfl, -⟩
    exact hd.elim hboot hnot
  have hwalk {d v : ℕ} (hd : m.IsDir d v) (hv' : v < pteBase) :=
    h.walk_setWord_user (w := w) hdir hv hp hd hv'
  have hkernel {v : ℕ} (hlo : kHeapStart ≤ v) : ¬ (bootDir = dir ∧ v = vaddr) := by
    rintro ⟨-, rfl⟩
    unfold kHeapStart at hlo
    unfold kernelBase at hv
    omega
  have hk : KeepsDirs m
      (m.setWord (entryFrame (m.phys dir (vaddr / 1024))) (vaddr % 1024) w) := by
    refine ⟨fun _ => rfl, fun _ => rfl, fun _ => rfl, rfl, rfl, fun i _ => hpde _ i (Or.inl rfl),
      fun d hd i _ => hpde d i (Or.inr hd), fun v hv => ?_⟩
    obtain ⟨hlo, hhi⟩ := h.isTaskPage hv
    rw [hwalk (m.isDir_boot hlo) hhi, if_neg (hkernel hlo)]
  refine ⟨hk, fun u frame => ?_⟩
  cases u with
  | page d v =>
    rw [hk.holds_page fun hd hv' => hwalk (Or.inr hd) (lt_trans hv' (by decide))]
    by_cases heq : d = dir ∧ v = vaddr
    · obtain ⟨rfl, rfl⟩ := heq
      simp [hdir, hv]
    · rw [if_neg heq, if_neg (by simpa using heq)]
      rfl
  | table d i =>
    rw [hk.holds_table fun hd _ => hpde d i (Or.inr hd), if_neg nofun]
    rfl
  | kernelPage v =>
    rw [KeepsDirs.holds_kernelPage fun hlo hhi => (hwalk (m.isDir_boot hlo) hhi).trans
      (if_neg (hkernel hlo)), if_neg nofun]
    rfl

/-- A word of a page table of the kernel maps one page of the heap. -/
theorem PageInv.remaps_kernel (h : PageInv m) (hlo : kHeapStart ≤ vaddr) (hhi : vaddr < pteBase)
    (hnot : ¬ m.IsTaskPage vaddr) (w : UInt32) :
    Remaps m (m.setWord (0x101 + (vaddr / 1024 - 768)) (vaddr % 1024) w) (.kernelPage vaddr)
      (if entryPresent w then some (entryFrame w) else none) := by
  have hbase : kernelBase ≤ vaddr := by
    unfold kHeapStart at hlo
    unfold kernelBase
    omega
  have hpde (d i : ℕ) (hd : d = bootDir ∨ m.IsProcDir d) :
      (m.setWord (0x101 + (vaddr / 1024 - 768)) (vaddr % 1024) w).phys d i = m.phys d i := by
    rw [Memory.setWord_phys_apply, if_neg]
    rintro ⟨heq, -⟩
    unfold pteBase at hhi
    rcases hd with hboot | hproc
    · unfold bootDir at hboot
      omega
    · have := (h.procDir_bounds hproc).1
      omega
  have hwalk {d v : ℕ} (hd : m.IsDir d v) (hv' : v < pteBase) :=
    h.walk_setWord_kernel (w := w) hbase hhi hd hv'
  have hk : KeepsDirs m (m.setWord (0x101 + (vaddr / 1024 - 768)) (vaddr % 1024) w) := by
    refine ⟨fun _ => rfl, fun _ => rfl, fun _ => rfl, rfl, rfl, fun i _ => hpde _ i (Or.inl rfl),
      fun d hd i _ => hpde d i (Or.inr hd), fun v hv => ?_⟩
    obtain ⟨hlo', hhi'⟩ := h.isTaskPage hv
    rw [hwalk (m.isDir_boot hlo') hhi', if_neg fun heq => hnot (by rwa [← heq])]
  refine ⟨hk, fun u frame => ?_⟩
  cases u with
  | page d v =>
    rw [hk.holds_page fun hd hv' => (hwalk (Or.inr hd) (lt_trans hv' (by decide))).trans
      (if_neg (by omega)), if_neg nofun]
    rfl
  | table d i =>
    rw [hk.holds_table fun hd _ => hpde d i (Or.inr hd), if_neg nofun]
    rfl
  | kernelPage v =>
    rw [KeepsDirs.holds_kernelPage fun hlo' hhi' => hwalk (m.isDir_boot hlo') hhi']
    by_cases heq : v = vaddr
    · subst heq
      simp [hlo, hhi]
    · rw [if_neg heq, if_neg (by simpa using heq)]
      rfl

/-- A new page table of a process, with nothing in it. -/
theorem PageInv.remaps_table {r : ℕ} (h : PageInv m) (hdir : m.IsProcDir dir) (hi : i < 768)
    (hp : ¬ entryPresent (m.phys dir i) = true) (hr : PlainFrame m r) (hlt : r < 2 ^ 20) :
    Remaps m ((m.setWord dir i (entry r)).setFrame r fun _ => 0) (.table dir i) (some r) := by
  have hpde (d j : ℕ) (hd : d = bootDir ∨ m.IsProcDir d) :
      ((m.setWord dir i (entry r)).setFrame r fun _ => 0).phys d j =
        if d = dir ∧ j = i then entry r else m.phys d j := by
    rw [Memory.setFrame_phys, Function.update_of_ne]
    · exact Memory.setWord_phys_apply ..
    · rintro rfl
      rcases hd with rfl | hproc
      · exact absurd hr.low (by decide)
      · exact hr.dir hproc
  have hne : bootDir ≠ dir := by
    rintro rfl
    exact absurd (h.procDir_bounds hdir).1 (by decide)
  have hwalk {d v : ℕ} (hd : m.IsDir d v) (hv : v < pteBase) :=
    h.walk_newTable hdir hi hp hr hlt hd hv
  have hk : KeepsDirs m ((m.setWord dir i (entry r)).setFrame r fun _ => 0) := by
    refine ⟨fun _ => rfl, fun _ => rfl, fun _ => rfl, rfl, rfl, fun j _ => ?_, fun d hd j hj => ?_,
      fun v hv => ?_⟩
    · rw [hpde _ j (Or.inl rfl), if_neg fun heq => hne heq.1]
    · rw [hpde d j (Or.inr hd), if_neg (by omega)]
    · obtain ⟨hlo, hhi⟩ := h.isTaskPage hv
      exact hwalk (m.isDir_boot hlo) hhi
  refine ⟨hk, fun u frame => ?_⟩
  cases u with
  | page d v =>
    rw [hk.holds_page fun hd hv => hwalk (Or.inr hd) (lt_trans hv (by decide)), if_neg nofun]
    rfl
  | table d j =>
    rw [hk.holds_table fun hd _ => hpde d j (Or.inr hd)]
    by_cases heq : d = dir ∧ j = i
    · obtain ⟨rfl, rfl⟩ := heq
      simp [hdir, hi, entryFrame_entry hlt]
    · rw [if_neg heq, if_neg (by simpa using heq)]
      rfl
  | kernelPage v =>
    rw [KeepsDirs.holds_kernelPage fun hlo hhi => hwalk (m.isDir_boot hlo) hhi, if_neg nofun]
    rfl

end Uses

section Invariant

variable {m m' : Memory} {frame : ℕ} {u : FrameUse}

/-- The uses are the same and no bit is cleared. -/
theorem PageInv.of_sameUses (h : PageInv m) (hs : SameUses m m') (hcr3 : m'.cr3 = m.cr3)
    (hpool : ∀ pf i, (m.pool pf).poolBitmap.scanTest i = true →
      (m'.pool pf).poolBitmap.scanTest i = true)
    (hbits : ∀ i, m.kernelVaddr.vaddrBitmap.scanTest i = true →
      m'.kernelVaddr.vaddrBitmap.scanTest i = true) : PageInv m' := by
  refine h.of_keepsDirs hs.keeps hcr3 (fun u frame hu => ?_)
    (h.unique.mono fun u frame => (hs.holds u frame).mp) fun vaddr frame hu => ?_
  · obtain ⟨hlo, hhi, hbit⟩ := h.alloc u frame ((hs.holds u frame).mp hu)
    unfold Memory.Allocated
    rw [hs.keeps.start, hs.keeps.len]
    exact ⟨hlo, hhi, hpool _ _ hbit⟩
  · obtain ⟨hlt, hbit⟩ := h.bits vaddr frame ((hs.holds _ frame).mp hu)
    exact ⟨hlt, hbits _ hbit⟩

/-- A fresh frame gets a use. -/
theorem PageInv.of_give (h : PageInv m) (hr : Remaps m m' u (some frame))
    (hf : m.Fresh u.pool frame) (hcr3 : m'.cr3 = m.cr3)
    (hpool : m'.pool = m.pool) (hvaddr : m'.kernelVaddr = m.kernelVaddr)
    (hbit : ∀ vaddr, u = .kernelPage vaddr →
      vaddr - kHeapStart < 8 * m.kernelVaddr.vaddrBitmap.btmpBytesLen ∧
        m.kernelVaddr.vaddrBitmap.scanTest (vaddr - kHeapStart) = true) : PageInv m' := by
  have hcases (w : FrameUse) (g : ℕ) (hw : m'.Holds w g) : m.Holds w g ∨ w = u ∧ g = frame := by
    have hw' := (hr.holds w g).mp hw
    by_cases heq : w = u
    · rw [if_pos heq] at hw'
      exact Or.inr ⟨heq, (Option.some.inj hw').symm⟩
    · rw [if_neg heq] at hw'
      exact Or.inl hw'
  refine h.of_keepsDirs hr.keeps hcr3 (fun w g hw => ?_) (h.unique.give hf.2 hcases) fun v g hv => ?_
  · unfold Memory.Allocated
    rw [hpool]
    rcases hcases w g hw with hw | ⟨rfl, rfl⟩
    · exact h.alloc w g hw
    · exact hf.1
  · rw [hvaddr]
    rcases hcases _ g hv with hv | ⟨hu, -⟩
    · exact h.bits v g hv
    · exact hbit v hu.symm

/-- A use ends, and its frame goes back to the pool. -/
theorem PageInv.of_release (h : PageInv m) (hu : m.Holds u frame) (hr : Remaps m m' u none)
    (hcr3 : m'.cr3 = m.cr3)
    (hpool : ∀ pf i, (m.pool pf).poolBitmap.scanTest i = true →
      pf ≠ u.pool ∨ i ≠ frame - (m.pool u.pool).phyAddrStart →
      (m'.pool pf).poolBitmap.scanTest i = true)
    (hbits : ∀ i, m.kernelVaddr.vaddrBitmap.scanTest i = true →
      m'.kernelVaddr.vaddrBitmap.scanTest i = true) : PageInv m' := by
  have hsub (w : FrameUse) (g : ℕ) (hw : m'.Holds w g) : w ≠ u ∧ m.Holds w g := by
    have hw' := (hr.holds w g).mp hw
    by_cases heq : w = u
    · rw [if_pos heq] at hw'
      cases hw'
    · rw [if_neg heq] at hw'
      exact ⟨heq, hw'⟩
  refine h.of_keepsDirs hr.keeps hcr3 (fun w g hw => ?_)
    (h.unique.mono fun w g hw => (hsub w g hw).2) fun v g hv => ?_
  · obtain ⟨hne, hw⟩ := hsub w g hw
    obtain ⟨hlo, hhi, hbit⟩ := h.alloc w g hw
    have halloc := h.alloc u frame hu
    unfold Memory.Allocated
    rw [hr.keeps.start, hr.keeps.len]
    refine ⟨hlo, hhi, hpool _ _ hbit ?_⟩
    by_cases hpf : w.pool = u.pool
    · refine Or.inr fun heq => hne (h.unique w u g hw ?_)
      obtain ⟨hlo', -⟩ := halloc
      rw [hpf] at hlo heq
      obtain rfl : g = frame := by omega
      exact hu
    · exact Or.inl hpf
  · obtain ⟨hlt, hbit⟩ := h.bits v g (hsub _ g hv).2
    exact ⟨hlt, hbits _ hbit⟩

end Invariant

end Winx
