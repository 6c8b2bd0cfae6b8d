import Winx.Memory.PageFailures
import Winx.Memory.PoolInit

/-! # `sys_malloc`

Requests of more than 1024 bytes get pages of their own. Smaller ones get a block
of one of seven sizes, from the list of free blocks of that size; when it is
empty, a page is cut into blocks. The size is compared with that of the pool,
but `malloc_page` asserts a bound on the count of pages, and `vaddr_get` one on
the address.
-/

namespace Winx

/-- What `sys_malloc` works on: the memory, and the free blocks of each size, of the kernel (`none`) and
of each process. `allMem` is what the pools were made from, and `descAddr` says where the descriptors
are. -/
structure Heap where
  mem : Memory
  allMem : UInt32
  descAddr : Option ℕ → ℕ → UInt32
  freeList : Option ℕ → ℕ → List ℕ

/-- Code on the heap. -/
abbrev HeapM (α : Type) := Exec Heap Fault α

namespace Heap

variable (h : Heap)

/-- Change the memory. -/
@[simps -fullyApplied] def setMem (m : Memory) : Heap := { h with mem := m }

/-- Change a list of free blocks. -/
@[simps -fullyApplied] def setFreeList (owner : Option ℕ) (descIdx : ℕ) (l : List ℕ) : Heap :=
  { h with freeList := Function.update h.freeList owner (Function.update (h.freeList owner) descIdx l) }

/-- `pool_size` of a pool. -/
def poolSize : PoolFlags → UInt32
  | .pfKernel => (memPoolInit h.allMem).kernelPool.poolSize
  | .pfUser => (memPoolInit h.allMem).userPool.poolSize

end Heap

/-- Run code on the memory. -/
def onMem {α : Type} (x : MemM α) : HeapM α := do
  let h ← get
  match x h.mem with
  | .ok (a, m) =>
    set (h.setMem m)
    pure a
  | .error e => throw e

/-- `block_size` of a descriptor. -/
def blockSize (descIdx : ℕ) : ℕ := 16 * 2 ^ descIdx

/-- `blocks_per_arena` of a descriptor. -/
def blocksPerArena (descIdx : ℕ) : ℕ := (4096 - 12) / blockSize descIdx

/-- `arena2block` -/
def arena2block (a descIdx idx : ℕ) : ℕ := 4096 * a + 12 + idx * blockSize descIdx

/-- `block2arena` -/
def block2arena (b : ℕ) : ℕ := b / 4096

/-- The first descriptor whose blocks are large enough. -/
def findDesc (size : ℕ) : ℕ → ℕ → ℕ
  | 0, descIdx => descIdx
  | fuel + 1, descIdx =>
    if size ≤ blockSize descIdx then descIdx else findDesc size fuel (descIdx + 1)

/-- `memset(addr, 0, 4 * cnt)` -/
def clearWords (addr : ℕ) : ℕ → MemM Unit
  | 0 => pure ()
  | cnt + 1 => do
    clearWords addr cnt
    store (addr + cnt) 0

/-- Store the fields of a `struct arena`. -/
def storeArena (a : ℕ) (desc cnt large : UInt32) : MemM Unit := do
  store (1024 * a) desc
  store (1024 * a + 1) cnt
  store (1024 * a + 2) large

/-- The loop that makes blocks of an arena. -/
def appendBlocks (owner : Option ℕ) (descIdx a : ℕ) : ℕ → HeapM Unit
  | 0 => pure ()
  | blockIdx + 1 => do
    appendBlocks owner descIdx a blockIdx
    let h ← get
    let b := arena2block a descIdx blockIdx
    assert (b ∉ h.freeList owner descIdx)
    set (h.setFreeList owner descIdx (h.freeList owner descIdx ++ [b]))

/-- Take the first free block. -/
def popBlock (owner : Option ℕ) (descIdx : ℕ) : HeapM (Option ℕ) := do
  let h ← get
  match h.freeList owner descIdx with
  | [] => throw .badPointer
  | b :: rest =>
    set (h.setFreeList owner descIdx rest)
    onMem (clearWords (b / 4) (blockSize descIdx / 4))
    let cnt ← onMem (load (1024 * block2arena b + 1))
    onMem (store (1024 * block2arena b + 1) (cnt - 1))
    pure (some b)

/-- `sys_malloc` of more than 1024 bytes. -/
def mallocLarge (pf : PoolFlags) (pageCnt : UInt32) : HeapM (Option ℕ) := do
  let a ← onMem (mallocPage pf pageCnt.toNat)
  match a with
  | some a =>
    onMem (clearPages a pageCnt.toNat)
    onMem (storeArena a 0 pageCnt 1)
    pure (some (4096 * a + 12))
  | none => pure none

/-- `sys_malloc` of at most 1024 bytes. -/
def mallocSmall (pf : PoolFlags) (owner : Option ℕ) (descIdx : ℕ) : HeapM (Option ℕ) := do
  let h ← get
  if h.freeList owner descIdx = [] then
    let a ← onMem (mallocPage pf 1)
    match a with
    | none => pure none
    | some a =>
      onMem (clearPages a 1)
      onMem (storeArena a (h.descAddr owner descIdx) (UInt32.ofNat (blocksPerArena descIdx)) 0)
      appendBlocks owner descIdx a (blocksPerArena descIdx)
      popBlock owner descIdx
  else popBlock owner descIdx

/-- `sys_malloc` -/
def Heap.sysMalloc (size : UInt32) : HeapM (Option ℕ) := do
  let h ← get
  let curThread ← onMem curTask
  let pf : PoolFlags := if curThread.pgdir = 0 then .pfKernel else .pfUser
  let owner := if curThread.pgdir = 0 then none else some h.mem.cur
  if ¬ (0 < size ∧ size < h.poolSize pf) then pure none
  else if 1024 < size then mallocLarge pf ((size + 12 + 4096 - 1) / 4096)
  else mallocSmall pf owner (findDesc size.toNat 7 0)

/-- How many pages `sys_malloc` asks for. -/
def pagesFor (size : UInt32) : ℕ :=
  if 1024 < size then ((size + 12 + 4096 - 1) / 4096).toNat else 1

/-- The free blocks of the running process are blocks of arenas, each in one list once, and an arena
has blocks of one size. -/
structure HeapInv (h : Heap) : Prop where
  mem : MemInv h.mem
  bits : h.mem.BitsCover
  blocks : ∀ d, ∀ b ∈ h.freeList (some h.mem.cur) d, ∃ a idx, b = arena2block a d idx ∧
    idx < blocksPerArena d ∧ a < kernelBase ∧ h.mem.walk h.mem.cr3 a ≠ none
  nodup : ∀ d, (h.freeList (some h.mem.cur) d).Nodup
  oneDesc : ∀ d d', ∀ b ∈ h.freeList (some h.mem.cur) d, ∀ b' ∈ h.freeList (some h.mem.cur) d',
    block2arena b = block2arena b' → d = d'

/-- A block that a process may use: its pages are mapped, it was a free block that is large enough or
its pages are new, and no free block overlaps it. -/
structure GoodBlock (h h' : Heap) (size : UInt32) (p : ℕ) : Prop where
  inv : HeapInv h'
  mapped : ∀ a, p ≤ a → a < p + size.toNat →
    a / 4096 < kernelBase ∧ h'.mem.walk h'.mem.cr3 (a / 4096) ≠ none
  taken : (∃ d, p ∈ h.freeList (some h.mem.cur) d ∧ size.toNat ≤ blockSize d) ∨
    MappedFresh h.mem h'.mem .pfUser (p / 4096) (pagesFor size) ∧
      ∀ v, p / 4096 ≤ v → v < p / 4096 + pagesFor size → h.mem.walk h.mem.cr3 v = none
  apart : ∀ d, ∀ b ∈ h'.freeList (some h'.mem.cur) d,
    b + blockSize d ≤ p ∨ p + size.toNat ≤ b

/-- `sys_malloc` returns `NULL` or a block that the process may use. -/
def MallocSound (h : Heap) (size : UInt32) : Prop :=
  Exec.Returns (Heap.sysMalloc size) h fun r h' => ∀ p, r = some p → GoodBlock h h' size p

/-- What the loop of `malloc_page` needs to go on: the pages that are left are not mapped, and the page
tables that are there are different frames of the kernel pool. The table of the first page may be
frame 0. -/
structure Mappable (m : Memory) (vaddr cnt : ℕ) : Prop where
  self : SelfMapped m
  pool : 0 < m.kernelPool.phyAddrStart ∧
    m.kernelPool.phyAddrStart + 8 * m.kernelPool.poolBitmap.btmpBytesLen ≤ 2 ^ 20
  dir : m.Allocated .pfKernel m.cr3
  high : vaddr + cnt ≤ kernelBase
  free : ∀ v, vaddr ≤ v → v < vaddr + cnt → m.walk m.cr3 v = none
  ne : ∀ i, vaddr / 1024 ≤ i → i < 768 → entryPresent (m.phys m.cr3 i) = true →
    entryFrame (m.phys m.cr3 i) ≠ m.cr3
  later : ∀ i, vaddr / 1024 < i → i < 768 → entryPresent (m.phys m.cr3 i) = true →
    m.Allocated .pfKernel (entryFrame (m.phys m.cr3 i))
  apart : ∀ i j, vaddr / 1024 ≤ i → i < j → j < 768 → entryPresent (m.phys m.cr3 i) = true →
    entryPresent (m.phys m.cr3 j) = true →
      entryFrame (m.phys m.cr3 i) ≠ entryFrame (m.phys m.cr3 j)

section Mapping

variable {m m' : Memory} {vaddr cnt frame r : ℕ}

/-- Pages of a process that are not mapped. -/
theorem PageInv.mappable (h : PageInv m) (hdir : m.IsProcDir m.cr3) (hhigh : vaddr + cnt ≤ kernelBase)
    (hfree : ∀ v, vaddr ≤ v → v < vaddr + cnt → m.walk m.cr3 v = none) : Mappable m vaddr cnt := by
  have htable (i : ℕ) (hi : i < 768) (hp : entryPresent (m.phys m.cr3 i) = true) :
      m.Holds (.table m.cr3 i) (entryFrame (m.phys m.cr3 i)) := ⟨hdir, hi, hp, rfl⟩
  have hlayout := h.layout
  refine ⟨h.selfMapped, ⟨?_, ?_⟩, ?_, hhigh, hfree, fun i _ hi hp heq => ?_,
    fun i _ hi hp => h.alloc _ _ (htable i hi hp), fun i j _ hij hj hp hp' heq => ?_⟩
  · exact lt_of_lt_of_le (by decide) hlayout.kernelPool
  · have := hlayout.userPool
    have := hlayout.memory
    omega
  · obtain ⟨p, t, -, -, hu⟩ := h.procDir hdir
    exact h.alloc _ _ hu
  · refine (h.table_ne_dir (htable i hi hp)).2 ?_
    rwa [heq]
  · have hi := htable i (by omega) hp
    rw [heq] at hi
    have huse := h.unique _ _ _ hi (htable j hj hp')
    rw [FrameUse.table.injEq] at huse
    omega

/-- Steps that keep the directory and the pool of the kernel. -/
theorem Mappable.takeUser (h : Mappable m vaddr cnt) : Mappable (m.takeFrame .pfUser) vaddr cnt := by
  have hwalk (v : ℕ) : (m.takeFrame .pfUser).walk (m.takeFrame .pfUser).cr3 v = m.walk m.cr3 v := by
    unfold Memory.walk
    rw [Memory.takeFrame_phys, Memory.takeFrame_cr3]
  have halloc (g : ℕ) (hg : m.Allocated .pfKernel g) :
      (m.takeFrame .pfUser).Allocated .pfKernel g :=
    hg.of_scanTest Memory.takeFrame_start Memory.takeFrame_len fun i hi => Memory.takeFrame_scanTest hi
  have hstart : (m.takeFrame .pfUser).kernelPool.phyAddrStart = m.kernelPool.phyAddrStart :=
    (Memory.takeFrame_start : ((m.takeFrame .pfUser).pool .pfKernel).phyAddrStart = _)
  have hlen : (m.takeFrame .pfUser).kernelPool.poolBitmap.btmpBytesLen =
      m.kernelPool.poolBitmap.btmpBytesLen :=
    (Memory.takeFrame_len : ((m.takeFrame .pfUser).pool .pfKernel).poolBitmap.btmpBytesLen = _)
  constructor
  · exact ⟨by rw [Memory.takeFrame_phys, Memory.takeFrame_cr3]; exact h.self.self,
      by rw [Memory.takeFrame_cr3]; exact h.self.lt⟩
  · rw [hstart, hlen]
    exact h.pool
  · rw [Memory.takeFrame_cr3]
    exact halloc _ h.dir
  · exact h.high
  · intro v hlo hhi
    rw [hwalk]
    exact h.free v hlo hhi
  · rw [Memory.takeFrame_phys, Memory.takeFrame_cr3]
    exact h.ne
  · rw [Memory.takeFrame_phys, Memory.takeFrame_cr3]
    exact fun i hlo hi hp => halloc _ (h.later i hlo hi hp)
  · rw [Memory.takeFrame_phys, Memory.takeFrame_cr3]
    exact h.apart

/-- The first page is mapped by a page table that is there. -/
theorem Mappable.present (h : Mappable m vaddr (cnt + 1))
    (hp : entryPresent (m.phys m.cr3 (vaddr / 1024)) = true) :
    Mappable (m.setWord (entryFrame (m.phys m.cr3 (vaddr / 1024))) (vaddr % 1024) (entry frame))
      (vaddr + 1) cnt := by
  have hhigh := h.high
  unfold kernelBase at hhigh
  have hne := h.ne _ le_rfl (by omega) hp
  have hpde (i : ℕ) : (m.setWord (entryFrame (m.phys m.cr3 (vaddr / 1024))) (vaddr % 1024)
      (entry frame)).phys m.cr3 i = m.phys m.cr3 i := by
    rw [Memory.setWord_phys_apply, if_neg fun heq => hne heq.1.symm]
  have hnext : vaddr / 1024 ≤ (vaddr + 1) / 1024 := Nat.div_le_div_right (Nat.le_succ _)
  refine ⟨⟨?_, h.self.lt⟩, h.pool, h.dir, by unfold kernelBase; omega, fun v hlo hhi => ?_,
    fun i hlo hi hpi => ?_, fun i hlo hi hpi => ?_, fun i j hlo hij hj hpi hpj => ?_⟩
  · change _ = entry m.cr3
    rw [← h.self.self]
    exact hpde 1023
  · change Memory.walk _ m.cr3 v = none
    rw [← h.free v (by omega) (by omega)]
    refine Memory.walk_congr (hpde _) fun hpv => ?_
    rw [Memory.setWord_phys_apply, if_neg]
    rintro ⟨heq, hmod⟩
    rcases Nat.eq_or_lt_of_le (show vaddr / 1024 ≤ v / 1024 by omega) with hsame | hlt
    · omega
    · exact h.apart _ _ le_rfl hlt (by omega) hp hpv heq.symm
  · exact hpde i ▸ h.ne i (hnext.trans hlo) hi (hpde i ▸ hpi)
  · exact hpde i ▸ h.later i (lt_of_le_of_lt hnext hlo) hi (hpde i ▸ hpi)
  · change entryPresent (Memory.phys _ m.cr3 i) = true at hpi
    change entryPresent (Memory.phys _ m.cr3 j) = true at hpj
    change entryFrame (Memory.phys _ m.cr3 i) ≠ entryFrame (Memory.phys _ m.cr3 j)
    rw [hpde] at hpi hpj
    rw [hpde, hpde]
    exact h.apart i j (hnext.trans hlo) hij hj hpi hpj

/-- The frame of a new page table, which is frame 0 when the kernel has none left. -/
theorem Mappable.table_ne (h : Mappable m vaddr cnt) (hr : (m.nextFrame .pfKernel).getD 0 = r) :
    r < 2 ^ 20 ∧ ∀ g, m.Allocated .pfKernel g → g ≠ r := by
  obtain ⟨hpos, hend⟩ := h.pool
  cases hnext : m.nextFrame .pfKernel with
  | none =>
    rw [hnext, Option.getD_none] at hr
    subst hr
    refine ⟨by decide, ?_⟩
    rintro g ⟨hlo, -⟩ rfl
    exact absurd hlo (Nat.not_le.mpr hpos)
  | some frame =>
    rw [hnext, Option.getD_some] at hr
    subst hr
    obtain ⟨bitIdx, hscan, rfl⟩ := Option.map_eq_some_iff.mp hnext
    obtain ⟨hlt, hclear, -⟩ := Bitmap.scan_one_eq_some_iff.mp hscan
    refine ⟨?_, ?_⟩
    · change m.kernelPool.phyAddrStart + bitIdx < _
      change bitIdx < 8 * m.kernelPool.poolBitmap.btmpBytesLen at hlt
      omega
    · rintro g ⟨-, -, hset⟩ rfl
      rw [Nat.add_sub_cancel_left, hclear] at hset
      cases hset

/-- The first page is mapped by a new page table. -/
theorem Mappable.absent (h : Mappable m vaddr (cnt + 1)) (hr : (m.nextFrame .pfKernel).getD 0 = r) :
    Mappable ((m.addTable (vaddr / 1024) r).setWord r (vaddr % 1024) (entry frame)) (vaddr + 1) cnt := by
  have hhigh := h.high
  unfold kernelBase at hhigh
  obtain ⟨hlt, hother⟩ := h.table_ne hr
  have hdir := hother _ h.dir
  have hcr3 : ((m.addTable (vaddr / 1024) r).setWord r (vaddr % 1024) (entry frame)).cr3 = m.cr3 :=
    Memory.takeFrame_cr3
  have hpde (i : ℕ) : ((m.addTable (vaddr / 1024) r).setWord r (vaddr % 1024) (entry frame)).phys m.cr3
      i = if i = vaddr / 1024 then entry r else m.phys m.cr3 i := by
    rw [Memory.setWord_phys_apply, if_neg fun heq => hdir heq.1, Memory.addTable_phys hdir.symm]
  have hword (g j : ℕ) (hg : g ≠ r) (hne : g ≠ m.cr3) : ((m.addTable (vaddr / 1024) r).setWord r
      (vaddr % 1024) (entry frame)).phys g j = m.phys g j := by
    rw [Memory.setWord_phys_apply, if_neg fun heq => hg heq.1, Memory.addTable, Memory.setFrame_phys,
      Function.update_of_ne hg, Memory.setWord_phys_apply, if_neg fun heq => hne heq.1,
      Memory.takeFrame_phys]
  have hzero (j : ℕ) (hj : j ≠ vaddr % 1024) : ((m.addTable (vaddr / 1024) r).setWord r
      (vaddr % 1024) (entry frame)).phys r j = 0 := by
    rw [Memory.setWord_phys_apply, if_neg fun heq => hj heq.2, Memory.addTable, Memory.setFrame_phys,
      Function.update_self]
  have hpool : ((m.addTable (vaddr / 1024) r).setWord r (vaddr % 1024) (entry frame)).pool =
      (m.addTable (vaddr / 1024) r).pool := by
    funext pf
    cases pf <;> rfl
  have hnext : vaddr / 1024 ≤ (vaddr + 1) / 1024 := Nat.div_le_div_right (Nat.le_succ _)
  generalize (m.addTable (vaddr / 1024) r).setWord r (vaddr % 1024) (entry frame) = m' at *
  have hkernel : m'.pool .pfKernel = (m.takeFrame .pfKernel).pool .pfKernel := by
    rw [hpool, Memory.addTable_pool]
  have hstart : (m'.pool .pfKernel).phyAddrStart = (m.pool .pfKernel).phyAddrStart := by
    rw [hkernel, Memory.takeFrame_start]
  have hlen : (m'.pool .pfKernel).poolBitmap.btmpBytesLen =
      (m.pool .pfKernel).poolBitmap.btmpBytesLen := by
    rw [hkernel, Memory.takeFrame_len]
  have halloc (g : ℕ) (hg : m.Allocated .pfKernel g) : m'.Allocated .pfKernel g := by
    refine hg.of_scanTest hstart hlen fun i hi => ?_
    rw [hkernel]
    exact Memory.takeFrame_scanTest hi
  constructor
  · refine ⟨?_, hcr3 ▸ h.self.lt⟩
    rw [hcr3, hpde, if_neg (by omega), h.self.self]
  · exact ⟨hstart ▸ h.pool.1, hstart ▸ hlen ▸ h.pool.2⟩
  · rw [hcr3]
    exact halloc _ h.dir
  · unfold kernelBase
    omega
  · intro v hlo hhi
    rw [hcr3]
    by_cases hsame : v / 1024 = vaddr / 1024
    · -- the other pages of the new table are not mapped
      unfold Memory.walk
      dsimp only
      rw [hpde, if_pos hsame, entryPresent_entry, if_pos rfl, entryFrame_entry hlt,
        hzero _ (by omega), entryPresent_zero, if_neg Bool.false_ne_true]
    · rw [← h.free v (by omega) (by omega)]
      refine Memory.walk_congr ?_ fun hpv => ?_
      · rw [hpde, if_neg hsame]
      · have hg := h.later (v / 1024) (by omega) (by omega) hpv
        have hne := h.ne (v / 1024) (by omega) (by omega) hpv
        exact hword _ _ (hother _ hg) hne
  · intro i hlo hi hpi
    rw [hcr3, hpde] at hpi ⊢
    split
    · rw [entryFrame_entry hlt]
      exact hdir.symm
    · rename_i hne
      rw [if_neg hne] at hpi
      exact h.ne i (hnext.trans hlo) hi hpi
  · intro i hlo hi hpi
    rw [hcr3, hpde, if_neg (by omega)] at hpi
    rw [hcr3, hpde, if_neg (by omega)]
    exact halloc _ (h.later i (lt_of_le_of_lt hnext hlo) hi hpi)
  · intro i j hlo hij hj hpi hpj
    rw [hcr3, hpde, if_neg (show j ≠ vaddr / 1024 by omega)] at hpj
    rw [hcr3, hpde] at hpi
    rw [hcr3, hpde, hpde, if_neg (show j ≠ vaddr / 1024 by omega)]
    split
    · rw [entryFrame_entry hlt]
      exact (hother _ (h.later j (by omega) hj hpj)).symm
    · rename_i hne
      rw [if_neg hne] at hpi
      exact h.apart i j (hnext.trans hlo) hij hj hpi hpj

theorem Memory.freeFrames_takeKernel :
    (m.takeFrame .pfKernel).freeFrames .pfUser = m.freeFrames .pfUser := by
  cases hr : m.nextFrame .pfKernel with
  | none => rw [Memory.takeFrame_eq_self hr]
  | some frame =>
    have hkeep : (m.takeFrame .pfKernel).freeFrames .pfUser + 0 = m.freeFrames .pfUser :=
      Memory.freeFrames_takeFrame hr
    exact hkeep

/-- The loop of `malloc_page` does not fail for a process. Without a frame for a page table it goes on
with frame 0. -/
theorem mapPages_returns : ∀ {m : Memory} {vaddr : ℕ}, Mappable m vaddr cnt →
    Exec.Returns (mapPages .pfUser vaddr cnt) m fun r _ =>
      r = true ↔ cnt ≤ m.freeFrames .pfUser := by
  induction cnt with
  | zero =>
    intro m vaddr _
    exact iff_of_true rfl (Nat.zero_le _)
  | succ cnt ih =>
    intro m vaddr h
    rw [mapPages, Exec.Returns, Exec.post_bind, post_palloc]
    cases hf : m.nextFrame .pfUser with
    | none =>
      have hzero := Memory.nextFrame_eq_none.mp hf
      exact iff_of_false Bool.false_ne_true (by omega)
    | some frame =>
      have hfree : (m.takeFrame .pfUser).freeFrames .pfUser + 1 = m.freeFrames .pfUser :=
        Memory.freeFrames_takeFrame hf
      have h₁ := h.takeUser
      have hhigh := h.high
      unfold kernelBase at hhigh
      dsimp only
      rw [Exec.post_bind]
      by_cases hp : entryPresent ((m.takeFrame .pfUser).phys (m.takeFrame .pfUser).cr3
          (vaddr / 1024)) = true
      · rw [h₁.self.pageTableAdd_present (by omega) hp]
        refine ⟨fun _ => ?_, fun hne => hne (h₁.free vaddr le_rfl (by omega))⟩
        refine (ih (h₁.present hp)).mono fun r m' hr => hr.trans ?_
        change cnt ≤ (m.takeFrame .pfUser).freeFrames .pfUser ↔ _
        omega
      · obtain ⟨hlt, hother⟩ := h₁.table_ne rfl
        rw [h₁.self.pageTableAdd_absent (by unfold pteBase; omega) hp rfl (hother _ h₁.dir).symm hlt]
        refine (ih (h₁.absent rfl)).mono fun r m' hr => hr.trans ?_
        change cnt ≤ ((m.takeFrame .pfUser).takeFrame .pfKernel).freeFrames .pfUser ↔ _
        rw [Memory.freeFrames_takeKernel]
        omega

end Mapping

/-- What writing to pages of the active process leaves alone. -/
structure WroteUser (m m' : Memory) : Prop where
  sound : PageInv m'
  same : SameUses m m'
  cr3 : m'.cr3 = m.cr3
  cur : m'.cur = m.cur
  task : m'.task = m.task
  pool : m'.pool = m.pool

section Writing

variable {m m' m'' : Memory} {vaddr addr cnt : ℕ} {w : UInt32}

theorem WroteUser.refl (h : PageInv m) : WroteUser m m :=
  ⟨h, .of_phys rfl (fun _ => rfl) (fun _ => rfl) (fun _ => rfl) rfl rfl, rfl, rfl, rfl, rfl⟩

theorem WroteUser.trans (h : WroteUser m m') (h' : WroteUser m' m'') : WroteUser m m'' where
  sound := h'.sound
  same := ⟨h.same.keeps.trans h'.same.keeps, fun u g => (h'.same.holds u g).trans (h.same.holds u g)⟩
  cr3 := h'.cr3.trans h.cr3
  cur := h'.cur.trans h.cur
  task := h'.task.trans h.task
  pool := h'.pool.trans h.pool

theorem WroteUser.isProcDir (h : WroteUser m m') (hdir : m.IsProcDir m.cr3) : m'.IsProcDir m'.cr3 := by
  rw [h.cr3]
  exact h.same.keeps.isProcDir.mpr hdir

/-- The pages stay where they are. -/
theorem WroteUser.walk (h : WroteUser m m') (hdir : m.IsProcDir m.cr3) (hv : vaddr < kernelBase) :
    m'.walk m'.cr3 vaddr = m.walk m.cr3 vaddr := by
  have hdir' := h.isProcDir hdir
  rw [h.cr3] at hdir' ⊢
  apply Option.ext
  intro g
  constructor
  · intro hg
    exact ((h.same.holds (.page m.cr3 vaddr) g).mp ⟨hdir', hv, hg⟩).2.2
  · intro hg
    exact ((h.same.holds (.page m.cr3 vaddr) g).mpr ⟨hdir, hv, hg⟩).2.2

/-- Writing to a page of the process. -/
theorem PageInv.wroteUser {g : ℕ} (h : PageInv m) (hdir : m.IsProcDir m.cr3) (hv : vaddr < kernelBase)
    (hg : m.walk m.cr3 vaddr = some g) (words : ℕ → UInt32) : WroteUser m (m.setFrame g words) := by
  have hsame := h.sameUses_setFrame (h.page_plain ⟨hdir, hv, hg⟩) words
  refine ⟨h.of_sameUses hsame rfl (fun _ _ => id) fun _ => id, hsame, rfl, rfl, rfl, ?_⟩
  funext pf
  cases pf <;> rfl

/-- The page can be written to. -/
def Memory.Writable (m : Memory) (vaddr : ℕ) : Prop :=
  m.IsProcDir m.cr3 ∧ vaddr < kernelBase ∧ m.walk m.cr3 vaddr ≠ none

theorem WroteUser.writable (h : WroteUser m m') (hv : m.Writable vaddr) : m'.Writable vaddr := by
  obtain ⟨hdir, hlt, hwalk⟩ := hv
  exact ⟨h.isProcDir hdir, hlt, by rwa [h.walk hdir hlt]⟩

theorem store_user (h : PageInv m) (hv : m.Writable (addr / 1024)) :
    Exec.Returns (store addr w) m fun _ m' => WroteUser m m' := by
  obtain ⟨hdir, hlt, hwalk⟩ := hv
  obtain ⟨g, hg⟩ := Option.ne_none_iff_exists'.mp hwalk
  simp only [Exec.Returns, store, translate, Exec.post_bind, Exec.post_get, post_deref, hg,
    Option.some.injEq, forall_eq', Exec.post_modify, reduceCtorEq, false_implies, and_true]
  exact h.wroteUser hdir hlt hg _

theorem load_user (hv : m.Writable (addr / 1024)) :
    Exec.Returns (load addr) m fun _ m' => m' = m := by
  obtain ⟨g, hg⟩ := Option.ne_none_iff_exists'.mp hv.2.2
  simp only [Exec.Returns, load, translate, Exec.post_bind, Exec.post_get, post_deref, hg,
    Option.some.injEq, forall_eq', Exec.post_pure, reduceCtorEq, false_implies, and_true]

theorem clearPages_user (h : PageInv m) (hv : ∀ v, vaddr ≤ v → v < vaddr + cnt → m.Writable v) :
    Exec.Returns (clearPages vaddr cnt) m fun _ m' => WroteUser m m' := by
  induction cnt with
  | zero => exact WroteUser.refl h
  | succ cnt ih =>
    refine (ih fun v hlo hhi => hv v hlo (by omega)).bind fun _ m' hm' => ?_
    obtain ⟨hdir, hlt, hwalk⟩ := hm'.writable (hv (vaddr + cnt) (by omega) (by omega))
    obtain ⟨g, hg⟩ := Option.ne_none_iff_exists'.mp hwalk
    simp only [clearPage, translate, Exec.post_bind, Exec.post_get, post_deref, hg,
      Option.some.injEq, forall_eq', Exec.post_modify, reduceCtorEq, false_implies, and_true]
    exact hm'.trans (hm'.sound.wroteUser hdir hlt hg _)

theorem clearWords_user (h : PageInv m) (hv : ∀ i < cnt, m.Writable ((addr + i) / 1024)) :
    Exec.Returns (clearWords addr cnt) m fun _ m' => WroteUser m m' := by
  induction cnt with
  | zero => exact WroteUser.refl h
  | succ cnt ih =>
    refine (ih fun i hi => hv i (by omega)).bind fun _ m' hm' => ?_
    exact (store_user hm'.sound (hm'.writable (hv cnt (by omega)))).mono fun _ _ h' => hm'.trans h'

theorem storeArena_user {desc count large : UInt32} (h : PageInv m) (hv : m.Writable vaddr) :
    Exec.Returns (storeArena vaddr desc count large) m fun _ m' => WroteUser m m' := by
  have hword (i : ℕ) (hi : i < 1024) : (1024 * vaddr + i) / 1024 = vaddr := by omega
  refine (store_user h (by rwa [Nat.mul_div_cancel_left _ (by decide)])).bind fun _ m₁ h₁ => ?_
  refine (store_user h₁.sound (by rw [hword 1 (by decide)]; exact h₁.writable hv)).bind fun _ m₂ h₂ => ?_
  have h₁₂ := h₁.trans h₂
  refine (store_user h₁₂.sound (by rw [hword 2 (by decide)]; exact h₁₂.writable hv)).mono ?_
  exact fun _ _ h₃ => h₁₂.trans h₃

/-- Pages that were mapped stay so. -/
theorem MappedFresh.wrote (h : MappedFresh m m' .pfUser vaddr cnt) (hw : WroteUser m' m'')
    (hdir : m'.IsProcDir m'.cr3) (hhigh : vaddr + cnt ≤ kernelBase) :
    MappedFresh m m'' .pfUser vaddr cnt := by
  have hwalk (v : ℕ) (hhi : v < vaddr + cnt) : m''.walk m''.cr3 v = m'.walk m'.cr3 v :=
    hw.walk hdir (by omega)
  refine ⟨hw.sound, hw.cr3.trans h.cr3, fun v hlo hhi => ?_, fun v w hlo hhi hlo' hhi' heq => ?_,
    fun i g hg => ?_⟩
  · obtain ⟨g, hg, hnot, hall⟩ := h.mapped v hlo hhi
    refine ⟨g, (hwalk v hhi).trans hg, hnot, ?_⟩
    unfold Memory.Allocated at hall ⊢
    rwa [hw.pool]
  · rw [hwalk v hhi, hwalk w hhi'] at heq
    exact h.distinct v w hlo hhi hlo' hhi' heq
  · rw [hw.cr3] at hg
    exact h.tables i g ((hw.same.holds _ g).mp hg)

end Writing

/-- The pages that a process asks for are there: the count is below the bound that `malloc_page`
asserts, the run of free pages that is found begins below the last page, and there are frames for its
page tables if there are frames for all of it. -/
def Memory.PagesFit (m : Memory) (t : MemTask) (cnt : ℕ) : Prop :=
  cnt < 3840 ∧ ∀ i, t.userprogVaddr.vaddrBitmap.scan cnt = some i →
    t.userprogVaddr.vaddrStart + i < kernelBase - 1 ∧ (m.freeFrames .pfUser < cnt ∨
      m.missingTables (t.userprogVaddr.vaddrStart + i) cnt ≤ m.freeFrames .pfKernel)

section Requests

variable {m m' : Memory} {t : MemTask} {a cnt i : ℕ} {Q : Option ℕ → Memory → Prop}

/-- The pages that a scan found are not mapped. -/
theorem MemInv.walk_of_scan (h : MemInv m) (hbits : m.BitsCover) (hcur : m.task m.cur = some t)
    (hne : t.pgdir ≠ 0) (hscan : t.userprogVaddr.vaddrBitmap.scan cnt = some i) :
    ∀ v, t.userprogVaddr.vaddrStart + i ≤ v → v < t.userprogVaddr.vaddrStart + i + cnt →
      m.walk m.cr3 v = none := by
  intro v hlo hhi
  obtain ⟨hclear, hlt⟩ :=
    Bitmap.scan_eq_some hscan (v - t.userprogVaddr.vaddrStart - i) (by omega)
  rw [show i + (v - t.userprogVaddr.vaddrStart - i) = v - t.userprogVaddr.vaddrStart by omega]
    at hclear hlt
  have hva : m.vaddrs .pfUser = some t.userprogVaddr := by
    rw [Memory.vaddrs, hcur]
    rfl
  exact h.walk_of_clear hbits hcur (fun _ => hne) hva (by omega) hlt hclear

/-- What `malloc_page` gives a process. -/
structure GotPages (m m' : Memory) (a cnt : ℕ) : Prop where
  fresh : MappedFresh m m' .pfUser a cnt
  high : a + cnt ≤ kernelBase
  free : ∀ v, a ≤ v → v < a + cnt → m.walk m.cr3 v = none
  keeps : ∀ v < kernelBase, m.walk m.cr3 v ≠ none → m'.walk m'.cr3 v ≠ none
  dir : m'.IsProcDir m'.cr3
  cur : m'.cur = m.cur
  inv : MemInv m'
  bits : m'.BitsCover

theorem GotPages.writable (h : GotPages m m' a cnt) :
    ∀ v, a ≤ v → v < a + cnt → m'.Writable v := by
  intro v hlo hhi
  obtain ⟨g, hg, -⟩ := h.fresh.mapped v hlo hhi
  have hhigh := h.high
  refine ⟨h.dir, by omega, ?_⟩
  rw [hg]
  nofun

/-- Pages that were marked and mapped. -/
theorem AddedPages.gotPages (ha : AddedPages (m.markPages t i cnt) m'
    (t.userprogVaddr.vaddrStart + i) cnt) (h : MemInv m) (h' : PageInv m') (hbits : m.BitsCover)
    (hcur : m.task m.cur = some t) (hne : t.pgdir ≠ 0)
    (hscan : t.userprogVaddr.vaddrBitmap.scan cnt = some i) (hpos : 0 < cnt) :
    GotPages m m' (t.userprogVaddr.vaddrStart + i) cnt := by
  have hmark : m.mark i cnt .pfUser = m.markPages t i cnt := Memory.mark_user hcur
  have hend := (Bitmap.scan_eq_some hscan (cnt - 1) (by omega)).2
  have hrange := h.range hcur hne
  have hproc := h.isProcDir hcur hne
  have hsame : SameUses m (m.markPages t i cnt) := Memory.sameUses_setTask hcur rfl
  have hcr3 : m'.cr3 = m.cr3 := ha.grows.cr3
  have hdir' : m'.IsProcDir m.cr3 :=
    ha.grows.keeps.isProcDir.mpr (hsame.keeps.isProcDir.mpr hproc)
  -- Pages outside of the run are mapped as before.
  have hother (v : ℕ) (hv : v < kernelBase) (hout : ¬ (t.userprogVaddr.vaddrStart + i ≤ v ∧
      v < t.userprogVaddr.vaddrStart + i + cnt)) (g : ℕ) :
      m'.walk m.cr3 v = some g ↔ m.walk m.cr3 v = some g := by
    have hiff := (ha.other m.cr3 v g fun hin => hout hin.2).trans (hsame.holds (.page m.cr3 v) g)
    exact ⟨fun hg => (hiff.mp ⟨hdir', hv, hg⟩).2.2, fun hg => (hiff.mpr ⟨hproc, hv, hg⟩).2.2⟩
  have hfree := h.walk_of_scan hbits hcur hne hscan
  constructor
  · rw [← hmark] at ha
    exact (ha.mappedFresh h').of_mark h.page
  · omega
  · exact hfree
  · intro v hv hmapped
    obtain ⟨g, hg⟩ := Option.ne_none_iff_exists'.mp hmapped
    rw [hcr3, (hother v hv (fun hin => hmapped (hfree v hin.1 hin.2)) g).mpr hg]
    nofun
  · rwa [hcr3]
  · exact ha.grows.cur
  · exact ha.memInv h h' hcur
  · intro t' ht' _ v hlo hv hmapped
    have hcur' : m'.cur = m.cur := ha.grows.cur
    rw [hcur', ha.task] at ht'
    change Function.update m.task m.cur _ m.cur = some t' at ht'
    rw [Function.update_self] at ht'
    obtain rfl := Option.some.inj ht'
    change t.userprogVaddr.vaddrStart ≤ v at hlo
    change (t.userprogVaddr.vaddrBitmap.setRun i true cnt).scanTest
      (v - t.userprogVaddr.vaddrStart) = true
    rw [Bitmap.scanTest_setRun]
    split
    · rfl
    · rename_i hout
      refine hbits t hcur hne v hlo hv fun hnone => hmapped ?_
      rw [hcr3]
      apply Option.eq_none_iff_forall_not_mem.mpr
      intro g hg
      rw [Option.mem_def, hother v hv (by omega), hnone] at hg
      cases hg

theorem mallocPage_fits (h : MemInv m) (hbits : m.BitsCover) (hcur : m.task m.cur = some t)
    (hne : t.pgdir ≠ 0) (hpos : 0 < cnt) (hfit : m.PagesFit t cnt) :
    Exec.Returns (mallocPage .pfUser cnt) m fun r m' => ∀ a, r = some a → GotPages m m' a cnt := by
  have hva : m.vaddrs .pfUser = some t.userprogVaddr := by rw [Memory.vaddrs, hcur]; rfl
  cases hscan : t.userprogVaddr.vaddrBitmap.scan cnt with
  | none =>
    rw [Exec.Returns, post_mallocPage_none ⟨hpos, hfit.1⟩ hva hscan]
    simp
  | some i =>
    obtain ⟨hbelow, hframes⟩ := hfit.2 i hscan
    have hfree := h.walk_of_scan hbits hcur hne hscan
    have hend := (Bitmap.scan_eq_some hscan (cnt - 1) (by omega)).2
    obtain ⟨hdir, hhigh⟩ : (m.mark i cnt .pfUser).Range (t.userprogVaddr.vaddrStart + i) cnt .pfUser :=
      h.range_mark hcur (fun _ => hne) hva (by omega)
    have hwalk : ∀ v, t.userprogVaddr.vaddrStart + i ≤ v → v < t.userprogVaddr.vaddrStart + i + cnt →
        (m.mark i cnt .pfUser).walk (m.mark i cnt .pfUser).cr3 v = none := by
      intro v hlo hhi
      rw [Memory.mark_walk, Memory.mark_cr3]
      exact hfree v hlo hhi
    have hcount : (m.mark i cnt .pfUser).freeFrames .pfUser = m.freeFrames .pfUser := by
      rw [Memory.freeFrames, Memory.mark_pool]
      rfl
    rw [Exec.Returns, post_mallocPage ⟨hpos, hfit.1⟩ hva hscan]
    refine ⟨fun _ => ?_, fun hnot => hnot fun _ => hbelow⟩
    by_cases hle : cnt ≤ m.freeFrames .pfUser
    · have hall : (m.mark i cnt .pfUser).FramesFor (t.userprogVaddr.vaddrStart + i) cnt .pfUser :=
        Memory.mark_framesFor.mpr ⟨hle, hframes.resolve_left (Nat.not_lt.mpr hle)⟩
      have htables : (m.mark i cnt .pfUser).TablesFit (t.userprogVaddr.vaddrStart + i) cnt := by
        unfold Memory.TablesFit
        rw [Nat.min_eq_left hall.1]
        exact hall.2
      refine Exec.Post.mono (mapPages_user h.page.mark.1 hdir hhigh htables) ?_ ?_
      · rintro r m' ⟨h', hadd, -⟩ a ha
        cases r with
        | false => cases ha
        | true =>
          obtain rfl := Option.some.inj ha
          rw [Nat.min_eq_left hall.1, Memory.mark_user hcur] at hadd
          exact hadd.gotPages h h' hbits hcur hne hscan hpos
      · rintro e ⟨-, v, hlo, hhi, hmapped⟩
        exact hmapped (hwalk v hlo hhi)
    · refine (mapPages_returns (h.page.mark.1.mappable hdir hhigh hwalk)).mono fun r m' hr => ?_
      have hfalse : r = false := by
        rw [← Bool.not_eq_true, hr, hcount]
        exact hle
      rw [hfalse]
      simp

/-- Pages were handed out without the frames for their page tables. -/
structure LacksFrames (m m' : Memory) (a cnt : ℕ) : Prop where
  lacks : ¬ m.FramesFor a cnt .pfUser
  free : ∀ v, a ≤ v → v < a + cnt → m.walk m.cr3 v = none
  high : a + cnt ≤ kernelBase
  start : ∀ pf, (m'.pool pf).phyAddrStart = (m.pool pf).phyAddrStart
  len : ∀ pf, (m'.pool pf).poolBitmap.btmpBytesLen = (m.pool pf).poolBitmap.btmpBytesLen

/-- Where the pages are not there, the call does not return, or returns pages without the frames. -/
theorem mallocPage_not_fits (h : MemInv m) (hbits : m.BitsCover) (hcur : m.task m.cur = some t)
    (hne : t.pgdir ≠ 0) (hpos : 0 < cnt) (hnot : ¬ m.PagesFit t cnt)
    (hret : Exec.Returns (mallocPage .pfUser cnt) m Q) :
    ∃ a m', Q (some a) m' ∧ LacksFrames m m' a cnt := by
  have hva : m.vaddrs .pfUser = some t.userprogVaddr := by rw [Memory.vaddrs, hcur]; rfl
  by_cases hcnt : cnt < 3840
  · unfold Memory.PagesFit at hnot
    rw [not_and] at hnot
    have hnot := hnot hcnt
    push Not at hnot
    obtain ⟨i, hscan, hlack⟩ := hnot
    rw [Exec.Returns, post_mallocPage ⟨hpos, hcnt⟩ hva hscan] at hret
    obtain ⟨hmap, hend⟩ := hret
    have hbelow : t.userprogVaddr.vaddrStart + i < kernelBase - 1 := by
      by_contra hge
      exact hend fun himp => hge (himp rfl)
    obtain ⟨hle, htables⟩ := hlack hbelow
    obtain ⟨r, m', hok, hr⟩ := Exec.returns_iff.mp (hmap fun _ => hbelow)
    obtain ⟨-, -, hstart, hlen⟩ := (mapPages_keepsMaps.of_ok hok).of_mark hva
    have hfree := h.walk_of_scan hbits hcur hne hscan
    have hlast := (Bitmap.scan_eq_some hscan (cnt - 1) (by omega)).2
    obtain ⟨hdir, hhigh⟩ : (m.mark i cnt .pfUser).Range (t.userprogVaddr.vaddrStart + i) cnt .pfUser :=
      h.range_mark hcur (fun _ => hne) hva (by omega)
    have hmappable : Mappable (m.mark i cnt .pfUser) (t.userprogVaddr.vaddrStart + i) cnt := by
      refine h.page.mark.1.mappable hdir hhigh fun v hlo hhi => ?_
      rw [Memory.mark_walk, Memory.mark_cr3]
      exact hfree v hlo hhi
    have htrue : r = true := by
      rw [(mapPages_returns hmappable).ensures.of_ok hok, Memory.freeFrames, Memory.mark_pool]
      exact hle
    rw [htrue, if_pos rfl] at hr
    exact ⟨_, m', hr, fun hframes => absurd hframes.2 (Nat.not_le.mpr htables), hfree, hhigh, hstart,
      hlen⟩
  · have hassert : Exec.Returns (assert (0 < cnt ∧ cnt < 3840) : MemM Unit) m fun _ _ => True := by
      rw [mallocPage, Exec.Returns, Exec.post_bind] at hret
      exact hret.mono (fun _ _ _ => trivial) fun _ => id
    rw [Exec.Returns, post_assert] at hassert
    exact (hassert.2 fun hboth => hcnt hboth.2).elim

end Requests

section Blocks

variable {h : Heap} {owner : Option ℕ} {descIdx a idx n : ℕ}

@[simp] theorem post_onMem {α : Type} {x : MemM α} {Q : α → Heap → Prop} {E : Fault → Prop} :
    Exec.Post (onMem x) h Q E ↔ Exec.Post x h.mem (fun r m => Q r (h.setMem m)) E := by
  unfold onMem
  rw [Exec.post_bind, Exec.post_get]
  cases hx : x h.mem with
  | ok r => rw [Exec.post_of_ok hx]; rfl
  | error e => rw [Exec.post_of_error hx]; rfl

theorem Heap.setFreeList_setFreeList (l l' : List ℕ) :
    (h.setFreeList owner descIdx l).setFreeList owner descIdx l' = h.setFreeList owner descIdx l' := by
  simp only [setFreeList, Function.update_self, Function.update_idem]

theorem Heap.setFreeList_eq_self : h.setFreeList owner descIdx (h.freeList owner descIdx) = h := by
  simp only [setFreeList, Function.update_eq_self]

theorem Heap.setFreeList_self (l : List ℕ) :
    (h.setFreeList owner descIdx l).freeList owner descIdx = l := by
  rw [setFreeList_freeList, Function.update_self, Function.update_self]

theorem Heap.setFreeList_of_ne (l : List ℕ) {d : ℕ} (hd : d ≠ descIdx) :
    (h.setFreeList owner descIdx l).freeList owner d = h.freeList owner d := by
  rw [setFreeList_freeList, Function.update_self, Function.update_of_ne hd]

theorem blockSize_pos : 0 < blockSize descIdx := Nat.mul_pos (by decide) (Nat.two_pow_pos _)

/-- The blocks of an arena end with its page. -/
theorem arena2block_le (hidx : idx < blocksPerArena descIdx) :
    arena2block a descIdx idx + blockSize descIdx ≤ 4096 * a + 4096 := by
  have hle : (idx + 1) * blockSize descIdx ≤ 4096 - 12 :=
    (Nat.mul_le_mul_right _ hidx).trans (Nat.div_mul_le_self _ _)
  rw [Nat.succ_mul] at hle
  unfold arena2block
  omega

theorem block2arena_arena2block (hidx : idx < blocksPerArena descIdx) :
    block2arena (arena2block a descIdx idx) = a := by
  have hle := arena2block_le (a := a) hidx
  have hpos : 0 < blockSize descIdx := blockSize_pos
  have hlo : 4096 * a ≤ arena2block a descIdx idx := by
    unfold arena2block
    omega
  unfold block2arena
  omega

/-- Blocks of one arena lie apart. -/
theorem arena2block_apart {idx' : ℕ} (hne : idx ≠ idx') :
    arena2block a descIdx idx + blockSize descIdx ≤ arena2block a descIdx idx' ∨
      arena2block a descIdx idx' + blockSize descIdx ≤ arena2block a descIdx idx := by
  unfold arena2block
  rcases Nat.lt_or_gt_of_ne hne with hlt | hgt
  · have hle := Nat.mul_le_mul_right (blockSize descIdx) hlt
    rw [Nat.succ_mul] at hle
    omega
  · have hle := Nat.mul_le_mul_right (blockSize descIdx) hgt
    rw [Nat.succ_mul] at hle
    omega

theorem arena2block_inj {idx' : ℕ} (heq : arena2block a descIdx idx = arena2block a descIdx idx') :
    idx = idx' := by
  by_contra hne
  have hpos : 0 < blockSize descIdx := blockSize_pos
  have hapart : arena2block a descIdx idx + blockSize descIdx ≤ arena2block a descIdx idx' ∨
      arena2block a descIdx idx' + blockSize descIdx ≤ arena2block a descIdx idx :=
    arena2block_apart hne
  omega

/-- The words of a block are in its page. -/
theorem arena2block_word (hidx : idx < blocksPerArena descIdx) {i : ℕ} (hi : i < blockSize descIdx / 4) :
    (arena2block a descIdx idx / 4 + i) / 1024 = a := by
  have hle := arena2block_le (a := a) hidx
  have hlo : 4096 * a ≤ arena2block a descIdx idx := by
    unfold arena2block
    omega
  omega

/-- The descriptor that is found has blocks that are large enough. -/
theorem findDesc_spec {size : ℕ} : ∀ fuel descIdx : ℕ,
    (∃ d, descIdx ≤ d ∧ d < descIdx + fuel ∧ size ≤ blockSize d) →
      findDesc size fuel descIdx < descIdx + fuel ∧ size ≤ blockSize (findDesc size fuel descIdx) := by
  intro fuel
  induction fuel with
  | zero =>
    rintro descIdx ⟨d, hlo, hhi, -⟩
    omega
  | succ fuel ih =>
    rintro descIdx ⟨d, hlo, hhi, hsize⟩
    rw [findDesc]
    split
    · rename_i hfits
      exact ⟨by omega, hfits⟩
    · rename_i hfits
      have hne : d ≠ descIdx := by
        rintro rfl
        exact hfits hsize
      obtain ⟨hlt, hle⟩ := ih (descIdx + 1) ⟨d, by omega, by omega, hsize⟩
      exact ⟨by omega, hle⟩

theorem findDesc_fits {size : ℕ} (hsize : size ≤ 1024) :
    findDesc size 7 0 < 7 ∧ size ≤ blockSize (findDesc size 7 0) := by
  have hspec := findDesc_spec 7 0 ⟨6, by decide, by decide, hsize⟩
  rwa [Nat.zero_add] at hspec

theorem blocksPerArena_pos (hd : descIdx < 7) : 0 < blocksPerArena descIdx := by
  have hle : 2 ^ descIdx ≤ 2 ^ 6 := Nat.pow_le_pow_right (by decide) (by omega)
  unfold blocksPerArena
  refine Nat.div_pos ?_ blockSize_pos
  unfold blockSize
  omega

/-- The blocks of a new arena are put into an empty list. -/
theorem appendBlocks_spec (hempty : h.freeList owner descIdx = []) :
    Exec.Returns (appendBlocks owner descIdx a n) h fun _ h' =>
      h' = h.setFreeList owner descIdx ((List.range n).map (arena2block a descIdx)) := by
  induction n with
  | zero =>
    change h = h.setFreeList owner descIdx []
    rw [← hempty, Heap.setFreeList_eq_self]
  | succ n ih =>
    refine ih.bind ?_
    rintro - - rfl
    have hnew : arena2block a descIdx n ∉ (List.range n).map (arena2block a descIdx) := by
      intro hmem
      obtain ⟨idx, hidx, heq⟩ := List.mem_map.mp hmem
      have hlt := List.mem_range.mp hidx
      have hidx' := arena2block_inj heq
      omega
    rw [Exec.post_bind, Exec.post_get]
    dsimp only
    rw [Exec.post_bind, post_assert, Heap.setFreeList_self]
    refine ⟨fun _ => ?_, fun hnot => hnot hnew⟩
    change _ = _
    rw [Heap.setFreeList_setFreeList, List.range_succ, List.map_append]
    rfl

/-- Taking a free block. -/
theorem popBlock_spec {rest : List ℕ} (hinv : PageInv h.mem)
    (hlist : h.freeList owner descIdx = arena2block a descIdx idx :: rest)
    (hidx : idx < blocksPerArena descIdx) (hv : h.mem.Writable a) :
    Exec.Returns (popBlock owner descIdx) h fun r h' => r = some (arena2block a descIdx idx) ∧
      ∃ m', WroteUser h.mem m' ∧ h' = (h.setFreeList owner descIdx rest).setMem m' := by
  have hword : (1024 * block2arena (arena2block a descIdx idx) + 1) / 1024 = a := by
    rw [block2arena_arena2block hidx]
    omega
  rw [popBlock, Exec.Returns, Exec.post_bind, Exec.post_get, hlist]
  dsimp only
  rw [Exec.post_bind, Exec.post_set, Exec.post_bind, post_onMem]
  have hwords : ∀ i < blockSize descIdx / 4,
      h.mem.Writable ((arena2block a descIdx idx / 4 + i) / 1024) := by
    intro i hi
    rwa [arena2block_word hidx hi]
  refine (clearWords_user hinv hwords).mono fun _ m₁ h₁ => ?_
  rw [Exec.post_bind, post_onMem]
  refine (load_user (by rw [hword]; exact h₁.writable hv)).mono ?_
  rintro cnt m rfl
  rw [Exec.post_bind, post_onMem]
  refine (store_user h₁.sound (by rw [hword]; exact h₁.writable hv)).mono fun _ m₂ h₂ => ?_
  exact ⟨rfl, m₂, h₁.trans h₂, rfl⟩

end Blocks

/-- The request is turned down, or there is a free block, or the pages for it are there. -/
def Heap.Serves (h : Heap) (t : MemTask) (size : UInt32) : Prop :=
  size = 0 ∨ h.poolSize .pfUser ≤ size ∨
    size ≤ 1024 ∧ h.freeList (some h.mem.cur) (findDesc size.toNat 7 0) ≠ [] ∨
      h.mem.PagesFit t (pagesFor size)

section Calls

variable {h : Heap} {t : MemTask} {size : UInt32} {Q : Option ℕ → Heap → Prop} {E : Fault → Prop}

/-- A pool has at most 32768 pages. -/
theorem Heap.poolSize_le : (h.poolSize .pfUser).toNat ≤ 4096 * 32768 := by
  unfold poolSize memPoolInit
  dsimp only
  generalize ((h.allMem - (4096 * 256 + 0x100000)) / 4096).toUInt16 = pages
  have hhalf : (pages / 2).toNat = pages.toNat / 2 := UInt16.toNat_div ..
  have hlt := pages.toNat_lt
  have hle : (pages - pages / 2).toNat ≤ 32768 := by
    rw [UInt16.toNat_sub_of_le _ _ (UInt16.le_iff_toNat_le.mpr (by omega)), hhalf]
    omega
  rw [toNat_poolSize hle]
  exact Nat.mul_le_mul_left _ hle

/-- The pages that are asked for hold the block and the head of the arena. -/
theorem pagesFor_spec (hsize : size < h.poolSize .pfUser) :
    0 < pagesFor size ∧ (1024 < size → size.toNat + 12 ≤ 4096 * pagesFor size) := by
  have hpool := h.poolSize_le
  rw [UInt32.lt_iff_toNat_lt] at hsize
  have hsum : (size + 12 + 4096 - 1).toNat = size.toNat + 12 + 4096 - 1 := by
    have h12 : (size + 12).toNat = size.toNat + 12 := Word.toNat_add (b := 12) (by
      change size.toNat + 12 < 2 ^ 32
      omega)
    have h4096 : (size + 12 + 4096).toNat = size.toNat + 12 + 4096 := by
      rw [← h12]
      refine Word.toNat_add (b := 4096) ?_
      change (size + 12).toNat + 4096 < 2 ^ 32
      omega
    rw [← h4096]
    refine Word.toNat_sub (b := 1) ?_
    change 1 ≤ (size + 12 + 4096).toNat
    omega
  have hdiv : ((size + 12 + 4096 - 1) / 4096).toNat = (size.toNat + 12 + 4096 - 1) / 4096 := by
    rw [UInt32.toNat_div, hsum]
    rfl
  unfold pagesFor
  split
  · rw [hdiv]
    exact ⟨by omega, fun _ => by omega⟩
  · rename_i hsmall
    exact ⟨Nat.one_pos, fun hlarge => absurd hlarge hsmall⟩

theorem Heap.post_sysMalloc (hcur : h.mem.task h.mem.cur = some t) (hne : t.pgdir ≠ 0) :
    Exec.Post (Heap.sysMalloc size) h Q E ↔ (¬ (0 < size ∧ size < h.poolSize .pfUser) → Q none h) ∧
      (0 < size ∧ size < h.poolSize .pfUser →
        (1024 < size → Exec.Post (mallocLarge .pfUser ((size + 12 + 4096 - 1) / 4096)) h Q E) ∧
        (¬ 1024 < size →
          Exec.Post (mallocSmall .pfUser (some h.mem.cur) (findDesc size.toNat 7 0)) h Q E)) := by
  have hself : h.setMem h.mem = h := rfl
  simp only [Heap.sysMalloc, curTask, Exec.post_bind, Exec.post_get, post_onMem, post_deref, hcur,
    Option.some.injEq, forall_eq', hne, if_false, Exec.post_ite, Exec.post_pure, hself, not_not,
    reduceCtorEq, false_implies, and_true]

end Calls

section Invariant

variable {h : Heap} {m' : Memory} {d a cnt b : ℕ} {rest : List ℕ}

theorem WroteUser.memInv {m : Memory} (hw : WroteUser m m') (h : MemInv m) : MemInv m' :=
  h.of_task_eq hw.sound hw.same.keeps hw.cr3 hw.cur hw.task

theorem WroteUser.bitsCover {m : Memory} (hw : WroteUser m m') (hdir : m.IsProcDir m.cr3)
    (h : m.BitsCover) : m'.BitsCover := by
  intro t ht hne v hlo hv hmapped
  rw [hw.task, hw.cur] at ht
  rw [hw.walk hdir hv] at hmapped
  exact h t ht hne v hlo hv hmapped

/-- Writing to the pages of the process. -/
theorem HeapInv.wrote (hinv : HeapInv h) (hdir : h.mem.IsProcDir h.mem.cr3)
    (hw : WroteUser h.mem m') : HeapInv (h.setMem m') := by
  have hcur : (h.setMem m').mem.cur = h.mem.cur := hw.cur
  refine ⟨hw.memInv hinv.mem, hw.bitsCover hdir hinv.bits, fun d b hb => ?_, fun d => ?_,
    fun d d' b hb b' hb' => ?_⟩
  · rw [hcur] at hb
    obtain ⟨a, idx, rfl, hidx, ha, hwalk⟩ := hinv.blocks d b hb
    exact ⟨a, idx, rfl, hidx, ha, by rwa [Heap.setMem_mem, hw.walk hdir ha]⟩
  · rw [hcur]
    exact hinv.nodup d
  · rw [hcur] at hb hb'
    exact hinv.oneDesc d d' b hb b' hb'

/-- Getting pages. -/
theorem HeapInv.gotPages (hinv : HeapInv h) (hgot : GotPages h.mem m' a cnt) :
    HeapInv (h.setMem m') := by
  have hcur : (h.setMem m').mem.cur = h.mem.cur := hgot.cur
  refine ⟨hgot.inv, hgot.bits, fun d b hb => ?_, fun d => ?_, fun d d' b hb b' hb' => ?_⟩
  · rw [hcur] at hb
    obtain ⟨a, idx, rfl, hidx, ha, hwalk⟩ := hinv.blocks d b hb
    exact ⟨a, idx, rfl, hidx, ha, hgot.keeps a ha hwalk⟩
  · rw [hcur]
    exact hinv.nodup d
  · rw [hcur] at hb hb'
    exact hinv.oneDesc d d' b hb b' hb'

/-- Blocks of different pages lie apart. -/
theorem arena2block_apart_pages {a' d' idx idx' : ℕ} (hidx : idx < blocksPerArena d)
    (hidx' : idx' < blocksPerArena d') (hne : a ≠ a') :
    arena2block a d idx + blockSize d ≤ arena2block a' d' idx' ∨
      arena2block a' d' idx' + blockSize d' ≤ arena2block a d idx := by
  have hle := arena2block_le (a := a) hidx
  have hle' := arena2block_le (a := a') hidx'
  have hlo : 4096 * a ≤ arena2block a d idx := by
    unfold arena2block
    omega
  have hlo' : 4096 * a' ≤ arena2block a' d' idx' := by
    unfold arena2block
    omega
  omega

/-- Free blocks lie apart. -/
theorem HeapInv.apart (hinv : HeapInv h) {d' b' : ℕ} (hb : b ∈ h.freeList (some h.mem.cur) d)
    (hb' : b' ∈ h.freeList (some h.mem.cur) d') (hne : b' ≠ b) :
    b' + blockSize d' ≤ b ∨ b + blockSize d ≤ b' := by
  obtain ⟨a, idx, rfl, hidx, -, -⟩ := hinv.blocks d b hb
  obtain ⟨a', idx', rfl, hidx', -, -⟩ := hinv.blocks d' b' hb'
  by_cases ha : a = a'
  · have harena := (block2arena_arena2block (a := a) hidx).trans
      (ha.trans (block2arena_arena2block (a := a') hidx').symm)
    obtain rfl := hinv.oneDesc d d' _ hb _ hb' harena
    subst ha
    refine (arena2block_apart fun heq => hne ?_).symm
    rw [heq]
  · exact (arena2block_apart_pages hidx hidx' ha).symm

/-- Free blocks are not in pages that were not mapped. -/
theorem HeapInv.apart_free (hinv : HeapInv h) (hb : b ∈ h.freeList (some h.mem.cur) d)
    (hfree : ∀ v, a ≤ v → v < a + cnt → h.mem.walk h.mem.cr3 v = none) :
    b + blockSize d ≤ 4096 * a ∨ 4096 * (a + cnt) ≤ b := by
  obtain ⟨a', idx, rfl, hidx, -, hwalk⟩ := hinv.blocks d b hb
  have hle := arena2block_le (a := a') hidx
  have hlo : 4096 * a' ≤ arena2block a' d idx := by
    unfold arena2block
    omega
  by_cases hin : a ≤ a' ∧ a' < a + cnt
  · exact absurd (hfree a' hin.1 hin.2) hwalk
  · omega

/-- Taking the first block of a list. -/
theorem HeapInv.pop (hinv : HeapInv h) (hlist : h.freeList (some h.mem.cur) d = b :: rest) :
    HeapInv (h.setFreeList (some h.mem.cur) d rest) ∧
      ∀ d', ∀ b' ∈ (h.setFreeList (some h.mem.cur) d rest).freeList (some h.mem.cur) d',
        b' + blockSize d' ≤ b ∨ b + blockSize d ≤ b' := by
  have hmem : b ∈ h.freeList (some h.mem.cur) d := hlist ▸ List.mem_cons_self
  have hnodup := hinv.nodup d
  rw [hlist, List.nodup_cons] at hnodup
  have hsub (d' : ℕ) : ((h.setFreeList (some h.mem.cur) d rest).freeList (some h.mem.cur) d').Sublist
      (h.freeList (some h.mem.cur) d') := by
    by_cases hd : d' = d
    · subst hd
      rw [Heap.setFreeList_self, hlist]
      exact List.sublist_cons_self _ _
    · rw [Heap.setFreeList_of_ne _ hd]
  refine ⟨⟨hinv.mem, hinv.bits, fun d' b' hb' => hinv.blocks d' b' ((hsub d').subset hb'),
    fun d' => (hsub d').nodup (hinv.nodup d'), fun d₁ d₂ b₁ hb₁ b₂ hb₂ =>
      hinv.oneDesc d₁ d₂ b₁ ((hsub d₁).subset hb₁) b₂ ((hsub d₂).subset hb₂)⟩, fun d' b' hb' => ?_⟩
  refine hinv.apart hmem ((hsub d').subset hb') ?_
  rintro rfl
  by_cases hd : d' = d
  · subst hd
    rw [Heap.setFreeList_self] at hb'
    exact hnodup.1 hb'
  · exact hd (hinv.oneDesc d' d b' ((hsub d').subset hb') b' hmem rfl)

/-- The blocks of a new arena. -/
theorem HeapInv.newArena {owner : Option ℕ} (hinv : HeapInv h) (howner : owner = some h.mem.cur)
    (ha : a < kernelBase) (hwalk : h.mem.walk h.mem.cr3 a ≠ none)
    (hnew : ∀ d', ∀ b ∈ h.freeList (some h.mem.cur) d', block2arena b ≠ a) :
    HeapInv (h.setFreeList owner d ((List.range (blocksPerArena d)).map (arena2block a d))) := by
  subst howner
  have hblock {d' b : ℕ} (hb : b ∈ (h.setFreeList (some h.mem.cur) d
      ((List.range (blocksPerArena d)).map (arena2block a d))).freeList (some h.mem.cur) d') :
      (d' = d ∧ ∃ idx, b = arena2block a d idx ∧ idx < blocksPerArena d) ∨
        d' ≠ d ∧ b ∈ h.freeList (some h.mem.cur) d' := by
    by_cases hd : d' = d
    · subst hd
      rw [Heap.setFreeList_self] at hb
      obtain ⟨idx, hidx, rfl⟩ := List.mem_map.mp hb
      exact Or.inl ⟨rfl, idx, rfl, List.mem_range.mp hidx⟩
    · rw [Heap.setFreeList_of_ne _ hd] at hb
      exact Or.inr ⟨hd, hb⟩
  refine ⟨hinv.mem, hinv.bits, fun d' b hb => ?_, fun d' => ?_, fun d₁ d₂ b₁ hb₁ b₂ hb₂ heq => ?_⟩
  · rcases hblock hb with ⟨rfl, idx, rfl, hidx⟩ | ⟨-, hb⟩
    · exact ⟨a, idx, rfl, hidx, ha, hwalk⟩
    · exact hinv.blocks d' b hb
  · change (Heap.freeList _ (some h.mem.cur) d').Nodup
    by_cases hd : d' = d
    · subst hd
      rw [Heap.setFreeList_self]
      exact List.nodup_range.map fun _ _ => arena2block_inj
    · rw [Heap.setFreeList_of_ne _ hd]
      exact hinv.nodup d'
  · rcases hblock hb₁ with ⟨rfl, idx, rfl, hidx⟩ | ⟨-, hold₁⟩ <;>
      rcases hblock hb₂ with ⟨rfl, idx', rfl, hidx'⟩ | ⟨-, hold₂⟩
    · rfl
    · rw [block2arena_arena2block hidx] at heq
      exact absurd heq.symm (hnew d₂ b₂ hold₂)
    · rw [block2arena_arena2block hidx'] at heq
      exact absurd heq (hnew d₁ b₁ hold₁)
    · exact hinv.oneDesc d₁ d₂ b₁ hold₁ b₂ hold₂ heq

end Invariant

section Results

variable {h : Heap} {t : MemTask} {size : UInt32} {d : ℕ}

/-- A request for pages. -/
theorem mallocLarge_spec (hinv : HeapInv h) (hcur : h.mem.task h.mem.cur = some t)
    (hne : t.pgdir ≠ 0) (hsize : size < h.poolSize .pfUser) (hlarge : 1024 < size)
    (hfit : h.mem.PagesFit t (pagesFor size)) :
    Exec.Returns (mallocLarge .pfUser ((size + 12 + 4096 - 1) / 4096)) h
      fun r h' => ∀ p, r = some p → GoodBlock h h' size p := by
  obtain ⟨hpos, hbytes⟩ := pagesFor_spec hsize
  have hbytes := hbytes hlarge
  have hcnt : ((size + 12 + 4096 - 1) / 4096).toNat = pagesFor size := (if_pos hlarge).symm
  rw [mallocLarge, Exec.Returns, Exec.post_bind, post_onMem, hcnt]
  refine (mallocPage_fits hinv.mem hinv.bits hcur hne hpos hfit).mono ?_
  rintro (_ | a) m hr
  · simp
  have hgot := hr a rfl
  rw [Exec.post_bind, post_onMem]
  refine (clearPages_user hgot.inv.page hgot.writable).mono fun _ m₁ h₁ => ?_
  rw [Exec.post_bind, post_onMem]
  refine (storeArena_user h₁.sound (h₁.writable (hgot.writable a le_rfl (by omega)))).mono
    fun _ m₂ h₂ => ?_
  rintro p hp
  obtain rfl := Option.some.inj hp
  have hw := h₁.trans h₂
  have hhigh := hgot.high
  have hpage : (4096 * a + 12) / 4096 = a := by omega
  refine ⟨(hinv.gotPages hgot).wrote hgot.dir hw, fun b hlo hhi => ?_, Or.inr ?_, fun d b hb => ?_⟩
  · obtain ⟨-, hlt, hwalk⟩ := hw.writable (hgot.writable (b / 4096) (by omega) (by omega))
    exact ⟨hlt, hwalk⟩
  · rw [hpage]
    exact ⟨hgot.fresh.wrote hw hgot.dir hgot.high, hgot.free⟩
  · have hcur' : m₂.cur = h.mem.cur := hw.cur.trans hgot.cur
    change b ∈ h.freeList (some m₂.cur) d at hb
    rw [hcur'] at hb
    rcases hinv.apart_free hb hgot.free with hle | hle <;> omega

/-- A free block. -/
theorem popBlock_heapInv {owner : Option ℕ} {b : ℕ} {rest : List ℕ} (hinv : HeapInv h)
    (howner : owner = some h.mem.cur) (hdir : h.mem.IsProcDir h.mem.cr3)
    (hlist : h.freeList owner d = b :: rest) :
    Exec.Returns (popBlock owner d) h fun r h' => r = some b ∧ HeapInv h' ∧
      WroteUser h.mem h'.mem ∧ ∀ d', ∀ b' ∈ h'.freeList (some h'.mem.cur) d',
        b' + blockSize d' ≤ b ∨ b + blockSize d ≤ b' := by
  subst howner
  obtain ⟨a, idx, rfl, hidx, ha, hwalk⟩ := hinv.blocks d b (hlist ▸ List.mem_cons_self)
  refine (popBlock_spec hinv.mem.page hlist hidx ⟨hdir, ha, hwalk⟩).mono ?_
  rintro r h' ⟨rfl, m', hw, rfl⟩
  obtain ⟨hinv', hapart⟩ := hinv.pop hlist
  refine ⟨rfl, hinv'.wrote hdir hw, hw, fun d' b' hb' => hapart d' b' ?_⟩
  rw [Heap.setMem_mem, hw.cur] at hb'
  exact hb'

/-- The pages of a block that is in an arena. -/
theorem block_mapped {m : Memory} {a idx b n : ℕ} (hidx : idx < blocksPerArena d)
    (hn : n ≤ blockSize d) (hv : m.Writable a) (hlo : arena2block a d idx ≤ b)
    (hhi : b < arena2block a d idx + n) :
    b / 4096 < kernelBase ∧ m.walk m.cr3 (b / 4096) ≠ none := by
  have hle := arena2block_le (a := a) hidx
  have hge : 4096 * a ≤ arena2block a d idx := by
    unfold arena2block
    omega
  have hpage : b / 4096 = a := by omega
  rw [hpage]
  exact hv.2

/-- A request for a block. -/
theorem mallocSmall_spec (hinv : HeapInv h) (hcur : h.mem.task h.mem.cur = some t)
    (hne : t.pgdir ≠ 0) (hd : d < 7) (hsize : size.toNat ≤ blockSize d) (hone : pagesFor size = 1)
    (hfit : h.freeList (some h.mem.cur) d = [] → h.mem.PagesFit t 1) :
    Exec.Returns (mallocSmall .pfUser (some h.mem.cur) d) h
      fun r h' => ∀ p, r = some p → GoodBlock h h' size p := by
  have hdir := hinv.mem.isProcDir hcur hne
  rw [mallocSmall, Exec.Returns, Exec.post_bind, Exec.post_get, Exec.post_ite]
  refine ⟨fun hempty => ?_, fun hsome => ?_⟩
  · rw [Exec.post_bind, post_onMem]
    refine (mallocPage_fits hinv.mem hinv.bits hcur hne Nat.one_pos (hfit hempty)).mono ?_
    rintro (_ | a) m hr
    · simp
    have hgot := hr a rfl
    have hhigh := hgot.high
    rw [Exec.post_bind, post_onMem]
    refine (clearPages_user hgot.inv.page hgot.writable).mono fun _ m₁ h₁ => ?_
    rw [Exec.post_bind, post_onMem]
    refine (storeArena_user h₁.sound (h₁.writable (hgot.writable a le_rfl (by omega)))).mono
      fun _ m₂ h₂ => ?_
    have hw := h₁.trans h₂
    have hinv₂ : HeapInv (h.setMem m₂) := (hinv.gotPages hgot).wrote hgot.dir hw
    have hcur₂ : m₂.cur = h.mem.cur := hw.cur.trans hgot.cur
    have hv : m₂.Writable a := hw.writable (hgot.writable a le_rfl (by omega))
    have hinv₃ := hinv₂.newArena (d := d) (congrArg some hcur₂.symm) (by omega) hv.2.2
      fun d' b hb heq => ?_
    · have hempty₂ : (h.setMem m₂).freeList (some h.mem.cur) d = [] := hempty
      change Exec.Post _ (h.setMem m₂) _ _
      refine (appendBlocks_spec hempty₂).bind ?_
      rintro - - rfl
      obtain ⟨k, hk⟩ := Nat.exists_eq_succ_of_ne_zero (blocksPerArena_pos hd).ne'
      have hlist : ((h.setMem m₂).setFreeList (some h.mem.cur) d
          ((List.range (blocksPerArena d)).map (arena2block a d))).freeList (some h.mem.cur) d =
            arena2block a d 0 :: ((List.range k).map Nat.succ).map (arena2block a d) := by
        rw [Heap.setFreeList_self, hk, List.range_succ_eq_map, List.map_cons]
      refine (popBlock_heapInv hinv₃ (congrArg some hcur₂.symm) (hw.isProcDir hgot.dir) hlist).mono ?_
      rintro r h' ⟨rfl, hinv', hw', hapart⟩ p hp
      obtain rfl := Option.some.inj hp
      have hpage : arena2block a d 0 / 4096 = a := block2arena_arena2block (blocksPerArena_pos hd)
      refine ⟨hinv', fun b hlo hhi => block_mapped (blocksPerArena_pos hd) hsize (hw'.writable hv)
        hlo hhi, Or.inr ?_, fun d' b' hb' => ?_⟩
      · rw [hpage, hone]
        exact ⟨hgot.fresh.wrote (hw.trans hw') hgot.dir hgot.high, hgot.free⟩
      · exact (hapart d' b' hb').imp_right fun hle => (Nat.add_le_add_left hsize _).trans hle
    · change b ∈ h.freeList (some m₂.cur) d' at hb
      rw [hcur₂] at hb
      obtain ⟨a', idx, rfl, hidx, -, hwalk⟩ := hinv.blocks d' b hb
      rw [block2arena_arena2block hidx] at heq
      exact hwalk (hgot.free a' heq.ge (by omega))
  · obtain ⟨b, rest, hlist⟩ := List.exists_cons_of_ne_nil hsome
    obtain ⟨a, idx, rfl, hidx, ha, hwalk⟩ := hinv.blocks d b (hlist ▸ List.mem_cons_self)
    refine (popBlock_heapInv hinv rfl hdir hlist).mono ?_
    rintro r h' ⟨rfl, hinv', hw, hapart⟩ p hp
    obtain rfl := Option.some.inj hp
    refine ⟨hinv', fun b hlo hhi => block_mapped hidx hsize (hw.writable ⟨hdir, ha, hwalk⟩) hlo hhi,
      Or.inl ⟨d, hlist ▸ List.mem_cons_self, hsize⟩, fun d' b' hb' => ?_⟩
    exact (hapart d' b' hb').imp_right fun hle => (Nat.add_le_add_left hsize _).trans hle

/-- A block on pages without frames for their page tables is of no use. -/
theorem LacksFrames.not_goodBlock {h' : Heap} {m' : Memory} {a p : ℕ}
    (hl : LacksFrames h.mem m' a (pagesFor size)) (hinv : HeapInv h)
    (hcur : h.mem.task h.mem.cur = some t) (hne : t.pgdir ≠ 0) (hpos : 0 < pagesFor size)
    (hkeeps : KeepsMaps m' h'.mem) (hpage : p / 4096 = a) : ¬ GoodBlock h h' size p := by
  intro hgood
  rcases hgood.taken with ⟨d, hmem, -⟩ | ⟨hfresh, -⟩
  · obtain ⟨a', idx, rfl, hidx, -, hwalk⟩ := hinv.blocks d p hmem
    obtain rfl : a' = a := (block2arena_arena2block hidx).symm.trans hpage
    exact hwalk (hl.free a' le_rfl (by omega))
  · rw [hpage] at hfresh
    refine hl.lacks (hfresh.framesFor hinv.mem.page (fun pf => (hkeeps.start pf).trans (hl.start pf))
      (fun pf => (hkeeps.len pf).trans (hl.len pf)) fun _ => ⟨hinv.mem.isProcDir hcur hne, hl.high⟩)

theorem clearWords_keepsMaps {m : Memory} {addr cnt : ℕ} :
    Exec.Ensures (clearWords addr cnt) m fun _ m' => KeepsMaps m m' := by
  induction cnt with
  | zero => exact KeepsMaps.refl m
  | succ cnt ih => exact KeepsMaps.bind ih fun _ _ => store_keepsMaps

theorem storeArena_keepsMaps {m : Memory} {a : ℕ} {desc cnt large : UInt32} :
    Exec.Ensures (storeArena a desc cnt large) m fun _ m' => KeepsMaps m m' := by
  refine KeepsMaps.bind store_keepsMaps fun _ _ => ?_
  exact KeepsMaps.bind store_keepsMaps fun _ _ => store_keepsMaps

theorem popBlock_keepsMaps {owner : Option ℕ} {b : ℕ} {rest : List ℕ}
    (hlist : h.freeList owner d = b :: rest) :
    Exec.Ensures (popBlock owner d) h fun r h' => r = some b ∧ KeepsMaps h.mem h'.mem := by
  rw [popBlock, Exec.Ensures, Exec.post_bind, Exec.post_get, hlist]
  dsimp only
  rw [Exec.post_bind, Exec.post_set, Exec.post_bind, post_onMem]
  refine clearWords_keepsMaps.mono fun _ m₁ h₁ => ?_
  rw [Exec.post_bind, post_onMem]
  refine load_keepsMaps.mono fun _ m₂ h₂ => ?_
  rw [Exec.post_bind, post_onMem]
  refine store_keepsMaps.mono fun _ m₃ h₃ => ?_
  exact ⟨rfl, (h₁.trans h₂).trans h₃⟩

/-- Without the pages a request for pages fails. -/
theorem mallocLarge_not_sound (hinv : HeapInv h) (hcur : h.mem.task h.mem.cur = some t)
    (hne : t.pgdir ≠ 0) (hsize : size < h.poolSize .pfUser) (hlarge : 1024 < size)
    (hnot : ¬ h.mem.PagesFit t (pagesFor size)) :
    ¬ Exec.Returns (mallocLarge .pfUser ((size + 12 + 4096 - 1) / 4096)) h
      fun r h' => ∀ p, r = some p → GoodBlock h h' size p := by
  intro hret
  have hpos := (pagesFor_spec hsize).1
  have hcnt : ((size + 12 + 4096 - 1) / 4096).toNat = pagesFor size := (if_pos hlarge).symm
  rw [mallocLarge, Exec.Returns, Exec.post_bind, post_onMem, hcnt] at hret
  obtain ⟨a, m', htail, hl⟩ := mallocPage_not_fits hinv.mem hinv.bits hcur hne hpos hnot hret
  obtain ⟨r, h', hok, hr⟩ := Exec.returns_iff.mp htail
  have hkeeps : Exec.Ensures (do
      onMem (clearPages a (pagesFor size))
      onMem (storeArena a 0 ((size + 12 + 4096 - 1) / 4096) 1)
      pure (some (4096 * a + 12))) (h.setMem m')
      fun r h' => r = some (4096 * a + 12) ∧ KeepsMaps m' h'.mem := by
    rw [Exec.Ensures, Exec.post_bind, post_onMem]
    refine clearPages_keepsMaps.mono fun _ m₁ h₁ => ?_
    rw [Exec.post_bind, post_onMem]
    refine storeArena_keepsMaps.mono fun _ m₂ h₂ => ?_
    exact ⟨rfl, h₁.trans h₂⟩
  obtain ⟨rfl, hkeeps⟩ := hkeeps.of_ok hok
  exact hl.not_goodBlock hinv hcur hne hpos hkeeps (by omega) (hr _ rfl)

/-- Without the page a request for a block fails. -/
theorem mallocSmall_not_sound (hinv : HeapInv h) (hcur : h.mem.task h.mem.cur = some t)
    (hne : t.pgdir ≠ 0) (hd : d < 7) (hone : pagesFor size = 1)
    (hempty : h.freeList (some h.mem.cur) d = []) (hnot : ¬ h.mem.PagesFit t 1) :
    ¬ Exec.Returns (mallocSmall .pfUser (some h.mem.cur) d) h
      fun r h' => ∀ p, r = some p → GoodBlock h h' size p := by
  intro hret
  rw [mallocSmall, Exec.Returns, Exec.post_bind, Exec.post_get, if_pos hempty, Exec.post_bind,
    post_onMem] at hret
  obtain ⟨a, m', htail, hl⟩ := mallocPage_not_fits hinv.mem hinv.bits hcur hne Nat.one_pos hnot hret
  obtain ⟨r, h', hok, hr⟩ := Exec.returns_iff.mp htail
  obtain ⟨k, hk⟩ := Nat.exists_eq_succ_of_ne_zero (blocksPerArena_pos hd).ne'
  have hkeeps : Exec.Ensures (do
      onMem (clearPages a 1)
      onMem (storeArena a (h.descAddr (some h.mem.cur) d) (UInt32.ofNat (blocksPerArena d)) 0)
      appendBlocks (some h.mem.cur) d a (blocksPerArena d)
      popBlock (some h.mem.cur) d) (h.setMem m')
      fun r h' => r = some (arena2block a d 0) ∧ KeepsMaps m' h'.mem := by
    rw [Exec.Ensures, Exec.post_bind, post_onMem]
    refine clearPages_keepsMaps.mono fun _ m₁ h₁ => ?_
    rw [Exec.post_bind, post_onMem]
    refine storeArena_keepsMaps.mono fun _ m₂ h₂ => ?_
    have hempty₂ : (h.setMem m₂).freeList (some h.mem.cur) d = [] := hempty
    change Exec.Post _ (h.setMem m₂) _ _
    refine (appendBlocks_spec hempty₂).bind ?_
    rintro - - rfl
    have hlist : ((h.setMem m₂).setFreeList (some h.mem.cur) d
        ((List.range (blocksPerArena d)).map (arena2block a d))).freeList (some h.mem.cur) d =
          arena2block a d 0 :: ((List.range k).map Nat.succ).map (arena2block a d) := by
      rw [Heap.setFreeList_self, hk, List.range_succ_eq_map, List.map_cons]
    refine (popBlock_keepsMaps hlist).mono ?_
    rintro r h' ⟨rfl, h₃⟩
    exact ⟨rfl, (h₁.trans h₂).trans h₃⟩
  obtain ⟨rfl, hkeeps⟩ := hkeeps.of_ok hok
  rw [← hone] at hl
  exact hl.not_goodBlock hinv hcur hne (by omega) hkeeps
    (block2arena_arena2block (blocksPerArena_pos hd)) (hr _ rfl)

end Results

/-- `sys_malloc` of a process returns `NULL` or a block exactly if it turns the request down, or has a
free block, or the pages are there. -/
theorem mallocSound_iff {h : Heap} {t : MemTask} (hinv : HeapInv h)
    (hcur : h.mem.task h.mem.cur = some t) (hne : t.pgdir ≠ 0) (size : UInt32) :
    MallocSound h size ↔ h.Serves t size := by
  rw [MallocSound, Exec.Returns, Heap.post_sysMalloc hcur hne]
  unfold Heap.Serves
  by_cases hin : 0 < size ∧ size < h.poolSize .pfUser
  · have hzero : size ≠ 0 := UInt32.pos_iff_ne_zero.mp hin.1
    have hpool : ¬ h.poolSize .pfUser ≤ size := UInt32.not_le.mpr hin.2
    simp only [hin, hzero, hpool, not_true_eq_false, and_self, false_implies, true_implies, true_and,
      false_or]
    by_cases hlarge : 1024 < size
    · simp only [hlarge, UInt32.not_le.mpr hlarge, true_implies, not_true_eq_false, false_implies,
        and_true, false_and, false_or]
      constructor
      · intro hret
        by_contra hnot
        exact mallocLarge_not_sound hinv hcur hne hin.2 hlarge hnot hret
      · exact mallocLarge_spec hinv hcur hne hin.2 hlarge
    · have hle := UInt32.not_lt.mp hlarge
      obtain ⟨hd, hfits⟩ := findDesc_fits (UInt32.le_iff_toNat_le.mp hle)
      have hone : pagesFor size = 1 := if_neg hlarge
      simp only [hlarge, hle, hone, not_false_eq_true, true_implies, false_implies, true_and]
      constructor
      · intro hret
        by_contra hnot
        rw [not_or, not_not] at hnot
        exact mallocSmall_not_sound hinv hcur hne hd hone hnot.1 hnot.2 hret
      · rintro (hsome | hfit)
        · exact mallocSmall_spec hinv hcur hne hd hfits hone fun hempty => absurd hempty hsome
        · exact mallocSmall_spec hinv hcur hne hd hfits hone fun _ => hfit
  · have hdown : size = 0 ∨ h.poolSize .pfUser ≤ size := by
      by_contra hnot
      rw [not_or] at hnot
      exact hin ⟨UInt32.pos_iff_ne_zero.mpr hnot.1, UInt32.not_le.mp hnot.2⟩
    refine iff_of_true ⟨fun _ => by simp, fun hboth => absurd hboth hin⟩ ?_
    exact hdown.imp_right Or.inl

/-- The heap of a process that has no pages yet. -/
theorem heapInv_new {m : Memory} {allMem : UInt32} {descAddr : Option ℕ → ℕ → UInt32} (h : MemInv m)
    (habsent : ∀ i < 768, entryPresent (m.phys m.cr3 i) = false) :
    HeapInv ⟨m, allMem, descAddr, fun _ _ => []⟩ := by
  refine ⟨h, fun t _ _ v _ hv hmapped => ?_, fun _ _ => nofun, fun _ => List.nodup_nil,
    fun _ _ _ => nofun⟩
  obtain ⟨g, hg⟩ := Option.ne_none_iff_exists'.mp hmapped
  have hp := (Memory.walk_eq_some.mp hg).1
  unfold kernelBase at hv
  rw [habsent (v / 1024) (by omega)] at hp
  cases hp

/-- A process that was just started. -/
theorem exists_newProcess (allMem : ℕ) (hany : (Exec.runList PageCall.exec
    (fun m c => c.Asks m ∧ c.TablesFit m) [.processExecute, .switchTo 0xc0100]
      (Memory.boot allMem)).any (fun m => (m.task m.cur).any (fun t => t.pgdir ≠ 0 &&
        !t.userprogVaddr.vaddrBitmap.scanTest 0) && (m.nextFrame .pfKernel).isSome &&
          (List.range 768).all fun i => !entryPresent (m.phys m.cr3 i)) = true) :
    ∃ m t, Exec.Run PageCall.exec (fun m c => c.Admitted m ∧ c.TablesFit m) (Memory.boot allMem) m ∧
      m.task m.cur = some t ∧ t.pgdir ≠ 0 ∧ t.userprogVaddr.vaddrBitmap.scanTest 0 = false ∧
        MemInv m ∧ m.nextFrame .pfKernel ≠ none ∧
          ∀ i < 768, entryPresent (m.phys m.cr3 i) = false := by
  obtain ⟨m, hrun, hm⟩ := Exec.Run.exists_of_any hany
  have hrun : Exec.Run PageCall.exec (fun m c => c.Admitted m ∧ c.TablesFit m) (Memory.boot allMem) m :=
    hrun.mono fun _ _ hok => ⟨hok.1.2, hok.2⟩
  simp only [Bool.and_eq_true, Option.any_eq_true, decide_eq_true_eq, List.all_eq_true,
    List.mem_range, Bool.not_eq_true', Option.isSome_iff_ne_none] at hm
  obtain ⟨t, ht, hne, hclear⟩ := hm.1.1
  exact ⟨m, t, hrun, ht, hne, hclear,
    hrun.invariant memInv_boot fun _ _ h hok => PageCall.exec_memInv h hok.1 hok.2, hm.1.2, hm.2⟩

/-- A new process on a machine with three megabytes gets a block of 24 bytes. -/
theorem mallocSound_iff_new : ∃ h : Heap, h.mem.RunsProcess ∧ MallocSound h 24 := by
  obtain ⟨m, t, -, ht, hne, hclear, hinv, hnext, habsent⟩ :=
    exists_newProcess 0x300000 (by decide +kernel)
  refine ⟨⟨m, 0x300000, fun _ _ => 0, fun _ _ => []⟩, ?_, ?_⟩
  · unfold Memory.RunsProcess
    rw [ht]
    simpa using hne
  · refine (mallocSound_iff (heapInv_new hinv habsent) ht hne 24).mpr (Or.inr (Or.inr (Or.inr ?_)))
    refine ⟨by decide, fun i hi => ⟨?_, Or.inr ?_⟩⟩
    · obtain ⟨-, -, hset⟩ := Bitmap.scan_one_eq_some_iff.mp hi
      obtain rfl : i = 0 := by
        by_contra hne
        rw [hset 0 (Nat.pos_of_ne_zero hne)] at hclear
        cases hclear
      rw [(hinv.bitmap m.cur t ht hne).1]
      decide
    · have hone : m.missingTables (t.userprogVaddr.vaddrStart + i) 1 ≤ 1 := by
        unfold Memory.missingTables
        refine (Finset.card_filter_le _ _).trans (Finset.card_image_le.trans ?_)
        rw [Nat.card_Ico, Nat.add_sub_cancel_left]
      exact hone.trans (Nat.pos_of_ne_zero fun hzero => hnext (Memory.nextFrame_eq_none.mpr hzero))

/-- On a machine with 64 megabytes a new process that asks for 15 of them stops the kernel. -/
theorem not_mallocSound : ∃ m, Exec.Run PageCall.exec (fun m c => c.Admitted m ∧ c.TablesFit m)
    (Memory.boot 0x4000000) m ∧ m.RunsProcess ∧
      ¬ MallocSound ⟨m, 0x4000000, fun _ _ => 0, fun _ _ => []⟩ 0xf00000 := by
  obtain ⟨m, t, hrun, ht, hne, -, hinv, -, habsent⟩ :=
    exists_newProcess 0x4000000 (by decide +kernel)
  refine ⟨m, hrun, ?_, fun hsound => ?_⟩
  · unfold Memory.RunsProcess
    rw [ht]
    simpa using hne
  · have hin : (0 : UInt32) < 0xf00000 ∧ 0xf00000 < (memPoolInit 0x4000000).userPool.poolSize := by
      decide
    have hlarge := ((Heap.post_sysMalloc ht hne).mp hsound).2 hin
    exact mallocLarge_not_sound (heapInv_new hinv habsent) ht hne hin.2 (by decide)
      (fun hfit => absurd hfit.1 (by decide)) (hlarge.1 (by decide))

end Winx
