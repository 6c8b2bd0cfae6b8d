import Winx.Memory.PageFailures
import Winx.Userprog.SegmentPages

/-! # Visits of pages

A turn of the loop of `segment_load` maps a page that is not there. When the kernel pool has no
frame for a page table, `page_table_add` takes the frame 0, and clears it again for the next one.
What that leaves of the page tables is all the loop needs, so it is followed over that point.
-/

namespace Winx

namespace Segment

/-- `(*pde & 0x00000001) && (*pte & 0x00000001)` -/
def pagePresent (page : ℕ) : MemM Bool := do
  let pde ← load (pdePtr page)
  if entryPresent pde then do
    let pte ← load (ptePtr page)
    return entryPresent pte
  else return false

/-- The body of the loop of `segment_load`, `false` if it returns. -/
def visitPage (vaddrPage : UInt32) : MemM Bool := do
  if ← pagePresent (vaddrPage.toNat / 4096) then return true
  else do
    let page ← getAPage .pfUser (vaddrPage.toNat / 4096)
    return page.isSome

/-- The loop of `segment_load`. -/
def segmentLoop : ℕ → UInt32 → MemM Bool
  | 0, _ => return true
  | n + 1, vaddrPage => do
    if ← visitPage vaddrPage then segmentLoop n (vaddrPage + 4096) else return false

/-- `segment_load` up to where it reads the file. -/
def segmentLoad (filesz vaddr : UInt32) : MemM Bool :=
  segmentLoop (occupyPages filesz vaddr).toNat (vaddrFirstPage vaddr)

end Segment

/-- The active directory has a page table. -/
def Memory.HasTable (m : Memory) (i : ℕ) : Prop := entryPresent (m.phys m.cr3 i) = true

instance (m : Memory) (i : ℕ) : Decidable (m.HasTable i) :=
  inferInstanceAs (Decidable (entryPresent (m.phys m.cr3 i) = true))

/-- The frame of a page table. -/
def Memory.table (m : Memory) (i : ℕ) : ℕ := entryFrame (m.phys m.cr3 i)

/-- A frame that `palloc` may return for a page table. -/
def Memory.Unused (m : Memory) (frame : ℕ) : Prop :=
  m.kernelPool.phyAddrStart ≤ frame ∧
    frame - m.kernelPool.phyAddrStart < 8 * m.kernelPool.poolBitmap.btmpBytesLen ∧
    m.kernelPool.poolBitmap.scanTest (frame - m.kernelPool.phyAddrStart) = false

namespace Segment

/-- A process that loads a segment: no two page tables are in one frame, but for frame 0, and none is in
a frame that is not in use. -/
structure Loading (m : Memory) : Prop where
  task : ∃ t, m.task m.cur = some t ∧ t.pgdir ≠ 0 ∧ t.userprogVaddr.vaddrStart = userVaddrStart ∧
    t.userprogVaddr.vaddrBitmap.btmpBytesLen = userBitmapLen
  self : SelfMapped m
  dir_ne : m.cr3 ≠ 0
  apart : ∀ i j, i < 1024 → j < 1024 → m.HasTable i → m.HasTable j → m.table i = m.table j → i = j ∨ m.table i = 0
  used : ∀ i, i < 1024 → m.HasTable i → ¬ m.Unused (m.table i)
  start : 0 < m.kernelPool.phyAddrStart
  memory : m.kernelPool.phyAddrStart + 8 * m.kernelPool.poolBitmap.btmpBytesLen ≤ 2 ^ 20

/-- What a visit of a page does to the page tables. -/
structure Visited (m m' : Memory) (q : ℕ) : Prop where
  loading : Loading m'
  cr3 : m'.cr3 = m.cr3
  old : ∀ i, m.HasTable i → m'.phys m.cr3 i = m.phys m.cr3 i
  new : ∀ i, m'.HasTable i → m.HasTable i ∨ i = q / 1024
  here : m'.walk m'.cr3 q ≠ none
  keeps : ∀ v g, v < 2 ^ 20 → m.walk m.cr3 v = some g →
    m.HasTable (q / 1024) ∨ m.freeFrames .pfKernel ≠ 0 ∨ m.table (v / 1024) ≠ 0 → m'.walk m'.cr3 v = some g
  zero : m.HasTable (q / 1024) ∨ m.freeFrames .pfKernel ≠ 0 → ∀ x, entryPresent (m'.phys 0 x) = true ↔
    entryPresent (m.phys 0 x) = true ∨ x = q % 1024 ∧ m.HasTable (q / 1024) ∧ m.table (q / 1024) = 0
  cleared : ¬ m.HasTable (q / 1024) → m.freeFrames .pfKernel = 0 →
    ∀ x, entryPresent (m'.phys 0 x) = true ↔ x = q % 1024
  fresh : ¬ m.HasTable (q / 1024) → (m'.table (q / 1024) = 0 ↔ m.freeFrames .pfKernel = 0)
  tables : m'.freeFrames .pfKernel = m.freeFrames .pfKernel - if m.HasTable (q / 1024) then 0 else 1
  frames : m'.freeFrames .pfUser + (if m.walk m.cr3 q = none then 1 else 0) = m.freeFrames .pfUser
  inMap : m.walk m.cr3 q = none → userVaddrStart ≤ q ∧ q < kernelBase
  absent : ∀ v, v < kernelBase → v ≠ q → (m.HasTable (v / 1024) → v / 1024 = q / 1024 ∨ m.table (v / 1024) ≠ 0) →
    m.walk m.cr3 v = none → m'.walk m'.cr3 v = none

variable {m m' : Memory} {q v i j frame r : ℕ} {w : UInt32} {t : MemTask}

theorem walk_ne_none : m.walk m.cr3 v ≠ none ↔
    m.HasTable (v / 1024) ∧ entryPresent (m.phys (m.table (v / 1024)) (v % 1024)) = true := by
  rw [ne_eq, Option.eq_none_iff_forall_ne_some, not_forall]
  simp only [not_not, Memory.walk_eq_some]
  constructor
  · rintro ⟨g, htable, hpage, -⟩
    exact ⟨htable, hpage⟩
  · rintro ⟨htable, hpage⟩
    exact ⟨_, htable, hpage, rfl⟩

theorem Loading.hasTable_dir (h : Loading m) : m.HasTable 1023 ∧ m.table 1023 = m.cr3 := by
  constructor
  · rw [Memory.HasTable, h.self.self]
    exact entryPresent_entry m.cr3
  · rw [Memory.table, h.self.self]
    exact entryFrame_entry h.self.lt

/-- The directory is no page table of other pages. -/
theorem Loading.table_ne_dir (h : Loading m) (hi : i < 1023) (htable : m.HasTable i) : m.table i ≠ m.cr3 := by
  intro heq
  obtain ⟨hdir, hself⟩ := h.hasTable_dir
  rcases h.apart i 1023 (by omega) (by decide) htable hdir (heq.trans hself.symm) with rfl | hzero
  · exact absurd hi (Nat.lt_irrefl _)
  · exact h.dir_ne (heq ▸ hzero)

/-- The page tables of a process and of the kernel are apart from each other. -/
theorem table_cases (h : MemInv m) (hdir : m.IsProcDir m.cr3) (hi : i < 1024) (htable : m.HasTable i) :
    (i < 768 ∧ m.Holds (.table m.cr3 i) (m.table i)) ∨
      (768 ≤ i ∧ i < 1023 ∧ m.table i = 0x101 + (i - 768)) ∨ i = 1023 ∧ m.table i = m.cr3 := by
  rcases Nat.lt_or_ge i 768 with hlt | hge
  · exact .inl ⟨hlt, hdir, hlt, htable, rfl⟩
  · rcases Nat.lt_or_ge i 1023 with hlt | hlast
    · refine .inr (.inl ⟨hge, hlt, ?_⟩)
      rw [Memory.table, h.page.kernelHalf _ hdir i hge hlt, h.page.layout.bootTable i hge hlt]
      exact entryFrame_entry (by omega)
    · obtain rfl : i = 1023 := by omega
      refine .inr (.inr ⟨rfl, ?_⟩)
      rw [Memory.table, h.page.selfMapped.self]
      exact entryFrame_entry h.page.selfMapped.lt

theorem Loading.of_memInv (h : MemInv m) (ht : m.task m.cur = some t) (hne : t.pgdir ≠ 0) : Loading m := by
  have hdir := h.isProcDir ht hne
  have hstart := h.page.layout.kernelPool
  have hlow := h.page.procDir_bounds hdir
  have hpool := h.page.layout.userPool
  have hmem := h.page.layout.memory
  obtain ⟨_, _, -, -, hdirPage⟩ := h.page.procDir hdir
  have hused : ∀ g, m.Allocated .pfKernel g → ¬ m.Unused g := by
    rintro g ⟨-, -, hset⟩ ⟨-, -, hclear⟩
    exact Bool.false_ne_true (hclear.symm.trans hset)
  refine ⟨⟨t, ht, hne, h.bitmap _ t ht hne⟩, h.page.selfMapped, by omega, fun i j hi hj hti htj heq => ?_,
    fun i hi hti => ?_, by omega, by omega⟩
  · left
    rcases table_cases h hdir hi hti with ⟨hi', hui⟩ | ⟨hi', hi'', hei⟩ | ⟨rfl, hei⟩ <;>
      rcases table_cases h hdir hj htj with ⟨hj', huj⟩ | ⟨hj', hj'', hej⟩ | ⟨rfl, hej⟩
    · rw [heq] at hui
      exact (FrameUse.table.inj (h.page.unique _ _ _ hui huj)).2
    · have := (h.page.holds_bounds hui).1
      omega
    · exact absurd hdir (hej ▸ heq ▸ (h.page.table_ne_dir hui).2)
    · have := (h.page.holds_bounds huj).1
      omega
    · omega
    · omega
    · exact absurd hdir (hei ▸ heq ▸ (h.page.table_ne_dir huj).2)
    · omega
    · rfl
  · rcases table_cases h hdir hi hti with ⟨-, hu⟩ | ⟨hlo, hhi, heq⟩ | ⟨-, heq⟩
    · exact hused _ (h.page.alloc _ _ hu)
    · rintro ⟨hle, -⟩
      omega
    · rw [heq]
      exact hused _ (h.page.alloc _ _ hdirPage)

/-! ## One visit -/

/-- A visit of a page that is there changes nothing. -/
theorem Visited.refl (h : Loading m) (hpage : m.walk m.cr3 q ≠ none) : Visited m m q := by
  obtain ⟨htable, hpresent⟩ := walk_ne_none.mp hpage
  refine ⟨h, rfl, fun _ _ => rfl, fun _ => Or.inl, hpage, fun _ _ _ hv _ => hv, fun _ x => ⟨Or.inl, ?_⟩,
    fun hnot => absurd htable hnot, fun hnot => absurd htable hnot, ?_, ?_, fun hnone => absurd hnone hpage,
    fun _ _ _ _ hv => hv⟩
  · rintro (hx | ⟨rfl, -, hzero⟩)
    · exact hx
    · exact hzero ▸ hpresent
  · rw [if_pos htable]
    rfl
  · rw [if_neg hpage, Nat.add_zero]

/-- A page is added to a page table that is there. -/
theorem Loading.visited_table (h : Loading m) (hlo : userVaddrStart ≤ q) (hq : q < kernelBase) (htable : m.HasTable (q / 1024))
    (habsent : m.walk m.cr3 q = none) (hcr3 : m'.cr3 = m.cr3)
    (hphys : ∀ f x, m'.phys f x = if f = m.table (q / 1024) ∧ x = q % 1024 then w else m.phys f x)
    (hw : entryPresent w = true) (hpool : m'.kernelPool = m.kernelPool)
    (htask : ∃ t, m'.task m'.cur = some t ∧ t.pgdir ≠ 0 ∧ t.userprogVaddr.vaddrStart = userVaddrStart ∧
      t.userprogVaddr.vaddrBitmap.btmpBytesLen = userBitmapLen)
    (hframes : m'.freeFrames .pfUser + 1 = m.freeFrames .pfUser) : Visited m m' q := by
  have hi : q / 1024 < 768 := by
    unfold kernelBase at hq
    omega
  have hdir : ∀ x, m'.phys m.cr3 x = m.phys m.cr3 x := fun x => by
    rw [hphys, if_neg fun heq => h.table_ne_dir (by omega) htable heq.1.symm]
  have hhas : ∀ i, m'.HasTable i ↔ m.HasTable i := fun i => by
    rw [Memory.HasTable, hcr3, hdir, Memory.HasTable]
  have htab : ∀ i, m'.table i = m.table i := fun i => by
    rw [Memory.table, hcr3, hdir, Memory.table]
  have hunused : ∀ g, m'.Unused g ↔ m.Unused g := fun g => by
    rw [Memory.Unused, hpool, Memory.Unused]
  have hword : entryPresent (m.phys (m.table (q / 1024)) (q % 1024)) = false := by
    by_contra hne
    exact walk_ne_none.mpr ⟨htable, Bool.eq_true_of_not_eq_false hne⟩ habsent
  -- the word written was not present, so nothing that was mapped goes through it
  have hpresent : ∀ f x, entryPresent (m'.phys f x) = true ↔
      entryPresent (m.phys f x) = true ∨ f = m.table (q / 1024) ∧ x = q % 1024 := fun f x => by
    rw [hphys]
    split
    · rename_i heq
      exact iff_of_true hw (.inr heq)
    · rename_i heq
      exact ⟨.inl, fun hor => hor.resolve_right heq⟩
  refine ⟨⟨htask, ⟨?_, ?_⟩, hcr3 ▸ h.dir_ne, ?_, ?_, hpool ▸ h.start, hpool ▸ h.memory⟩, hcr3,
    fun i _ => hdir i, fun i hi => .inl ((hhas i).mp hi), ?_, ?_, ?_, fun hnot => absurd htable hnot,
    fun hnot => absurd htable hnot, ?_, ?_, fun _ => ⟨hlo, hq⟩, fun v hv hvq hcond hnone => ?_⟩
  · rw [hcr3, hdir]
    exact h.self.self
  · rw [hcr3]
    exact h.self.lt
  · intro i j hi hj hti htj heq
    rw [htab, htab] at heq
    rw [htab]
    exact h.apart i j hi hj ((hhas i).mp hti) ((hhas j).mp htj) heq
  · intro i hi hti
    rw [htab, hunused]
    exact h.used i hi ((hhas i).mp hti)
  · rw [walk_ne_none, hhas, htab, hpresent]
    exact ⟨htable, .inr ⟨rfl, rfl⟩⟩
  · intro v g _ hv _
    obtain ⟨hpde, hpte, hg⟩ := Memory.walk_eq_some.mp hv
    have hne : ¬ (m.table (v / 1024) = m.table (q / 1024) ∧ v % 1024 = q % 1024) := by
      rintro ⟨hf, hx⟩
      rw [← hf, ← hx] at hword
      exact Bool.false_ne_true (hword.symm.trans hpte)
    rw [Memory.walk_eq_some, hcr3, hdir]
    have hsame : m'.phys (entryFrame (m.phys m.cr3 (v / 1024))) (v % 1024) =
        m.phys (entryFrame (m.phys m.cr3 (v / 1024))) (v % 1024) := by
      rw [hphys]
      exact if_neg hne
    rw [hsame]
    exact ⟨hpde, hpte, hg⟩
  · intro _ x
    rw [hpresent]
    apply or_congr_right
    constructor
    · rintro ⟨hzero, rfl⟩
      exact ⟨rfl, htable, hzero.symm⟩
    · rintro ⟨rfl, -, hzero⟩
      exact ⟨hzero.symm, rfl⟩
  · rw [if_pos htable]
    unfold Memory.freeFrames Memory.pool
    rw [hpool]
    rfl
  · rw [if_pos habsent]
    exact hframes
  · have hvi : v / 1024 < 768 := by
      unfold kernelBase at hv
      omega
    by_contra hpage
    obtain ⟨hti, hpte⟩ := walk_ne_none.mp hpage
    rw [hhas] at hti
    rw [htab, hpresent] at hpte
    rcases hpte with hpte | ⟨heq, hx⟩
    · exact walk_ne_none.mpr ⟨hti, hpte⟩ hnone
    · have hidx : v / 1024 = q / 1024 := by
        rcases h.apart _ _ (by omega) (by omega) hti htable heq with hidx | hzero
        · exact hidx
        · exact (hcond hti).resolve_right (not_not.mpr hzero)
      exact hvq (by omega)

/-- `palloc` takes the first clear bit, if there is one. -/
theorem takeFrame_cases (m : Memory) (pf : PoolFlags) :
    (m.pool pf).poolBitmap.scan 1 = none ∧ m.takeFrame pf = m ∨
      ∃ bitIdx, (m.pool pf).poolBitmap.scan 1 = some bitIdx ∧
        m.takeFrame pf = m.setPoolBitmap pf ((m.pool pf).poolBitmap.set bitIdx true) := by
  unfold Memory.takeFrame
  cases (m.pool pf).poolBitmap.scan 1 with
  | none => exact .inl ⟨rfl, rfl⟩
  | some bitIdx => exact .inr ⟨bitIdx, rfl, rfl⟩

/-- What `palloc` leaves unused of the kernel pool. -/
theorem unused_takeFrame (g : ℕ) : (m.takeFrame .pfKernel).Unused g ↔
    m.Unused g ∧ m.nextFrame .pfKernel ≠ some g := by
  unfold Memory.nextFrame
  rcases takeFrame_cases m .pfKernel with ⟨hscan, htake⟩ | ⟨bitIdx, hscan, htake⟩
  · rw [hscan, htake]
    exact ⟨fun hu => ⟨hu, nofun⟩, fun hu => hu.1⟩
  · rw [hscan, htake, Option.map_some, ne_eq, Option.some_inj]
    change (m.kernelPool.phyAddrStart ≤ g ∧ g - m.kernelPool.phyAddrStart <
      8 * (m.kernelPool.poolBitmap.set bitIdx true).btmpBytesLen ∧
      (m.kernelPool.poolBitmap.set bitIdx true).scanTest (g - m.kernelPool.phyAddrStart) = false) ↔
      m.Unused g ∧ ¬ m.kernelPool.phyAddrStart + bitIdx = g
    rw [Bitmap.set_btmpBytesLen, Bitmap.scanTest_set, Memory.Unused]
    constructor
    · rintro ⟨hlo, hhi, hclear⟩
      split at hclear
      · cases hclear
      · exact ⟨⟨hlo, hhi, hclear⟩, fun heq => by omega⟩
    · rintro ⟨⟨hlo, hhi, hclear⟩, hne⟩
      refine ⟨hlo, hhi, ?_⟩
      rw [if_neg fun heq => hne (by omega)]
      exact hclear

theorem unused_nextFrame (hr : m.nextFrame .pfKernel = some r) : m.Unused r := by
  obtain ⟨bitIdx, hscan, rfl⟩ := Option.map_eq_some_iff.mp hr
  obtain ⟨hlt, hclear, -⟩ := Bitmap.scan_one_eq_some_iff.mp hscan
  refine ⟨Nat.le_add_right _ _, ?_, ?_⟩
  · change m.kernelPool.phyAddrStart + bitIdx - m.kernelPool.phyAddrStart < _
    rw [Nat.add_sub_cancel_left]
    exact hlt
  · change m.kernelPool.poolBitmap.scanTest (m.kernelPool.phyAddrStart + bitIdx - m.kernelPool.phyAddrStart) = false
    rw [Nat.add_sub_cancel_left]
    exact hclear

/-- The frame for a page table is one that was not used, or the frame 0. -/
theorem Loading.frame_cases (h : Loading m) (hr : (m.nextFrame .pfKernel).getD 0 = r) :
    m.freeFrames .pfKernel ≠ 0 ∧ r ≠ 0 ∧ r < 2 ^ 20 ∧ m.Unused r ∨ m.freeFrames .pfKernel = 0 ∧ r = 0 := by
  cases hnext : m.nextFrame .pfKernel with
  | none =>
    rw [hnext] at hr
    exact .inr ⟨Memory.nextFrame_eq_none.mp hnext, hr.symm⟩
  | some g =>
    rw [hnext] at hr
    obtain rfl : g = r := hr
    have hunused := unused_nextFrame hnext
    obtain ⟨hlo, hhi, -⟩ := hunused
    have hstart := h.start
    have hend := h.memory
    refine .inl ⟨fun hzero => ?_, by omega, by omega, unused_nextFrame hnext⟩
    rw [Memory.nextFrame_eq_none.mpr hzero] at hnext
    cases hnext

theorem Loading.frame_ne_dir (h : Loading m) (hr : (m.nextFrame .pfKernel).getD 0 = r) : r ≠ m.cr3 := by
  obtain ⟨hdir, hself⟩ := h.hasTable_dir
  rintro rfl
  rcases h.frame_cases hr with ⟨-, -, -, hunused⟩ | ⟨-, hzero⟩
  · exact h.used 1023 (by decide) hdir (hself.symm ▸ hunused)
  · exact h.dir_ne hzero

/-- A page is added with a page table of its own. -/
theorem Loading.visited_new (h : Loading m) (hlo : userVaddrStart ≤ q) (hq : q < kernelBase) (hnot : ¬ m.HasTable (q / 1024))
    (hr : (m.nextFrame .pfKernel).getD 0 = r) (hcr3 : m'.cr3 = m.cr3)
    (hphys : ∀ f x, m'.phys f x = if f = r then (if x = q % 1024 then w else 0)
      else if f = m.cr3 ∧ x = q / 1024 then entry r else m.phys f x)
    (hw : entryPresent w = true) (hpool : m'.kernelPool = (m.takeFrame .pfKernel).kernelPool)
    (htask : ∃ t, m'.task m'.cur = some t ∧ t.pgdir ≠ 0 ∧ t.userprogVaddr.vaddrStart = userVaddrStart ∧
      t.userprogVaddr.vaddrBitmap.btmpBytesLen = userBitmapLen)
    (hframes : m'.freeFrames .pfUser + 1 = m.freeFrames .pfUser) : Visited m m' q := by
  have hi : q / 1024 < 768 := by
    unfold kernelBase at hq
    omega
  have hcases := h.frame_cases hr
  have hrlt : r < 2 ^ 20 := by
    rcases hcases with ⟨-, -, hlt, -⟩ | ⟨-, rfl⟩
    · exact hlt
    · decide
  -- no page table that was there is in the new frame, unless in the frame 0
  have hother : ∀ i, i < 1024 → m.HasTable i → m.table i = r → m.freeFrames .pfKernel = 0 ∧ m.table i = 0 := by
    intro i hi' hti heq
    rcases hcases with ⟨-, -, -, hunused⟩ | ⟨hzero, rfl⟩
    · exact absurd (heq ▸ hunused) (h.used i hi' hti)
    · exact ⟨hzero, heq⟩
  have hrdir : m.cr3 ≠ r := (h.frame_ne_dir hr).symm
  have hdir : ∀ x, m'.phys m.cr3 x = if x = q / 1024 then entry r else m.phys m.cr3 x := fun x => by
    rw [hphys, if_neg hrdir]
    simp only [true_and]
  have hhas : ∀ i, m'.HasTable i ↔ m.HasTable i ∨ i = q / 1024 := fun i => by
    rw [Memory.HasTable, hcr3, hdir]
    split
    · rename_i heq
      exact iff_of_true (entryPresent_entry r) (.inr heq)
    · rename_i hne
      exact ⟨.inl, fun hor => hor.resolve_right hne⟩
  have htab : ∀ i, m'.table i = if i = q / 1024 then r else m.table i := fun i => by
    rw [Memory.table, hcr3, hdir]
    split
    · exact entryFrame_entry hrlt
    · rfl
  have hne : ∀ i, m.HasTable i → i ≠ q / 1024 := fun i hti heq => hnot (heq ▸ hti)
  have hunused : ∀ g, m'.Unused g ↔ m.Unused g ∧ m.nextFrame .pfKernel ≠ some g := fun g => by
    rw [← unused_takeFrame, Memory.Unused, hpool, Memory.Unused]
  have hstart : m'.kernelPool.phyAddrStart = m.kernelPool.phyAddrStart := by
    have htake : ((m.takeFrame .pfKernel).pool .pfKernel).phyAddrStart = (m.pool .pfKernel).phyAddrStart :=
      Memory.takeFrame_start
    rw [hpool]
    exact htake
  have hlen : m'.kernelPool.poolBitmap.btmpBytesLen = m.kernelPool.poolBitmap.btmpBytesLen := by
    have htake : ((m.takeFrame .pfKernel).pool .pfKernel).poolBitmap.btmpBytesLen =
        (m.pool .pfKernel).poolBitmap.btmpBytesLen := Memory.takeFrame_len
    rw [hpool]
    exact htake
  have hnext : m.freeFrames .pfKernel ≠ 0 → m.nextFrame .pfKernel = some r := fun hfree => by
    obtain ⟨g, hg⟩ := Option.ne_none_iff_exists'.mp (mt Memory.nextFrame_eq_none.mp hfree)
    rw [hg] at hr
    exact hg.trans (congrArg some hr)
  refine ⟨⟨htask, ⟨?_, ?_⟩, hcr3 ▸ h.dir_ne, ?_, ?_, hstart ▸ h.start, ?_⟩, hcr3, fun i hti => ?_,
    fun i hti => (hhas i).mp hti, ?_, ?_, ?_, ?_, fun _ => ?_, ?_, ?_, fun _ => ⟨hlo, hq⟩,
    fun v hv hvq hcond hnone => ?_⟩
  · rw [hcr3, hdir, if_neg (by omega)]
    exact h.self.self
  · rw [hcr3]
    exact h.self.lt
  · intro i j hi hj hti htj heq
    rw [htab, htab] at heq
    rw [htab]
    by_cases hqi : i = q / 1024
    · rw [if_pos hqi] at heq ⊢
      by_cases hqj : j = q / 1024
      · exact .inl (hqi.trans hqj.symm)
      · rw [if_neg hqj] at heq
        exact .inr (heq.trans (hother j hj (((hhas j).mp htj).resolve_right hqj) heq.symm).2)
    · rw [if_neg hqi] at heq ⊢
      have hti := ((hhas i).mp hti).resolve_right hqi
      by_cases hqj : j = q / 1024
      · rw [if_pos hqj] at heq
        exact .inr (hother i hi hti heq).2
      · rw [if_neg hqj] at heq
        exact h.apart i j hi hj hti (((hhas j).mp htj).resolve_right hqj) heq
  · intro i hi hti
    rw [htab, hunused]
    by_cases hqi : i = q / 1024
    · rw [if_pos hqi]
      rintro ⟨⟨hlo, -⟩, hne'⟩
      rcases hcases with ⟨hfree, -⟩ | ⟨-, rfl⟩
      · exact hne' (hnext hfree)
      · exact absurd hlo (Nat.not_le.mpr h.start)
    · rw [if_neg hqi]
      exact fun hu => h.used i hi (((hhas i).mp hti).resolve_right hqi) hu.1
  · rw [hstart, hlen]
    exact h.memory
  · rw [hdir, if_neg (hne i hti)]
  · rw [walk_ne_none, hhas, htab, if_pos rfl, hphys, if_pos rfl, if_pos rfl]
    exact ⟨.inr rfl, hw⟩
  · intro v g hv hwalk hcond
    obtain ⟨hpde, hpte, hg⟩ := Memory.walk_eq_some.mp hwalk
    have hvi : v / 1024 < 1024 := by omega
    have hvr : m.table (v / 1024) ≠ r := by
      intro heq
      obtain ⟨hfree, hzero⟩ := hother _ hvi hpde heq
      rcases hcond with htable | hfree' | hne'
      · exact hnot htable
      · exact hfree' hfree
      · exact hne' hzero
    have hvd : ¬ (m.table (v / 1024) = m.cr3 ∧ v % 1024 = q / 1024) := by
      rintro ⟨hf, hx⟩
      apply hnot
      change entryPresent (m.phys (m.table (v / 1024)) (v % 1024)) = true at hpte
      rw [hf, hx] at hpte
      exact hpte
    rw [Memory.walk_eq_some, hcr3, hdir, if_neg (hne _ hpde)]
    have hsame : m'.phys (entryFrame (m.phys m.cr3 (v / 1024))) (v % 1024) =
        m.phys (entryFrame (m.phys m.cr3 (v / 1024))) (v % 1024) := by
      rw [hphys]
      exact (if_neg hvr).trans (if_neg hvd)
    rw [hsame]
    exact ⟨hpde, hpte, hg⟩
  · intro hcond x
    rcases hcases with ⟨-, hr0, -⟩ | ⟨hfree, -⟩
    · rw [hphys, if_neg hr0.symm, if_neg fun heq => h.dir_ne heq.1.symm]
      exact ⟨.inl, fun hor => hor.resolve_right fun hx => hnot hx.2.1⟩
    · exact absurd hcond (not_or.mpr ⟨hnot, not_not.mpr hfree⟩)
  · intro _ hfree x
    rcases hcases with ⟨hfree', -⟩ | ⟨-, rfl⟩
    · exact absurd hfree hfree'
    · rw [hphys, if_pos rfl]
      split
      · rename_i hx
        exact iff_of_true hw hx
      · rename_i hx
        rw [entryPresent_zero]
        exact iff_of_false Bool.false_ne_true hx
  · rw [htab, if_pos rfl]
    rcases hcases with ⟨hfree, hr0, -⟩ | ⟨hfree, hr0⟩
    · exact iff_of_false hr0 hfree
    · exact iff_of_true hr0 hfree
  · have hcount : m'.freeFrames .pfKernel = (m.takeFrame .pfKernel).freeFrames .pfKernel := by
      change m'.kernelPool.poolBitmap.freeCnt = (m.takeFrame .pfKernel).kernelPool.poolBitmap.freeCnt
      rw [hpool]
    rw [hcount, if_neg hnot]
    by_cases hfree : m.freeFrames .pfKernel = 0
    · rw [Memory.takeFrame_eq_self (Memory.nextFrame_eq_none.mpr hfree), hfree]
    · have htake : (m.takeFrame .pfKernel).freeFrames .pfKernel + (if PoolFlags.pfKernel = .pfKernel
          then 1 else 0) = m.freeFrames .pfKernel := Memory.freeFrames_takeFrame (hnext hfree)
      rw [if_pos rfl] at htake
      omega
  · have habsent : m.walk m.cr3 q = none := by
      by_contra hpage
      exact hnot (walk_ne_none.mp hpage).1
    rw [if_pos habsent]
    exact hframes
  · have hvi : v / 1024 < 768 := by
      unfold kernelBase at hv
      omega
    by_contra hpage
    obtain ⟨hti, hpte⟩ := walk_ne_none.mp hpage
    rw [htab] at hpte
    by_cases hqi : v / 1024 = q / 1024
    · rw [if_pos hqi, hphys, if_pos rfl, if_neg (by omega), entryPresent_zero] at hpte
      cases hpte
    · have hti := ((hhas _).mp hti).resolve_right hqi
      have hvr : m.table (v / 1024) ≠ r := fun heq =>
        ((hcond hti).resolve_left hqi) (hother _ (by omega) hti heq).2
      rw [if_neg hqi, hphys, if_neg hvr, if_neg fun heq => h.table_ne_dir (by omega) hti heq.1] at hpte
      exact walk_ne_none.mpr ⟨hti, hpte⟩ hnone

/-- The memory when `get_a_page` comes to add its page. -/
structure Ready (m m' : Memory) : Prop where
  phys : m'.phys = m.phys
  cr3 : m'.cr3 = m.cr3
  kernelPool : m'.kernelPool = m.kernelPool
  task : ∃ t, m'.task m'.cur = some t ∧ t.pgdir ≠ 0 ∧ t.userprogVaddr.vaddrStart = userVaddrStart ∧
    t.userprogVaddr.vaddrBitmap.btmpBytesLen = userBitmapLen
  frames : m'.freeFrames .pfUser + 1 = m.freeFrames .pfUser

theorem Ready.walk (hr : Ready m m') (dir v : ℕ) : m'.walk dir v = m.walk dir v := by
  unfold Memory.walk
  rw [hr.phys]

theorem kernelPool_takeFrame (h : m'.kernelPool = m.kernelPool) :
    (m'.takeFrame .pfKernel).kernelPool = (m.takeFrame .pfKernel).kernelPool := by
  have hpool : m'.pool .pfKernel = m.pool .pfKernel := h
  rcases takeFrame_cases m .pfKernel with ⟨hscan, htake⟩ | ⟨i, hscan, htake⟩ <;>
    rcases takeFrame_cases m' .pfKernel with ⟨hscan', htake'⟩ | ⟨i', hscan', htake'⟩ <;>
    rw [hpool, hscan] at hscan'
  · rw [htake, htake', h]
  · cases hscan'
  · cases hscan'
  · obtain rfl : i = i' := Option.some.inj hscan'
    rw [htake, htake', hpool]
    change { m'.kernelPool with poolBitmap := (m.pool .pfKernel).poolBitmap.set i true } =
      { m.kernelPool with poolBitmap := (m.pool .pfKernel).poolBitmap.set i true }
    rw [h]

/-- `palloc` takes no frame of the other pool. -/
theorem kernelPool_takeFrame_user (m : Memory) : (m.takeFrame .pfUser).kernelPool = m.kernelPool := by
  rcases takeFrame_cases m .pfUser with ⟨-, htake⟩ | ⟨i, -, htake⟩
  · rw [htake]
  · rw [htake]
    rfl

theorem userPool_takeFrame_kernel (m : Memory) : (m.takeFrame .pfKernel).userPool = m.userPool := by
  rcases takeFrame_cases m .pfKernel with ⟨-, htake⟩ | ⟨i, -, htake⟩
  · rw [htake]
  · rw [htake]
    rfl

/-- `page_table_add` of the page, with a page table or without. -/
theorem Loading.pageTableAdd_visited {m₀ : Memory} (h : Loading m₀) (hm : Ready m₀ m) (hlo : userVaddrStart ≤ q)
    (hq : q < kernelBase) (habsent : m₀.walk m₀.cr3 q = none) (frame : ℕ) :
    Exec.Returns (pageTableAdd q frame) m fun _ m' => Visited m₀ m' q := by
  have hself : SelfMapped m := ⟨by rw [hm.phys, hm.cr3]; exact h.self.self, hm.cr3 ▸ h.self.lt⟩
  have hlt : q < pteBase := Nat.lt_trans hq (by decide)
  have hhas : entryPresent (m.phys m.cr3 (q / 1024)) = true ↔ m₀.HasTable (q / 1024) := by
    rw [hm.phys, hm.cr3]
    rfl
  by_cases htable : m₀.HasTable (q / 1024)
  · rw [Exec.Returns, hself.pageTableAdd_present (Nat.lt_trans hlt (by decide)) (hhas.mpr htable), hm.walk, hm.cr3]
    refine ⟨fun _ => ?_, fun hne => absurd habsent hne⟩
    refine h.visited_table hlo hq htable habsent hm.cr3 (fun f x => ?_) (entryPresent_entry frame) hm.kernelPool hm.task
      hm.frames
    rw [Memory.setWord_phys_apply, hm.phys]
    rfl
  · have hnext : m.nextFrame .pfKernel = m₀.nextFrame .pfKernel := by
      unfold Memory.nextFrame Memory.pool
      rw [hm.kernelPool]
    generalize hr : (m₀.nextFrame .pfKernel).getD 0 = r
    have hrlt : r < 2 ^ 20 := by
      rcases h.frame_cases hr with ⟨-, -, hrlt, -⟩ | ⟨-, rfl⟩
      · exact hrlt
      · decide
    have hrdir : r ≠ m.cr3 := hm.cr3 ▸ h.frame_ne_dir hr
    rw [Exec.Returns, hself.pageTableAdd_absent hlt (mt hhas.mp htable) (hnext ▸ hr) hrdir hrlt]
    refine h.visited_new hlo hq htable hr (Memory.takeFrame_cr3.trans hm.cr3) (fun f x => ?_) (entryPresent_entry frame)
      ?_ ?_ ?_
    · rw [Memory.setWord_phys_apply, Memory.addTable, Memory.setFrame_phys, Function.update_apply]
      by_cases hf : f = r
      · rw [if_pos hf, if_pos hf]
        simp only [hf, true_and]
      · rw [if_neg hf, if_neg hf, if_neg fun heq => hf heq.1, Memory.setWord_phys_apply, Memory.takeFrame_phys,
          hm.phys, hm.cr3]
    · exact kernelPool_takeFrame hm.kernelPool
    · obtain ⟨t, ht, hrest⟩ := hm.task
      refine ⟨t, ?_, hrest⟩
      change (m.takeFrame .pfKernel).task (m.takeFrame .pfKernel).cur = some t
      rw [Memory.takeFrame_task, Memory.takeFrame_cur]
      exact ht
    · rw [← hm.frames]
      change (m.takeFrame .pfKernel).userPool.poolBitmap.freeCnt + 1 = m.userPool.poolBitmap.freeCnt + 1
      rw [userPool_takeFrame_kernel]

/-- `get_a_page` of an absent page that the map of the process covers. -/
theorem Loading.getAPage_visited (h : Loading m) (hlo : userVaddrStart ≤ q) (hhi : q < kernelBase)
    (habsent : m.walk m.cr3 q = none) : Exec.Returns (getAPage .pfUser q) m fun r m' =>
      r = none ∧ m.freeFrames .pfUser = 0 ∨ r = some q ∧ m.freeFrames .pfUser ≠ 0 ∧ Visited m m' q := by
  obtain ⟨t, ht, hne, hstart, hlen⟩ := h.task
  have hva : m.vaddrs .pfUser = some t.userprogVaddr := by
    rw [Memory.vaddrs, ht]
    rfl
  have hin : q - t.userprogVaddr.vaddrStart < 8 * t.userprogVaddr.vaddrBitmap.btmpBytesLen := by
    rw [hstart, hlen]
    unfold userBitmapLen kernelBase userVaddrStart at *
    omega
  rw [Exec.Returns, post_getAPage ht (iff_of_true rfl hne) hva (hstart ▸ hlo) hin (by simp)]
  have hmark : m.mark (q - t.userprogVaddr.vaddrStart) 1 .pfUser = m.markPages t (q - t.userprogVaddr.vaddrStart) 1 :=
    Memory.mark_user ht
  rw [hmark, mapPages, Exec.post_bind, post_palloc]
  generalize hmarked : m.markPages t (q - t.userprogVaddr.vaddrStart) 1 = m₁
  have hnext : m₁.nextFrame .pfUser = m.nextFrame .pfUser := hmarked ▸ rfl
  cases hf : m₁.nextFrame .pfUser with
  | none => exact .inl ⟨rfl, Memory.nextFrame_eq_none.mp (hnext.symm.trans hf)⟩
  | some frame =>
    have hfree : m.freeFrames .pfUser ≠ 0 := by
      intro hzero
      rw [hnext, Memory.nextFrame_eq_none.mpr hzero] at hf
      cases hf
    have hready : Ready m (m₁.takeFrame .pfUser) := by
      refine ⟨?_, ?_, ?_, ?_, ?_⟩
      · rw [Memory.takeFrame_phys, ← hmarked]
        rfl
      · rw [Memory.takeFrame_cr3, ← hmarked]
        rfl
      · rw [kernelPool_takeFrame_user, ← hmarked]
        rfl
      · rw [Memory.takeFrame_task, Memory.takeFrame_cur, ← hmarked]
        refine ⟨_, Function.update_self .., hne, hstart, ?_⟩
        exact (Bitmap.setRun_btmpBytesLen ..).trans hlen
      · have htake : (m₁.takeFrame .pfUser).freeFrames .pfUser + (if PoolFlags.pfUser = .pfUser then 1 else 0) =
            m₁.freeFrames .pfUser := Memory.freeFrames_takeFrame hf
        rw [if_pos rfl] at htake
        rw [htake, ← hmarked]
        rfl
    rw [Exec.post_bind]
    refine (h.pageTableAdd_visited hready hlo hhi habsent frame).mono fun _ m' hvisited => ?_
    exact .inr ⟨rfl, hfree, hvisited⟩

/-- `get_a_page` of a page outside of the map of the process is undefined. -/
theorem Loading.getAPage_outside (h : Loading m) (hout : ¬ (userVaddrStart ≤ q ∧ q < kernelBase)) :
    Exec.Ensures (getAPage .pfUser q) m fun _ _ => False := by
  obtain ⟨t, ht, hne, hstart, hlen⟩ := h.task
  have hin : ¬ (userVaddrStart ≤ q ∧ q - userVaddrStart < 8 * userBitmapLen) := by
    unfold userBitmapLen kernelBase userVaddrStart at *
    omega
  simp only [getAPage, curTask, Exec.Ensures, Exec.post_bind, Exec.post_get, post_deref, ht, Option.some.injEq,
    forall_eq', hne, ne_eq, not_false_eq_true, and_self, if_true, post_inBounds, hstart, hlen, hin, false_implies,
    reduceCtorEq, implies_true]

theorem Loading.post_pagePresent (h : Loading m) (hq : q < 2 ^ 20) {Q : Bool → Memory → Prop} {E : Fault → Prop} :
    Exec.Post (pagePresent q) m Q E ↔ Q (decide (m.walk m.cr3 q ≠ none)) m := by
  rw [pagePresent, Exec.post_bind, h.self.post_load_pdePtr hq]
  by_cases htable : m.HasTable (q / 1024)
  · have hdecide : decide (m.walk m.cr3 q ≠ none) = entryPresent (m.phys (m.table (q / 1024)) (q % 1024)) := by
      rw [Bool.eq_iff_iff, decide_eq_true_iff, walk_ne_none]
      exact and_iff_right htable
    have htable' : entryPresent (m.phys m.cr3 (q / 1024)) = true := htable
    rw [if_pos htable', Exec.post_bind, h.self.post_load_ptePtr hq, hdecide]
    exact ⟨fun hQ => hQ.1 htable', fun hQ => ⟨fun _ => hQ, fun hnot => absurd htable' hnot⟩⟩
  · have hdecide : decide (m.walk m.cr3 q ≠ none) = false :=
      decide_eq_false fun hpage => htable (walk_ne_none.mp hpage).1
    have htable' : ¬ entryPresent (m.phys m.cr3 (q / 1024)) = true := htable
    rw [if_neg htable', hdecide]
    exact Exec.post_pure ..

variable {p : UInt32}

/-- A visit that does not fail has mapped the page, or found it mapped. -/
theorem Loading.visitPage_ensures (h : Loading m) (hp : p.toNat / 4096 = q) (hq : q < 2 ^ 20) :
    Exec.Ensures (visitPage p) m fun r m' => r = true → Visited m m' q := by
  rw [visitPage, hp, Exec.Ensures, Exec.post_bind, h.post_pagePresent hq]
  by_cases hpage : m.walk m.cr3 q = none
  · rw [decide_eq_false (not_not.mpr hpage), if_neg Bool.false_ne_true, Exec.post_bind]
    by_cases hin : userVaddrStart ≤ q ∧ q < kernelBase
    · refine (h.getAPage_visited hin.1 hin.2 hpage).ensures.mono fun r m' hr => ?_
      rcases hr with ⟨rfl, -⟩ | ⟨-, -, hvisited⟩
      · exact fun hfalse => absurd hfalse Bool.false_ne_true
      · exact fun _ => hvisited
    · exact (h.getAPage_outside hin).mono fun _ _ hfalse => hfalse.elim
  · rw [decide_eq_true hpage, if_pos rfl]
    exact fun _ => Visited.refl h hpage

/-- With a frame for an absent page of the map a visit does not fail. -/
theorem Loading.visitPage_returns (h : Loading m) (hp : p.toNat / 4096 = q) (hq : q < 2 ^ 20)
    (hroom : m.walk m.cr3 q = none → (userVaddrStart ≤ q ∧ q < kernelBase) ∧ m.freeFrames .pfUser ≠ 0) :
    Exec.Returns (visitPage p) m fun r m' => r = true ∧ Visited m m' q := by
  rw [visitPage, hp, Exec.Returns, Exec.post_bind, h.post_pagePresent hq]
  by_cases hpage : m.walk m.cr3 q = none
  · obtain ⟨hin, hfree⟩ := hroom hpage
    rw [decide_eq_false (not_not.mpr hpage), if_neg Bool.false_ne_true, Exec.post_bind]
    refine (h.getAPage_visited hin.1 hin.2 hpage).mono fun r m' hr => ?_
    rcases hr with ⟨-, hzero⟩ | ⟨rfl, -, hvisited⟩
    · exact absurd hzero hfree
    · exact ⟨rfl, hvisited⟩
  · rw [decide_eq_true hpage, if_pos rfl]
    exact ⟨rfl, Visited.refl h hpage⟩

end Segment
end Winx
