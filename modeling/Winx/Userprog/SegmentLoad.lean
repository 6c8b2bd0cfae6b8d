import Winx.Userprog.PageVisits

/-! # Loading a segment

The loop of `segment_load` visits the pages of the segment in order. While the kernel pool has frames
for the page tables that are missing, every page stays mapped. Of the tables in frame 0 only the
pages of the last one are there at the end: a segment loses pages exactly if two of its tables
have to be in frame 0 and the last of them is not covered up to its end.
-/

namespace Winx

/-- The page tables that a range of pages lacks. -/
def Memory.lacks (m : Memory) (vaddr cnt : ℕ) : Finset ℕ :=
  ((Finset.Ico vaddr (vaddr + cnt)).image (· / 1024)).filter fun i => entryPresent (m.phys m.cr3 i) = false

/-- How many pages of a range are not there. -/
def Memory.absentPages (m : Memory) (vaddr cnt : ℕ) : ℕ :=
  ((Finset.Ico vaddr (vaddr + cnt)).filter fun v => m.walk m.cr3 v = none).card

namespace Segment

/-- Visits of consecutive pages. -/
inductive VisitedAll : Memory → ℕ → ℕ → Memory → Prop
  | nil {m : Memory} {q : ℕ} : VisitedAll m q 0 m
  | cons {m m₁ m' : Memory} {q n : ℕ} (hv : Visited m m₁ q) (hrest : VisitedAll m₁ (q + 1) n m') :
      VisitedAll m q (n + 1) m'

/-- The page tables in frame 0 are below a page. -/
def ZeroBelow (m : Memory) (q : ℕ) : Prop := ∀ i, i < 1024 → m.HasTable i → m.table i = 0 → 1024 * i < q

variable {m m₁ m' : Memory} {q n v i j : ℕ}

theorem mem_lacks_iff : i ∈ m.lacks q n ↔ (∃ v, q ≤ v ∧ v < q + n ∧ v / 1024 = i) ∧ ¬ m.HasTable i := by
  simp only [Memory.lacks, Finset.mem_filter, Finset.mem_image, Finset.mem_Ico, Memory.HasTable,
    Bool.not_eq_true, and_assoc]

theorem missingTables_eq (m : Memory) (q n : ℕ) : m.missingTables q n = (m.lacks q n).card := rfl

/-! ## One visit and the rest -/

section Step

variable (hv : Visited m m₁ q)

include hv

theorem Visited.hasTable_here : m₁.HasTable (q / 1024) := (walk_ne_none.mp hv.here).1

theorem Visited.hasTable (hi : m.HasTable i) : m₁.HasTable i := by
  rw [Memory.HasTable, hv.cr3, hv.old i hi]
  exact hi

theorem Visited.table (hi : m.HasTable i) : m₁.table i = m.table i := by
  rw [Memory.table, hv.cr3, hv.old i hi, Memory.table]

/-- What is still missing after a visit, and what was missing before. -/
theorem Visited.mem_lacks : i ∈ m.lacks q (n + 1) ↔
    i ∈ m₁.lacks (q + 1) n ∨ i = q / 1024 ∧ ¬ m.HasTable (q / 1024) := by
  rw [mem_lacks_iff, mem_lacks_iff]
  constructor
  · rintro ⟨⟨v, hlo, hhi, rfl⟩, hnot⟩
    by_cases heq : v / 1024 = q / 1024
    · exact .inr ⟨heq, heq ▸ hnot⟩
    · have hne : v ≠ q := fun hvq => heq (hvq ▸ rfl)
      exact .inl ⟨⟨v, by omega, by omega, rfl⟩, fun h₁ => (hv.new _ h₁).elim hnot heq⟩
  · rintro (⟨⟨v, hlo, hhi, rfl⟩, hnot⟩ | ⟨rfl, hnot⟩)
    · exact ⟨⟨v, by omega, by omega, rfl⟩, fun h => hnot (hv.hasTable h)⟩
    · exact ⟨⟨q, Nat.le_refl q, by omega, rfl⟩, hnot⟩

theorem Visited.not_mem_lacks : q / 1024 ∉ m₁.lacks (q + 1) n :=
  fun hmem => (mem_lacks_iff.mp hmem).2 hv.hasTable_here

theorem Visited.missingTables (n : ℕ) : m.missingTables q (n + 1) =
    m₁.missingTables (q + 1) n + if m.HasTable (q / 1024) then 0 else 1 := by
  rw [missingTables_eq, missingTables_eq]
  split
  · rename_i htable
    have hsame : m.lacks q (n + 1) = m₁.lacks (q + 1) n := by
      ext i
      rw [hv.mem_lacks]
      exact or_iff_left fun heq => heq.2 htable
    exact congrArg Finset.card hsame
  · rename_i hnot
    have hinsert : m.lacks q (n + 1) = insert (q / 1024) (m₁.lacks (q + 1) n) := by
      ext i
      rw [hv.mem_lacks, Finset.mem_insert, or_comm]
      exact or_congr_left (and_iff_left hnot)
    rw [hinsert, Finset.card_insert_of_notMem hv.not_mem_lacks]

/-- No page table gets into frame 0, as long as there is another frame. -/
theorem Visited.zero_iff (hroom : m.HasTable (q / 1024) ∨ m.freeFrames .pfKernel ≠ 0) (i : ℕ) :
    m₁.HasTable i ∧ m₁.table i = 0 ↔ m.HasTable i ∧ m.table i = 0 := by
  constructor
  · rintro ⟨hi, hzero⟩
    by_cases hold : m.HasTable i
    · exact ⟨hold, hv.table hold ▸ hzero⟩
    · obtain rfl := (hv.new i hi).resolve_left hold
      exact absurd ((hv.fresh hold).mp hzero) (hroom.resolve_left hold)
  · rintro ⟨hi, hzero⟩
    exact ⟨hv.hasTable hi, (hv.table hi).trans hzero⟩

theorem Visited.zeroBelow (h : ZeroBelow m q) : ZeroBelow m₁ (q + 1) := by
  intro i hlt hi hzero
  by_cases hold : m.HasTable i
  · have := h i hlt hold (hv.table hold ▸ hzero)
    omega
  · have := (hv.new i hi).resolve_left hold
    omega

/-- A page that is not there stays away until it is visited. -/
theorem Visited.absent_behind (h : ZeroBelow m q) (hlt : q < v) (hv' : v < kernelBase)
    (hnone : m.walk m.cr3 v = none) : m₁.walk m₁.cr3 v = none := by
  apply hv.absent v hv' (Nat.ne_of_gt hlt) _ hnone
  intro hi
  by_cases hzero : m.table (v / 1024) = 0
  · have hidx : v / 1024 < 1024 := by
      unfold kernelBase at hv'
      omega
    have := h _ hidx hi hzero
    exact .inl (by omega)
  · exact .inr hzero

/-- A page behind the visited one stays there. -/
theorem Visited.keeps_behind (h : ZeroBelow m q) (hlt : q < v) (hv' : v < 2 ^ 20)
    (hpage : m.walk m.cr3 v ≠ none) : m₁.walk m₁.cr3 v ≠ none := by
  obtain ⟨g, hg⟩ := Option.ne_none_iff_exists'.mp hpage
  have hkept : m₁.walk m₁.cr3 v = some g := by
    apply hv.keeps v g hv' hg
    by_cases htable : m.HasTable (q / 1024)
    · exact .inl htable
    · refine .inr (.inr fun hzero => ?_)
      have hbelow := h _ (by omega) (walk_ne_none.mp hpage).1 hzero
      have hidx : v / 1024 = q / 1024 := by omega
      exact htable (hidx ▸ (walk_ne_none.mp hpage).1)
  rw [hkept]
  exact Option.some_ne_none g

end Step

theorem VisitedAll.cr3 (h : VisitedAll m q n m') : m'.cr3 = m.cr3 := by
  induction h with
  | nil => rfl
  | cons hv _ ih => exact ih.trans hv.cr3

theorem VisitedAll.hasTable (h : VisitedAll m q n m') (hi : m.HasTable i) : m'.HasTable i := by
  induction h with
  | nil => exact hi
  | cons hv _ ih => exact ih (hv.hasTable hi)

theorem VisitedAll.table (h : VisitedAll m q n m') (hi : m.HasTable i) : m'.table i = m.table i := by
  induction h with
  | nil => rfl
  | cons hv _ ih => exact (ih (hv.hasTable hi)).trans (hv.table hi)

theorem VisitedAll.hasTable_page (h : VisitedAll m q n m') (hlo : q ≤ v) (hhi : v < q + n) :
    m'.HasTable (v / 1024) := by
  induction h with
  | nil => omega
  | @cons m m₁ m' q n hv hrest ih =>
    rcases Nat.eq_or_lt_of_le hlo with rfl | hlt
    · exact hrest.hasTable hv.hasTable_here
    · exact ih hlt (by omega)

/-! ## Enough frames -/

/-- What the visits do when there are frames for all page tables. -/
structure Complete (m m' : Memory) (q n : ℕ) : Prop where
  keeps : ∀ v g, v < 2 ^ 20 → m.walk m.cr3 v = some g → m'.walk m'.cr3 v = some g
  mapped : ∀ v, q ≤ v → v < q + n → m'.walk m'.cr3 v ≠ none
  zero : ∀ x, entryPresent (m'.phys 0 x) = true ↔ entryPresent (m.phys 0 x) = true ∨
    ∃ v, q ≤ v ∧ v < q + n ∧ x = v % 1024 ∧ m.HasTable (v / 1024) ∧ m.table (v / 1024) = 0
  noZero : ∀ i, m'.HasTable i → m'.table i = 0 → m.HasTable i ∧ m.table i = 0

theorem VisitedAll.complete (h : VisitedAll m q n m') (hend : q + n ≤ 2 ^ 20)
    (hfit : m.missingTables q n ≤ m.freeFrames .pfKernel) : Complete m m' q n := by
  induction h with
  | nil =>
    refine ⟨fun _ _ _ hv => hv, fun v hlo hhi => by omega, fun x => ⟨.inl, ?_⟩, fun i hi hzero => ⟨hi, hzero⟩⟩
    rintro (hx | ⟨v, hlo, hhi, -⟩)
    · exact hx
    · omega
  | @cons m m₁ m' q n hv hrest ih =>
    have hmissing := hv.missingTables n
    have htables := hv.tables
    have hroom : m.HasTable (q / 1024) ∨ m.freeFrames .pfKernel ≠ 0 := by
      by_cases htable : m.HasTable (q / 1024)
      · exact .inl htable
      · rw [if_neg htable] at hmissing
        exact .inr (by omega)
    have hc := ih (by omega) (by
      split at hmissing <;> rename_i htable
      · rw [if_pos htable] at htables
        omega
      · rw [if_neg htable] at htables
        omega)
    refine ⟨fun v g hlt hwalk => ?_, fun v hlo hhi => ?_, fun x => ?_, fun i hi hzero => ?_⟩
    · exact hc.keeps v g hlt (hv.keeps v g hlt hwalk (hroom.imp_right Or.inl))
    · rcases Nat.eq_or_lt_of_le hlo with rfl | hlt
      · obtain ⟨g, hg⟩ := Option.ne_none_iff_exists'.mp hv.here
        rw [hc.keeps q g (by omega) hg]
        exact Option.some_ne_none g
      · exact hc.mapped v hlt (by omega)
    · rw [hc.zero, hv.zero hroom, or_assoc]
      apply or_congr_right
      constructor
      · rintro (⟨rfl, htable, hzero⟩ | ⟨v, hlo, hhi, rfl, htable, hzero⟩)
        · exact ⟨q, Nat.le_refl q, by omega, rfl, htable, hzero⟩
        · exact ⟨v, by omega, by omega, rfl, (hv.zero_iff hroom _).mp ⟨htable, hzero⟩⟩
      · rintro ⟨v, hlo, hhi, rfl, htable, hzero⟩
        rcases Nat.eq_or_lt_of_le hlo with rfl | hlt
        · exact .inl ⟨rfl, htable, hzero⟩
        · exact .inr ⟨v, hlt, by omega, rfl, (hv.zero_iff hroom _).mpr ⟨htable, hzero⟩⟩
    · obtain ⟨hi', hzero'⟩ := hc.noZero i hi hzero
      exact (hv.zero_iff hroom i).mp ⟨hi', hzero'⟩

/-! ## Too few frames -/

/-- What the visits do when page tables have to be in frame 0. The last of them is `j`. -/
structure Short (m m' : Memory) (q n j : ℕ) : Prop where
  keeps : ∀ v g, v < 2 ^ 20 → m.walk m.cr3 v = some g → m.table (v / 1024) ≠ 0 → m'.walk m'.cr3 v = some g
  mapped : ∀ v, q ≤ v → v < q + n → m'.table (v / 1024) ≠ 0 → m'.walk m'.cr3 v ≠ none
  lack : j ∈ m.lacks q n
  last : ∀ i ∈ m.lacks q n, i ≤ j
  lastZero : m'.table j = 0
  zero : ∀ x, x < 1024 → (entryPresent (m'.phys 0 x) = true ↔ q ≤ 1024 * j + x ∧ 1024 * j + x < q + n)
  one : m.missingTables q n ≤ m.freeFrames .pfKernel + 1 →
    ∀ i, m'.HasTable i → m'.table i = 0 → i = j ∨ m.HasTable i ∧ m.table i = 0
  two : m.freeFrames .pfKernel + 2 ≤ m.missingTables q n → ∃ i ∈ m.lacks q n, i < j ∧ m'.table i = 0

/-- The last page table that is missing gets into frame 0. -/
theorem Visited.short_last (hv : Visited m m₁ q) (hrest : VisitedAll m₁ (q + 1) n m') (hend : q + (n + 1) ≤ 2 ^ 20)
    (hbelow : ZeroBelow m q) (hnot : ¬ m.HasTable (q / 1024)) (hfree : m.freeFrames .pfKernel = 0)
    (hmissing : m₁.missingTables (q + 1) n = 0) : Short m m' q (n + 1) (q / 1024) := by
  have hc := hrest.complete (by omega) (hmissing ▸ Nat.zero_le _)
  have hhere := hv.hasTable_here
  have hzero : m₁.table (q / 1024) = 0 := (hv.fresh hnot).mpr hfree
  have hlacks : ∀ i, i ∉ m₁.lacks (q + 1) n := by
    rw [missingTables_eq, Finset.card_eq_zero] at hmissing
    rw [hmissing]
    exact Finset.notMem_empty
  refine ⟨fun v g hlt hwalk hne => ?_, fun v hlo hhi _ => ?_, ?_, fun i hi => ?_, ?_, fun x hx => ?_,
    fun _ i hi hi0 => ?_, fun hmore => ?_⟩
  · exact hc.keeps v g hlt (hv.keeps v g hlt hwalk (.inr (.inr hne)))
  · rcases Nat.eq_or_lt_of_le hlo with rfl | hlt
    · obtain ⟨g, hg⟩ := Option.ne_none_iff_exists'.mp hv.here
      rw [hc.keeps q g (by omega) hg]
      exact Option.some_ne_none g
    · exact hc.mapped v hlt (by omega)
  · exact mem_lacks_iff.mpr ⟨⟨q, Nat.le_refl q, by omega, rfl⟩, hnot⟩
  · exact ((hv.mem_lacks.mp hi).resolve_left (hlacks i)).1.le
  · exact (hrest.table hhere).trans hzero
  · rw [hc.zero, hv.cleared hnot hfree]
    constructor
    · rintro (rfl | ⟨v, hlo, hhi, rfl, htable, hzero'⟩)
      · omega
      · -- a table in frame 0 is that of `q`, or below `q`
        have hidx : v / 1024 = q / 1024 := by
          by_cases hold : m.HasTable (v / 1024)
          · have := hbelow _ (by omega) hold (hv.table hold ▸ hzero')
            omega
          · exact (hv.new _ htable).resolve_left hold
        omega
    · rintro ⟨hlo, hhi⟩
      by_cases hxq : x = q % 1024
      · exact .inl hxq
      · have hidx : (1024 * (q / 1024) + x) / 1024 = q / 1024 := by omega
        refine .inr ⟨1024 * (q / 1024) + x, by omega, by omega, by omega, ?_, ?_⟩
        · exact hidx.symm ▸ hhere
        · exact hidx.symm ▸ hzero
  · obtain ⟨hi', hi0'⟩ := hc.noZero i hi hi0
    by_cases hold : m.HasTable i
    · exact .inr ⟨hold, hv.table hold ▸ hi0'⟩
    · exact .inl ((hv.new i hi').resolve_left hold)
  · have := hv.missingTables n
    rw [if_neg hnot] at this
    omega

/-- A visit before that. -/
theorem Visited.short_cons (hv : Visited m m₁ q) (hrest : VisitedAll m₁ (q + 1) n m') (hend : q + (n + 1) ≤ 2 ^ 20)
    (hmissing : m₁.freeFrames .pfKernel < m₁.missingTables (q + 1) n) (hs : Short m₁ m' (q + 1) n j) :
    Short m m' q (n + 1) j := by
  have hhere := hv.hasTable_here
  have hcount := hv.missingTables n
  have htables := hv.tables
  obtain ⟨⟨u, hlo, hhi, hu⟩, hj⟩ := mem_lacks_iff.mp hs.lack
  have hne : j ≠ q / 1024 := fun heq => hj (heq ▸ hhere)
  refine ⟨fun v g hlt hwalk hv0 => ?_, fun v hlo' hhi' hv0 => ?_, hv.mem_lacks.mpr (.inl hs.lack), fun i hi => ?_,
    hs.lastZero, fun x hx => ?_, fun hle i hi hi0 => ?_, fun hmore => ?_⟩
  · have hkept := hv.keeps v g hlt hwalk (.inr (.inr hv0))
    exact hs.keeps v g hlt hkept (hv.table (Memory.walk_eq_some.mp hwalk).1 ▸ hv0)
  · rcases Nat.eq_or_lt_of_le hlo' with rfl | hlt
    · obtain ⟨g, hg⟩ := Option.ne_none_iff_exists'.mp hv.here
      rw [hs.keeps q g (by omega) hg (hrest.table hhere ▸ hv0)]
      exact Option.some_ne_none g
    · exact hs.mapped v hlt (by omega) hv0
  · rcases hv.mem_lacks.mp hi with hi | ⟨rfl, -⟩
    · exact hs.last i hi
    · omega
  · rw [hs.zero x hx]
    omega
  · split at hcount <;> rename_i htable
    · rw [if_pos htable] at htables
      exact (hs.one (by omega) i hi hi0).imp_right (hv.zero_iff (.inl htable) i).mp
    · rw [if_neg htable] at htables
      exact (hs.one (by omega) i hi hi0).imp_right (hv.zero_iff (.inr (by omega)) i).mp
  · by_cases hfirst : ¬ m.HasTable (q / 1024) ∧ m.freeFrames .pfKernel = 0
    · refine ⟨q / 1024, hv.mem_lacks.mpr (.inr ⟨rfl, hfirst.1⟩), by omega, ?_⟩
      rw [hrest.table hhere]
      exact (hv.fresh hfirst.1).mpr hfirst.2
    · have hmore₁ : m₁.freeFrames .pfKernel + 2 ≤ m₁.missingTables (q + 1) n := by
        split at hcount <;> rename_i htable
        · rw [if_pos htable] at htables
          omega
        · rw [if_neg htable] at htables
          have hpos : m.freeFrames .pfKernel ≠ 0 := fun hzero => hfirst ⟨htable, hzero⟩
          omega
      obtain ⟨i, hi, hij, hi0⟩ := hs.two hmore₁
      exact ⟨i, hv.mem_lacks.mpr (.inl hi), hij, hi0⟩

theorem VisitedAll.short (h : VisitedAll m q n m') (hend : q + n ≤ 2 ^ 20) (hbelow : ZeroBelow m q)
    (hmore : m.freeFrames .pfKernel < m.missingTables q n) : ∃ j, Short m m' q n j := by
  induction h with
  | @nil m q =>
    have hnone : m.missingTables q 0 = 0 := by
      rw [missingTables_eq, Memory.lacks, Nat.add_zero, Finset.Ico_self]
      rfl
    omega
  | @cons m m₁ m' q n hv hrest ih =>
    by_cases hrestMore : m₁.freeFrames .pfKernel < m₁.missingTables (q + 1) n
    · obtain ⟨j, hs⟩ := ih (by omega) (hv.zeroBelow hbelow) hrestMore
      exact ⟨j, hv.short_cons hrest hend hrestMore hs⟩
    · have hcount := hv.missingTables n
      have htables := hv.tables
      by_cases htable : m.HasTable (q / 1024)
      · rw [if_pos htable] at hcount htables
        omega
      · rw [if_neg htable] at hcount htables
        exact ⟨q / 1024, hv.short_last hrest hend hbelow htable (by omega) (by omega)⟩

/-! ## The loop -/

section Loop

variable {p : UInt32}

/-- The start of the next page. -/
theorem toNat_nextPage (hp : p.toNat = 4096 * q % 2 ^ 32) : (p + 4096).toNat = 4096 * (q + 1) % 2 ^ 32 := by
  have hsize : (4096 : UInt32).toNat = 4096 := rfl
  rw [UInt32.toNat_add, hp, hsize]
  omega

theorem Loading.segmentLoop_ensures (h : Loading m) (hp : p.toNat = 4096 * q % 2 ^ 32) (hend : q + n ≤ 2 ^ 20) :
    Exec.Ensures (segmentLoop n p) m fun r m' => r = true → VisitedAll m q n m' := by
  induction n generalizing m q p with
  | zero => exact fun _ => .nil
  | succ n ih =>
    rw [segmentLoop, Exec.Ensures, Exec.post_bind]
    apply (h.visitPage_ensures (by omega : p.toNat / 4096 = q) (by omega)).mono
    intro r m₁ hr
    cases r with
    | false => exact fun hfalse => absurd hfalse Bool.false_ne_true
    | true =>
      have hv := hr rfl
      apply (ih hv.loading (toNat_nextPage hp) (by omega)).mono
      exact fun r m' hrest htrue => .cons hv (hrest htrue)

theorem absentPages_succ (m : Memory) (q n : ℕ) : m.absentPages q (n + 1) =
    (if m.walk m.cr3 q = none then 1 else 0) + m.absentPages (q + 1) n := by
  have hinterval : Finset.Ico q (q + (n + 1)) = insert q (Finset.Ico (q + 1) (q + 1 + n)) := by
    ext v
    rw [Finset.mem_insert, Finset.mem_Ico, Finset.mem_Ico]
    omega
  rw [Memory.absentPages, Memory.absentPages, hinterval, Finset.filter_insert]
  split
  · rw [Finset.card_insert_of_notMem, Nat.add_comm]
    rw [Finset.mem_filter, Finset.mem_Ico]
    omega
  · rw [Nat.zero_add]

theorem Visited.absentPages_le (hv : Visited m m₁ q) (hbelow : ZeroBelow m q) (hend : q + (n + 1) ≤ 2 ^ 20) :
    m₁.absentPages (q + 1) n ≤ m.absentPages (q + 1) n := by
  apply Finset.card_le_card
  intro v hmem
  rw [Finset.mem_filter, Finset.mem_Ico] at hmem ⊢
  refine ⟨hmem.1, ?_⟩
  by_contra hpage
  exact hv.keeps_behind hbelow (by omega) (by omega) hpage hmem.2

theorem Visited.absentPages_ge (hv : Visited m m₁ q) (hbelow : ZeroBelow m q) (hend : q + (n + 1) ≤ kernelBase) :
    m.absentPages (q + 1) n ≤ m₁.absentPages (q + 1) n := by
  apply Finset.card_le_card
  intro v hmem
  rw [Finset.mem_filter, Finset.mem_Ico] at hmem ⊢
  exact ⟨hmem.1, hv.absent_behind hbelow (by omega) (by omega) hmem.2⟩

/-- With all absent pages in the map of the process, and a frame for each, the loop succeeds. -/
theorem Loading.segmentLoop_returns (h : Loading m) (hp : p.toNat = 4096 * q % 2 ^ 32) (hend : q + n ≤ 2 ^ 20)
    (hbelow : ZeroBelow m q)
    (hmap : ∀ v, q ≤ v → v < q + n → m.walk m.cr3 v = none → userVaddrStart ≤ v ∧ v < kernelBase)
    (hframes : m.absentPages q n ≤ m.freeFrames .pfUser) :
    Exec.Returns (segmentLoop n p) m fun r m' => r = true ∧ VisitedAll m q n m' := by
  induction n generalizing m q p with
  | zero => exact ⟨rfl, .nil⟩
  | succ n ih =>
    have hcount := absentPages_succ m q n
    rw [segmentLoop, Exec.Returns, Exec.post_bind]
    have hroom : m.walk m.cr3 q = none → (userVaddrStart ≤ q ∧ q < kernelBase) ∧ m.freeFrames .pfUser ≠ 0 := by
      intro hnone
      rw [if_pos hnone] at hcount
      exact ⟨hmap q (Nat.le_refl q) (by omega) hnone, by omega⟩
    apply (h.visitPage_returns (by omega : p.toNat / 4096 = q) (by omega) hroom).mono
    rintro r m₁ ⟨rfl, hv⟩
    have hle := hv.absentPages_le hbelow hend
    have hfree := hv.frames
    have hmap₁ : ∀ v, q + 1 ≤ v → v < q + 1 + n → m₁.walk m₁.cr3 v = none → userVaddrStart ≤ v ∧ v < kernelBase := by
      intro v hlo hhi hnone
      apply hmap v (by omega) (by omega)
      by_contra hpage
      exact hv.keeps_behind hbelow (by omega) (by omega) hpage hnone
    apply (ih hv.loading (toNat_nextPage hp) (by omega) (hv.zeroBelow hbelow) hmap₁ (by omega)).mono
    rintro r m' ⟨rfl, hrest⟩
    exact ⟨rfl, .cons hv hrest⟩

/-- A loop that succeeds had a frame for every absent page, and these were in the map. -/
theorem VisitedAll.room (h : VisitedAll m q n m') (hend : q + n ≤ kernelBase) (hbelow : ZeroBelow m q) :
    (∀ v, q ≤ v → v < q + n → m.walk m.cr3 v = none → userVaddrStart ≤ v ∧ v < kernelBase) ∧
      m.absentPages q n ≤ m.freeFrames .pfUser := by
  induction h with
  | nil =>
    refine ⟨fun v hlo hhi => by omega, ?_⟩
    rw [Memory.absentPages, Nat.add_zero, Finset.Ico_self]
    exact Nat.zero_le _
  | @cons m m₁ m' q n hv hrest ih =>
    obtain ⟨hmap, hframes⟩ := ih (by omega) (hv.zeroBelow hbelow)
    have hge := hv.absentPages_ge hbelow hend
    have hcount := absentPages_succ m q n
    have hfree := hv.frames
    constructor
    · intro v hlo hhi hnone
      rcases Nat.eq_or_lt_of_le hlo with rfl | hlt
      · exact hv.inMap hnone
      · exact hmap v hlt (by omega) (hv.absent_behind hbelow hlt (by omega) hnone)
    · omega

end Loop

/-! ## A segment -/

/-- The loop visits the pages of the segment one after the other, up to a failure. -/
theorem segmentLoop_eq_allM (n : ℕ) (p : UInt32) : segmentLoop n p = (pagesFrom n p).allM visitPage := by
  induction n generalizing p with
  | zero => rfl
  | succ n ih =>
    rw [segmentLoop, pagesFrom, List.allM]
    congr 1
    funext r
    cases r with
    | false => rfl
    | true => exact ih (p + 4096)

/-- The loop of `segment_load` visits every page that a byte of the segment is in, and no other, once, and
when it succeeds every byte of the segment is mapped, and a page that was there keeps its frame. -/
structure SegmentCovered (m : Memory) (filesz vaddr : UInt32) : Prop where
  loop : segmentLoad filesz vaddr = (segmentPages filesz vaddr).allM visitPage
  count : (occupyPages filesz vaddr).toNat = lastPage filesz vaddr - vaddr.toNat / 4096 + 1
  nodup : (segmentPages filesz vaddr).Nodup
  visits : ∀ p : UInt32, p ∈ segmentPages filesz vaddr ↔
    p.toNat % 4096 = 0 ∧ ∃ x, vaddr.toNat ≤ x ∧ x < vaddr.toNat + filesz.toNat ∧ x / 4096 = p.toNat / 4096
  mapped : Exec.Ensures (segmentLoad filesz vaddr) m fun r m' => r = true →
    ∀ x, vaddr.toNat ≤ x → x < vaddr.toNat + filesz.toNat → m'.walk m'.cr3 (x / 4096) ≠ none ∧
      ∀ g, m.walk m.cr3 (x / 4096) = some g → m'.walk m'.cr3 (x / 4096) = some g

/-- A segment that gets a frame for each of its pages, but lacks two frames for its page tables, the last
of which it needs and does not cover up to its end. -/
structure TablesLost (m : Memory) (filesz vaddr : UInt32) : Prop where
  inMap : ∀ v, vaddr.toNat / 4096 ≤ v → v ≤ lastPage filesz vaddr → m.walk m.cr3 v = none →
    userVaddrStart ≤ v ∧ v < kernelBase
  frames : m.absentPages (vaddr.toNat / 4096) (lastPage filesz vaddr - vaddr.toNat / 4096 + 1) ≤ m.freeFrames .pfUser
  tables : m.freeFrames .pfKernel + 2 ≤
    m.missingTables (vaddr.toNat / 4096) (lastPage filesz vaddr - vaddr.toNat / 4096 + 1)
  lastTable : ¬ m.HasTable (lastPage filesz vaddr / 1024)
  lastPage_ne : lastPage filesz vaddr % 1024 ≠ 1023

section Iff

variable {filesz vaddr : UInt32} {t : MemTask}

/-- No page table is in frame 0 at the start. -/
theorem zeroBelow_of_memInv (h : MemInv m) (ht : m.task m.cur = some t) (hne : t.pgdir ≠ 0) :
    ∀ i, i < 1024 → m.HasTable i → m.table i ≠ 0 := by
  have hdir := h.isProcDir ht hne
  intro i hi hti
  rcases table_cases h hdir hi hti with ⟨-, hu⟩ | ⟨-, -, heq⟩ | ⟨-, heq⟩
  · have := (h.page.holds_bounds hu).1
    omega
  · omega
  · have := (h.page.procDir_bounds hdir).1
    omega

/-- The page tables of the kernel half are there. -/
theorem hasTable_kernel (h : MemInv m) (ht : m.task m.cur = some t) (hne : t.pgdir ≠ 0) (hlo : 768 ≤ i)
    (hhi : i < 1024) : m.HasTable i := by
  rcases Nat.lt_or_ge i 1023 with hlt | hge
  · rw [Memory.HasTable, h.page.kernelHalf _ (h.isProcDir ht hne) i hlo hlt, h.page.layout.bootTable i hlo hlt]
    exact entryPresent_entry _
  · obtain rfl : i = 1023 := by omega
    exact (Loading.of_memInv h ht hne).hasTable_dir.1

/-- Where a segment is mapped that lacks frames for its page tables. -/
theorem Short.walk_ne_none (hs : Short m m' q n j) (hrest : VisitedAll m q n m') (hlo : q ≤ v) (hhi : v < q + n)
    (hzero : m'.table (v / 1024) = 0) : m'.walk m'.cr3 v ≠ none ↔ q ≤ 1024 * j + v % 1024 ∧ 1024 * j + v % 1024 < q + n := by
  rw [Segment.walk_ne_none, hzero, hs.zero _ (Nat.mod_lt _ (by decide))]
  exact and_iff_right (hrest.hasTable_page hlo hhi)

theorem segmentLoad_eq (hpos : 1 ≤ filesz.toNat) (hend : vaddr.toNat + filesz.toNat ≤ 2 ^ 32) :
    segmentLoad filesz vaddr = segmentLoop (lastPage filesz vaddr - vaddr.toNat / 4096 + 1) (vaddrFirstPage vaddr) := by
  rw [segmentLoad, toNat_occupyPages hpos hend]

/-- Every page of the loop has a byte of the segment. -/
theorem page_bounds (hpos : 1 ≤ filesz.toNat) (hend : vaddr.toNat + filesz.toNat ≤ 2 ^ 32) :
    vaddr.toNat / 4096 + (lastPage filesz vaddr - vaddr.toNat / 4096 + 1) = lastPage filesz vaddr + 1 ∧
      lastPage filesz vaddr < 2 ^ 20 := by
  unfold lastPage
  omega

/-- Two page tables in frame 0, and a segment that ends within the last of them. -/
theorem TablesLost.not_mapped (hlost : TablesLost m filesz vaddr) (hpos : 1 ≤ filesz.toNat)
    (hend : vaddr.toNat + filesz.toNat ≤ 2 ^ 32) (hbelow : ZeroBelow m (vaddr.toNat / 4096))
    (hrest : VisitedAll m (vaddr.toNat / 4096) (lastPage filesz vaddr - vaddr.toNat / 4096 + 1) m') :
    ∃ v, vaddr.toNat / 4096 ≤ v ∧ v ≤ lastPage filesz vaddr ∧ m'.walk m'.cr3 v = none := by
  obtain ⟨hcount, hlast⟩ := page_bounds hpos hend
  have hne := hlost.lastPage_ne
  obtain ⟨j, hs⟩ := hrest.short (by omega) hbelow (by have := hlost.tables; omega)
  obtain ⟨i, hi, hij, hzero⟩ := hs.two hlost.tables
  obtain ⟨⟨u, hulo, huhi, hu⟩, -⟩ := mem_lacks_iff.mp hi
  obtain ⟨⟨w, hwlo, hwhi, hw⟩, -⟩ := mem_lacks_iff.mp hs.lack
  have hmem : lastPage filesz vaddr / 1024 ∈
      m.lacks (vaddr.toNat / 4096) (lastPage filesz vaddr - vaddr.toNat / 4096 + 1) :=
    mem_lacks_iff.mpr ⟨⟨lastPage filesz vaddr, by omega, by omega, rfl⟩, hlost.lastTable⟩
  have hle := hs.last _ hmem
  have hidx : (1024 * i + 1023) / 1024 = i := by omega
  refine ⟨1024 * i + 1023, by omega, by omega, ?_⟩
  by_contra hpage
  have hin := (hs.walk_ne_none hrest (by omega) (by omega) (hidx.symm ▸ hzero)).mp hpage
  omega

/-- Otherwise the pages that were visited are mapped. -/
theorem VisitedAll.mapped (hrest : VisitedAll m q n m') (hend : q + n ≤ 2 ^ 20)
    (hzero : ∀ i, i < 1024 → m.HasTable i → m.table i ≠ 0)
    (hcover : m.missingTables q n ≤ m.freeFrames .pfKernel + 1 ∨
      ∀ i, i ∈ m.lacks q n → (∀ i' ∈ m.lacks q n, i' ≤ i) → 1024 * i + 1023 < q + n)
    (hlo : q ≤ v) (hhi : v < q + n) :
    m'.walk m'.cr3 v ≠ none ∧ ∀ g, m.walk m.cr3 v = some g → m'.walk m'.cr3 v = some g := by
  by_cases hfit : m.missingTables q n ≤ m.freeFrames .pfKernel
  · have hc := hrest.complete hend hfit
    exact ⟨hc.mapped v hlo hhi, fun g hg => hc.keeps v g (by omega) hg⟩
  · have hbelow : ZeroBelow m q := fun i hi hti h0 => absurd h0 (hzero i hi hti)
    obtain ⟨j, hs⟩ := hrest.short hend hbelow (by omega)
    constructor
    · by_cases h0 : m'.table (v / 1024) = 0
      · rw [hs.walk_ne_none hrest hlo hhi h0]
        by_cases hone : m.missingTables q n ≤ m.freeFrames .pfKernel + 1
        · have hidx : v / 1024 = j :=
            (hs.one hone _ (hrest.hasTable_page hlo hhi) h0).resolve_right
              fun hold => hzero _ (by omega) hold.1 hold.2
          omega
        · obtain ⟨i, hi, hij, -⟩ := hs.two (by omega)
          obtain ⟨⟨u, hulo, huhi, hu⟩, -⟩ := mem_lacks_iff.mp hi
          have hfull := hcover.resolve_left hone j hs.lack hs.last
          omega
      · exact hs.mapped v hlo hhi h0
    · intro g hg
      exact hs.keeps v g (by omega) hg (hzero _ (by omega) (Memory.walk_eq_some.mp hg).1)

/-- The pages of a segment that a process loads are visited and mapped, exactly unless two or more of its
page tables get no frame and the segment ends within the last of them. -/
theorem segmentCovered_iff (h : MemInv m) (ht : m.task m.cur = some t) (hne : t.pgdir ≠ 0)
    (hpos : 1 ≤ filesz.toNat) (hend : vaddr.toNat + filesz.toNat ≤ 2 ^ 32) :
    SegmentCovered m filesz vaddr ↔ ¬ TablesLost m filesz vaddr := by
  have hload := Loading.of_memInv h ht hne
  have hzero := zeroBelow_of_memInv h ht hne
  have hbelow : ZeroBelow m (vaddr.toNat / 4096) := fun i hi hti h0 => absurd h0 (hzero i hi hti)
  have hloop := segmentLoad_eq hpos hend
  obtain ⟨hcount, hlast⟩ := page_bounds hpos hend
  have hp : (vaddrFirstPage vaddr).toNat = 4096 * (vaddr.toNat / 4096) % 2 ^ 32 := by
    have hlt := vaddr.toNat_lt
    rw [toNat_vaddrFirstPage, Nat.mod_eq_of_lt (by omega)]
  constructor
  · intro hcovered hlost
    have hmap : ∀ v, vaddr.toNat / 4096 ≤ v → v < vaddr.toNat / 4096 + (lastPage filesz vaddr - vaddr.toNat / 4096 + 1) →
        m.walk m.cr3 v = none → userVaddrStart ≤ v ∧ v < kernelBase :=
      fun v hlo hhi hnone => hlost.inMap v hlo (by omega) hnone
    have hret := hload.segmentLoop_returns hp (by omega) hbelow hmap hlost.frames
    rw [← hloop] at hret
    obtain ⟨r, m', hrun, rfl, hrest⟩ := Exec.returns_iff.mp hret
    obtain ⟨v, hlo, hhi, hnone⟩ := hlost.not_mapped hpos hend hbelow hrest
    obtain ⟨x, hxlo, hxhi, rfl⟩ := (exists_byte_iff hpos).mpr ⟨hlo, hhi⟩
    exact (hcovered.mapped.of_ok hrun rfl x hxlo hxhi).1 hnone
  · intro hnot
    obtain ⟨hnodup, hvisits⟩ := segmentPages_spec hpos hend
    refine ⟨segmentLoop_eq_allM _ _, toNat_occupyPages hpos hend, hnodup, hvisits, ?_⟩
    have hens := hload.segmentLoop_ensures hp (by omega : vaddr.toNat / 4096 +
      (lastPage filesz vaddr - vaddr.toNat / 4096 + 1) ≤ 2 ^ 20)
    rw [← hloop] at hens
    apply hens.mono
    intro r m' hrest htrue x hxlo hxhi
    have hrest := hrest htrue
    obtain ⟨hlo, hhi⟩ := (exists_byte_iff hpos).mp ⟨x, hxlo, hxhi, rfl⟩
    apply hrest.mapped (by omega) hzero _ hlo (by omega)
    by_cases htables : m.freeFrames .pfKernel + 2 ≤
        m.missingTables (vaddr.toNat / 4096) (lastPage filesz vaddr - vaddr.toNat / 4096 + 1)
    · right
      intro i hi hmax
      obtain ⟨⟨u, hulo, huhi, hu⟩, hti⟩ := mem_lacks_iff.mp hi
      rcases Nat.lt_or_ge i (lastPage filesz vaddr / 1024) with hlt | hge
      · omega
      · have hidx : i = lastPage filesz vaddr / 1024 := by omega
        by_contra hshort
        have hlow : i < 768 := by
          by_contra hhigh
          exact hti (hasTable_kernel h ht hne (by omega) (by omega))
        obtain ⟨hmap, hframes⟩ := hrest.room (by unfold kernelBase; omega) hbelow
        exact hnot ⟨fun v hlo' hhi' => hmap v hlo' (by omega), hframes, htables, hidx ▸ hti, by omega⟩
    · exact .inl (by omega)

end Iff

/-- Two pages of a process with frames for its page tables. -/
theorem segmentCovered_iff_process : ∃ m, Exec.Run PageCall.exec (fun m c => c.Admitted m ∧ c.TablesFit m)
    (Memory.boot 0x400000) m ∧ m.RunsProcess ∧ SegmentCovered m 0x2000 0x083ff000 := by
  have hany : (Exec.runList PageCall.exec (fun m c => c.Asks m ∧ c.TablesFit m)
      [.processExecute, .switchTo 0xc0100] (Memory.boot 0x400000)).any (fun m =>
        decide m.RunsProcess && decide (m.missingTables 0x83ff 2 < m.freeFrames .pfKernel + 2)) = true := by
    decide +kernel
  obtain ⟨m, hrun, hm⟩ := Exec.Run.exists_of_any hany
  obtain ⟨hproc, htables⟩ := Bool.and_eq_true_iff.mp hm
  have hrun : Exec.Run PageCall.exec (fun m c => c.Admitted m ∧ c.TablesFit m) (Memory.boot 0x400000) m :=
    hrun.mono fun _ _ hok => ⟨hok.1.2, hok.2⟩
  obtain ⟨t, ht, hne⟩ := (of_decide_eq_true hproc).task
  have hinv : MemInv m := hrun.invariant memInv_boot fun _ _ h hok => PageCall.exec_memInv h hok.1 hok.2
  refine ⟨m, hrun, of_decide_eq_true hproc, (segmentCovered_iff hinv ht hne (by decide) (by decide)).mpr ?_⟩
  exact fun hlost => Nat.not_le.mpr (of_decide_eq_true htables) hlost.tables

/-- With the kernel pool used up, the first of two pages on both sides of a page table is lost. -/
theorem not_segmentCovered : ∃ m, Exec.Run PageCall.exec (fun m c => c.Admitted m ∧ c.TablesFit m)
    (Memory.boot 0x240000) m ∧ m.RunsProcess ∧ ¬ SegmentCovered m 0x2000 0x083ff000 := by
  have hany : (Exec.runList PageCall.exec (fun m c => c.Asks m ∧ c.TablesFit m)
      [.processExecute, .getKernelPages 7, .switchTo 0xc0100] (Memory.boot 0x240000)).any (fun m =>
        decide m.RunsProcess && (segmentLoad 0x2000 0x083ff000 m).toOption.any fun r =>
          r.1 && (r.2.walk r.2.cr3 0x83ff).isNone) = true := by
    decide +kernel
  obtain ⟨m, hrun, hm⟩ := Exec.Run.exists_of_any hany
  obtain ⟨hproc, hlost⟩ := Bool.and_eq_true_iff.mp hm
  refine ⟨m, hrun.mono fun _ _ hok => ⟨hok.1.2, hok.2⟩, of_decide_eq_true hproc, fun hcovered => ?_⟩
  cases hload : segmentLoad 0x2000 0x083ff000 m with
  | error e =>
    rw [hload] at hlost
    cases hlost
  | ok r =>
    obtain ⟨r, m'⟩ := r
    rw [hload] at hlost
    obtain ⟨htrue, hnone⟩ := Bool.and_eq_true_iff.mp hlost
    have hmapped := hcovered.mapped.of_ok hload htrue 0x083ff000 (by decide) (by decide)
    exact hmapped.1 (Option.isNone_iff_eq_none.mp hnone)

end Segment
end Winx
