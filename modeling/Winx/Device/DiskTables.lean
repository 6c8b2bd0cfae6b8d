import Winx.Device.PartitionScan

/-! # Scanning well-formed disks

On a disk with at most three primary partitions and at most eight logical ones, whose
records lead on to others without end and can be read, a scan records just these
partitions, as long as no disk scanned before has left the start of its own extended
partition behind.
-/

namespace Winx

/-- A boot record of the extended partition that starts at `base`, from entry `k` on: the records it
leads to and the logical partitions, relative to the start of their records. -/
inductive Extended (image : Bytes) (base : UInt32) :
    UInt32 → ℕ → ℕ → List UInt32 → List (UInt32 × UInt32) → Prop
  | done {lba : UInt32} {k : ℕ} : Extended image base lba 0 k [] []
  | empty {lba : UInt32} {n k : ℕ} {records : List UInt32} {logics : List (UInt32 × UInt32)} :
      (tableEntry image lba k).fsType = 0 → Extended image base lba n (k + 1) records logics →
      Extended image base lba (n + 1) k records logics
  | logical {lba : UInt32} {n k : ℕ} {records : List UInt32} {logics : List (UInt32 × UInt32)} :
      (tableEntry image lba k).fsType ≠ 0 → (tableEntry image lba k).fsType ≠ 5 →
      Extended image base lba n (k + 1) records logics →
      Extended image base lba (n + 1) k records
        ((lba + (tableEntry image lba k).startLba, (tableEntry image lba k).secCnt) :: logics)
  | link {lba : UInt32} {n k : ℕ} {records records' : List UInt32}
      {logics logics' : List (UInt32 × UInt32)} :
      (tableEntry image lba k).fsType = 5 → (tableEntry image lba k).startLba + base ≠ 0 →
      Extended image base ((tableEntry image lba k).startLba + base) 4 0 records logics →
      Extended image base lba n (k + 1) records' logics' →
      Extended image base lba (n + 1) k
        (((tableEntry image lba k).startLba + base) :: (records ++ records')) (logics ++ logics')

/-- The first boot record of a disk, from entry `k` on: its primary partitions, and the records and
logical partitions of its extended one, if it has one. -/
inductive FirstRecord (image : Bytes) :
    ℕ → ℕ → List (UInt32 × UInt32) → List UInt32 → List (UInt32 × UInt32) → Prop
  | done {k : ℕ} : FirstRecord image 0 k [] [] []
  | empty {n k : ℕ} {prims logics : List (UInt32 × UInt32)} {records : List UInt32} :
      (tableEntry image 0 k).fsType = 0 → FirstRecord image n (k + 1) prims records logics →
      FirstRecord image (n + 1) k prims records logics
  | primary {n k : ℕ} {prims logics : List (UInt32 × UInt32)} {records : List UInt32} :
      (tableEntry image 0 k).fsType ≠ 0 → (tableEntry image 0 k).fsType ≠ 5 →
      FirstRecord image n (k + 1) prims records logics →
      FirstRecord image (n + 1) k
        (((tableEntry image 0 k).startLba, (tableEntry image 0 k).secCnt) :: prims) records logics
  | extended {n k : ℕ} {prims logics : List (UInt32 × UInt32)} {records : List UInt32} :
      (tableEntry image 0 k).fsType = 5 → (tableEntry image 0 k).startLba ≠ 0 →
      Extended image (tableEntry image 0 k).startLba (tableEntry image 0 k).startLba 4 0 records
        logics →
      FirstRecord image n (k + 1) prims [] [] →
      FirstRecord image (n + 1) k prims ((tableEntry image 0 k).startLba :: records) logics

/-- A disk with its partitions: at most four entries in the first record, at most one of them extended,
from which a chain without cycles leads to at most eight logical partitions. -/
structure PartitionedDisk where
  hd : ℕ
  image : Bytes
  prims : List (UInt32 × UInt32)
  records : List UInt32
  logics : List (UInt32 × UInt32)
  table : FirstRecord image 4 0 prims records logics
  eight : logics.length ≤ 8

variable {image : Bytes} {base lba : UInt32} {n k m hd : ℕ} {records : List UInt32}
  {prims logics parts parts' : List (UInt32 × UInt32)} {tree : RecordTree} {s : ScanState}
  {old : ℕ → Option ScannedPart}

section Recorded

end Recorded

section Trees

/-- What the scan of a well-formed record follows, with `m` logical partitions before it. -/
structure Follows (image : Bytes) (base base' lba : UInt32) (n k m : ℕ)
    (prims : List (UInt32 × UInt32)) (records : List UInt32) (logics : List (UInt32 × UInt32))
    (tree : RecordTree) : Prop where
  describes : Describes image base lba n k tree
  base : tree.base base = base'
  leaves : tree.LeftAtEighth m
  prims : tree.prims = prims
  logics : tree.logics = logics
  links : tree.links ≤ records.length

/-- The records of an extended partition lead to a tree with its logical partitions. -/
theorem Extended.follows (h : Extended image base lba n k records logics) (hbase : base ≠ 0)
    (hlba : lba ≠ 0) (hmax : ∀ r ∈ records, r ≤ maxLba) (hm : m + logics.length ≤ 8) :
    ∃ tree, Follows image base base lba n k m [] records logics tree := by
  induction h generalizing m with
  | done => exact ⟨.done, .done, rfl, trivial, rfl, rfl, Nat.zero_le _⟩
  | empty h0 _ ih =>
    obtain ⟨tree, h⟩ := ih hlba hmax hm
    exact ⟨.skip tree, .skip h0 h.describes, h.base, h.leaves, h.prims, h.logics, h.links⟩
  | @logical lba n k records logics h0 h5 _ ih =>
    rw [List.length_cons] at hm
    rcases Nat.lt_or_ge (m + 1) 8 with hlt | hge
    · obtain ⟨tree, h⟩ := ih hlba hmax (by omega : m + 1 + logics.length ≤ 8)
      exact ⟨.logic _ _ tree, .logic h0 h5 hlba h.describes, h.base, ⟨hlt, h.leaves⟩, h.prims,
        congrArg (_ :: ·) h.logics, h.links⟩
    · -- the eighth one, at which the record is left
      obtain rfl := List.length_eq_zero_iff.mp (by omega : logics.length = 0)
      have heq : m + 1 = 8 := by omega
      exact ⟨.last _ _, .last h0 h5 hlba, rfl, heq, rfl, rfl, Nat.zero_le _⟩
  | @link lba n k records records' logics logics' h5 hne _ _ ihr ih =>
    rw [List.length_append] at hm
    obtain ⟨record, hr⟩ := ihr hne (fun r hr => hmax r (by simp [hr]))
      (by omega : m + logics.length ≤ 8)
    obtain ⟨rest, h⟩ := ih hlba (fun r hr => hmax r (by simp [hr]))
      (by omega : m + logics.length + logics'.length ≤ 8)
    have hb : linkBase base (tableEntry image lba k) = base := if_pos hbase
    have hl : linkLba base (tableEntry image lba k) = (tableEntry image lba k).startLba + base :=
      if_pos hbase
    refine ⟨.link base record rest, ?_, ?_, ⟨hr.leaves, ?_⟩, ?_, ?_, ?_⟩
    · have hdesc : Describes image base lba (n + 1) k
          (.link (linkBase base (tableEntry image lba k)) record rest) := by
        refine .link h5 ?_ ?_ ?_
        · rw [hl]
          exact hmax _ List.mem_cons_self
        · rw [hb, hl]
          exact hr.describes
        · rw [hb, hr.base]
          exact h.describes
      rwa [hb] at hdesc
    · rw [RecordTree.base, hr.base, h.base]
    · rw [hr.logics]
      exact h.leaves
    · rw [RecordTree.prims, hr.prims, h.prims]
      rfl
    · rw [RecordTree.logics, hr.logics, h.logics]
    · have hr := hr.links
      have hrest := h.links
      rw [RecordTree.links, List.length_cons, List.length_append]
      omega

/-- The first record leads to a tree with the partitions of the disk, if the start of its extended
partition is not taken from elsewhere. -/
theorem FirstRecord.follows (h : FirstRecord image n k prims records logics)
    (hbase : records = [] ∨ base = 0) (hmax : ∀ r ∈ records, r ≤ maxLba)
    (hm : m + logics.length ≤ 8) : ∃ base' tree,
      Follows image base base' 0 n k m prims records logics tree ∧ (records = [] → base' = base) := by
  induction h generalizing base m with
  | done => exact ⟨base, .done, ⟨.done, rfl, trivial, rfl, rfl, Nat.zero_le _⟩, fun _ => rfl⟩
  | empty h0 _ ih =>
    obtain ⟨base', tree, h, hsame⟩ := ih hbase hmax hm
    exact ⟨base', .skip tree, ⟨.skip h0 h.describes, h.base, h.leaves, h.prims, h.logics, h.links⟩,
      hsame⟩
  | @primary n k prims logics records h0 h5 _ ih =>
    obtain ⟨base', tree, h, hsame⟩ := ih hbase hmax hm
    have hzero : (0 : UInt32) + (tableEntry image 0 k).startLba = (tableEntry image 0 k).startLba :=
      UInt32.zero_add _
    refine ⟨base', .prim _ _ tree, ⟨.prim h0 h5 rfl h.describes, h.base, h.leaves, ?_, h.logics,
      h.links⟩, hsame⟩
    rw [RecordTree.prims, h.prims, hzero]
  | @extended n k prims logics records h5 hne hext _ ih =>
    obtain rfl : base = 0 := hbase.resolve_left (List.cons_ne_nil _ _)
    obtain ⟨record, hr⟩ := hext.follows hne hne (fun r hr => hmax r (List.mem_cons_of_mem _ hr)) hm
    obtain ⟨base', rest, h, -⟩ : ∃ base' tree, Follows image (tableEntry image 0 k).startLba base' 0 n
        (k + 1) (m + logics.length) prims [] [] tree ∧ _ := ih (.inl rfl) (by simp) hm
    have hb : linkBase 0 (tableEntry image 0 k) = (tableEntry image 0 k).startLba := rfl
    have hl : linkLba 0 (tableEntry image 0 k) = (tableEntry image 0 k).startLba := rfl
    refine ⟨base', .link (tableEntry image 0 k).startLba record rest,
      ⟨?_, ?_, ⟨hr.leaves, ?_⟩, ?_, ?_, ?_⟩, fun hnil => absurd hnil (List.cons_ne_nil _ _)⟩
    · refine .link h5 (hmax _ List.mem_cons_self) hr.describes ?_
      rw [hb, hr.base]
      exact h.describes
    · rw [RecordTree.base, hr.base, h.base]
    · rw [hr.logics]
      exact h.leaves
    · rw [RecordTree.prims, hr.prims, h.prims]
      rfl
    · rw [RecordTree.logics, hr.logics, h.logics, List.append_nil]
    · have hlinks := hr.links
      have hrest := h.links
      rw [List.length_nil] at hrest
      rw [RecordTree.links, List.length_cons]
      omega

end Trees

section Runs

/-- The state before the first disk is scanned. -/
structure ScanState.Fresh (s : ScanState) : Prop where
  base : s.extLbaBase = 0
  pNo : s.pNo = 0
  lNo : s.lNo = 0
  disks : ∀ hd, s.disks hd = ⟨fun _ => none, fun _ => none⟩

/-- A disk whose scan does not fail, whatever was scanned before. -/
structure PartitionedDisk.Scannable (d : PartitionedDisk) : Prop where
  prims : d.prims.length < 4
  reach : ∀ lba ∈ d.records, lba ≤ maxLba

/-- Scanning a disk. -/
theorem PartitionedDisk.scan (d : PartitionedDisk) (h : d.Scannable)
    (hbase : d.records = [] ∨ s.extLbaBase = 0) (hp : s.pNo = 0) (hl : s.lNo = 0)
    (hmem : ∀ i < d.records.length + 1, s.mallocs i = true) : ∃ base' tree,
      Follows d.image s.extLbaBase base' 0 4 0 0 d.prims d.records d.logics tree ∧
        (d.records = [] → base' = s.extLbaBase) ∧ ∀ fuel, tree.depth < fuel →
          partitionScan d.image d.hd fuel 0 s = .ok ((), tree.recorded d.hd s.tick) := by
  obtain ⟨base', tree, hf, hsame⟩ := d.table.follows hbase h.reach (by have := d.eight; omega :
    0 + d.logics.length ≤ 8)
  refine ⟨base', tree, hf, hsame, fun fuel hfuel => ?_⟩
  have hlinks := hf.links
  have hprims := h.prims
  have hfits : tree.Fits s.tick := by
    refine ⟨?_, .inr ?_, fun i hi => hmem (i + 1) (by omega)⟩
    · rw [ScanState.tick_lNo, hl]
      exact hf.leaves
    · rw [ScanState.tick_pNo, hp, hf.prims]
      omega
  rw [Exec.eq_ok_iff]
  exact (partitionScan_of_tree d.hd hf.describes (by decide) (hmem 0 (by omega)) hfits hfuel).mono
    fun _ _ h => ⟨rfl, h⟩

end Runs

end Winx
