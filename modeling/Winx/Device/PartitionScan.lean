import Winx.Fs.State

/-! # Scanning partitions

`partition_scan` records the partitions of a disk while it follows the extended entries
of its boot records, wherever they lead. The start of the first extended partition, to
which the other links are relative, and the numbers of the partitions found are global.
A record is left early at the eighth logical partition, but not the records that led to it.
-/

namespace Winx

/-- The part of `struct partition` that a scan fills in, with the number behind the name of the disk. -/
structure ScannedPart where
  startLba : UInt32
  secCnt : UInt32
  number : ℕ
  deriving DecidableEq, Repr

/-- `prim_parts` and `logic_parts` of a disk. -/
structure DiskParts where
  primParts : ℕ → Option ScannedPart
  logicParts : ℕ → Option ScannedPart

/-- `ext_lba_base`, `p_no`, `l_no`, the disks and `partition_list`, whose elements are named by disk
and number. `mallocs` is what the next calls of `sys_malloc` answer. -/
structure ScanState where
  extLbaBase : UInt32
  pNo : ℕ
  lNo : ℕ
  disks : ℕ → DiskParts
  partitionList : List (ℕ × ℕ)
  mallocs : ℕ → Bool

/-- Code that scans disks. -/
abbrev ScanM (α : Type) := Exec ScanState Fault α

/-- `struct partition_table_entry`, as far as a scan reads it. -/
structure TableEntry where
  fsType : UInt8
  startLba : UInt32
  secCnt : UInt32
  deriving DecidableEq, Repr

/-- `bs->partition_table[k]` of the boot record at `lba`. -/
def tableEntry (image : Bytes) (lba : UInt32) (k : ℕ) : TableEntry where
  fsType := image (lba.toNat * 512 + 446 + 16 * k + 4)
  startLba := image.word (lba.toNat * 512 + 446 + 16 * k + 8)
  secCnt := image.word (lba.toNat * 512 + 446 + 16 * k + 12)

namespace ScanState

variable (s : ScanState)

/-- Use up an answer of `sys_malloc`. -/
@[simps -fullyApplied] def tick : ScanState := { s with mallocs := fun n => s.mallocs (n + 1) }

/-- Change the start of the extended partition. -/
@[simps -fullyApplied] def setBase (base : UInt32) : ScanState := { s with extLbaBase := base }

/-- Record a primary partition. -/
@[simps -fullyApplied] def addPrim (hd : ℕ) (startLba secCnt : UInt32) : ScanState :=
  { s with
    pNo := s.pNo + 1
    disks := Function.update s.disks hd { s.disks hd with
      primParts := Function.update (s.disks hd).primParts s.pNo
        (some ⟨startLba, secCnt, s.pNo + 1⟩) }
    partitionList := s.partitionList ++ [(hd, s.pNo + 1)] }

/-- Record a logical partition. -/
@[simps -fullyApplied] def addLogic (hd : ℕ) (startLba secCnt : UInt32) : ScanState :=
  { s with
    lNo := s.lNo + 1
    disks := Function.update s.disks hd { s.disks hd with
      logicParts := Function.update (s.disks hd).logicParts s.lNo
        (some ⟨startLba, secCnt, s.lNo + 5⟩) }
    partitionList := s.partitionList ++ [(hd, s.lNo + 5)] }

end ScanState

/-- The loop of `partition_scan` over the `n` entries from entry `k` on of the record at `extLba`. -/
def scanEntries (image : Bytes) (hd : ℕ) (scan : UInt32 → ScanM Unit) (extLba : UInt32) :
    ℕ → ℕ → ScanM Unit
  | 0, _ => pure ()
  | n + 1, k => do
    let p := tableEntry image extLba k
    let s ← get
    if p.fsType = 0x5 then
      if s.extLbaBase ≠ 0 then scan (p.startLba + s.extLbaBase)
      else
        set (s.setBase p.startLba)
        scan p.startLba
      scanEntries image hd scan extLba n (k + 1)
    else if p.fsType ≠ 0 then
      if extLba = 0 then
        inBounds (s.pNo < 4)
        set (s.addPrim hd (extLba + p.startLba) p.secCnt)
        assert (s.pNo + 1 < 4)
        scanEntries image hd scan extLba n (k + 1)
      else
        inBounds (s.lNo < 8)
        set (s.addLogic hd (extLba + p.startLba) p.secCnt)
        if 8 ≤ s.lNo + 1 then pure () else scanEntries image hd scan extLba n (k + 1)
    else scanEntries image hd scan extLba n (k + 1)

/-- `partition_scan`. The record is read into memory that is not checked. -/
def partitionScan (image : Bytes) (hd : ℕ) : ℕ → UInt32 → ScanM Unit
  | 0, _ => throw .diverged
  | fuel + 1, extLba => do
    let s ← get
    set s.tick
    if s.mallocs 0 then
      assert (extLba ≤ maxLba)
      scanEntries image hd (partitionScan image hd fuel) extLba 4 0
    else throw .badPointer

/-- The way through the entries that are left of a boot record: entries without a partition, primary
and logical partitions, a logical partition at which the record is left, and links to other records,
each with the start of the extended partition from there on. -/
inductive RecordTree
  | done
  | skip (rest : RecordTree)
  | prim (startLba secCnt : UInt32) (rest : RecordTree)
  | logic (startLba secCnt : UInt32) (rest : RecordTree)
  | last (startLba secCnt : UInt32)
  | link (base : UInt32) (record rest : RecordTree)

namespace RecordTree

/-- The start of the extended partition after a walk, if it was `base` before. -/
def base (base₀ : UInt32) : RecordTree → UInt32
  | done => base₀
  | skip rest => rest.base base₀
  | prim _ _ rest => rest.base base₀
  | logic _ _ rest => rest.base base₀
  | last _ _ => base₀
  | link base record rest => rest.base (record.base base)

/-- How many links are followed. -/
def links : RecordTree → ℕ
  | done => 0
  | skip rest => rest.links
  | prim _ _ rest => rest.links
  | logic _ _ rest => rest.links
  | last _ _ => 0
  | link _ record rest => record.links + 1 + rest.links

/-- How many links are followed one below the other. -/
def depth : RecordTree → ℕ
  | done => 0
  | skip rest => rest.depth
  | prim _ _ rest => rest.depth
  | logic _ _ rest => rest.depth
  | last _ _ => 0
  | link _ record rest => max (record.depth + 1) rest.depth

/-- The primary partitions that are met, with their starts and sizes. -/
def prims : RecordTree → List (UInt32 × UInt32)
  | done => []
  | skip rest => rest.prims
  | prim startLba secCnt rest => (startLba, secCnt) :: rest.prims
  | logic _ _ rest => rest.prims
  | last _ _ => []
  | link _ record rest => record.prims ++ rest.prims

/-- The logical partitions that are met. -/
def logics : RecordTree → List (UInt32 × UInt32)
  | done => []
  | skip rest => rest.logics
  | prim _ _ rest => rest.logics
  | logic startLba secCnt rest => (startLba, secCnt) :: rest.logics
  | last startLba secCnt => [(startLba, secCnt)]
  | link _ record rest => record.logics ++ rest.logics

/-- With `n` logical partitions before, a record is left exactly at the eighth, and no logical
partition comes after it. -/
def LeftAtEighth : ℕ → RecordTree → Prop
  | _, done => True
  | n, skip rest => rest.LeftAtEighth n
  | n, prim _ _ rest => rest.LeftAtEighth n
  | n, logic _ _ rest => n + 1 < 8 ∧ rest.LeftAtEighth (n + 1)
  | n, last _ _ => n + 1 = 8
  | n, link _ record rest => record.LeftAtEighth n ∧ rest.LeftAtEighth (n + record.logics.length)

/-- The state after recording what is met. -/
def recorded (hd : ℕ) : RecordTree → ScanState → ScanState
  | done, s => s
  | skip rest, s => rest.recorded hd s
  | prim startLba secCnt rest, s => rest.recorded hd (s.addPrim hd startLba secCnt)
  | logic startLba secCnt rest, s => rest.recorded hd (s.addLogic hd startLba secCnt)
  | last startLba secCnt, s => s.addLogic hd startLba secCnt
  | link base record rest, s => rest.recorded hd (record.recorded hd (s.setBase base).tick)

end RecordTree

/-- The start of the extended partition once an extended entry is met. -/
def linkBase (base : UInt32) (p : TableEntry) : UInt32 := if base ≠ 0 then base else p.startLba

/-- The record an extended entry leads to. -/
def linkLba (base : UInt32) (p : TableEntry) : UInt32 :=
  if base ≠ 0 then p.startLba + base else p.startLba

/-- The tree describes the disk from entry `k` of the record at `lba` on, with `n` entries left, if
the extended partition starts at `base`. -/
inductive Describes (image : Bytes) : UInt32 → UInt32 → ℕ → ℕ → RecordTree → Prop
  | done {base lba : UInt32} {k : ℕ} : Describes image base lba 0 k .done
  | skip {base lba : UInt32} {n k : ℕ} {rest : RecordTree} :
      (tableEntry image lba k).fsType = 0 → Describes image base lba n (k + 1) rest →
      Describes image base lba (n + 1) k (.skip rest)
  | prim {base lba : UInt32} {n k : ℕ} {rest : RecordTree} :
      (tableEntry image lba k).fsType ≠ 0 → (tableEntry image lba k).fsType ≠ 5 → lba = 0 →
      Describes image base lba n (k + 1) rest →
      Describes image base lba (n + 1) k (.prim (lba + (tableEntry image lba k).startLba)
        (tableEntry image lba k).secCnt rest)
  | logic {base lba : UInt32} {n k : ℕ} {rest : RecordTree} :
      (tableEntry image lba k).fsType ≠ 0 → (tableEntry image lba k).fsType ≠ 5 → lba ≠ 0 →
      Describes image base lba n (k + 1) rest →
      Describes image base lba (n + 1) k (.logic (lba + (tableEntry image lba k).startLba)
        (tableEntry image lba k).secCnt rest)
  | last {base lba : UInt32} {n k : ℕ} :
      (tableEntry image lba k).fsType ≠ 0 → (tableEntry image lba k).fsType ≠ 5 → lba ≠ 0 →
      Describes image base lba (n + 1) k (.last (lba + (tableEntry image lba k).startLba)
        (tableEntry image lba k).secCnt)
  | link {base lba : UInt32} {n k : ℕ} {record rest : RecordTree} :
      (tableEntry image lba k).fsType = 5 → linkLba base (tableEntry image lba k) ≤ maxLba →
      Describes image (linkBase base (tableEntry image lba k))
        (linkLba base (tableEntry image lba k)) 4 0 record →
      Describes image (record.base (linkBase base (tableEntry image lba k))) lba n (k + 1) rest →
      Describes image base lba (n + 1) k
        (.link (linkBase base (tableEntry image lba k)) record rest)

/-- A walk for which there is room: each record is left in time, the numbers of the partitions stay
within their tables, and each record is read into memory. -/
structure RecordTree.Fits (tree : RecordTree) (s : ScanState) : Prop where
  leaves : tree.LeftAtEighth s.lNo
  prims : tree.prims = [] ∨ s.pNo + tree.prims.length < 4
  memory : ∀ i < tree.links, s.mallocs i = true

variable {image : Bytes} {hd : ℕ} {s s' : ScanState} {tree record rest : RecordTree} {lba base : UInt32}
  {n k fuel : ℕ}

section Recorded

namespace RecordTree

theorem recorded_extLbaBase : (tree.recorded hd s).extLbaBase = tree.base s.extLbaBase := by
  induction tree generalizing s with
  | done => rfl
  | skip rest ih => exact ih
  | prim _ _ rest ih => exact ih
  | logic _ _ rest ih => exact ih
  | last => rfl
  | link base record rest ihr ih =>
    rw [recorded, ih, ihr]
    rfl

theorem recorded_pNo : (tree.recorded hd s).pNo = s.pNo + tree.prims.length := by
  induction tree generalizing s with
  | done => rfl
  | skip rest ih => exact ih
  | prim _ _ rest ih =>
    rw [recorded, ih, prims, ScanState.addPrim_pNo, List.length_cons]
    omega
  | logic _ _ rest ih => exact ih
  | last => rfl
  | link base record rest ihr ih =>
    rw [recorded, ih, ihr, prims, List.length_append]
    exact Nat.add_assoc ..

theorem recorded_lNo : (tree.recorded hd s).lNo = s.lNo + tree.logics.length := by
  induction tree generalizing s with
  | done => rfl
  | skip rest ih => exact ih
  | prim _ _ rest ih => exact ih
  | logic _ _ rest ih =>
    rw [recorded, ih, logics, ScanState.addLogic_lNo, List.length_cons]
    omega
  | last => rfl
  | link base record rest ihr ih =>
    rw [recorded, ih, ihr, logics, List.length_append]
    exact Nat.add_assoc ..

theorem recorded_mallocs (i : ℕ) :
    (tree.recorded hd s).mallocs i = s.mallocs (i + tree.links) := by
  induction tree generalizing s i with
  | done => rfl
  | skip rest ih => exact ih i
  | prim _ _ rest ih => exact ih i
  | logic _ _ rest ih => exact ih i
  | last => rfl
  | link base record rest ihr ih =>
    rw [recorded, ih, ihr, links]
    change s.mallocs (i + rest.links + record.links + 1) = _
    congr 1
    omega

end RecordTree

end Recorded

section Entries

variable {scan : UInt32 → ScanM Unit} {Q : Unit → ScanState → Prop} {E : Fault → Prop}

theorem setBase_linkBase (s : ScanState) (p : TableEntry) :
    (if s.extLbaBase ≠ 0 then s else s.setBase p.startLba) =
      s.setBase (linkBase s.extLbaBase p) := by
  unfold linkBase
  split
  · rfl
  · rfl

/-- An entry without a partition. -/
theorem post_scanEntries_skip (h : (tableEntry image lba k).fsType = 0) :
    Exec.Post (scanEntries image hd scan lba (n + 1) k) s Q E ↔
      Exec.Post (scanEntries image hd scan lba n (k + 1)) s Q E := by
  simp only [scanEntries, h, Exec.post_bind, Exec.post_get, Exec.post_ite]
  simp

/-- A link to another record. -/
theorem post_scanEntries_link (h : (tableEntry image lba k).fsType = 5) :
    Exec.Post (scanEntries image hd scan lba (n + 1) k) s Q E ↔
      Exec.Post (scan (linkLba s.extLbaBase (tableEntry image lba k)))
        (s.setBase (linkBase s.extLbaBase (tableEntry image lba k)))
        (fun _ s' => Exec.Post (scanEntries image hd scan lba n (k + 1)) s' Q E) E := by
  simp only [scanEntries, h, Exec.post_bind, Exec.post_get, Exec.post_ite, true_implies,
    not_true_eq_false, false_implies, and_true]
  rw [← setBase_linkBase, linkLba]
  split
  · rename_i hbase
    exact ⟨fun h => h.1 hbase, fun h => ⟨fun _ => h, fun hn => absurd hbase hn⟩⟩
  · rename_i hbase
    exact ⟨fun h => h.2 hbase, fun h => ⟨fun hn => absurd hn hbase, fun _ => h⟩⟩

/-- A primary partition. -/
theorem post_scanEntries_prim (h0 : (tableEntry image lba k).fsType ≠ 0)
    (h5 : (tableEntry image lba k).fsType ≠ 5) (hlba : lba = 0) :
    Exec.Post (scanEntries image hd scan lba (n + 1) k) s Q E ↔
      (s.pNo + 1 < 4 → Exec.Post (scanEntries image hd scan lba n (k + 1))
        (s.addPrim hd (lba + (tableEntry image lba k).startLba) (tableEntry image lba k).secCnt) Q E) ∧
      (s.pNo + 1 = 4 → E .assertFailed) ∧ (4 ≤ s.pNo → E .outOfBounds) := by
  simp only [scanEntries, Exec.post_bind, Exec.post_get, if_neg h5, if_pos h0, if_pos hlba,
    post_inBounds, Exec.post_set, post_assert]
  constructor
  · rintro ⟨hin, hout⟩
    exact ⟨fun hlt => (hin (by omega)).1 hlt, fun heq => (hin (by omega)).2 (by omega),
      fun hle => hout (by omega)⟩
  · rintro ⟨hgo, hstop, hout⟩
    exact ⟨fun _ => ⟨hgo, fun hn => hstop (by omega)⟩, fun hn => hout (by omega)⟩

/-- A logical partition. -/
theorem post_scanEntries_logic (h0 : (tableEntry image lba k).fsType ≠ 0)
    (h5 : (tableEntry image lba k).fsType ≠ 5) (hlba : lba ≠ 0) :
    Exec.Post (scanEntries image hd scan lba (n + 1) k) s Q E ↔
      (s.lNo + 1 < 8 → Exec.Post (scanEntries image hd scan lba n (k + 1))
        (s.addLogic hd (lba + (tableEntry image lba k).startLba) (tableEntry image lba k).secCnt) Q E) ∧
      (s.lNo + 1 = 8 → Q () (s.addLogic hd (lba + (tableEntry image lba k).startLba)
        (tableEntry image lba k).secCnt)) ∧ (8 ≤ s.lNo → E .outOfBounds) := by
  simp only [scanEntries, Exec.post_bind, Exec.post_get, if_neg h5, if_pos h0, if_neg hlba,
    post_inBounds, Exec.post_set, Exec.post_ite, Exec.post_pure]
  constructor
  · rintro ⟨hin, hout⟩
    exact ⟨fun hlt => (hin (by omega)).2 (by omega), fun heq => (hin (by omega)).1 (by omega),
      fun hle => hout (by omega)⟩
  · rintro ⟨hgo, hleave, hout⟩
    exact ⟨fun _ => ⟨fun hle => hleave (by omega), fun hn => hgo (by omega)⟩,
      fun hn => hout (by omega)⟩

/-- Reading a record. -/
theorem post_partitionScan : Exec.Post (partitionScan image hd (fuel + 1) lba) s Q E ↔
    (s.mallocs 0 = true → lba ≤ maxLba →
      Exec.Post (scanEntries image hd (partitionScan image hd fuel) lba 4 0) s.tick Q E) ∧
    (s.mallocs 0 = true → ¬ lba ≤ maxLba → E .assertFailed) ∧
    (s.mallocs 0 = false → E .badPointer) := by
  rw [partitionScan]
  simp only [Exec.post_bind, Exec.post_get, Exec.post_set, Exec.post_ite, post_assert,
    Exec.post_throw, Bool.not_eq_true]
  exact ⟨fun h => ⟨fun hm => (h.1 hm).1, fun hm => (h.1 hm).2, h.2⟩,
    fun h => ⟨fun hm => ⟨h.1 hm, h.2.1 hm⟩, h.2.2⟩⟩

end Entries

section Scan

/-- The scan follows a tree that describes the disk, if it fits. -/
theorem scanEntries_of_tree (hd : ℕ) (h : Describes image base lba n k tree) (hbase : s.extLbaBase = base)
    (hfits : tree.Fits s) (hfuel : tree.depth ≤ fuel) :
    Exec.Returns (scanEntries image hd (partitionScan image hd fuel) lba n k) s fun _ s' =>
      s' = tree.recorded hd s := by
  induction h generalizing s fuel with
  | done => exact rfl
  | skip htype _ ih =>
    exact (post_scanEntries_skip htype).mpr
      (ih hbase ⟨hfits.leaves, hfits.prims, hfits.memory⟩ hfuel)
  | @prim base lba n k rest h0 h5 hlba _ ih =>
    have hprims : s.pNo + (rest.prims.length + 1) < 4 :=
      hfits.prims.resolve_left (List.cons_ne_nil _ _)
    refine (post_scanEntries_prim h0 h5 hlba).mpr ⟨fun _ => ?_, fun _ => by omega, fun _ => by omega⟩
    refine ih hbase ⟨hfits.leaves, .inr ?_, hfits.memory⟩ hfuel
    rw [ScanState.addPrim_pNo]
    omega
  | logic h0 h5 hlba _ ih =>
    obtain ⟨hlt, hleaves⟩ := hfits.leaves
    refine (post_scanEntries_logic h0 h5 hlba).mpr
      ⟨fun _ => ?_, fun _ => by omega, fun _ => by omega⟩
    exact ih hbase ⟨hleaves, hfits.prims, hfits.memory⟩ hfuel
  | last h0 h5 hlba =>
    have heq : s.lNo + 1 = 8 := hfits.leaves
    exact (post_scanEntries_logic h0 h5 hlba).mpr
      ⟨fun _ => by omega, fun _ => rfl, fun _ => by omega⟩
  | @link base lba n k record rest htype hmax _ _ ihr ih =>
    subst hbase
    obtain ⟨hleaves, hleaves'⟩ := hfits.leaves
    have hmem := hfits.memory
    rw [RecordTree.links] at hmem
    have hprims := hfits.prims
    rw [RecordTree.prims, List.append_eq_nil_iff, List.length_append] at hprims
    rw [RecordTree.depth] at hfuel
    obtain ⟨fuel, rfl⟩ : ∃ m, fuel = m + 1 := ⟨fuel - 1, by omega⟩
    set B := linkBase s.extLbaBase (tableEntry image lba k)
    have hrecord : record.Fits (s.setBase B).tick := by
      refine ⟨hleaves, ?_, fun i hi => hmem (i + 1) (by omega)⟩
      change record.prims = [] ∨ s.pNo + record.prims.length < 4
      exact hprims.imp And.left fun h => by omega
    have hrest : rest.Fits (record.recorded hd (s.setBase B).tick) := by
      refine ⟨?_, ?_, fun i hi => ?_⟩
      · rw [RecordTree.recorded_lNo]
        exact hleaves'
      · rw [RecordTree.recorded_pNo]
        change rest.prims = [] ∨ s.pNo + record.prims.length + rest.prims.length < 4
        exact hprims.imp And.right fun h => by omega
      · rw [RecordTree.recorded_mallocs]
        exact hmem (i + record.links + 1) (by omega)
    refine (post_scanEntries_link htype).mpr (post_partitionScan.mpr ⟨fun _ _ => ?_, fun _ hbad => ?_,
      fun hbad => ?_⟩)
    · refine (ihr (s := (s.setBase B).tick) rfl hrecord (by omega : record.depth ≤ fuel)).mono ?_
      rintro _ _ rfl
      exact ih RecordTree.recorded_extLbaBase hrest (by omega)
    · exact absurd hmax hbad
    · exact absurd ((hmem 0 (by omega)).symm.trans hbad) nofun

/-- A scan of a record for which there is room. -/
theorem partitionScan_of_tree (hd : ℕ) (h : Describes image s.extLbaBase lba 4 0 tree)
    (hmax : lba ≤ maxLba) (hmem : s.mallocs 0 = true) (hfits : tree.Fits s.tick)
    (hfuel : tree.depth < fuel) :
    Exec.Returns (partitionScan image hd fuel lba) s fun _ s' => s' = tree.recorded hd s.tick := by
  obtain ⟨fuel, rfl⟩ : ∃ m, fuel = m + 1 := ⟨fuel - 1, by omega⟩
  refine post_partitionScan.mpr ⟨fun _ _ => ?_, fun _ hbad => absurd hmax hbad, fun hbad => ?_⟩
  · exact scanEntries_of_tree hd h rfl hfits (Nat.le_of_lt_succ hfuel)
  · exact absurd (hmem.symm.trans hbad) nofun

end Scan

section Bounds

end Bounds

end Winx
