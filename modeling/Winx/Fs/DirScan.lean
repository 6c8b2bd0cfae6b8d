import Winx.Fs.DirShape

/-! # Scanning a directory block

`delete_dir_entry` goes through the entries of a block, counts those other than
`.` and `..`, and notes the one with a given inode number. The counts tell
whether that entry is alone in the block.
-/

namespace Winx

/-- The entry for inode `no`. -/
def DirEntry.Names (e : DirEntry) (no : UInt32) : Prop := e.Counted ∧ e.iNo = no

instance DirEntry.decidableNames (e : DirEntry) (no : UInt32) : Decidable (e.Names no) :=
  inferInstanceAs (Decidable (_ ∧ _))

variable {s : Fs} {disk : Bytes} {lba no : UInt32} {k m : ℕ}

section Scan

/-- What `n` entries of a block add to what was seen of it before. -/
def scanned (disk : Bytes) (lba no : UInt32) (n k : ℕ) (r : BlockScan) : BlockScan where
  isDirFirstBlock := r.isDirFirstBlock || (List.range' k n).any (isDotSlot disk lba)
  dirEntryCnt := r.dirEntryCnt +
    (List.range' k n).countP fun m => decide (slotEntry disk lba m).Counted
  dirEntryFound := r.dirEntryFound.or
    ((List.range' k n).find? fun m => decide ((slotEntry disk lba m).Names no))

/-- An entry for the inode is met after another one. -/
def FoundTwice (disk : Bytes) (lba no : UInt32) (n k : ℕ) (found : Option ℕ) : Prop :=
  ∃ m, k ≤ m ∧ m < k + n ∧ (slotEntry disk lba m).Names no ∧
    (found ≠ none ∨ ∃ m', k ≤ m' ∧ m' < m ∧ (slotEntry disk lba m').Names no)

theorem FoundTwice.step {n : ℕ} {found : Option ℕ} (h : FoundTwice disk lba no n (k + 1) found) :
    FoundTwice disk lba no (n + 1) k found := by
  obtain ⟨m, hle, hlt, hm, hfound⟩ := h
  refine ⟨m, by omega, by omega, hm, hfound.imp_right ?_⟩
  rintro ⟨m', hle', hlt', hm'⟩
  exact ⟨m', by omega, hlt', hm'⟩

theorem scanned_of_free {n : ℕ} {r : BlockScan} (h : (slotEntry disk lba k).fType = ftUnknown) :
    scanned disk lba no (n + 1) k r = scanned disk lba no n (k + 1) r := by
  simp [scanned, List.range'_succ, isDotSlot, DirEntry.Names, DirEntry.Counted, h]

theorem scanned_of_dot {n : ℕ} {r : BlockScan} (hlive : (slotEntry disk lba k).fType ≠ ftUnknown)
    (h : (slotEntry disk lba k).filename = dot) :
    scanned disk lba no (n + 1) k r =
      scanned disk lba no n (k + 1) { r with isDirFirstBlock := true } := by
  simp [scanned, List.range'_succ, isDotSlot, DirEntry.Names, DirEntry.Counted, hlive, h]

theorem scanned_of_dotDot {n : ℕ} {r : BlockScan}
    (h : (slotEntry disk lba k).filename = dotDot) :
    scanned disk lba no (n + 1) k r = scanned disk lba no n (k + 1) r := by
  have hne : dotDot ≠ dot := by decide
  simp [scanned, List.range'_succ, isDotSlot, DirEntry.Names, DirEntry.Counted, h, hne]

theorem scanned_of_counted {n : ℕ} {r : BlockScan} (h : (slotEntry disk lba k).Counted)
    (hne : (slotEntry disk lba k).iNo ≠ no) :
    scanned disk lba no (n + 1) k r =
      scanned disk lba no n (k + 1) { r with dirEntryCnt := r.dirEntryCnt + 1 } := by
  simp [scanned, List.range'_succ, isDotSlot, DirEntry.Names, h, h.2.1, hne, Nat.add_assoc,
    Nat.add_comm 1]

theorem scanned_of_names {n : ℕ} {r : BlockScan} (h : (slotEntry disk lba k).Names no)
    (hnone : r.dirEntryFound = none) :
    scanned disk lba no (n + 1) k r = scanned disk lba no n (k + 1)
      { r with dirEntryCnt := r.dirEntryCnt + 1, dirEntryFound := some k } := by
  simp [scanned, List.range'_succ, isDotSlot, h, h.1, h.1.2.1, hnone, Nat.add_assoc,
    Nat.add_comm 1]

/-- The scan of `n` entries of a block fails only at a second entry for the inode. -/
theorem scanBlock_spec (n k : ℕ) (r : BlockScan) (hk : k + n ≤ entrysPerSec) :
    Exec.Post (scanBlock (sectorBuf disk lba) no n k r) s
      (fun r' s' => r' = scanned disk lba no n k r ∧ s' = s)
      fun _ => FoundTwice disk lba no n k r.dirEntryFound := by
  induction n generalizing k r with
  | zero =>
    rw [scanBlock, Exec.post_pure]
    simp [scanned]
  | succ n ih =>
    have hm : k < entrysPerSec := by omega
    have hdot : entryNamed (sectorBuf disk lba) k dot = true ↔
        (slotEntry disk lba k).filename = dot :=
      entryNamed_sectorBuf hm (by decide) (by decide)
    have hdotDot : entryNamed (sectorBuf disk lba) k dotDot = true ↔
        (slotEntry disk lba k).filename = dotDot :=
      entryNamed_sectorBuf hm (by decide) (by decide)
    rw [scanBlock, entryType_sectorBuf hm, entryNo_sectorBuf hm]
    by_cases hlive : (slotEntry disk lba k).fType = ftUnknown
    · rw [if_pos hlive, scanned_of_free hlive]
      exact (ih (k + 1) r (by omega)).mono (fun _ _ => id) fun _ h => h.step
    rw [if_neg hlive]
    by_cases hd : (slotEntry disk lba k).filename = dot
    · rw [if_pos (hdot.mpr hd), scanned_of_dot hlive hd]
      exact (ih (k + 1) _ (by omega)).mono (fun _ _ => id) fun _ h => h.step
    rw [if_neg (mt hdot.mp hd)]
    by_cases hdd : (slotEntry disk lba k).filename = dotDot
    · rw [if_pos (hdotDot.mpr hdd), scanned_of_dotDot hdd]
      exact (ih (k + 1) r (by omega)).mono (fun _ _ => id) fun _ h => h.step
    have hcounted : (slotEntry disk lba k).Counted := ⟨hlive, hd, hdd⟩
    rw [if_neg (mt hdotDot.mp hdd)]
    by_cases heq : (slotEntry disk lba k).iNo = no
    · have hnames : (slotEntry disk lba k).Names no := ⟨hcounted, heq⟩
      rw [if_pos heq, Exec.post_bind, post_assert]
      refine ⟨fun hnone => ?_, fun hsome => ⟨k, le_rfl, by omega, hnames, Or.inl hsome⟩⟩
      rw [scanned_of_names hnames hnone]
      refine (ih (k + 1) _ (by omega)).mono (fun _ _ => id) fun _ h => ?_
      obtain ⟨m, hle, hlt, hm, -⟩ := h
      exact ⟨m, by omega, by omega, hm, Or.inr ⟨k, le_rfl, by omega, hnames⟩⟩
    · rw [if_neg heq, scanned_of_counted hcounted heq]
      exact (ih (k + 1) _ (by omega)).mono (fun _ _ => id) fun _ h => h.step

end Scan

/-- Elements of a list without repetitions that meet a condition. -/
theorem countP_le_one_iff {α : Type} [DecidableEq α] {l : List α} {P : α → Bool} (hl : l.Nodup) :
    l.countP P ≤ 1 ↔ ∀ x ∈ l, ∀ y ∈ l, P x = true → P y = true → x = y := by
  rw [List.countP_eq_length_filter, ← List.toFinset_card_of_nodup (hl.filter P), Finset.card_le_one]
  simp only [List.mem_toFinset, List.mem_filter]
  constructor
  · exact fun h x hx y hy hPx hPy => h x ⟨hx, hPx⟩ y ⟨hy, hPy⟩
  · exact fun h x hx y hy => h x hx.1 y hy.1 hx.2 hy.2

section WholeBlock

/-- The scan of a whole block that found an entry. -/
theorem scanned_found {r : BlockScan} (hr : r = scanned disk lba no entrysPerSec 0 ⟨false, 0, none⟩)
    (hm : r.dirEntryFound = some m) : m < entrysPerSec ∧ (slotEntry disk lba m).Names no := by
  rw [hr, scanned] at hm
  have hfind : ((List.range' 0 entrysPerSec).find? fun m =>
      decide ((slotEntry disk lba m).Names no)) = some m := by simpa using hm
  have hmem := List.mem_range'_1.mp (List.mem_of_find?_eq_some hfind)
  have hnames := List.find?_some hfind
  exact ⟨by omega, of_decide_eq_true hnames⟩

/-- The scan of a whole block without an entry for the inode. -/
theorem scanned_none {r : BlockScan} (hr : r = scanned disk lba no entrysPerSec 0 ⟨false, 0, none⟩)
    (hnone : r.dirEntryFound = none) : ∀ m < entrysPerSec, ¬ (slotEntry disk lba m).Names no := by
  intro m hm hnames
  rw [hr, scanned] at hnone
  have hfind : ((List.range' 0 entrysPerSec).find? fun m =>
      decide ((slotEntry disk lba m).Names no)) = none := by simpa using hnone
  have := List.find?_eq_none.mp hfind m (List.mem_range'_1.mpr ⟨Nat.zero_le m, by omega⟩)
  exact this (decide_eq_true hnames)

/-- An entry that is counted is the only one and `.` is elsewhere exactly if the block holds
nothing else but `..`. -/
theorem scanned_alone_iff {r : BlockScan}
    (hr : r = scanned disk lba no entrysPerSec 0 ⟨false, 0, none⟩) (hm : m < entrysPerSec)
    (hcounted : (slotEntry disk lba m).Counted) :
    1 ≤ r.dirEntryCnt ∧ (r.dirEntryCnt = 1 ∧ r.isDirFirstBlock = false ↔
      ∀ n < entrysPerSec, (slotEntry disk lba n).fType ≠ ftUnknown →
        n = m ∨ (slotEntry disk lba n).filename = dotDot) := by
  let P : ℕ → Bool := fun n => decide (slotEntry disk lba n).Counted
  have hcnt : r.dirEntryCnt = (List.range' 0 entrysPerSec).countP P := by
    rw [hr, scanned, Nat.zero_add]
  have hfirst : r.isDirFirstBlock = (List.range' 0 entrysPerSec).any (isDotSlot disk lba) := by
    rw [hr, scanned, Bool.false_or]
  have hmem (n : ℕ) (hn : n < entrysPerSec) : n ∈ List.range' 0 entrysPerSec :=
    List.mem_range'_1.mpr ⟨Nat.zero_le n, by omega⟩
  have hlt (n : ℕ) (hn : n ∈ List.range' 0 entrysPerSec) : n < entrysPerSec := by
    have := List.mem_range'_1.mp hn
    omega
  have hpos : 1 ≤ r.dirEntryCnt := by
    rw [hcnt]
    exact List.countP_pos_iff.mpr ⟨m, hmem m hm, decide_eq_true hcounted⟩
  have hone : r.dirEntryCnt = 1 ↔ r.dirEntryCnt ≤ 1 := by omega
  refine ⟨hpos, ?_⟩
  rw [hone, hcnt, countP_le_one_iff List.nodup_range', hfirst, List.any_eq_false]
  constructor
  · rintro ⟨huniq, hnodot⟩ n hn hlive
    by_cases hd : (slotEntry disk lba n).filename = dot
    · exact absurd (decide_eq_true ⟨hlive, hd⟩) (hnodot n (hmem n hn))
    by_cases hdd : (slotEntry disk lba n).filename = dotDot
    · exact Or.inr hdd
    · exact Or.inl (huniq n (hmem n hn) m (hmem m hm) (decide_eq_true ⟨hlive, hd, hdd⟩)
        (decide_eq_true hcounted))
  · intro halone
    have honly {n : ℕ} (hn : n < entrysPerSec) (hP : P n = true) : n = m := by
      have hcn := of_decide_eq_true hP
      exact (halone n hn hcn.1).resolve_right hcn.2.2
    refine ⟨fun x hx y hy hPx hPy => ?_, fun n hn hdot => ?_⟩
    · rw [honly (hlt x hx) hPx, honly (hlt y hy) hPy]
    · obtain ⟨hlive, hd⟩ := of_decide_eq_true hdot
      rcases halone n (hlt n hn) hlive with rfl | hdd
      · exact hcounted.2.1 hd
      · rw [hd] at hdd
        exact absurd hdd (by decide)

end WholeBlock

end Winx
