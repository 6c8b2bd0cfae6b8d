import Mathlib.Algebra.Group.Even
import Winx.Fs.DirView

/-! # Looking up a name in a directory

`search_dir_entry` steps over an empty block slot together with the slot after
it. So it comes to the block slots before which an even number of empty ones
stand, and finds the entries in their blocks only.
-/

namespace Winx

/-- How many empty block slots stand directly before a slot. -/
def holesBefore (f : ℕ → UInt32) : ℕ → ℕ
  | 0 => 0
  | k + 1 => if f k = 0 then holesBefore f k + 1 else 0

/-- The loop of `search_dir_entry` comes to a block slot. -/
abbrev Scanned (f : ℕ → UInt32) (k : ℕ) : Prop := Even (holesBefore f k)

/-- What a lookup returned is what the directory holds under the name. -/
def LookupRight (disk : Bytes) (i : Inode) (name : List UInt8) : Option DirEntry → Prop
  | none => ∀ e ∈ liveEntries disk i, e.filename ≠ name
  | some e => e ∈ liveEntries disk i ∧ e.filename = name

/-- `search_dir_entry` returns, and what it returns is right. -/
def FindsExactly (s : Fs) (pdir : DirPtr) (i : Inode) (name : List UInt8) : Prop :=
  Exec.Returns (searchDirEntry pdir name) s fun r _ => LookupRight s.disk i name r

/-- When a lookup is right: if the first buffer is there, so is the second, and if the name is in
the directory, both are and it is in a block before which an even number of empty slots stand. -/
def LookupSound (s : Fs) (i : Inode) (name : List UInt8) : Prop :=
  (s.mallocs 0 = true → s.mallocs 1 = true) ∧
    ((∃ e ∈ liveEntries s.disk i, e.filename = name) → s.mallocs 0 = true ∧
      ∃ a ∈ liveSlots s.disk i, (entryAt s.disk i a).filename = name ∧
        Scanned (blockLba s.disk i) a.1)

variable {s : Fs} {disk : Bytes} {i : Inode} {lba : UInt32} {f : ℕ → UInt32} {name : List UInt8}
  {k m : ℕ}

theorem Scanned.succ (h0 : f k ≠ 0) : Scanned f (k + 1) := by
  rw [Scanned, holesBefore, if_neg h0]
  exact Even.zero

theorem Scanned.skip (h : Scanned f k) (h0 : f k = 0) : Scanned f (k + 2) := by
  rw [Scanned, holesBefore]
  split
  · rw [holesBefore, if_pos h0]
    exact h.add_one.add_one
  · exact Even.zero

theorem Scanned.not_succ (h : Scanned f k) (h0 : f k = 0) : ¬ Scanned f (k + 1) := by
  rw [Scanned, holesBefore, if_pos h0, Nat.not_even_iff_odd]
  exact h.add_one

theorem findNamed_eq (buf : Bytes) (name : List UInt8) (n k : ℕ) :
    findNamed buf name n k = (List.range' k n).find? fun j => entryNamed buf j name := by
  induction n generalizing k with
  | zero => rfl
  | succ n ih =>
    rw [findNamed, List.range'_succ, List.find?_cons]
    cases entryNamed buf k name
    · exact ih (k + 1)
    · rfl

section Search

variable (h0 : 0 ∉ name) (hlen : name.length < 16)

include h0 hlen

theorem findNamed_eq_none
    (h : findNamed (sectorBuf disk lba) name entrysPerSec 0 = none) (hm : m < entrysPerSec) :
    (slotEntry disk lba m).filename ≠ name := by
  rw [findNamed_eq, List.find?_eq_none] at h
  intro heq
  exact h m (List.mem_range'_1.mpr ⟨Nat.zero_le m, by omega⟩)
    ((entryNamed_sectorBuf hm h0 hlen).mpr heq)

theorem findNamed_eq_some (h : findNamed (sectorBuf disk lba) name entrysPerSec 0 = some m) :
    m < entrysPerSec ∧ (slotEntry disk lba m).filename = name := by
  rw [findNamed_eq] at h
  have hm : m < entrysPerSec := by
    have := List.mem_range'_1.mp (List.mem_of_find?_eq_some h)
    omega
  have hnamed := List.find?_some h
  exact ⟨hm, (entryNamed_sectorBuf hm h0 hlen).mp hnamed⟩

/-- The loop of `search_dir_entry` from a block slot it comes to. The induction is on the fuel; each
turn goes on at a slot that is scanned. -/
theorem searchBlocks_spec (hl : Layout s.part) (hf : ∀ k < 140, f k ≤ maxLba) (fuel idx : ℕ)
    (hfuel : 140 ≤ fuel + idx) (hidx : Scanned f idx) :
    Exec.Returns (searchBlocks f name fuel idx) s fun r _ => match r with
      | none => ∀ k < 140, idx ≤ k → f k ≠ 0 → Scanned f k → ∀ m < entrysPerSec,
          (slotEntry s.disk (f k) m).filename ≠ name
      | some e => ∃ k < 140, f k ≠ 0 ∧ Scanned f k ∧ ∃ m < entrysPerSec,
          slotEntry s.disk (f k) m = e ∧ e.filename = name := by
  induction fuel generalizing idx with
  | zero =>
    intro k hk hle
    omega
  | succ fuel ih =>
    rw [searchBlocks, Exec.Returns, Exec.post_bind, Exec.post_get]
    by_cases h140 : 140 ≤ idx
    · rw [if_pos h140]
      intro k hk hle
      omega
    · rw [if_neg h140]
      by_cases hzero : f idx = 0
      · rw [if_pos hzero]
        refine (ih (idx + 2) (by omega) (hidx.skip hzero)).mono fun r _ hr => ?_
        cases r with
        | some e => exact hr
        | none =>
          intro k hk hle hne hscan
          have hk₀ : k ≠ idx := fun h => hne (h ▸ hzero)
          have hk₁ : k ≠ idx + 1 := fun h => hidx.not_succ hzero (h ▸ hscan)
          exact hr k hk (by omega) hne hscan
      · rw [if_neg hzero, Exec.post_bind, post_readBlock (hf idx (by omega)),
          dirEntrysPerSec_eq hl]
        cases hfind : findNamed (sectorBuf s.disk (f idx)) name entrysPerSec 0 with
        | some m =>
          obtain ⟨hm, hname⟩ := findNamed_eq_some h0 hlen hfind
          rw [← ofBytes_sectorBuf hm] at hname
          exact ⟨idx, by omega, hzero, hidx, m, hm, (ofBytes_sectorBuf hm).symm, hname⟩
        | none =>
          refine (ih (idx + 1) (by omega) (Scanned.succ hzero)).mono fun r _ hr => ?_
          cases r with
          | some e => exact hr
          | none =>
            intro k hk hle hne hscan
            rcases eq_or_lt_of_le hle with rfl | hlt
            · exact fun m hm => findNamed_eq_none h0 hlen hfind hm
            · exact hr k hk hlt hne hscan

end Search

/-- A named slot of a directory whose free slots are blank is live. -/
theorem FreeSlotsBlank.mem_liveSlots (h : FreeSlotsBlank disk i) {a : ℕ × ℕ} (hk : a.1 < 140)
    (hne : blockLba disk i a.1 ≠ 0) (hm : a.2 < entrysPerSec)
    (hname : (entryAt disk i a).filename ≠ []) : a ∈ liveSlots disk i :=
  Winx.mem_liveSlots.mpr ⟨hk, hne, hm, fun htype => hname (h a.1 hk hne a.2 hm htype)⟩

/-- Looking up a name of a directory whose blocks can be read is right exactly if the name is
missing or in a block that the scan comes to, and the buffers can be had. -/
theorem findsExactly_iff {pdir : DirPtr} {dir : Dir} (hl : Layout s.part)
    (hdir : s.dirOf pdir = some dir) (hi : s.inodes dir.inode = some i)
    (hread : DirReadable s.disk i) (hblank : FreeSlotsBlank s.disk i) (hname : name ≠ [])
    (h0 : 0 ∉ name) (hlen : name.length ≤ 15) :
    FindsExactly s pdir i name ↔ LookupSound s i name := by
  have hlen' : name.length < 16 := by omega
  have habsent : (¬ ∃ e ∈ liveEntries s.disk i, e.filename = name) ↔
      LookupRight s.disk i name none := by
    simp [LookupRight]
  rw [FindsExactly, searchDirEntry, Exec.Returns, Exec.post_bind, post_sysMalloc, LookupSound]
  cases hm₀ : s.mallocs 0 with
  | false =>
    rw [if_neg Bool.false_ne_true, Exec.post_pure, ← habsent]
    simp only [Bool.false_eq_true, false_implies, false_and, true_and]
  | true =>
    have hread' : DirReadable s.tick.disk i := hread
    rw [if_pos rfl, Exec.post_bind, post_derefDir]
    simp only [show s.tick.dirOf pdir = some dir from hdir, Option.some.injEq, forall_eq',
      reduceCtorEq, false_implies, and_true, Exec.post_bind, post_derefInode,
      show s.tick.inodes dir.inode = some i from hi, post_loadBlocks hread',
      post_sysMallocUnchecked, true_implies, true_and]
    have hm₁ : s.tick.mallocs 0 = s.mallocs 1 := rfl
    rw [hm₁]
    cases s.mallocs 1 with
    | false => simp
    | true =>
      simp only [true_implies, Bool.true_eq_false, false_implies, and_true, true_and]
      have hsearch := searchBlocks_spec (s := s.tick.tick) h0 hlen' hl hread.block 140 0 le_rfl
        Even.zero
      obtain ⟨r, s', hcall, hr⟩ := Exec.returns_iff.mp hsearch
      have hpost : Exec.Post (searchBlocks (blockLba s.tick.disk i) name 140 0) s.tick.tick
          (fun r _ => LookupRight s.disk i name r) (fun _ => False) ↔
          LookupRight s.disk i name r := by
        change Exec.Post (searchBlocks (blockLba s.disk i) name 140 0) _ _ _ ↔ _
        rw [Exec.Post, hcall]
      rw [hpost]
      cases r with
      | none =>
        rw [← habsent]
        refine not_iff_not.mp ?_
        rw [not_not, Classical.not_imp]
        refine (and_iff_left ?_).symm
        rintro ⟨a, ha, hfound, hscan⟩
        obtain ⟨hk, hne, hm, -⟩ := mem_liveSlots.mp ha
        exact hr a.1 hk (Nat.zero_le _) hne hscan a.2 hm hfound
      | some e =>
        obtain ⟨k, hk, hne, hscan, m, hm, hentry, hfound⟩ := hr
        have hat : entryAt s.disk i (k, m) = e := hentry
        have hmem : (k, m) ∈ liveSlots s.disk i :=
          hblank.mem_liveSlots hk hne hm (by rw [hat, hfound]; exact hname)
        refine iff_of_true ⟨mem_liveEntries.mpr ⟨_, hmem, hat⟩, hfound⟩ fun _ => ?_
        exact ⟨(k, m), hmem, by rw [hat, hfound], hscan⟩

end Winx
