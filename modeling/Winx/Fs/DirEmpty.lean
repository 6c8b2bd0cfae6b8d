import Winx.Fs.LookupRuns

/-! # Empty directories

`dir_is_empty` looks at the size of a directory only, and `dir_remove` relies on it
having no block but the first. Both are right as long as every other block holds an
entry, which adding and deleting entries keep up for a directory that `sys_mkdir`
made.
-/

namespace Winx

/-- A directory whose blocks all hold entries; the first one holds `.` and `..`, which are there
once. -/
structure TidyDir (s : Fs) (i : Inode) : Prop extends DirOk s i where
  self : ∃ m, (0, m) ∈ liveSlots s.disk i ∧ (entryAt s.disk i (0, m)).filename = dot
  parent : ∃ m, (0, m) ∈ liveSlots s.disk i ∧ (entryAt s.disk i (0, m)).filename = dotDot
  once : ∀ a ∈ liveSlots s.disk i, ∀ b ∈ liveSlots s.disk i, ¬ (entryAt s.disk i a).Counted →
    (entryAt s.disk i a).filename = (entryAt s.disk i b).filename → a = b
  occupied : ∀ k, blockLba s.disk i k ≠ 0 → ∃ a ∈ liveSlots s.disk i, a.1 = k
  table : i.sector 12 ≠ 0 → ∃ k, 12 ≤ k ∧ blockLba s.disk i k ≠ 0

/-- The directory has no entries but `.` and `..`. -/
def NoEntries (disk : Bytes) (i : Inode) : Prop :=
  ∀ e ∈ liveEntries disk i, e.filename = dot ∨ e.filename = dotDot

/-- `dir_is_empty` tells whether there are entries, and without entries there is no block but the
first. -/
def EmptinessRight (s : Fs) (dir : DirPtr) (i : Inode) : Prop :=
  Exec.Returns (dirIsEmpty dir) s fun r s' => s' = s ∧ (r = true ↔ NoEntries s.disk i) ∧
    (r = true → (∀ k, 1 ≤ k → k ≤ 12 → i.sector k = 0) ∧
      ∀ c, slotLba s.disk i c ≠ 0 → c = .block 0)

variable {s s₀ : Fs} {d : Bytes} {i i' : Inode} {b : Bitmap} {p k : ℕ} {a : ℕ × ℕ} {e : DirEntry}
  {dir : DirPtr} {o : Dir}

section Empty

/-- A live entry that is not counted is `.` or `..`. -/
theorem not_counted_iff (ha : a ∈ liveSlots d i) :
    ¬ (entryAt d i a).Counted ↔ (entryAt d i a).filename = dot ∨ (entryAt d i a).filename = dotDot := by
  obtain ⟨-, -, -, hlive⟩ := mem_liveSlots.mp ha
  simp only [DirEntry.Counted, not_and_or, not_not, hlive, false_or]

/-- A directory without entries has the slots of `.` and `..`. -/
theorem TidyDir.noEntries_iff (h : TidyDir s i) :
    NoEntries s.disk i ↔ (liveSlots s.disk i).length = 2 := by
  obtain ⟨m, hm, hdot⟩ := h.self
  obtain ⟨n, hn, hdd⟩ := h.parent
  have hne : (0, m) ≠ (0, n) := by
    intro heq
    rw [heq, hdd] at hdot
    exact absurd hdot (by decide)
  have hpair : [(0, m), (0, n)].Nodup :=
    List.nodup_cons.mpr ⟨fun h => hne (List.mem_singleton.mp h), List.nodup_singleton _⟩
  have hsub : [(0, m), (0, n)] ⊆ liveSlots s.disk i := by
    rw [List.cons_subset, List.cons_subset]
    exact ⟨hm, hn, List.nil_subset _⟩
  have hge := (List.subperm_of_subset hpair hsub).length_le
  constructor
  · intro hno
    have hall : liveSlots s.disk i ⊆ [(0, m), (0, n)] := by
      intro a ha
      have hname := hno _ (mem_liveEntries.mpr ⟨a, ha, rfl⟩)
      have hnot := (not_counted_iff ha).mpr hname
      rcases hname with hname | hname
      · rw [h.once a ha _ hm hnot (hname.trans hdot.symm)]
        exact List.mem_cons_self
      · rw [h.once a ha _ hn hnot (hname.trans hdd.symm)]
        exact List.mem_cons_of_mem _ List.mem_cons_self
    exact le_antisymm (List.subperm_of_subset nodup_liveSlots hall).length_le hge
  · intro hlen e he
    have hperm := (List.subperm_of_subset hpair hsub).perm_of_length_le hlen.le
    obtain ⟨a, ha, rfl⟩ := mem_liveEntries.mp he
    have hmem := hperm.mem_iff.mpr ha
    rw [List.mem_cons, List.mem_singleton] at hmem
    rcases hmem with rfl | rfl
    · exact Or.inl hdot
    · exact Or.inr hdd

/-- A directory without entries has one block. -/
theorem TidyDir.slot_of_noEntries (h : TidyDir s i) (hno : NoEntries s.disk i) {c : Slot}
    (hc : slotLba s.disk i c ≠ 0) : c = .block 0 := by
  have hblock (k : ℕ) (hk : blockLba s.disk i k ≠ 0) : k = 0 := by
    obtain ⟨a, ha, rfl⟩ := h.occupied k hk
    have hname := hno _ (mem_liveEntries.mpr ⟨a, ha, rfl⟩)
    have hnot := (not_counted_iff ha).mpr hname
    obtain ⟨m, hm, hdot⟩ := h.self
    obtain ⟨n, hn, hdd⟩ := h.parent
    rcases hname with hname | hname
    · rw [h.once a ha _ hm hnot (hname.trans hdot.symm)]
    · rw [h.once a ha _ hn hnot (hname.trans hdd.symm)]
  cases c with
  | table =>
    obtain ⟨k, hk, h0⟩ := h.table hc
    have := hblock k h0
    omega
  | block k => rw [hblock k hc]

theorem TidyDir.emptinessRight (h : TidyDir s i) (hdir : s.dirOf dir = some o)
    (hi : s.inodes o.inode = some i) : EmptinessRight s dir i := by
  have hsize : i.iSize = s.part.sb.dirEntrySize * 2 ↔ NoEntries s.disk i := by
    have hlen := h.size
    rw [liveEntries, List.length_map] at hlen
    rw [h.noEntries_iff, h.layout.dirEntrySize, ← UInt32.toNat_inj, hlen, sizeofDirEntry]
    simp only [UInt32.reduceMul, UInt32.reduceToNat]
    omega
  simp only [EmptinessRight, dirIsEmpty, Exec.Returns, Exec.post_bind, Exec.post_get, post_derefDir,
    hdir, Option.some.injEq, forall_eq', reduceCtorEq, false_implies, and_true, post_derefInode, hi,
    Exec.post_pure, true_and, beq_iff_eq]
  refine ⟨hsize, fun hempty => ?_⟩
  have hslot (c : Slot) (hc : slotLba s.disk i c ≠ 0) : c = .block 0 :=
    h.slot_of_noEntries (hsize.mp hempty) hc
  refine ⟨fun k hk hk' => ?_, hslot⟩
  by_contra h0
  rcases hk'.eq_or_lt with rfl | hlt
  · cases hslot .table h0
  · have hblock : slotLba s.disk i (.block k) ≠ 0 := by
      rw [slotLba, blockLba_of_lt hlt]
      exact h0
    have := Slot.block.inj (hslot _ hblock)
    omega

end Empty

section Calls

/-- A new entry. -/
theorem EntryStored.tidy (h : TidyDir s i) (hproper : e.Proper) (hcounted : e.Counted)
    (he : EntryStored s i a e d b i') : TidyDir (s.grow p d b i') i' := by
  have hadded := he.added (p := p) h.toDirOk hproper
  have hmem := he.mem_liveSlots_iff hproper
  have hself := he.entryAt_self hproper
  have hold {c : ℕ × ℕ} (hc : c ∈ liveSlots s.disk i) : entryAt d i' c = entryAt s.disk i c :=
    (he.entryAt_eq hc).2
  have honce (c : ℕ × ℕ) (hc : c ∈ liveSlots d i') (c' : ℕ × ℕ) (hc' : c' ∈ liveSlots d i')
      (hnot : ¬ (entryAt d i' c).Counted)
      (hname : (entryAt d i' c).filename = (entryAt d i' c').filename) : c = c' := by
    rcases (hmem c).mp hc with hcold | rfl
    · rcases (hmem c').mp hc' with hcold' | rfl
      · rw [hold hcold] at hnot hname
        rw [hold hcold'] at hname
        exact h.once c hcold c' hcold' hnot hname
      · rw [not_counted_iff hc, hname, hself] at hnot
        exact absurd hcounted.2 (by tauto)
    · rw [hself] at hnot
      exact absurd hcounted hnot
  have hkeep {m : ℕ} {name : List UInt8} (hm : (0, m) ∈ liveSlots s.disk i ∧
      (entryAt s.disk i (0, m)).filename = name) : (0, m) ∈ liveSlots d i' ∧
      (entryAt d i' (0, m)).filename = name :=
    ⟨(hmem _).mpr (Or.inl hm.1), by rw [hold hm.1, hm.2]⟩
  obtain ⟨m, hm⟩ := h.self
  obtain ⟨n, hn⟩ := h.parent
  refine ⟨⟨he.dirBlocks h.toDirBlocks hproper, ?_, fun c hc hdd => ?_⟩, ⟨m, hkeep hm⟩, ⟨n, hkeep hn⟩,
    honce, fun k h0 => ?_, fun h12 => ?_⟩
  · have hlen := hadded.entries.length_eq
    have hsize := h.size
    rw [List.length_cons] at hlen
    rw [hadded.size, hlen, hsize, sizeofDirEntry]
    omega
  · have hnot : ¬ (entryAt d i' c).Counted := (not_counted_iff hc).mpr (Or.inr hdd)
    have hc0 := honce c hc (0, n) (hkeep hn).1 hnot (Eq.trans hdd (hkeep hn).2.symm)
    subst hc0
    exact ⟨(0, m), (hkeep hm).1, rfl, (hkeep hm).2⟩
  · rcases he.slot_cases (c := .block k) h0 with ⟨hk0, -⟩ | ⟨-, hka⟩
    · obtain ⟨c, hc, hck⟩ := h.occupied k hk0
      exact ⟨c, (hmem c).mpr (Or.inl hc), hck⟩
    · exact ⟨a, (hmem a).mpr (Or.inr rfl), (Slot.block.inj hka).symm⟩
  · rcases he.slot_cases (c := .table) h12 with ⟨ht, -⟩ | ⟨-, hta⟩
    · obtain ⟨k, hk, h0⟩ := h.table ht
      refine ⟨k, hk, ?_⟩
      have hkept := he.kept (.block k) h0
      change blockLba d i' k = blockLba s.disk i k at hkept
      change blockLba d i' k ≠ 0
      rw [hkept]
      exact h0
    · cases hta

/-- An entry is deleted. -/
theorem EntryErased.tidy (h : TidyDir s i) (ha : a ∈ liveSlots s.disk i)
    (hcounted : (entryAt s.disk i a).Counted) (he : EntryErased s i a (i.iSize - 24) d b i') :
    TidyDir (s.tick.grow p d b i') i' := by
  have hmem := he.mem_liveSlots_iff h.toDirOk hcounted
  have hentry {c : ℕ × ℕ} (hc : c ∈ liveSlots d i') : entryAt d i' c = entryAt s.disk i c :=
    (he.entryAt_eq h.toDirOk hcounted ((hmem c).mp hc).1 ((hmem c).mp hc).2).2
  have hkeep {m : ℕ} {name : List UInt8} (hm : (0, m) ∈ liveSlots s.disk i ∧
      (entryAt s.disk i (0, m)).filename = name) (hname : name = dot ∨ name = dotDot) :
      (0, m) ∈ liveSlots d i' ∧ (entryAt d i' (0, m)).filename = name := by
    have hne : (0, m) ≠ a := by
      rintro rfl
      refine (not_counted_iff hm.1).mpr ?_ hcounted
      rw [hm.2]
      exact hname
    have hlive := (hmem _).mpr ⟨hm.1, hne⟩
    exact ⟨hlive, by rw [hentry hlive, hm.2]⟩
  have hremoved := he.removed (p := p) h.toDirOk ha hcounted
  obtain ⟨m, hm⟩ := h.self
  obtain ⟨n, hn⟩ := h.parent
  -- a block that is left holds another entry
  have hother {k : ℕ} (h0 : blockLba d i' k ≠ 0) : ∃ c ∈ liveSlots s.disk i, c.1 = k ∧ c ≠ a := by
    have hsame : blockLba d i' k = blockLba s.disk i k := he.slotLba_eq (c := .block k) h0
    obtain ⟨c, hc, hck⟩ := h.occupied k (hsame ▸ h0)
    by_cases hca : c = a
    · subst hca
      by_contra hnone
      have halone : AloneInBlock s.disk i c := by
        rw [h.toDirOk.aloneInBlock_iff hcounted]
        intro c' hc' hck'
        by_contra hne
        exact hnone ⟨c', hc', hck'.trans hck, hne⟩
      exact h0 (he.freed (.block k) ⟨halone, block_mem_freedSlots.mpr hck.symm⟩)
    · exact ⟨c, hc, hck, hca⟩
  refine ⟨hremoved.ok, ⟨m, hkeep hm (Or.inl rfl)⟩, ⟨n, hkeep hn (Or.inr rfl)⟩,
    fun c hc c' hc' hnot hname => ?_, fun k h0 => ?_, fun h12 => ?_⟩
  · change ¬ (entryAt d i' c).Counted at hnot
    change (entryAt d i' c).filename = (entryAt d i' c').filename at hname
    rw [hentry hc] at hnot hname
    rw [hentry hc'] at hname
    exact h.once c ((hmem c).mp hc).1 c' ((hmem c').mp hc').1 hnot hname
  · obtain ⟨c, hc, hck, hca⟩ := hother h0
    exact ⟨c, (hmem c).mpr ⟨hc, hca⟩, hck⟩
  · have hsame : i'.sector 12 = i.sector 12 := he.slotLba_eq (c := .table) h12
    have hnot : Slot.table ∉ erasedSlots s.disk i a := fun hin => h12 (he.freed .table hin)
    obtain ⟨k, hk, h0⟩ := h.table (hsame ▸ h12)
    -- the slot with the table, or another one if its block is freed
    have hleft : ∃ l, 12 ≤ l ∧ blockLba s.disk i l ≠ 0 ∧ Slot.block l ∉ erasedSlots s.disk i a := by
      by_cases hke : Slot.block k ∈ erasedSlots s.disk i a
      · have hka := block_mem_freedSlots.mp hke.2
        have hfreed : Slot.table ∉ freedSlots s.disk i a.1 := fun hin => hnot ⟨hke.1, hin⟩
        have hex : ¬ ∀ l, 12 ≤ l → l < 140 → blockLba s.disk i l ≠ 0 → l = a.1 := fun hall =>
          hfreed (Or.inr ⟨rfl, hka ▸ hk, hall⟩)
        push Not at hex
        obtain ⟨l, hl, -, hl0, hla⟩ := hex
        exact ⟨l, hl, hl0, fun hin => hla (block_mem_freedSlots.mp hin.2)⟩
      · exact ⟨k, hk, h0, hke⟩
    obtain ⟨l, hl, hl0, hkept⟩ := hleft
    refine ⟨l, hl, ?_⟩
    have hlba : blockLba d i' l = blockLba s.disk i l := he.kept (.block l) hkept
    change blockLba d i' l ≠ 0
    rw [hlba]
    exact hl0

/-- The call is admitted: an entry that is added has a name that is not there yet, so neither `.` nor
`..`, and finds a place. -/
def DirCall.Admitted (p : ℕ) (s : Fs) (c : DirCall) : Prop :=
  c.Direct p s ∧ ∀ e, c = .sync e → e.Counted

/-- The directory is there, and it is tidy. -/
def TidyThere (dir : DirPtr) (o : Dir) (s : Fs) : Prop :=
  s.dirOf dir = some o ∧ ∃ i, s.inodes o.inode = some i ∧ TidyDir s i

/-- Every admitted call leaves the directory tidy. -/
theorem TidyThere.call {c : DirCall} (h : TidyThere dir o s) (hc : c.Admitted o.inode s) :
    Exec.Ensures (c.run dir) s fun _ s' => TidyThere dir o s' := by
  obtain ⟨hdir, i, hi, htidy⟩ := h
  obtain ⟨hdirect, hnew⟩ := hc
  cases c with
  | sync e =>
    obtain ⟨hproper, hplace⟩ := hdirect
    refine (syncDirEntry_direct htidy.toDirBlocks hdir hi (hplace i hi)).mono ?_
    rintro r s' (⟨-, rfl⟩ | ⟨-, a, d, b, i', he, rfl⟩)
    · exact ⟨hdir, i, hi, htidy⟩
    · refine ⟨?_, i', Function.update_self .., he.tidy htidy hproper (hnew e rfl)⟩
      rw [← hdir]
      cases dir <;> rfl
  | delete no =>
    refine (deleteDirEntry_spec htidy.toDirBlocks hdir hi).ensures.mono ?_
    rintro r s' (⟨-, rfl, -⟩ | ⟨-, -, a, ha, hnames, d, b, i', he, rfl⟩)
    · exact ⟨hdir, i, hi, htidy⟩
    · refine ⟨?_, i', Function.update_self .., he.tidy htidy ha hnames.1⟩
      rw [← hdir]
      cases dir <;> rfl
  | elapse junk mallocs =>
    have hok := htidy.toDirOk
    refine ⟨?_, i, hi, ⟨⟨⟨hok.layout, hok.readable, hok.used, hok.inj, hok.blank⟩, hok.size, hok.dots⟩,
      htidy.self, htidy.parent, htidy.once, htidy.occupied, htidy.table⟩⟩
    rw [← hdir]
    cases dir <;> rfl

/-- Whatever is added to a tidy directory and deleted from it, `dir_is_empty` is right. -/
theorem TidyThere.run (h : TidyThere dir o s₀)
    (hrun : Exec.Run (DirCall.run dir) (fun s c => c.Admitted o.inode s) s₀ s) :
    ∃ i, s.inodes o.inode = some i ∧ EmptinessRight s dir i := by
  obtain ⟨hdir, i, hi, htidy⟩ := hrun.invariant (I := TidyThere dir o) h fun _ _ h hc => h.call hc
  exact ⟨i, hi, htidy.emptinessRight hdir hi⟩

end Calls

end Winx
