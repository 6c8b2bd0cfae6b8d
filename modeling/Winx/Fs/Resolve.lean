import Winx.Fs.DirShape
import Winx.Fs.Visit

/-! # Resolving paths

A path resolves component by component: each names an entry of the directory found
so far. `search_file` finds what the path resolves to wherever its lookups do not
step over the entry they look for and it gets its memory, except that it returns an
uninitialised number for a path without components.
-/

namespace Winx

/-- What a path resolves to, with the components looked up on the way. -/
inductive Resolved
  | missing (walked : List (List UInt8)) (parent : UInt32)
  | file (walked : List (List UInt8)) (no parent : UInt32)
  | dir (no parent : UInt32)

/-- The entries of the directory with a number. -/
def Fs.dirEntries (s : Fs) (d : UInt32) : List DirEntry := liveEntries s.disk (curInode s d.toNat)

/-- The entry of a directory under a name. -/
def Fs.entry (s : Fs) (d : UInt32) (name : List UInt8) : Option DirEntry :=
  (s.dirEntries d).find? (·.filename = name)

/-- `search_dir_entry` finds an entry of a directory under a name, with enough memory. -/
def Fs.Finds (s : Fs) (d : UInt32) (name : List UInt8) (e : DirEntry) : Prop :=
  ∃ a ∈ liveSlots s.disk (curInode s d.toNat), entryAt s.disk (curInode s d.toNat) a = e ∧
    e.filename = name ∧ Scanned (blockLba s.disk (curInode s d.toNat)) a.1

/-- Resolve components from directory `d` on, to which `prev` led. -/
def resolveFrom (s : Fs) : UInt32 → UInt32 → List (List UInt8) → List (List UInt8) → Resolved
  | d, prev, _, [] => .dir d prev
  | d, _, walked, name :: names =>
    match s.entry d name with
    | none => .missing (walked ++ [name]) d
    | some e =>
      if e.fType = ftDirectory then resolveFrom s e.iNo d (walked ++ [name]) names
      else .file (walked ++ [name]) e.iNo d

/-- Resolve a path from the root directory on. -/
def resolve (s : Fs) (path : List UInt8) : Resolved := resolveFrom s 0 0 [] (components path)

/-- The directories of the tree. -/
inductive IsDir (s : Fs) : UInt32 → Prop
  | root : IsDir s 0
  | entry {d : UInt32} {e : DirEntry} : IsDir s d → e ∈ s.dirEntries d → e.fType = ftDirectory →
      IsDir s e.iNo

/-- A well-formed tree. -/
structure TreeOk (s : Fs) : Prop extends Visitable s where
  number : ∀ d, IsDir s d → (curInode s d.toNat).iNo = d
  readable : ∀ d, IsDir s d → DirReadable s.disk (curInode s d.toNat)
  blank : ∀ d, IsDir s d → FreeSlotsBlank s.disk (curInode s d.toNat)
  names : ∀ d, IsDir s d → ((s.dirEntries d).map DirEntry.filename).Nodup
  types : ∀ d, IsDir s d → ∀ e ∈ s.dirEntries d, e.fType = ftDirectory ∨ e.fType = ftRegular
  numbers : ∀ d, IsDir s d → ∀ e ∈ s.dirEntries d, e.iNo.toNat < 4096
  dots : ∀ name, name = dot ∨ name = dotDot → ∃ e, s.entry 0 name = some e ∧
    e.fType = ftDirectory ∧ e.iNo = 0

/-- The number of the directory behind a pointer. -/
def Fs.dirNo (s : Fs) (ptr : DirPtr) : Option UInt32 :=
  (s.dirOf ptr).bind fun dir => (s.inodes dir.inode).map Inode.iNo

/-- `search_file` answers what the path resolves to. -/
def Answers (res : Resolved) (r : Int × PathSearchRecord) (s' : Fs) : Prop :=
  match res with
  | .missing walked parent => r.1 = -1 ∧ r.2.fileType = ftUnknown ∧
      r.2.searchedPath = joinPath walked ∧ s'.dirNo r.2.parentDir = some parent
  | .file walked no parent => r.1 = no.toNat ∧ r.2.fileType = ftRegular ∧
      r.2.searchedPath = joinPath walked ∧ s'.dirNo r.2.parentDir = some parent
  | .dir no parent => r.1 = no.toNat ∧ r.2.fileType = ftDirectory ∧
      s'.dirNo r.2.parentDir = some parent

/-- The lookups from directory `d` on find what there is, and all memory is got; `k` answers of
`sys_malloc` were used before. -/
def WalkSound (s : Fs) : ℕ → UInt32 → UInt32 → List (List UInt8) → Prop
  | k, _, prev, [] => (s.advance 0 0 k).OpenRoom prev
  | k, d, _, name :: names =>
    LookupSound (s.advance 0 0 k) (curInode s d.toNat) name ∧
      ∀ e, s.entry d name = some e → e.fType = ftDirectory →
        (s.advance 0 0 (k + 2)).OpenRoom e.iNo ∧
          WalkSound s (k + 2 + s.openCost e.iNo) e.iNo d names

/-- `/`, `/.` and `/..`, which `search_file` does not parse. -/
def IsRootPath (path : List UInt8) : Prop :=
  path = [slash] ∨ path = [slash, 46] ∨ path = [slash, 46, 46]

/-- When `search_file` answers what a path resolves to. -/
def PathSound (s : Fs) (path : List UInt8) : Prop :=
  IsRootPath path ∨
    ((components path = [] → s.junk 1 = 0) ∧ WalkSound s 0 0 0 (components path))

variable {s u : Fs} {d prev : UInt32} {k : ℕ} {ptr : DirPtr} {name : List UInt8}
  {names walked : List (List UInt8)}

section Entries

theorem entry_some {e : DirEntry} (h : s.entry d name = some e) :
    e ∈ s.dirEntries d ∧ e.filename = name :=
  ⟨List.mem_of_find?_eq_some h, by simpa using List.find?_some h⟩

theorem entry_eq_none : s.entry d name = none ↔
    LookupRight s.disk (curInode s d.toNat) name none := by
  rw [Fs.entry, List.find?_eq_none]
  simp [LookupRight, Fs.dirEntries]

/-- A lookup that is right finds the entry of the directory. -/
theorem TreeOk.entry_eq_some (h : TreeOk s) (hd : IsDir s d) {e : DirEntry}
    (he : LookupRight s.disk (curInode s d.toNat) name (some e)) : s.entry d name = some e := by
  obtain ⟨hmem, hname⟩ := he
  cases hfind : s.entry d name with
  | none => exact absurd hname (entry_eq_none.mp hfind e hmem)
  | some e' =>
    obtain ⟨hmem', hname'⟩ := entry_some hfind
    rw [List.inj_on_of_nodup_map (h.names d hd) hmem' hmem (hname'.trans hname.symm)]

theorem Fs.Finds.mem {e : DirEntry} (h : s.Finds d name e) :
    e ∈ s.dirEntries d ∧ e.filename = name := by
  obtain ⟨a, ha, hentry, hname, -⟩ := h
  exact ⟨mem_liveEntries.mpr ⟨a, ha, hentry⟩, hname⟩

theorem Fs.Finds.entry (h : TreeOk s) (hd : IsDir s d) {e : DirEntry} (hf : s.Finds d name e) :
    s.entry d name = some e :=
  h.entry_eq_some hd hf.mem

theorem IsDir.next (hd : IsDir s d) {e : DirEntry} (h : s.entry d name = some e)
    (htype : e.fType = ftDirectory) : IsDir s e.iNo :=
  .entry hd (entry_some h).1 htype

theorem TreeOk.number_lt (h : TreeOk s) (hd : IsDir s d) : d.toNat < 4096 := by
  cases hd with
  | root => decide
  | entry hd hmem htype => exact h.numbers _ hd _ hmem

/-- A missing component is looked up after those before. -/
theorem resolveFrom_missing (names : List (List UInt8)) {parent : UInt32} {w : List (List UInt8)}
    (h : resolveFrom s d prev walked names = .missing w parent) :
    ∃ name more, w = walked ++ name :: more := by
  induction names generalizing d prev walked with
  | nil => cases h
  | cons name names ih =>
    rw [resolveFrom] at h
    split at h
    · obtain ⟨rfl, -⟩ := Resolved.missing.inj h
      exact ⟨name, [], rfl⟩
    · split at h
      · obtain ⟨name', more, rfl⟩ := ih h
        exact ⟨name, name' :: more, by simp⟩
      · cases h

theorem toI32_number {x : UInt32} (h : x.toNat < 4096) : toI32 x = x.toNat := by
  rw [toI32, if_pos (by omega)]

end Entries

section Lookups

/-- Where a directory is open, it has the number and the entries it had. -/
theorem At.dirNo (h : TreeOk s) (hd : IsDir s d) (hat : At s k d ptr u) : u.dirNo ptr = some d := by
  obtain ⟨dir, n, hdir, hi⟩ := hat.dirOf h.toVisitable
  rw [Fs.dirNo, hdir, Option.bind_some, hi, Option.map_some]
  exact congrArg some (h.number d hd)

/-- What an open directory is like. -/
structure OpenDir (s u : Fs) (d : UInt32) (ptr : DirPtr) (dir : Dir) (i : Inode) : Prop where
  dirOf : u.dirOf ptr = some dir
  inode : u.inodes dir.inode = some i
  cnt : ∃ n, i = (curInode s d.toNat).setOpenCnts n
  layout : Layout u.part
  readable : DirReadable u.disk i
  blank : FreeSlotsBlank u.disk i
  entries : liveEntries u.disk i = s.dirEntries d

theorem At.openDir (h : TreeOk s) (hd : IsDir s d) (hat : At s k d ptr u) :
    ∃ dir i, OpenDir s u d ptr dir i := by
  obtain ⟨dir, n, hdir, hi⟩ := hat.dirOf h.toVisitable
  obtain ⟨l, hpart⟩ := hat.part
  have hread := h.readable d hd
  refine ⟨dir, _, hdir, hi, ⟨n, rfl⟩, ?_, ⟨?_, hread.table⟩, ?_, ?_⟩
  · rw [hpart]
    exact h.layout.setOpenInodes l
  all_goals rw [hat.disk]
  · exact hread.block
  · exact h.blank d hd
  · rfl

/-- What `search_dir_entry` does in an open directory: it gets no buffer, or faults, or finds only
what is there. -/
theorem At.searchDirEntry (h : TreeOk s) (hd : IsDir s d) (hat : At s k d ptr u) (hname : name ≠ [])
    (h0 : 0 ∉ name) (hlen : name.length ≤ 15) :
    (s.mallocs k = false ∧ searchDirEntry ptr name u = .ok (none, u.tick)) ∨
    (s.mallocs k = true ∧ s.mallocs (k + 1) = false ∧
      searchDirEntry ptr name u = .error .badPointer) ∨
    (s.mallocs k = true ∧ s.mallocs (k + 1) = true ∧ ∃ r,
      searchDirEntry ptr name u = .ok (r, u.tick.tick) ∧ ∀ e, r = some e ↔ s.Finds d name e) := by
  obtain ⟨dir, i, hopen⟩ := hat.openDir h hd
  have hm₀ : u.mallocs 0 = s.mallocs k := by rw [hat.mallocs, Nat.zero_add]
  have hm₁ : u.tick.mallocs 0 = s.mallocs (k + 1) := by
    change u.mallocs 1 = _
    rw [hat.mallocs, Nat.add_comm]
  cases hk : s.mallocs k with
  | false =>
    refine .inl ⟨rfl, ?_⟩
    rw [Exec.eq_ok_iff]
    simp only [Winx.searchDirEntry, Exec.Returns, Exec.post_bind, post_sysMalloc, hm₀, hk,
      Bool.false_eq_true, if_false, Exec.post_pure, and_self]
  | true =>
    refine .inr ?_
    have hread' : DirReadable u.tick.disk i := hopen.readable
    have hpost {Q : Option DirEntry → Fs → Prop} {E : Fault → Prop} :
        Exec.Post (Winx.searchDirEntry ptr name) u Q E ↔
          (s.mallocs (k + 1) = true →
            Exec.Post (searchBlocks (blockLba u.tick.disk i) name 140 0) u.tick.tick Q E) ∧
          (s.mallocs (k + 1) = false → E .badPointer) := by
      simp only [Winx.searchDirEntry, Exec.post_bind, post_sysMalloc, hm₀, hk, if_true,
        post_derefDir, show u.tick.dirOf ptr = some dir from hopen.dirOf, Option.some.injEq,
        forall_eq', reduceCtorEq, false_implies, and_true, post_derefInode,
        show u.tick.inodes dir.inode = some i from hopen.inode, post_loadBlocks hread',
        post_sysMallocUnchecked, hm₁]
    cases hk₁ : s.mallocs (k + 1) with
    | false =>
      refine .inl ⟨rfl, rfl, ?_⟩
      rw [Exec.eq_error_iff, hpost, hk₁]
      exact ⟨by simp, fun _ => rfl⟩
    | true =>
      refine .inr ⟨rfl, rfl, ?_⟩
      have hsearch := searchBlocks_spec (s := u.tick.tick) h0 (by omega : name.length < 16)
        hopen.layout hopen.readable.block 140 0 le_rfl Even.zero
      obtain ⟨r, u', hcall, hr, rfl⟩ := Exec.returns_iff.mp
        (hsearch.and (searchBlocks_same (s := u.tick.tick) (blockLba u.disk i) name 140 0))
      refine ⟨r, ?_, ?_⟩
      · rw [Exec.eq_ok_iff, Exec.Returns, hpost, hk₁]
        exact ⟨fun _ => Exec.eq_ok_iff.mp hcall, by simp⟩
      · have hblocks (c : ℕ) : blockLba u.disk i c = blockLba s.disk (curInode s d.toNat) c := by
          obtain ⟨n, rfl⟩ := hopen.cnt
          rw [hat.disk]
          rfl
        have hslots : liveSlots u.disk i = liveSlots s.disk (curInode s d.toNat) := by
          obtain ⟨n, rfl⟩ := hopen.cnt
          rw [hat.disk]
          rfl
        have hfinds {e : DirEntry} (hsome : r = some e) : s.Finds d name e := by
          subst hsome
          obtain ⟨j, hj, hne, hscan, m, hm, hentry, hfound⟩ := hr
          have hmem : (j, m) ∈ liveSlots u.disk i :=
            hopen.blank.mem_liveSlots hj hne hm (by
              change (slotEntry u.disk (blockLba u.disk i j) m).filename ≠ []
              rw [show slotEntry u.disk (blockLba u.disk i j) m = e from hentry, hfound]
              exact hname)
          refine ⟨(j, m), hslots ▸ hmem, ?_, hfound, (funext hblocks) ▸ hscan⟩
          rw [entryAt, ← hblocks, ← hat.disk]
          exact hentry
        intro e
        refine ⟨hfinds, fun hf => ?_⟩
        cases hcase : r with
        | some e' => rw [← (hfinds hcase).entry h hd, hf.entry h hd]
        | none =>
          obtain ⟨a, ha, hentry, hfound, hscan⟩ := hf
          obtain ⟨hk, hne, hm, -⟩ := mem_liveSlots.mp ha
          rw [hcase] at hr
          refine absurd hfound (hentry ▸ ?_)
          rw [entryAt, ← hblocks, ← hat.disk]
          rw [← hblocks] at hne
          exact hr a.1 hk (Nat.zero_le _) hne ((funext hblocks) ▸ hscan) a.2 hm

/-- A lookup in an open directory is right exactly if it is sound. -/
theorem At.findsExactly_iff (h : TreeOk s) (hd : IsDir s d) (hat : At s k d ptr u) (hname : name ≠ [])
    (h0 : 0 ∉ name) (hlen : name.length ≤ 15) :
    Exec.Returns (Winx.searchDirEntry ptr name) u
      (fun r _ => LookupRight s.disk (curInode s d.toNat) name r) ↔
      LookupSound (s.advance 0 0 k) (curInode s d.toNat) name := by
  obtain ⟨dir, i, hopen⟩ := hat.openDir h hd
  have hiff := Winx.findsExactly_iff hopen.layout hopen.dirOf hopen.inode hopen.readable hopen.blank
    hname h0 hlen
  obtain ⟨n, rfl⟩ := hopen.cnt
  have hm (m : ℕ) : u.mallocs m = (s.advance 0 0 k).mallocs m := hat.mallocs m
  rw [FindsExactly, LookupSound, hat.disk, hm, hm] at hiff
  exact hiff

end Lookups

/-- The directory a path leads to, or the one searched last. -/
def Resolved.parent : Resolved → UInt32
  | missing _ parent => parent
  | file _ _ parent => parent
  | dir _ parent => parent

/-- What `search_file` leaves: its answer, and only the directory searched last open. -/
structure Found (s : Fs) (res : Resolved) (r : Int × PathSearchRecord) (s' : Fs) : Prop where
  answers : Answers res r s'
  isDir : IsDir s res.parent
  opened : ∃ k, At s k res.parent r.2.parentDir s'

/-- The local variables of `search_file` before the components `names` are looked up. -/
structure SearchAt (st : SearchState) (names walked : List (List UInt8)) (ptr : DirPtr)
    (prev : UInt32) : Prop where
  name : st.name = names.headD []
  rest : restComponents st.subPath = names.tail
  parentDir : st.parentDir = ptr
  recordDir : st.record.parentDir = ptr
  path : st.record.searchedPath = joinPath walked
  type : st.record.fileType = ftUnknown
  prev : st.parentInodeNo = prev

section Loop

variable {st : SearchState} {fuel : ℕ} {Q : Int × PathSearchRecord → Fs → Prop}

theorem toI32_eq_iff {x : UInt32} (hd : d.toNat < 4096) : toI32 x = d.toNat ↔ x = d := by
  have hx := x.toNat_lt
  rw [← UInt32.toNat_inj, toI32]
  split <;> omega

/-- At the end of the path the last directory is closed and the one before opened again. -/
theorem searchLoop_end (h : TreeOk s) (hat : At s k d ptr u) (hd : IsDir s d) (hprev : IsDir s prev)
    (hst : SearchAt st [] walked ptr prev)
    (hfound : ∀ r s', Found s (.dir d prev) r s' → Q r s')
    (hright : ∀ r s', Q r s' → Answers (.dir d prev) r s') :
    Exec.Post (searchLoop (fuel + 1) st) u Q (fun _ => False) ↔
      st.dirE = d ∧ (s.advance 0 0 k).OpenRoom prev := by
  obtain ⟨a, b, hclose⟩ := hat.close h.toVisitable
  obtain ⟨ptr', u', hat', hopen⟩ := post_dirOpen_at h.toVisitable (h.number_lt hprev) a b k
  rw [← hst.recordDir] at hclose
  rw [searchLoop, if_pos (show st.name = [] from hst.name), Exec.post_bind_of_ok hclose, Exec.post_bind, hst.prev, hopen]
  constructor
  · rintro ⟨hgoes, hroom⟩
    have hroom := not_not.mp hroom
    have hanswer := hright _ _ (hgoes hroom)
    exact ⟨(toI32_eq_iff (h.number_lt hd)).mp hanswer.1, hroom⟩
  · rintro ⟨hno, hroom⟩
    refine ⟨fun _ => hfound _ _ ⟨⟨?_, rfl, ?_⟩, hprev, _, hat'⟩, fun hno => hno hroom⟩
    · exact (toI32_eq_iff (h.number_lt hd)).mpr hno
    · exact hat'.dirNo h hprev

/-- A name that is there is not answered as missing. -/
theorem not_answers_missing {e : DirEntry} {r : Int × PathSearchRecord}
    (he : s.entry d name = some e) (hr : r.1 = -1)
    (hpath : r.2.searchedPath = joinPath (walked ++ [name])) :
    ¬ Answers (resolveFrom s d prev walked (name :: names)) r u := by
  have hneg {n : UInt32} : r.1 ≠ n.toNat := by omega
  simp only [resolveFrom, he]
  split
  · cases hres : resolveFrom s e.iNo d (walked ++ [name]) names with
    | missing w parent =>
      rintro ⟨-, -, hw, -⟩
      obtain ⟨name', more, rfl⟩ := resolveFrom_missing names hres
      rw [hpath] at hw
      have hlen := congrArg List.length hw
      simp [joinPath] at hlen
    | file w no parent => exact fun hanswers => hneg hanswers.1
    | dir no parent => exact fun hanswers => hneg hanswers.1
  · exact fun hanswers => hneg hanswers.1

/-- A lookup that finds nothing ends the search. -/
theorem searchLoop_none (hat : At s k d ptr u) (h : TreeOk s) (hd : IsDir s d)
    {r : Int × PathSearchRecord} (hr : r.1 = -1) (htype : r.2.fileType = ftUnknown)
    (hpath : r.2.searchedPath = joinPath (walked ++ [name])) (hdir : r.2.parentDir = ptr)
    (hfound : ∀ r s', Found s (resolveFrom s d prev walked (name :: names)) r s' → Q r s')
    (hright : ∀ r s', Q r s' → Answers (resolveFrom s d prev walked (name :: names)) r s') :
    Q r u ↔ LookupRight s.disk (curInode s d.toNat) name none := by
  rw [← entry_eq_none]
  constructor
  · intro hq
    cases he : s.entry d name with
    | none => rfl
    | some e => exact absurd (hright _ _ hq) (not_answers_missing he hr hpath)
  · intro hnone
    refine hfound _ _ ?_
    simp only [resolveFrom, hnone]
    subst hdir
    exact ⟨⟨hr, htype, hpath, hat.dirNo h hd⟩, hd, k, hat⟩

/-- What `search_file` finds where the lookups are sound, and only there. The induction is on the
components; before each the directory found so far is open. -/
theorem searchLoop_iff (h : TreeOk s) (names : List (List UInt8))
    (hnames : ∀ n ∈ names, n ≠ [] ∧ 0 ∉ n ∧ n.length ≤ 15) (hat : At s k d ptr u) (hd : IsDir s d)
    (hprev : IsDir s prev) (hst : SearchAt st names walked ptr prev)
    (hlen : (joinPath walked).length + (joinPath names).length < 512)
    (hfuel : names.length < fuel)
    (hfound : ∀ r s', Found s (resolveFrom s d prev walked names) r s' → Q r s')
    (hright : ∀ r s', Q r s' → Answers (resolveFrom s d prev walked names) r s') :
    Exec.Post (searchLoop fuel st) u Q (fun _ => False) ↔
      (names = [] → st.dirE = d) ∧ WalkSound s k d prev names := by
  induction names generalizing fuel st u ptr d prev walked k with
  | nil =>
    obtain ⟨fuel, rfl⟩ := Nat.exists_eq_add_one.mpr hfuel
    rw [searchLoop_end h hat hd hprev hst hfound hright, WalkSound]
    simp
  | cons name names ih =>
    obtain ⟨fuel, rfl⟩ := Nat.exists_eq_add_one.mpr (Nat.zero_lt_of_lt hfuel)
    obtain ⟨hne, h0, hshort⟩ := hnames name List.mem_cons_self
    have hname : st.name = name := hst.name
    have hpath : st.record.searchedPath ++ slash :: st.name = joinPath (walked ++ [name]) := by
      rw [joinPath_append, hst.path, hname]
    have hassert : st.record.searchedPath.length < 512 := by
      rw [hst.path]
      omega
    rw [searchLoop, if_neg (hname ▸ hne), Exec.post_bind, post_assert, WalkSound]
    simp only [hassert, true_implies, not_true_eq_false, false_implies, and_true, hst.parentDir,
      hname, reduceCtorEq, true_and]
    rw [hname] at hpath
    rw [← hat.findsExactly_iff h hd hne h0 hshort]
    have hnone {u' : Fs} {k' : ℕ} (hat' : At s k' d ptr u') :
        Q (-1, { st.record with searchedPath := st.record.searchedPath ++ slash :: name }) u' ↔
          LookupRight s.disk (curInode s d.toNat) name none ∧
            ∀ e, s.entry d name = some e → e.fType = ftDirectory →
              (s.advance 0 0 (k + 2)).OpenRoom e.iNo ∧
                WalkSound s (k + 2 + s.openCost e.iNo) e.iNo d names := by
      rw [searchLoop_none hat' h hd rfl hst.type hpath hst.recordDir hfound hright]
      refine (and_iff_left_of_imp fun hmiss e he => ?_).symm
      rw [entry_eq_none.mpr hmiss] at he
      cases he
    rcases hat.searchDirEntry h hd hne h0 hshort with ⟨-, hcall⟩ | ⟨-, -, hcall⟩ | ⟨-, -, r, hcall, hr⟩
    · rw [Exec.post_bind, Exec.post_of_ok hcall, Exec.Returns, Exec.post_of_ok hcall]
      exact hnone hat.tick
    · rw [Exec.post_bind, Exec.post_of_error hcall, Exec.Returns, Exec.post_of_error hcall]
      exact (iff_of_eq (false_and _)).symm
    · rw [Exec.post_bind, Exec.post_of_ok hcall, Exec.Returns, Exec.post_of_ok hcall]
      cases r with
      | none => exact hnone hat.tick.tick
      | some e =>
        have he := ((hr e).mp rfl).entry h hd
        have hat₂ := hat.tick.tick
        have hrest : restComponents st.subPath = names := hst.rest
        obtain ⟨rest, hnext, htail⟩ := nextName_ok (s := u.tick.tick) st.subPath
          (by rw [hrest]; exact fun n hn => (hnames n (List.mem_cons_of_mem _ hn)).2.2)
        rw [hrest] at hnext htail
        have hsound : LookupRight s.disk (curInode s d.toNat) name (some e) := entry_some he
        have hres : resolveFrom s d prev walked (name :: names) =
            if e.fType = ftDirectory then resolveFrom s e.iNo d (walked ++ [name]) names
            else .file (walked ++ [name]) e.iNo d := by
          simp only [resolveFrom, he]
        simp only [hsound, true_and, he, Option.some.injEq, forall_eq']
        rw [Exec.post_bind, Exec.post_of_ok hnext]
        dsimp only
        rcases h.types d hd e hsound.1 with hdir | hreg
        · obtain ⟨dir, i, hopen⟩ := hat₂.openDir h hd
          obtain ⟨a, b, hclose⟩ := hat₂.close h.toVisitable
          have hd' := hd.next he hdir
          obtain ⟨ptr', u', hat', hpost⟩ := post_dirOpen_at h.toVisitable (h.number_lt hd') a b (k + 2)
          have hno : i.iNo = d := by
            obtain ⟨n, rfl⟩ := hopen.cnt
            exact h.number d hd
          rw [if_pos hdir] at hres
          rw [hres] at hfound hright
          have hlen' : (joinPath (walked ++ [name])).length + (joinPath names).length < 512 := by
            rw [joinPath_cons, List.length_append] at hlen
            rwa [joinPath_append, List.length_append, Nat.add_assoc]
          have hst' : SearchAt ⟨rest, names.headD [], ptr', e.iNo, i.iNo,
              { st.record with searchedPath := st.record.searchedPath ++ slash :: name,
                               parentDir := ptr' }⟩ names (walked ++ [name]) ptr' d :=
            ⟨rfl, htail, rfl, rfl, hpath, hst.type, hno⟩
          have hfuel' : names.length < fuel := by simpa using hfuel
          have hloop := ih (fun n hn => hnames n (List.mem_cons_of_mem _ hn)) hat' hd' hd hst' hlen'
            hfuel' hfound hright
          rw [if_pos hdir]
          simp only [Exec.post_bind, post_derefDir, hopen.dirOf, Option.some.injEq, forall_eq',
            reduceCtorEq, false_implies, and_true, post_derefInode, hopen.inode]
          rw [Exec.post_of_ok hclose, hpost, hloop]
          simp only [implies_true, true_and, hdir, true_implies]
          constructor
          · rintro ⟨hgoes, hroom⟩
            exact ⟨not_not.mp hroom, hgoes (not_not.mp hroom)⟩
          · exact fun hsound' => ⟨fun _ => hsound'.2, fun hno => hno hsound'.1⟩
        · rw [if_neg (by rw [hreg]; decide)] at hres
          rw [hres] at hfound hright
          rw [if_neg (by rw [hreg]; decide), if_pos hreg]
          refine iff_of_true (hfound _ _ ⟨⟨?_, rfl, hpath, ?_⟩, hd, k + 1 + 1, ?_⟩) fun hdir => ?_
          · exact toI32_number (h.numbers d hd e hsound.1)
          · rw [← hst.recordDir] at hat₂
            exact hat₂.dirNo h hd
          · rw [← hst.recordDir] at hat₂
            exact hat₂
          · rw [hreg] at hdir
            exact absurd hdir (by decide)

end Loop

section Search

variable {path : List UInt8}

/-- An absolute path that fits the buffers of `search_file`. -/
structure PathOk (path : List UInt8) : Prop where
  absolute : path.head? = some slash
  length_le : path.length ≤ 511
  noNul : 0 ∉ path
  names : ∀ name ∈ components path, name.length ≤ 15

theorem PathOk.components (h : PathOk path) :
    ∀ name ∈ Winx.components path, name ≠ [] ∧ 0 ∉ name ∧ name.length ≤ 15 := by
  intro name hname
  obtain ⟨hne, -, hsub⟩ := of_mem_components path name hname
  exact ⟨hne, fun h0 => h.noNul (hsub 0 h0), h.names name hname⟩

theorem PathOk.length_joinPath (h : PathOk path) :
    (joinPath (Winx.components path)).length ≤ path.length := by
  obtain ⟨rest, rfl⟩ := List.head?_eq_some_iff.mp h.absolute
  rw [components_slash]
  exact length_joinPath_components rest

/-- The special spellings of the root directory. -/
theorem IsRootPath.resolve (h : TreeOk s) (hpath : IsRootPath path) :
    resolve s path = .dir 0 0 := by
  rcases hpath with rfl | rfl | rfl
  · rw [Winx.resolve, components_slash, components_nil]
    rfl
  all_goals rw [Winx.resolve, components_slash, components_single (by decide) (by decide)]
  · obtain ⟨e, he, htype, hno⟩ := h.dots dot (.inl rfl)
    change resolveFrom s 0 0 [] [dot] = _
    simp only [resolveFrom, he, htype, hno, if_true]
  · obtain ⟨e, he, htype, hno⟩ := h.dots dotDot (.inr rfl)
    change resolveFrom s 0 0 [] [dotDot] = _
    simp only [resolveFrom, he, htype, hno, if_true]

/-- `search_file` ends as it should exactly where its lookups are sound. -/
theorem post_searchFile (h : TreeOk s) (hpath : PathOk path)
    {Q : Int × PathSearchRecord → Fs → Prop} (hfound : ∀ r s', Found s (resolve s path) r s' → Q r s')
    (hright : ∀ r s', Q r s' → Answers (resolve s path) r s') :
    Exec.Post (searchFile path) s Q (fun _ => False) ↔ PathSound s path := by
  have hat : At s 0 0 .rootDir s := .root 0 0
  have hroot : IsDir s 0 := .root
  rw [searchFile, PathSound]
  by_cases hspecial : IsRootPath path
  · have hif : path = [slash] ∨ path = [slash, 46] ∨ path = [slash, 46, 46] := hspecial
    rw [if_pos hif]
    refine iff_of_true (hfound _ _ ?_) (.inl hspecial)
    rw [hspecial.resolve h]
    exact ⟨⟨rfl, rfl, hat.dirNo h hroot⟩, hroot, 0, hat⟩
  · have hif : ¬ (path = [slash] ∨ path = [slash, 46] ∨ path = [slash, 46, 46]) := hspecial
    obtain ⟨hname, hrest⟩ := pathParse_components path
    have hlong : 1 < path.length := by
      obtain ⟨rest, rfl⟩ := List.head?_eq_some_iff.mp hpath.absolute
      cases rest with
      | nil => exact absurd (.inl rfl) hspecial
      | cons c rest =>
        rw [List.length_cons, List.length_cons]
        omega
    have hstore : (pathParse path).1.length < 16 := by
      rw [hname]
      exact Nat.lt_succ_of_le (length_headD_le hpath.names)
    have hst : SearchAt ⟨(pathParse path).2, (pathParse path).1, .rootDir, s.junk 1, 0,
        ⟨[], .rootDir, ftUnknown⟩⟩ (components path) [] .rootDir 0 :=
      ⟨hname, hrest, rfl, rfl, rfl, rfl, rfl⟩
    have hjoin := hpath.length_joinPath
    have hcount := length_le_length_joinPath (components path)
    have hlength := hpath.length_le
    have hfuel : (components path).length < path.length + 1 := by omega
    have hloop := searchLoop_iff h (components path) hpath.components hat hroot hroot hst
      (by rw [show (joinPath []).length = 0 from rfl]; omega) hfuel hfound hright
    have hassert : path.head? = some slash ∧ 1 < path.length ∧ path.length < 512 :=
      ⟨hpath.absolute, hlong, by omega⟩
    rw [if_neg hif, or_iff_right hspecial, Exec.post_bind, Exec.post_get, Exec.post_bind, post_assert]
    simp only [hassert, and_self, true_implies, not_true_eq_false, false_implies, and_true, storeName,
      Exec.post_bind, post_inBounds, hstore]
    exact hloop

/-- `search_file` answers what the path resolves to. -/
theorem searchFile_found (h : TreeOk s) (hpath : PathOk path) (hsound : PathSound s path) :
    Exec.Returns (searchFile path) s fun r s' => Found s (resolve s path) r s' :=
  (post_searchFile h hpath (fun _ _ => id) fun _ _ hfound => hfound.answers).mpr hsound

/-- `search_file` answers what the path resolves to exactly if its lookups do not step over what they
look for, its memory is got, and a path without components is spelled as the root is or finds a zero
on the stack. -/
theorem searchFile_iff (h : TreeOk s) (hpath : PathOk path) :
    Exec.Returns (searchFile path) s (fun r s' => Answers (resolve s path) r s') ↔
      PathSound s path :=
  post_searchFile h hpath (fun _ _ hfound => hfound.answers) fun _ _ => id

end Search

section Small

theorem entries_fileRoot : liveEntries fileFs.disk fileRoot =
    [⟨dot, 0, ftDirectory⟩, ⟨dotDot, 0, ftDirectory⟩, ⟨[97], 1, ftRegular⟩] := by
  have hinj : Function.Injective fun e : DirEntry => (e.filename, e.iNo, e.fType) := by
    intro e e' h
    cases e
    cases e'
    simpa using h
  refine List.map_injective_iff.mpr hinj ?_
  decide +kernel

theorem findOpenInode_withJunk (s : Fs) (f : ℕ → UInt32) (no : UInt32) :
    findOpenInode (s.withJunk f) no = findOpenInode s no := rfl

theorem findOpenInode_fileFs (f : ℕ → UInt32) : findOpenInode (fileFs.withJunk f) 0 = some 0 := by
  rw [findOpenInode_withJunk]
  decide +kernel

theorem curInode_fileFs (f : ℕ → UInt32) : curInode (fileFs.withJunk f) (0 : UInt32).toNat = fileRoot := by
  refine curInode_of_find (findOpenInode_fileFs f) ?_
  rw [Fs.withJunk_inodes, fileFs, Fs.setInode_inodes, Function.update_self]

theorem dirEntries_fileFs (f : ℕ → UInt32) : (fileFs.withJunk f).dirEntries 0 =
    [⟨dot, 0, ftDirectory⟩, ⟨dotDot, 0, ftDirectory⟩, ⟨[97], 1, ftRegular⟩] := by
  rw [Fs.dirEntries, curInode_fileFs, Fs.withJunk_disk, entries_fileRoot]

theorem openable_fileFs (f : ℕ → UInt32) : Openable (fileFs.withJunk f) where
  running := List.mem_singleton.mpr rfl
  dirs t ht x hx := by
    obtain rfl := List.mem_singleton.mp ht
    cases hx
  inode_lt p i hi := by
    by_contra hp
    have hne : p ≠ 0 := fun h0 => hp (h0 ▸ Nat.zero_lt_one)
    rw [Fs.withJunk_inodes, fileFs, Fs.setInode_inodes, Function.update_of_ne hne] at hi
    change (if p = 0 then _ else none) = some i at hi
    rw [if_neg hne] at hi
    cases hi
  opened p hp i hi := by
    obtain rfl : p = 0 := List.mem_singleton.mp hp
    rw [Fs.withJunk_inodes, fileFs, Fs.setInode_inodes, Function.update_self] at hi
    rw [← Option.some.inj hi]
    exact Nat.zero_lt_one

/-- The small partition with a file is well formed. -/
theorem treeOk_fileFs (f : ℕ → UInt32) : TreeOk (fileFs.withJunk f) := by
  have hcur := curInode_fileFs f
  have hentries := dirEntries_fileFs f
  have honly {d : UInt32} (hd : IsDir (fileFs.withJunk f) d) : d = 0 := by
    induction hd with
    | root => rfl
    | entry hd hmem htype ih =>
      subst ih
      rw [hentries] at hmem
      simp only [List.mem_cons, List.not_mem_nil, or_false] at hmem
      rcases hmem with rfl | rfl | rfl
      · rfl
      · rfl
      · cases htype
  refine ⟨⟨openable_fileFs f, layout_rootFs, findOpenInode_fileFs f⟩, ?_, ?_, ?_, ?_, ?_, ?_, ?_⟩
  all_goals try
    intro d hd
    obtain rfl := honly hd
  · rw [hcur]
    decide +kernel
  · rw [hcur, Fs.withJunk_disk]
    exact dirOk_fileFs.readable
  · rw [hcur, Fs.withJunk_disk]
    exact dirOk_fileFs.blank
  · rw [hentries]
    decide
  · rw [hentries]
    decide
  · rw [hentries]
    decide
  · intro name hname
    rw [Fs.entry, hentries]
    rcases hname with rfl | rfl
    · exact ⟨_, rfl, rfl, rfl⟩
    · exact ⟨_, rfl, rfl, rfl⟩

theorem pathOk_a : PathOk [slash, 97] := by
  refine ⟨rfl, by decide, by decide, fun name hname => ?_⟩
  rw [components_slash, components_single (by decide) (by decide)] at hname
  rw [List.mem_singleton.mp hname]
  decide

/-- `search_file` finds the file. -/
theorem searchFile_iff_a : resolve (fileFs.withJunk fun _ => 7) [slash, 97] = .file [[97]] 1 0 ∧
    Exec.Returns (searchFile [slash, 97]) (fileFs.withJunk fun _ => 7)
      fun r s' => Answers (resolve (fileFs.withJunk fun _ => 7) [slash, 97]) r s' := by
  have hcomp : components [slash, 97] = [[97]] := by
    rw [components_slash, components_single (by decide) (by decide)]
  have hentry : (fileFs.withJunk fun _ => 7).entry 0 [97] = some ⟨[97], 1, ftRegular⟩ := by
    rw [Fs.entry, dirEntries_fileFs]
    rfl
  refine ⟨?_, (searchFile_iff (treeOk_fileFs _) pathOk_a).mpr (.inr ⟨?_, ?_⟩)⟩
  · rw [resolve, hcomp]
    simp only [resolveFrom, hentry]
    rfl
  · rw [hcomp]
    exact nofun
  · rw [hcomp, WalkSound, curInode_fileFs]
    refine ⟨⟨fun _ => rfl, fun _ => ⟨rfl, (0, 2), ?_, ?_, ?_⟩⟩, fun e he htype => ?_⟩
    · rw [Fs.advance_disk, Fs.withJunk_disk, liveSlots_fileFs]
      decide +kernel
    · rw [Fs.advance_disk, Fs.withJunk_disk]
      decide +kernel
    · exact Even.zero
    · rw [hentry] at he
      rw [← Option.some.inj he] at htype
      cases htype

/-- A path of slashes only is answered with what the stack holds. -/
theorem searchFile_slashes : TreeOk (fileFs.withJunk fun _ => 7) ∧ PathOk [slash, slash] ∧
    resolve (fileFs.withJunk fun _ => 7) [slash, slash] = .dir 0 0 ∧
    Exec.Returns (searchFile [slash, slash]) (fileFs.withJunk fun _ => 7) fun r _ => r.1 = 7 := by
  have hcomp : components [slash, slash] = [] := by
    rw [components_slash, components_slash, components_nil]
  refine ⟨treeOk_fileFs _, ⟨rfl, by decide, by decide, ?_⟩, ?_, ?_⟩
  · rw [hcomp]
    exact nofun
  · rw [resolve, hcomp]
    rfl
  · have hcall : Exec.returnsWith (searchFile [slash, slash] (fileFs.withJunk fun _ => 7))
        (fun r _ => decide (r.1 = 7)) = true := by decide +kernel
    obtain ⟨r, s', hrun, hr⟩ := Exec.exists_of_returnsWith hcall
    exact Exec.returns_iff.mpr ⟨r, s', hrun, of_decide_eq_true hr⟩

end Small

end Winx
