import Winx.Fs.Resolve

/-! # The runs of `search_file`

A lookup that gets no buffer answers that there is nothing. So how far `search_file`
comes in a path depends on the memory there is, and any directory on its way may be
the last one.
-/

namespace Winx

/-- The state with other answers of `sys_malloc` and other uninitialised variables. -/
abbrev Fs.given (s : Fs) (junk : ℕ → UInt32) (mallocs : ℕ → Bool) : Fs :=
  (s.withJunk junk).withMallocs mallocs

/-- The directories `search_file` may come to, each with the components that are left there. -/
inductive Reaches (s : Fs) (names : List (List UInt8)) : UInt32 → List (List UInt8) → Prop
  | root : Reaches s names 0 names
  | next {d : UInt32} {name : List UInt8} {rest : List (List UInt8)} {e : DirEntry} :
      Reaches s names d (name :: rest) → s.Finds d name e → e.fType = ftDirectory →
        Reaches s names e.iNo rest

/-- The names that `search_file` stores on its way fit its buffer. After an entry that is found the
next name is stored, whatever the entry is. -/
structure NamesFit (s : Fs) (names : List (List UInt8)) : Prop where
  here : ∀ d rest, Reaches s names d rest → (rest.headD []).length ≤ 15
  next : ∀ d name rest e, Reaches s names d (name :: rest) → s.Finds d name e →
    (rest.headD []).length ≤ 15

/-- What `search_file` may leave. -/
inductive SearchEnds (s : Fs) (names : List (List UInt8)) : Int × PathSearchRecord → Fs → Prop
  | missing {d : UInt32} {name : List UInt8} {walked rest : List (List UInt8)} {ptr : DirPtr}
      {k : ℕ} {u : Fs} : Reaches s names d (name :: rest) → walked ++ name :: rest = names →
        At s k d ptr u → SearchEnds s names (-1, ⟨joinPath (walked ++ [name]), ptr, ftUnknown⟩) u
  | file {d : UInt32} {name : List UInt8} {walked rest : List (List UInt8)} {e : DirEntry}
      {ptr : DirPtr} {k : ℕ} {u : Fs} : Reaches s names d (name :: rest) → walked ++ name :: rest = names →
        s.Finds d name e → e.fType = ftRegular → At s k d ptr u →
          SearchEnds s names (e.iNo.toNat, ⟨joinPath (walked ++ [name]), ptr, ftRegular⟩) u
  | dir {d prev : UInt32} {ptr : DirPtr} {k : ℕ} {u : Fs} : Reaches s names d [] → IsDir s prev →
      At s k prev ptr u → SearchEnds s names (d.toNat, ⟨joinPath names, ptr, ftDirectory⟩) u

variable {s s' u : Fs} {d prev : UInt32} {k fuel : ℕ} {ptr : DirPtr} {name : List UInt8}
  {names walked rest : List (List UInt8)} {e : DirEntry} {st : SearchState} {junk : ℕ → UInt32}
  {mallocs : ℕ → Bool}

section Given

theorem Fs.Finds.given (h : s.Finds d name e) : (s.given junk mallocs).Finds d name e := h

theorem Fs.Finds.of_given (h : (s.given junk mallocs).Finds d name e) : s.Finds d name e := h

theorem Reaches.given (h : Reaches s names d rest) : Reaches (s.given junk mallocs) names d rest := by
  induction h with
  | root => exact .root
  | next _ hf htype ih => exact .next ih hf.given htype

theorem Reaches.of_given (h : Reaches (s.given junk mallocs) names d rest) : Reaches s names d rest := by
  induction h with
  | root => exact .root
  | next _ hf htype ih => exact .next ih hf.of_given htype

theorem IsDir.of_given (h : IsDir (s.given junk mallocs) d) : IsDir s d := by
  induction h with
  | root => exact .root
  | entry _ hmem htype ih => exact .entry ih hmem htype

/-- A well-formed tree does not depend on the memory there is. -/
theorem TreeOk.given (h : TreeOk s) : TreeOk (s.given junk mallocs) where
  running := h.running
  dirs := h.dirs
  inode_lt := h.inode_lt
  opened := h.opened
  layout := h.layout
  root := h.root
  number d hd := h.number d hd.of_given
  readable d hd := h.readable d hd.of_given
  blank d hd := h.blank d hd.of_given
  names d hd := h.names d hd.of_given
  types d hd := h.types d hd.of_given
  numbers d hd := h.numbers d hd.of_given
  dots := h.dots

theorem NamesFit.given (h : NamesFit s names) : NamesFit (s.given junk mallocs) names where
  here d rest hw := h.here d rest hw.of_given
  next d name rest e hw hf := h.next d name rest e hw.of_given hf.of_given

end Given

theorem Reaches.isDir (h : Reaches s names d rest) : IsDir s d := by
  induction h with
  | root => exact .root
  | next _ hf htype ih => exact .entry ih hf.mem.1 htype

theorem Reaches.suffix (h : Reaches s names d rest) : ∃ walked, walked ++ rest = names := by
  induction h with
  | root => exact ⟨[], rfl⟩
  | next _ _ _ ih =>
    obtain ⟨walked, hjoin⟩ := ih
    exact ⟨walked ++ [_], by rw [List.append_assoc, ← hjoin]; rfl⟩

theorem SearchAt.record (h : SearchAt st names walked ptr prev) :
    st.record = ⟨joinPath walked, ptr, ftUnknown⟩ := by
  rw [← h.path, ← h.recordDir, ← h.type]

/-- The next name is stored if it fits. -/
theorem nextName_cases (s : Fs) (subPath : Option (List UInt8)) :
    (((restComponents subPath).headD []).length ≤ 15 ∧ ∃ more,
      nextName subPath s = .ok (((restComponents subPath).headD [], more), s) ∧
        restComponents more = (restComponents subPath).tail) ∨
    (¬ ((restComponents subPath).headD []).length ≤ 15 ∧
      nextName subPath s = .error .outOfBounds) := by
  cases subPath with
  | none => exact .inl ⟨Nat.zero_le _, none, rfl, rfl⟩
  | some p =>
    obtain ⟨hname, hrest⟩ := pathParse_components p
    rw [restComponents, Option.elim_some, ← hname]
    by_cases hfit : (pathParse p).1.length ≤ 15
    · refine .inl ⟨hfit, (pathParse p).2, ?_, hrest⟩
      rw [Exec.eq_ok_iff]
      simp only [nextName, storeName, Exec.post_bind, post_inBounds, Exec.post_pure, and_self]
      exact ⟨fun _ => trivial, fun hlong => absurd hfit (by omega)⟩
    · refine .inr ⟨hfit, ?_⟩
      rw [Exec.eq_error_iff]
      simp only [nextName, storeName, Exec.post_bind, post_inBounds, Exec.post_pure]
      exact ⟨fun hshort => absurd hshort (by omega), fun _ => trivial⟩

/-- A turn of the loop of `search_file` that looks up `name` in the directory `ptr`, to which the names
`walked` have led. -/
def searchTurn (fuel : ℕ) (st : SearchState) (ptr : DirPtr) (walked : List (List UInt8))
    (name : List UInt8) : FsM (Int × PathSearchRecord) := do
  match ← searchDirEntry ptr name with
  | none => pure (-1, (⟨joinPath (walked ++ [name]), ptr, ftUnknown⟩ : PathSearchRecord))
  | some e =>
    let (name', subPath) ← nextName st.subPath
    if e.fType = ftDirectory then
      let dir ← derefDir ptr
      let inode ← derefInode dir.inode
      dirClose ptr
      let parentDir ← dirOpen e.iNo
      searchLoop fuel ⟨subPath, name', parentDir, e.iNo, inode.iNo,
        ⟨joinPath (walked ++ [name]), parentDir, ftUnknown⟩⟩
    else if e.fType = ftRegular then
      pure (toI32 e.iNo, ⟨joinPath (walked ++ [name]), ptr, ftRegular⟩)
    else searchLoop fuel ⟨subPath, name', ptr, e.iNo, st.parentInodeNo,
      ⟨joinPath (walked ++ [name]), ptr, ftUnknown⟩⟩

/-- One turn of the loop of `search_file` in a directory that is open: it finds nothing, faults for
want of memory or because the next name is too long, ends at a file or goes on in a directory. -/
theorem searchLoop_turn (fuel : ℕ) (h : TreeOk s) (hd : IsDir s d) (hat : At s k d ptr u)
    (hst : SearchAt st (name :: rest) walked ptr prev) (hne : name ≠ []) (h0 : 0 ∉ name)
    (hfit : name.length ≤ 15) (hlen : (joinPath walked).length < 512) :
    ((s.mallocs k = false ∨ ∀ e, ¬ s.Finds d name e) ∧ ∃ v, (At s (k + 1) d ptr v ∨ At s (k + 2) d ptr v) ∧
      (s.mallocs k = false → At s (k + 1) d ptr v) ∧
      searchLoop (fuel + 1) st u = .ok ((-1, ⟨joinPath (walked ++ [name]), ptr, ftUnknown⟩), v)) ∨
    (s.mallocs k = true ∧
      (∃ n, s.mallocs n = false ∧ ∀ e, s.Finds d name e → n < k + 2 + s.openCost e.iNo) ∧
      searchLoop (fuel + 1) st u = .error .badPointer) ∨
    (s.mallocs k = true ∧ ∃ e, s.Finds d name e ∧
      (¬ (rest.headD []).length ≤ 15 ∧ searchLoop (fuel + 1) st u = .error .outOfBounds ∨
      (rest.headD []).length ≤ 15 ∧
      (e.fType = ftRegular ∧ At s (k + 2) d ptr u.tick.tick ∧ searchLoop (fuel + 1) st u =
        .ok ((e.iNo.toNat, ⟨joinPath (walked ++ [name]), ptr, ftRegular⟩), u.tick.tick) ∨
      e.fType = ftDirectory ∧ ∃ ptr' u' st', At s (k + 2 + s.openCost e.iNo) e.iNo ptr' u' ∧
        SearchAt st' rest (walked ++ [name]) ptr' d ∧ st'.dirE = e.iNo ∧
          searchLoop (fuel + 1) st u = searchLoop fuel st' u'))) := by
  have hname : st.name = name := hst.name
  have hrecord := hst.record
  have hassert : st.record.searchedPath.length < 512 := by
    rw [hrecord]
    exact hlen
  have hpath : joinPath walked ++ slash :: name = joinPath (walked ++ [name]) :=
    (joinPath_append walked name).symm
  have hstart : searchLoop (fuel + 1) st u = searchTurn fuel st ptr walked name u := by
    rw [searchLoop, if_neg (hname ▸ hne), assert, if_pos hassert, pure_bind, hst.parentDir, hname,
      hrecord, hpath]
    rfl
  rw [hstart, searchTurn]
  rcases hat.searchDirEntry h hd hne h0 hfit with ⟨hm, hcall⟩ | ⟨hm, hm', hcall⟩ | ⟨hm, hm', r, hcall, hr⟩
  · refine .inl ⟨.inl hm, u.tick, .inl hat.tick, fun _ => hat.tick, ?_⟩
    rw [Exec.bind_eq_ok hcall]
    rfl
  · refine .inr (.inl ⟨hm, ⟨_, hm', fun e _ => by omega⟩, ?_⟩)
    rw [Exec.eq_error_iff, Exec.post_bind, Exec.post_of_error hcall]
  · rw [Exec.bind_eq_ok hcall]
    cases r with
    | none =>
      refine .inl ⟨.inr fun e hf => ?_, u.tick.tick, .inr hat.tick.tick, fun hno => ?_, rfl⟩
      · cases (hr e).mpr hf
      · rw [hm] at hno
        cases hno
    | some e =>
      have hf := (hr e).mp rfl
      have hmem := hf.mem
      have hrest : restComponents st.subPath = rest := hst.rest
      rcases nextName_cases u.tick.tick st.subPath with ⟨hshort, more, hnext, htail⟩ | ⟨hlong, hnext⟩
      all_goals rw [hrest] at *
      · have hat₂ := hat.tick.tick
        dsimp only
        rw [Exec.bind_eq_ok hnext]
        dsimp only
        rcases h.types d hd e hmem.1 with hdir | hreg
        · obtain ⟨dir, i, hopen⟩ := hat₂.openDir h hd
          obtain ⟨a, b, hclose⟩ := hat₂.close h.toVisitable
          have hd' : IsDir s e.iNo := .entry hd hmem.1 hdir
          obtain ⟨ptr', u', hat', hpost⟩ := post_dirOpen_at h.toVisitable (h.number_lt hd') a b (k + 2)
          have hno : i.iNo = d := by
            obtain ⟨n, rfl⟩ := hopen.cnt
            exact h.number d hd
          have hderef : derefDir ptr u.tick.tick = .ok (dir, u.tick.tick) := by
            rw [Exec.eq_ok_iff, Exec.Returns, post_derefDir, hopen.dirOf]
            exact ⟨fun _ heq => ⟨(Option.some.inj heq).symm, rfl⟩, by simp⟩
          have hinode : derefInode dir.inode u.tick.tick = .ok (i, u.tick.tick) := by
            rw [Exec.eq_ok_iff, Exec.Returns, post_derefInode, hopen.inode]
            exact ⟨fun _ heq => ⟨(Option.some.inj heq).symm, rfl⟩, by simp⟩
          rw [if_pos hdir, Exec.bind_eq_ok hderef, Exec.bind_eq_ok hinode, Exec.bind_eq_ok hclose]
          by_cases hroom : (s.advance 0 0 (k + 2)).OpenRoom e.iNo
          · have hopened : dirOpen e.iNo (s.advance a b (k + 2)) = .ok (ptr', u') := by
              rw [Exec.eq_ok_iff, Exec.Returns, hpost]
              exact ⟨fun _ => ⟨rfl, rfl⟩, fun hno => absurd hroom hno⟩
            rw [Exec.bind_eq_ok hopened]
            refine .inr (.inr ⟨hm, e, hf, .inr ⟨hshort, .inr ⟨hdir, ptr', u', _, hat', ?_, rfl, rfl⟩⟩⟩)
            exact ⟨rfl, htail, rfl, rfl, rfl, rfl, hno⟩
          · refine .inr (.inl ⟨hm, ?_, ?_⟩)
            · rw [Fs.OpenRoom] at hroom
              push Not at hroom
              obtain ⟨n, hlt, hn⟩ := hroom
              refine ⟨n + (k + 2), Bool.eq_false_iff.mpr hn, fun e' hf' => ?_⟩
              obtain rfl : e' = e := Option.some.inj ((hf'.entry h hd).symm.trans (hf.entry h hd))
              have hcost : (s.advance 0 0 (k + 2)).openCost e'.iNo = s.openCost e'.iNo := rfl
              omega
            · rw [Exec.eq_error_iff, Exec.post_bind, hpost]
              exact ⟨fun hyes => absurd hyes hroom, fun _ => rfl⟩
        · have hnot : e.fType ≠ ftDirectory := by
            rw [hreg]
            decide
          rw [if_neg hnot, if_pos hreg, toI32_number (h.numbers d hd e hmem.1)]
          exact .inr (.inr ⟨hm, e, hf, .inr ⟨hshort, .inl ⟨hreg, hat₂, rfl⟩⟩⟩)
      · refine .inr (.inr ⟨hm, e, hf, .inl ⟨hlong, ?_⟩⟩)
        rw [Exec.eq_error_iff, Exec.post_bind, Exec.post_of_error hnext]

/-- At the end of the path the directory before the last is opened again. -/
theorem searchLoop_last (fuel : ℕ) (h : TreeOk s) (hprev : IsDir s prev) (hat : At s k d ptr u)
    (hst : SearchAt st [] walked ptr prev) :
    ((∃ n < k + s.openCost prev, s.mallocs n = false) ∧
      searchLoop (fuel + 1) st u = .error .badPointer) ∨
    ∃ ptr' u', At s (k + s.openCost prev) prev ptr' u' ∧
      searchLoop (fuel + 1) st u = .ok ((toI32 st.dirE, ⟨joinPath walked, ptr', ftDirectory⟩), u') := by
  obtain ⟨a, b, hclose⟩ := hat.close h.toVisitable
  obtain ⟨ptr', u', hat', hpost⟩ := post_dirOpen_at h.toVisitable (h.number_lt hprev) a b k
  have hname : st.name = [] := hst.name
  rw [searchLoop, if_pos hname, hst.record, Exec.bind_eq_ok hclose, hst.prev]
  by_cases hroom : (s.advance 0 0 k).OpenRoom prev
  · have hopened : dirOpen prev (s.advance a b k) = .ok (ptr', u') := by
      rw [Exec.eq_ok_iff, Exec.Returns, hpost]
      exact ⟨fun _ => ⟨rfl, rfl⟩, fun hno => absurd hroom hno⟩
    rw [Exec.bind_eq_ok hopened]
    exact .inr ⟨ptr', u', hat', rfl⟩
  · refine .inl ⟨?_, ?_⟩
    · rw [Fs.OpenRoom] at hroom
      push Not at hroom
      obtain ⟨n, hlt, hn⟩ := hroom
      refine ⟨n + k, ?_, Bool.eq_false_iff.mpr hn⟩
      have hcost : (s.advance 0 0 k).openCost prev = s.openCost prev := rfl
      omega
    · rw [Exec.eq_error_iff, Exec.post_bind, hpost]
      exact ⟨fun hyes => absurd hyes hroom, fun _ => rfl⟩

/-- The loop of `search_file` ends in one of the ways there are, or follows a null pointer. The
induction is on the components that are left. -/
theorem searchLoop_ends (h : TreeOk s) (hnames : ∀ n ∈ names, n ≠ [] ∧ 0 ∉ n) (hfit : NamesFit s names)
    (hlen : (joinPath names).length < 512) (hw : Reaches s names d rest) (hjoin : walked ++ rest = names)
    (hprev : IsDir s prev) (hat : At s k d ptr u) (hst : SearchAt st rest walked ptr prev)
    (hno : rest = [] → st.dirE = d) (hfuel : rest.length < fuel) :
    Exec.Post (searchLoop fuel st) u (SearchEnds s names) (· = .badPointer) := by
  induction rest generalizing fuel st u ptr d prev walked k with
  | nil =>
    obtain ⟨fuel, rfl⟩ := Nat.exists_eq_add_one.mpr hfuel
    rw [List.append_nil] at hjoin
    subst hjoin
    rcases searchLoop_last fuel h hprev hat hst with ⟨-, hcall⟩ | ⟨ptr', u', hat', hcall⟩
    · rw [Exec.post_of_error hcall]
    · rw [Exec.post_of_ok hcall, hno rfl, toI32_number (h.number_lt hw.isDir)]
      exact .dir hw hprev hat'
  | cons name rest ih =>
    obtain ⟨fuel, rfl⟩ := Nat.exists_eq_add_one.mpr (Nat.zero_lt_of_lt hfuel)
    obtain ⟨hne, h0⟩ := hnames name (by rw [← hjoin]; simp)
    have hshort := hfit.here d _ hw
    have hwalked : (joinPath walked).length < 512 := by
      rw [← hjoin, joinPath, List.flatMap_append, List.length_append] at hlen
      exact lt_of_le_of_lt (Nat.le_add_right _ _) hlen
    rcases searchLoop_turn fuel h hw.isDir hat hst hne h0 hshort hwalked with
      ⟨-, v, hv, -, hcall⟩ | ⟨-, -, hcall⟩ | ⟨-, e, hf, hrest⟩
    · rw [Exec.post_of_ok hcall]
      rcases hv with hv | hv
      · exact .missing hw hjoin hv
      · exact .missing hw hjoin hv
    · rw [Exec.post_of_error hcall]
    · have hnext := hfit.next d name rest e hw hf
      rcases hrest with ⟨hlong, -⟩ | ⟨-, ⟨hreg, hat', hcall⟩ | ⟨hdir, ptr', u', st', hat', hst', hno', hcall⟩⟩
      · exact absurd hnext hlong
      · rw [Exec.post_of_ok hcall]
        exact .file hw hjoin hf hreg hat'
      · rw [Exec.Post, hcall]
        have hjoin' : (walked ++ [name]) ++ rest = names := by rw [← hjoin, List.append_assoc]; rfl
        exact ih (hw.next hf hdir) hjoin' hw.isDir hat' hst' (fun _ => hno') (by simpa using hfuel)

/-- A path that `search_file` takes apart. -/
structure PathParsed (path : List UInt8) : Prop where
  absolute : path.head? = some slash
  length_le : path.length ≤ 511
  notRoot : ¬ IsRootPath path

section Search

variable {path : List UInt8}

theorem PathParsed.length_joinPath (h : PathParsed path) :
    (joinPath (components path)).length < 512 := by
  have hle := h.length_le
  obtain ⟨more, rfl⟩ := List.head?_eq_some_iff.mp h.absolute
  have hjoin := length_joinPath_components more
  rw [components_slash]
  rw [List.length_cons] at hle
  omega

/-- The loop of `search_file` does not run out of fuel. -/
theorem PathParsed.length_components (h : PathParsed path) :
    (components path).length < path.length + 1 := by
  have hcount := length_le_length_joinPath (components path)
  obtain ⟨more, rfl⟩ := List.head?_eq_some_iff.mp h.absolute
  have hjoin := length_joinPath_components more
  rw [components_slash] at hcount ⊢
  rw [List.length_cons]
  omega

theorem components_noNul (h0 : 0 ∉ path) : ∀ n ∈ components path, n ≠ [] ∧ 0 ∉ n := by
  intro n hn
  obtain ⟨hne, -, hsub⟩ := of_mem_components path n hn
  exact ⟨hne, fun hz => h0 (hsub 0 hz)⟩

/-- The loop of `search_file` starts in the root directory, once the first name is stored. -/
theorem searchFile_start (h : PathParsed path) (s : Fs) :
    (((components path).headD []).length ≤ 15 ∧ ∃ st, SearchAt st (components path) [] .rootDir 0 ∧
      st.dirE = s.junk 1 ∧ searchFile path s = searchLoop (path.length + 1) st s) ∨
    (¬ ((components path).headD []).length ≤ 15 ∧ searchFile path s = .error .outOfBounds) := by
  obtain ⟨hname, hrest⟩ := pathParse_components path
  have hlong : 1 < path.length := by
    obtain ⟨more, rfl⟩ := List.head?_eq_some_iff.mp h.absolute
    cases more with
    | nil => exact absurd (.inl rfl) h.notRoot
    | cons c more =>
      rw [List.length_cons, List.length_cons]
      omega
  have hassert : path.head? = some slash ∧ 1 < path.length ∧ path.length < 512 :=
    ⟨h.absolute, hlong, Nat.lt_succ_of_le h.length_le⟩
  have hif : ¬ (path = [slash] ∨ path = [slash, 46] ∨ path = [slash, 46, 46]) := h.notRoot
  rw [← hname]
  have hstart : searchFile path s = (do
      storeName (pathParse path).1
      searchLoop (path.length + 1) ⟨(pathParse path).2, (pathParse path).1, .rootDir, s.junk 1, 0,
        ⟨[], .rootDir, ftUnknown⟩⟩ : FsM (Int × PathSearchRecord)) s := by
    rw [searchFile, if_neg hif, Exec.bind_eq_ok (a := s) rfl, assert, if_pos hassert, pure_bind]
  rw [hstart]
  by_cases hfit : (pathParse path).1.length ≤ 15
  · refine .inl ⟨hfit, ⟨(pathParse path).2, (pathParse path).1, .rootDir, s.junk 1, 0,
      ⟨[], .rootDir, ftUnknown⟩⟩, ⟨hname, hrest, rfl, rfl, rfl, rfl, rfl⟩, rfl, ?_⟩
    rw [storeName, inBounds, if_pos (Nat.lt_succ_of_le hfit), pure_bind]
  · refine .inr ⟨hfit, ?_⟩
    rw [storeName, inBounds, if_neg (by omega)]
    rfl

/-- `search_file` ends in one of the ways there are, or follows a null pointer. -/
theorem searchFile_ends (h : TreeOk s) (hpath : PathParsed path) (h0 : 0 ∉ path)
    (hfit : NamesFit s (components path)) (hne : components path ≠ []) :
    Exec.Post (searchFile path) s (SearchEnds s (components path)) (· = .badPointer) := by
  rcases searchFile_start hpath s with ⟨-, st, hst, -, hcall⟩ | ⟨hlong, -⟩
  · rw [Exec.Post, hcall]
    have hat : At s 0 0 .rootDir s := .root 0 0
    exact searchLoop_ends h (components_noNul h0) hfit hpath.length_joinPath .root (List.nil_append _)
      .root hat hst (fun hnil => absurd hnil hne) hpath.length_components
  · exact absurd (hfit.here 0 _ .root) hlong

/-- The state of `search_file` in a directory that it comes to, with the components that are left. -/
structure Searching (s : Fs) (path : List UInt8) (k : ℕ) (d : UInt32) (rest : List (List UInt8))
    (ptr : DirPtr) (u : Fs) (prev : UInt32) (walked : List (List UInt8)) (st : SearchState) (fuel : ℕ) :
    Prop where
  opened : At s k d ptr u
  vars : SearchAt st rest walked ptr prev
  join : walked ++ rest = components path
  prev : IsDir s prev
  dirE : st.dirE = d
  fits : (rest.headD []).length ≤ 15
  enough : rest.length < fuel
  run : searchFile path s = searchLoop fuel st u

/-- With enough memory `search_file` comes to every directory there is on its way, unless a name is
too long for its buffer before. -/
theorem Reaches.searching (h : TreeOk s) (hpath : PathParsed path) (h0 : 0 ∉ path)
    (hw : Reaches s (components path) d rest) : ∃ k, ∀ junk mallocs, junk 1 = 0 →
      (∀ n < k, mallocs n = true) → searchFile path (s.given junk mallocs) = .error .outOfBounds ∨
        ∃ ptr u prev walked st fuel,
          Searching (s.given junk mallocs) path k d rest ptr u prev walked st fuel := by
  induction hw with
  | root =>
    refine ⟨0, fun junk mallocs hjunk _ => ?_⟩
    rcases searchFile_start hpath (s.given junk mallocs) with ⟨hfit, st, hst, hno, hcall⟩ | ⟨-, hcall⟩
    · have hat : At (s.given junk mallocs) 0 0 .rootDir (s.given junk mallocs) := .root 0 0
      exact .inr ⟨.rootDir, s.given junk mallocs, 0, [], st, _, hat, hst, List.nil_append _, .root,
        hno.trans hjunk, hfit, hpath.length_components, hcall⟩
    · exact .inl hcall
  | @next d name rest e hw hf htype ih =>
    obtain ⟨k, hrun⟩ := ih
    refine ⟨k + 2 + s.openCost e.iNo, fun junk mallocs hjunk hm => ?_⟩
    rcases hrun junk mallocs hjunk fun n hn => hm n (by omega) with hcall | ⟨ptr, u, prev, walked, st, fuel, hs⟩
    · exact .inl hcall
    · obtain ⟨fuel, rfl⟩ := Nat.exists_eq_add_one.mpr (Nat.zero_lt_of_lt hs.enough)
      have hmem : name ∈ components path := by
        rw [← hs.join]
        simp
      obtain ⟨hne, hnul⟩ := components_noNul h0 name hmem
      have hlen := hpath.length_joinPath
      rw [← hs.join, joinPath, List.flatMap_append, List.length_append] at hlen
      have hwalked : (joinPath walked).length < 512 := lt_of_le_of_lt (Nat.le_add_right _ _) hlen
      have hdir : Reaches (s.given junk mallocs) _ d _ := hw.given
      rcases searchLoop_turn fuel h.given hdir.isDir hs.opened hs.vars hne hnul hs.fits hwalked with
        ⟨hmiss, -⟩ | ⟨-, ⟨n, hn, hall⟩, -⟩ | ⟨-, e', hf', hrest⟩
      · rcases hmiss with hno | hmiss
        · change mallocs k = false at hno
          rw [hm k (by omega)] at hno
          cases hno
        · exact absurd hf.given (hmiss e)
      · change mallocs n = false at hn
        rw [hm n (hall e hf.given)] at hn
        cases hn
      · obtain rfl : e = e' := Option.some.inj
          ((hf.entry h hw.isDir).symm.trans (hf'.of_given.entry h hw.isDir))
        rcases hrest with ⟨-, hcall⟩ | ⟨hfit, ⟨hreg, -⟩ | ⟨-, ptr', u', st', hat', hst', hno, hcall⟩⟩
        · exact .inl (hs.run.trans hcall)
        · rw [htype] at hreg
          cases hreg
        · refine .inr ⟨ptr', u', d, walked ++ [name], st', fuel, hat', hst', ?_, hdir.isDir, hno, hfit, ?_,
            hs.run.trans hcall⟩
          · rw [← hs.join, List.append_assoc]
            rfl
          · have := hs.enough
            rw [List.length_cons] at this
            omega

end Search

end Winx
