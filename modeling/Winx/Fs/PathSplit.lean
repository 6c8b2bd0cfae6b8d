import Winx.Fs.Components
import Winx.Fs.DirInsert
import Winx.Fs.InodeTable

/-! # Splitting a path

Parsing a path again and again gives its components. Counting them starts with a name
buffer that is not initialised, so a path without components may count one. Nothing bounds
the length of a component: what is longer than a name overflows the buffer it is put in.
-/

namespace Winx

/-- What `path_parse` stores from call to call, into a name buffer cleared each time. -/
def parseNames : ℕ → Option (List UInt8) → FsM (List (List UInt8))
  | 0, _ => throw .diverged
  | fuel + 1, subPath => do
    let (name, rest) ← nextName subPath
    if name = [] then pure []
    else
      let names ← parseNames fuel rest
      pure (name :: names)

/-- In state `s`, parsing splits a path into its components, and counting counts them. -/
structure PathSplit (s : Fs) (path : List UInt8) : Prop where
  names : Exec.Returns (parseNames (path.length + 2) (some path)) s fun names s' =>
    names = components path ∧ s' = s
  depth : Exec.Returns (pathDepthCnt path) s fun depth s' =>
    depth = (components path).length ∧ s' = s

variable {s : Fs} {path : List UInt8}

section Split

theorem parseNames_ok (fuel : ℕ) (subPath : Option (List UInt8))
    (hlen : ∀ name ∈ restComponents subPath, name.length ≤ 15)
    (hfuel : (restComponents subPath).length < fuel) :
    parseNames fuel subPath s = .ok (restComponents subPath, s) := by
  induction fuel generalizing subPath with
  | zero => omega
  | succ fuel ih =>
    obtain ⟨rest, hnext, hrest⟩ := nextName_ok (s := s) subPath hlen
    rw [Exec.eq_ok_iff, parseNames]
    refine (Exec.post_bind_of_ok hnext).mpr ?_
    cases hcomp : restComponents subPath with
    | nil => exact ⟨rfl, rfl⟩
    | cons name names =>
      have hne : name ≠ [] := by
        cases subPath with
        | none => cases hcomp
        | some p => exact (of_mem_components p name (by
          change name ∈ restComponents (some p)
          rw [hcomp]
          exact List.mem_cons_self)).1
      rw [hcomp] at hlen hfuel hrest
      rw [List.tail_cons] at hrest
      have hloop := ih rest (by rw [hrest]; exact fun n hn => hlen n (List.mem_cons_of_mem _ hn))
        (by rw [hrest]; exact Nat.lt_of_succ_lt_succ hfuel)
      rw [List.headD_cons]
      dsimp only
      rw [if_neg hne, Exec.post_bind_of_ok hloop, hrest]
      exact ⟨rfl, rfl⟩

theorem length_components_lt (path : List UInt8) : (components path).length < path.length + 2 := by
  have hpath := length_joinPath_components path
  have hnames := length_le_length_joinPath (components path)
  omega

/-- Parsing yields the components; counting goes wrong only without any. -/
theorem pathSplit_iff (s : Fs) (path : List UInt8) (hlen : ∀ name ∈ components path, name.length ≤ 15) :
    PathSplit s path ↔ components path ≠ [] ∨ s.junk 0 = 0 := by
  have hdepth : pathDepthCnt path s = .ok (if components path = [] ∧ s.junk 0 ≠ 0 then 1
      else (components path).length, s) :=
    pathDepthCnt_ok fun n hn => (hlen n hn).trans (by decide)
  constructor
  · intro h
    obtain ⟨depth, s', hrun, hcount, -⟩ := Exec.returns_iff.mp h.depth
    rw [hdepth] at hrun
    by_cases hnil : components path = []
    · by_cases hjunk : s.junk 0 = 0
      · exact .inr hjunk
      · rw [if_pos ⟨hnil, hjunk⟩] at hrun
        rw [hnil] at hcount
        cases hrun
        cases hcount
    · exact .inl hnil
  · intro h
    constructor
    · exact Exec.eq_ok_iff.mp (parseNames_ok _ (some path) hlen (length_components_lt path))
    · rw [if_neg fun hbad => h.elim (absurd hbad.1) (absurd · hbad.2)] at hdepth
      exact Exec.eq_ok_iff.mp hdepth

/-- "/a//b/" -/
theorem pathSplit_iff_slashes :
    PathSplit rootFs [47, 97, 47, 47, 98, 47] ↔
      components [47, 97, 47, 47, 98, 47] ≠ [] ∨ rootFs.junk 0 = 0 :=
  pathSplit_iff rootFs [47, 97, 47, 47, 98, 47] (by decide)

/-- The path "//" counts one if the name buffer does not start with a zero. -/
theorem not_pathSplit :
    ¬ ∀ (s : Fs) (path : List UInt8), (∀ name ∈ components path, name.length ≤ 15) →
      PathSplit s path := by
  intro h
  have hbad := (h { rootFs with junk := fun _ => 1 } [47, 47] (by decide)).depth
  obtain ⟨depth, s', hrun, hcount, -⟩ := Exec.returns_iff.mp hbad
  rw [pathDepthCnt_ok (by decide)] at hrun
  cases hrun
  exact absurd hcount (by decide)

end Split

section Lengths

/-- The next component into a cleared name buffer for `room` characters and a zero. -/
def nextNameWithin (room : ℕ) : Option (List UInt8) → FsM (List UInt8 × Option (List UInt8))
  | none => pure ([], none)
  | some p => do
    let (name, rest) := pathParse p
    inBounds (name.length < room + 1)
    pure (name, rest)

/-- The loop of `search_file` with such a buffer. -/
def searchLoopWithin (room : ℕ) : ℕ → SearchState → FsM (Int × PathSearchRecord)
  | 0, _ => throw .diverged
  | fuel + 1, st => do
    if st.name = [] then
      dirClose st.record.parentDir
      let parentDir ← dirOpen st.parentInodeNo
      pure (toI32 st.dirE, { st.record with parentDir := parentDir, fileType := ftDirectory })
    else
      assert (st.record.searchedPath.length < 512)
      let record :=
        { st.record with searchedPath := st.record.searchedPath ++ slash :: st.name }
      match ← searchDirEntry st.parentDir st.name with
      | none => pure (-1, record)
      | some e =>
        let (name, subPath) ← nextNameWithin room st.subPath
        if e.fType = ftDirectory then
          let dir ← derefDir st.parentDir
          let inode ← derefInode dir.inode
          dirClose st.parentDir
          let parentDir ← dirOpen e.iNo
          searchLoopWithin room fuel ⟨subPath, name, parentDir, e.iNo, inode.iNo,
            { record with parentDir := parentDir }⟩
        else if e.fType = ftRegular then
          pure (toI32 e.iNo, { record with fileType := ftRegular })
        else searchLoopWithin room fuel ⟨subPath, name, st.parentDir, e.iNo, st.parentInodeNo, record⟩

/-- `search_file` with such a buffer. -/
def searchFileWithin (room : ℕ) (pathname : List UInt8) : FsM (Int × PathSearchRecord) := do
  if pathname = [slash] ∨ pathname = [slash, 46] ∨ pathname = [slash, 46, 46] then
    pure (0, ⟨[], .rootDir, ftDirectory⟩)
  else
    let s ← get
    assert (pathname.head? = some slash ∧ 1 < pathname.length ∧ pathname.length < 512)
    let (name, subPath) := pathParse pathname
    inBounds (name.length < room + 1)
    searchLoopWithin room (pathname.length + 1)
      ⟨subPath, name, .rootDir, s.junk 1, 0, ⟨[], .rootDir, ftUnknown⟩⟩

/-- From state `s`, no name of a path is longer than 15 characters where it is stored: larger
buffers would not change what `path_depth_cnt` and `search_file` do, an entry made with a name
is found by this name only, and longer names are errors. -/
structure NamesBounded (s : Fs) (path : List UInt8) : Prop where
  depth : ∀ room, 15 ≤ room → pathDepthCntWithin room path s = pathDepthCntWithin 15 path s
  search : ∀ room, 15 ≤ room → searchFileWithin room path s = searchFile path s
  entry : ∀ name ∈ components path, ∀ iNo fType, fType ≠ ftUnknown →
    Exec.Returns (createDirEntry name iNo fType) s fun e s' => s' = s ∧
      ∀ name', 0 ∉ name' → name'.length ≤ 15 → (strEqAt e.toBytes 0 name' = true ↔ name' = name)
  rejects : (∃ name ∈ components path, 15 < name.length) →
    Exec.Returns (searchFile path) s fun r _ => r.1 = -1

theorem searchLoopWithin_15 (fuel : ℕ) (st : SearchState) :
    searchLoopWithin 15 fuel st = searchLoop fuel st := by
  have hnext : nextNameWithin 15 = nextName := by
    funext subPath
    cases subPath with
    | none => rfl
    | some p => rfl
  induction fuel generalizing st with
  | zero => rfl
  | succ fuel ih =>
    simp only [searchLoopWithin, searchLoop, hnext, ih]
    all_goals rfl

/-- The buffer of `search_file` is for 15 characters. -/
theorem searchFileWithin_15 (path : List UInt8) : searchFileWithin 15 path = searchFile path := by
  simp only [searchFileWithin, searchFile, storeName, searchLoopWithin_15, Nat.reduceAdd]

variable {room : ℕ}

theorem inBounds_true {c : Prop} [Decidable c] (h : c) : (inBounds c : FsM Unit) = pure () :=
  if_pos h

/-- A short component is stored the same way in every buffer. -/
theorem nextNameWithin_short (hroom : 15 ≤ room) (subPath : Option (List UInt8))
    (h : ∀ name ∈ restComponents subPath, name.length ≤ 15) : ∃ name rest,
      nextNameWithin room subPath = pure (name, rest) ∧ nextName subPath = pure (name, rest) ∧
        ∀ name ∈ restComponents rest, name.length ≤ 15 := by
  cases subPath with
  | none => exact ⟨[], none, rfl, rfl, h⟩
  | some p =>
    obtain ⟨hname, hrest⟩ := pathParse_components p
    have hlen : (pathParse p).1.length ≤ 15 := hname ▸ length_headD_le h
    refine ⟨(pathParse p).1, (pathParse p).2, ?_, ?_, ?_⟩
    · simp only [nextNameWithin, inBounds_true (show (pathParse p).1.length < room + 1 by omega), pure_bind]
    · simp only [nextName, storeName, inBounds_true (show (pathParse p).1.length < 16 by omega), pure_bind]
    · rw [hrest]
      exact fun name hmem => h name (List.mem_of_mem_tail hmem)

theorem searchLoopWithin_short (hroom : 15 ≤ room) (fuel : ℕ) (st : SearchState)
    (h : ∀ name ∈ restComponents st.subPath, name.length ≤ 15) :
    searchLoopWithin room fuel st = searchLoop fuel st := by
  induction fuel generalizing st with
  | zero => rfl
  | succ fuel ih =>
    obtain ⟨name, rest, hwithin, hnext, hrest⟩ := nextNameWithin_short hroom st.subPath h
    have hloop : ∀ name parentDir dirE parentInodeNo record,
        searchLoopWithin room fuel ⟨rest, name, parentDir, dirE, parentInodeNo, record⟩ =
          searchLoop fuel ⟨rest, name, parentDir, dirE, parentInodeNo, record⟩ :=
      fun _ _ _ _ _ => ih _ hrest
    simp only [searchLoopWithin, searchLoop, hwithin, hnext, pure_bind, hloop]
    all_goals rfl

/-- A path with short components is searched the same way with every buffer. -/
theorem searchFileWithin_short (hroom : 15 ≤ room)
    (h : ∀ name ∈ components path, name.length ≤ 15) :
    searchFileWithin room path = searchFile path := by
  obtain ⟨hname, hrest⟩ := pathParse_components path
  have hlen : (pathParse path).1.length ≤ 15 := hname ▸ length_headD_le h
  have hloop : ∀ dirE, searchLoopWithin room (path.length + 1)
      ⟨(pathParse path).2, (pathParse path).1, .rootDir, dirE, 0, ⟨[], .rootDir, ftUnknown⟩⟩ =
        searchLoop (path.length + 1)
          ⟨(pathParse path).2, (pathParse path).1, .rootDir, dirE, 0, ⟨[], .rootDir, ftUnknown⟩⟩ := by
    intro dirE
    apply searchLoopWithin_short hroom
    rw [hrest]
    exact fun name hmem => h name (List.mem_of_mem_tail hmem)
  simp only [searchFileWithin, searchFile, storeName, hloop,
    inBounds_true (show (pathParse path).1.length < room + 1 by omega),
    inBounds_true (show (pathParse path).1.length < 16 by omega)]

/-- An entry made with a short name is found by this name only. -/
theorem createDirEntry_named {name : List UInt8} (h0 : 0 ∉ name) (hlen : name.length ≤ 15)
    (iNo : UInt32) {fType : FileType} (hlive : fType ≠ ftUnknown) :
    Exec.Returns (createDirEntry name iNo fType) s fun e s' => s' = s ∧
      ∀ name', 0 ∉ name' → name'.length ≤ 15 → (strEqAt e.toBytes 0 name' = true ↔ name' = name) := by
  rw [createDirEntry, inBounds_true (show name.length < 16 by omega), pure_bind]
  refine ⟨rfl, fun name' h0' hlen' => ?_⟩
  have hproper : DirEntry.Proper ⟨name, iNo, fType⟩ := ⟨Nat.lt_succ_of_le hlen, h0, hlive⟩
  have hread : ((List.range 16).map fun j =>
      (DirEntry.toBytes ⟨name, iNo, fType⟩) (0 + j)).takeWhile (· != 0) = name := by
    simp only [Nat.zero_add]
    exact congrArg DirEntry.filename hproper.ofBytes_toBytes
  rw [strEqAt_iff h0' (show name'.length < 16 by omega), hread]
  exact eq_comm

/-- Names are stored within bounds exactly if no component of the path is longer than 15
characters. -/
theorem namesBounded_iff (s : Fs) (path : List UInt8) (h0 : 0 ∉ path) :
    NamesBounded s path ↔ ∀ name ∈ components path, name.length ≤ 15 := by
  constructor
  · intro h name hname
    by_contra hlong
    -- a buffer as long as all components together
    have hfits : ∀ n ∈ components path,
        n.length ≤ 15 + ((components path).map List.length).sum := fun n hn =>
      (List.le_sum_of_mem (List.mem_map_of_mem hn)).trans (Nat.le_add_left _ _)
    have hrun := pathDepthCntWithin_ok (s := s) hfits
    rw [h.depth _ (Nat.le_add_right _ _)] at hrun
    exact hlong ((pathDepthCntWithin_fits path).ensures.of_ok hrun name hname)
  · intro h
    constructor
    · intro room hroom
      rw [pathDepthCntWithin_ok h, pathDepthCntWithin_ok fun n hn => (h n hn).trans hroom]
    · intro room hroom
      rw [searchFileWithin_short hroom h]
    · intro name hname iNo fType hlive
      obtain ⟨-, -, hsub⟩ := of_mem_components path name hname
      exact createDirEntry_named (fun hmem => h0 (hsub 0 hmem)) (h name hname) iNo hlive
    · rintro ⟨name, hname, hlong⟩
      exact absurd (h name hname) (by omega)

/-- "/a//b/" -/
theorem namesBounded_iff_slashes :
    NamesBounded rootFs [47, 97, 47, 47, 98, 47] ↔
      ∀ name ∈ components [47, 97, 47, 47, 98, 47], name.length ≤ 15 :=
  namesBounded_iff rootFs [47, 97, 47, 47, 98, 47] (by decide)

/-- "/aaaaaaaaaaaaaaaaaaaa" -/
def longPath : List UInt8 := slash :: List.replicate 20 97

theorem searchFile_longPath (s : Fs) : searchFile longPath s = .error .outOfBounds := rfl

/-- A name of 20 characters overflows the buffer of `search_file`. -/
theorem not_namesBounded :
    ¬ ∀ (s : Fs) (path : List UInt8), 0 ∉ path → path.length < 512 → NamesBounded s path := by
  intro h
  have hbad := (h rootFs longPath (by decide) (by decide)).rejects
    ⟨List.replicate 20 97, by decide, by decide⟩
  obtain ⟨r, s', hrun, -⟩ := Exec.returns_iff.mp hbad
  rw [searchFile_longPath] at hrun
  cases hrun

end Lengths

end Winx
