import Winx.Fs.Components
import Winx.Impl.String

/-! # Clearing a path

`wash_path` folds the components of an absolute path into a string. The string is at every turn
the path of the names kept so far, and only the root is written with a slash of its own.
-/

namespace Winx

namespace Shell

/-- `MAX_FILE_NAME_LEN` -/
def maxFileNameLen : ℕ := 16

/-- `path_parse(sub_path, name)` with a cleared buffer, where a name has to leave room for its end. -/
def parseName (subPath : List UInt8) : BufM (List UInt8 × Option (List UInt8)) := do
  inBounds ((pathParse subPath).1.length < maxFileNameLen)
  return pathParse subPath

/-- What the loop of `wash_path` does with a name. -/
def washName (size : ℕ) (name : List UInt8) : BufM Unit := do
  if name = dotDot then
    let slashPtr ← deref (← Str.strrchr size slash (size + 1) none 0)
    if slashPtr ≠ 0 then Str.store size slashPtr 0 else Str.store size (slashPtr + 1) 0
  else if name ≠ dot then
    if (← Str.strcmp size 0 [slash]) ≠ 0 then Str.strcat size 0 [slash]
    Str.strcat size 0 name

/-- The loop of `wash_path`. -/
def washLoop (size : ℕ) : ℕ → List UInt8 → Option (List UInt8) → BufM Unit
  | 0, _, _ => throw .diverged
  | fuel + 1, name, subPath => do
    if name = [] then return
    washName size name
    match subPath with
    | none => washLoop size fuel [] none
    | some subPath => do
      let parsed ← parseName subPath
      washLoop size fuel parsed.1 parsed.2

/-- `wash_path` -/
def washPath (size : ℕ) (oldAbsPath : List UInt8) : BufM Unit := do
  assert (oldAbsPath.head? = some slash)
  let parsed ← parseName oldAbsPath
  if parsed.1 = [] then
    Str.store size 0 slash
    Str.store size 1 0
  else
    Str.store size 0 0
    Str.strcat size 0 [slash]
    washLoop size (oldAbsPath.length + 1) parsed.1 parsed.2

/-- The names kept so far and the next component. -/
def keep (kept : List (List UInt8)) (name : List UInt8) : List (List UInt8) :=
  if name = dotDot then kept.dropLast else if name = dot then kept else kept ++ [name]

/-- The names that are kept of the components of a path. -/
def keptNames (path : List UInt8) : List (List UInt8) := (components path).foldl keep []

/-- A slash and the names joined by slashes. -/
def joined (names : List (List UInt8)) : List UInt8 := slash :: [slash].intercalate names

/-- A name of a path that fits the buffer for names. -/
structure ProperName (name : List UInt8) : Prop where
  ne_nil : name ≠ []
  no_slash : slash ∉ name
  no_zero : 0 ∉ name

variable {size fuel : ℕ} {b : Bytes} {kept names : List (List UInt8)} {name path : List UInt8}

/-! ## The names as a string -/

theorem joined_nil : joined [] = [slash] := rfl

/-- Only the root differs from the path of its components. -/
theorem joined_eq_joinPath (h : kept ≠ []) : joined kept = joinPath kept := by
  induction kept with
  | nil => exact absurd rfl h
  | cons name names ih =>
    cases names with
    | nil => simp [joined, joinPath]
    | cons next names =>
      rw [joinPath_cons, ← ih (List.cons_ne_nil next names)]
      simp [joined, List.intercalate]

theorem joined_concat (kept : List (List UInt8)) (name : List UInt8) :
    joined (kept ++ [name]) = joinPath kept ++ slash :: name := by
  rw [joined_eq_joinPath (List.append_ne_nil_of_right_ne_nil kept (List.cons_ne_nil name [])), joinPath_append]

theorem zero_not_mem_joinPath (h : ∀ name ∈ kept, ProperName name) : 0 ∉ joinPath kept := by
  intro hmem
  obtain ⟨name, hname, h0⟩ := List.mem_flatMap.mp hmem
  rcases List.mem_cons.mp h0 with heq | h0
  · exact absurd heq (by decide)
  · exact (h name hname).no_zero h0

theorem zero_not_mem_joined (h : ∀ name ∈ kept, ProperName name) : 0 ∉ joined kept := by
  by_cases hnil : kept = []
  · subst hnil
    decide
  · rw [joined_eq_joinPath hnil]
    exact zero_not_mem_joinPath h

/-- No other names give the root. -/
theorem joined_eq_root (h : ∀ name ∈ kept, ProperName name) : joined kept = [slash] ↔ kept = [] := by
  constructor
  · intro hroot
    cases kept with
    | nil => rfl
    | cons name names =>
      rw [joined_eq_joinPath (List.cons_ne_nil name names), joinPath_cons] at hroot
      have hname := (h name List.mem_cons_self).ne_nil
      have hnil : name ++ joinPath names = [] := (List.cons.inj hroot).2
      exact absurd (List.append_eq_nil_iff.mp hnil).1 hname
  · rintro rfl
    rfl

/-! ## One turn -/

theorem properName_keep (h : ∀ name ∈ kept, ProperName name) (hname : ProperName name) :
    ∀ n ∈ keep kept name, ProperName n := by
  unfold keep
  intro n hn
  split at hn
  · exact h n (List.dropLast_subset kept hn)
  · split at hn
    · exact h n hn
    · rcases List.mem_append.mp hn with hn | hn
      · exact h n hn
      · rw [List.mem_singleton.mp hn]
        exact hname

theorem length_joinPath_keep (kept : List (List UInt8)) (name : List UInt8) :
    (joinPath (keep kept name)).length ≤ (joinPath kept).length + (name.length + 1) := by
  unfold keep
  split
  · have hsub : (joinPath kept.dropLast).length ≤ (joinPath kept).length := by
      rcases List.eq_nil_or_concat' kept with rfl | ⟨init, last, rfl⟩
      · exact Nat.le_refl _
      · rw [List.dropLast_concat, joinPath_append, List.length_append]
        exact Nat.le_add_right _ _
    omega
  · split
    · exact Nat.le_add_right _ _
    · rw [joinPath_append, List.length_append, List.length_cons]

/-- `..` takes the last name off, but never the first slash. -/
theorem washName_dotDot (h : b.Holds 0 (joined kept)) (hkept : ∀ n ∈ kept, ProperName n)
    (hroom : (joinPath kept).length < size) (hsize : 1 < size) :
    ∃ b', washName size dotDot b = .ok ((), b') ∧ b'.Holds 0 (joined kept.dropLast) := by
  have h0 := zero_not_mem_joined hkept
  rw [washName, if_pos rfl]
  rcases List.eq_nil_or_concat' kept with rfl | ⟨init, last, rfl⟩
  · have hptr : Str.strrchr size slash (size + 1) none 0 b = .ok (some (0 + [].length), b) :=
      Str.strrchr_some h h0 List.not_mem_nil hsize (Nat.lt_succ_of_lt hsize)
    have hroot : b.Reads 0 ([slash] ++ []) := h.reads
    exact ⟨_, (Exec.bind_eq_ok hptr).trans (Str.store_eq hsize 0 b), hroot.cut⟩
  · rw [joinPath_append, List.length_append, List.length_cons] at hroom
    have hlast := (hkept last (List.mem_append_right _ List.mem_cons_self)).no_slash
    rw [joined_concat] at h h0
    have hlen : (joinPath init ++ slash :: last).length < size := by
      rw [List.length_append, List.length_cons]
      exact hroom
    have hptr : Str.strrchr size slash (size + 1) none 0 b = .ok (some (0 + (joinPath init).length), b) :=
      Str.strrchr_some h h0 hlast (by omega) (Nat.lt_succ_of_lt hlen)
    rw [Exec.bind_eq_ok hptr, List.dropLast_concat]
    by_cases hinit : init = []
    · subst hinit
      have hroot : b.Reads 0 ([slash] ++ last) := h.reads
      exact ⟨_, Str.store_eq hsize 0 b, hroot.cut⟩
    · have hne : 0 + (joinPath init).length ≠ 0 := by
        have := length_le_length_joinPath init
        have := List.length_pos_iff.mpr hinit
        omega
      have hstore := Str.store_eq (by omega : 0 + (joinPath init).length < size) 0 b
      refine ⟨_, (congrFun (if_pos hne) b).trans hstore, ?_⟩
      rw [joined_eq_joinPath hinit]
      exact h.reads.cut

/-- Any other name but `.` is added, behind a slash. -/
theorem washName_add (h : b.Holds 0 (joined kept)) (hkept : ∀ n ∈ kept, ProperName n)
    (hdotDot : name ≠ dotDot) (hdot : name ≠ dot)
    (hroom : (joinPath kept).length + (name.length + 1) < size) (hsize : 1 < size) :
    ∃ b', washName size name b = .ok ((), b') ∧ b'.Holds 0 (joined (kept ++ [name])) := by
  have h0 := zero_not_mem_joined hkept
  rw [washName, if_neg hdotDot, if_pos hdot, joined_concat]
  by_cases hnil : kept = []
  · subst hnil
    obtain ⟨r, hcmp, hr⟩ := Str.strcmp_eq h h0 (by decide : 0 ∉ [slash]) hsize
    rw [Exec.bind_eq_ok hcmp, if_neg fun hne => hne (hr.mpr rfl)]
    have hcat := Str.strcat_eq h h0 (by
      rw [joined_nil, List.length_singleton]
      rw [joinPath, List.flatMap_nil, List.length_nil] at hroom
      omega : 0 + (joined []).length + name.length < size)
    exact ⟨_, hcat, h.put name⟩
  · have hroot : joined kept ≠ [slash] := fun heq => hnil ((joined_eq_root hkept).mp heq)
    rw [joined_eq_joinPath hnil] at h h0 hroot
    obtain ⟨r, hcmp, hr⟩ := Str.strcmp_eq h h0 (by decide : 0 ∉ [slash]) (by omega : 0 + (joinPath kept).length < size)
    rw [Exec.bind_eq_ok hcmp, if_pos fun heq => hroot (hr.mp heq)]
    have hslash := Str.strcat_eq h h0 (by
      rw [List.length_singleton]
      omega : 0 + (joinPath kept).length + [slash].length < size)
    rw [Exec.bind_eq_ok hslash]
    have h' := h.put [slash]
    have h0' : 0 ∉ joinPath kept ++ [slash] := by
      rw [List.mem_append, not_or]
      exact ⟨h0, by decide⟩
    have hcat := Str.strcat_eq h' h0' (by
      rw [List.length_append, List.length_singleton]
      omega : 0 + (joinPath kept ++ [slash]).length + name.length < size)
    refine ⟨_, hcat, ?_⟩
    have h'' := h'.put name
    rw [List.append_assoc] at h''
    exact h''

/-- What a turn of the loop does with a name. -/
theorem washName_ok (h : b.Holds 0 (joined kept)) (hkept : ∀ n ∈ kept, ProperName n)
    (hroom : (joinPath kept).length + (name.length + 1) < size) (hsize : 1 < size) :
    ∃ b', washName size name b = .ok ((), b') ∧ b'.Holds 0 (joined (keep kept name)) := by
  unfold keep
  split
  · rename_i hdotDot
    subst hdotDot
    exact washName_dotDot h hkept (by omega) hsize
  · rename_i hdotDot
    split
    · rename_i hdot
      subst hdot
      refine ⟨b, ?_, h⟩
      rw [washName, if_neg hdotDot, if_neg fun hne => hne rfl]
      rfl
    · rename_i hdot
      exact washName_add h hkept hdotDot hdot hroom hsize

/-! ## The loop -/

/-- The first component of a path is parsed into the buffer for names. -/
theorem parseName_ok (h : ∀ name ∈ components path, name.length < maxFileNameLen) :
    parseName path b = .ok (((components path).headD [], (pathParse path).2), b) := by
  have hname := (pathParse_components path).1
  have hlen : (pathParse path).1.length < maxFileNameLen := by
    rw [hname]
    exact Nat.lt_succ_of_le (length_headD_le fun name hmem => Nat.le_of_lt_succ (h name hmem))
  rw [Exec.eq_ok_iff]
  simp only [parseName, Exec.post_bind, post_inBounds]
  exact ⟨fun _ => ⟨Prod.ext hname rfl, rfl⟩, fun hlong => absurd hlen hlong⟩

/-- The loop folds the components that are left into the string. -/
theorem washLoop_ok {subPath : Option (List UInt8)} (hrest : restComponents subPath = names.tail)
    (hfuel : names.length < fuel) (hnames : ∀ n ∈ names, ProperName n ∧ n.length < maxFileNameLen)
    (hkept : ∀ n ∈ kept, ProperName n) (h : b.Holds 0 (joined kept))
    (hroom : (joinPath kept).length + (joinPath names).length < size) (hsize : 1 < size) :
    ∃ b', washLoop size fuel (names.headD []) subPath b = .ok ((), b') ∧
      b'.Holds 0 (joined (names.foldl keep kept)) := by
  induction names generalizing fuel subPath kept b with
  | nil =>
    obtain ⟨fuel, rfl⟩ := Nat.exists_eq_add_one.mpr (Nat.zero_lt_of_lt hfuel)
    exact ⟨b, rfl, h⟩
  | cons name names ih =>
    obtain ⟨fuel, rfl⟩ := Nat.exists_eq_add_one.mpr (Nat.zero_lt_of_lt hfuel)
    obtain ⟨⟨hname, -⟩, hnames⟩ := List.forall_mem_cons.mp hnames
    rw [joinPath_cons, List.length_append, List.length_cons] at hroom
    obtain ⟨b', hrun, h'⟩ := washName_ok h hkept (by omega : (joinPath kept).length + (name.length + 1) < size) hsize
    have hlen := length_joinPath_keep kept name
    have hnext : ∀ subPath, restComponents subPath = names.tail →
        ∃ b'', washLoop size fuel (names.headD []) subPath b' = .ok ((), b'') ∧
          b''.Holds 0 (joined (names.foldl keep (keep kept name))) := fun subPath hsub =>
      ih hsub (Nat.lt_of_succ_lt_succ hfuel) hnames (properName_keep hkept hname) h' (by omega)
    rw [List.headD_cons]
    cases subPath with
    | none =>
      obtain rfl : [] = names := hrest
      rw [washLoop, if_neg hname.ne_nil, Exec.bind_eq_ok hrun]
      exact hnext none rfl
    | some subPath =>
      obtain rfl : components subPath = names := hrest
      rw [washLoop, if_neg hname.ne_nil, Exec.bind_eq_ok hrun, Exec.bind_eq_ok (parseName_ok fun n hn => (hnames n hn).2)]
      exact hnext _ (pathParse_components subPath).2

/-! ## The canonical path -/

theorem joinPath_length_le (habs : path.head? = some slash) :
    (joinPath (components path)).length ≤ path.length := by
  obtain ⟨rest, rfl⟩ : ∃ rest, path = slash :: rest := by
    cases path with
    | nil => cases habs
    | cons c rest => exact ⟨rest, congrArg (· :: rest) (Option.some.inj habs)⟩
  rw [components_slash]
  exact length_joinPath_components rest

theorem properName_components (h0 : 0 ∉ path) : ∀ name ∈ components path, ProperName name := by
  intro name hname
  obtain ⟨hne, hslash, hsub⟩ := of_mem_components path name hname
  exact ⟨hne, hslash, fun hmem => h0 (hsub 0 hmem)⟩

/-- `wash_path` writes the kept names of an absolute path. -/
theorem washPath_ok (habs : path.head? = some slash) (h0 : 0 ∉ path)
    (hshort : ∀ name ∈ components path, name.length < maxFileNameLen) (hsize : path.length < size) (b : Bytes) :
    ∃ b', washPath size path b = .ok ((), b') ∧ b'.Holds 0 (joined (keptNames path)) := by
  have hlen := joinPath_length_le habs
  have hcount := length_le_length_joinPath (components path)
  have hpos : 0 < path.length := by
    cases path with
    | nil => cases habs
    | cons c rest => exact Nat.zero_lt_succ _
  have hassert : assert (path.head? = some slash) b = .ok ((), b) := congrFun (if_pos habs) b
  rw [washPath, Exec.bind_eq_ok hassert, Exec.bind_eq_ok (parseName_ok hshort), keptNames]
  have hproper := properName_components h0
  by_cases hnil : components path = []
  · have hfirst := Str.store_eq (by omega : 0 < size) slash b
    have hsecond := Str.store_eq (by omega : 1 < size) 0 (b.set 0 slash)
    rw [hnil]
    refine ⟨_, (Exec.bind_eq_ok hfirst).trans hsecond, ?_⟩
    have hslash : (b.set 0 slash).Reads 0 ([slash] ++ []) := ⟨Bytes.set_self b 0 slash, trivial⟩
    exact hslash.cut
  · have hne : (components path).headD [] ≠ [] := by
      obtain ⟨name, names, hcomp⟩ := List.exists_cons_of_ne_nil hnil
      rw [hcomp]
      exact (hproper name (hcomp ▸ List.mem_cons_self)).ne_nil
    have hfirst := Str.store_eq (by omega : 0 < size) 0 b
    have hempty : (b.set 0 0).Holds 0 [] := Bytes.holds_nil.mpr (Bytes.set_self b 0 0)
    have hcat := Str.strcat_eq hempty List.not_mem_nil (by
      rw [List.length_singleton, List.length_nil]
      omega : 0 + ([] : List UInt8).length + [slash].length < size)
    have hroot := hempty.put [slash]
    rw [if_neg hne, Exec.bind_eq_ok hfirst, Exec.bind_eq_ok hcat]
    apply washLoop_ok (pathParse_components path).2 (by omega) (fun n hn => ⟨hproper n hn, hshort n hn⟩)
      (fun n hn => absurd hn List.not_mem_nil) hroot _ (by omega)
    rw [joinPath, List.flatMap_nil, List.length_nil]
    omega

/-- The names kept are components, but neither `.` nor `..`. -/
theorem of_mem_foldl_keep {P : List UInt8 → Prop} (hnames : ∀ n ∈ names, P n)
    (hkept : ∀ n ∈ kept, P n ∧ n ≠ dot ∧ n ≠ dotDot) :
    ∀ n ∈ names.foldl keep kept, P n ∧ n ≠ dot ∧ n ≠ dotDot := by
  induction names generalizing kept with
  | nil => exact hkept
  | cons name names ih =>
    obtain ⟨hname, hnames⟩ := List.forall_mem_cons.mp hnames
    apply ih hnames
    unfold keep
    intro n hn
    split at hn
    · exact hkept n (List.dropLast_subset kept hn)
    · rename_i hdotDot
      split at hn
      · exact hkept n hn
      · rename_i hdot
        rcases List.mem_append.mp hn with hn | hn
        · exact hkept n hn
        · rw [List.mem_singleton.mp hn]
          exact ⟨hname, hdot, hdotDot⟩

/-- Nothing is taken off, if there is no `.` and no `..`. -/
theorem foldl_keep_eq (h : ∀ n ∈ names, n ≠ dot ∧ n ≠ dotDot) : names.foldl keep kept = kept ++ names := by
  induction names generalizing kept with
  | nil => exact (List.append_nil kept).symm
  | cons name names ih =>
    obtain ⟨⟨hdot, hdotDot⟩, h⟩ := List.forall_mem_cons.mp h
    rw [List.foldl_cons, ih h, keep, if_neg hdotDot, if_neg hdot, ← List.append_cons]

theorem length_joinPath_foldl_keep (names kept : List (List UInt8)) :
    (joinPath (names.foldl keep kept)).length ≤ (joinPath kept).length + (joinPath names).length := by
  induction names generalizing kept with
  | nil => exact Nat.le_add_right _ _
  | cons name names ih =>
    have hkeep := length_joinPath_keep kept name
    have hrest := ih (keep kept name)
    rw [List.foldl_cons, joinPath_cons, List.length_append, List.length_cons]
    omega

/-- The components of the cleared path are the kept names. -/
theorem components_joined (h : ∀ n ∈ names, n ≠ [] ∧ slash ∉ n) : components (joined names) = names := by
  by_cases hnil : names = []
  · subst hnil
    rfl
  · rw [joined_eq_joinPath hnil, components_joinPath h]

/-- `wash_path` writes a slash and the components joined by slashes, without the `.` and with the name
before every `..` taken off. Clearing the result again gives the same, and it has no `.`, no `..` and no
empty components. -/
theorem washPath_canonical (habs : path.head? = some slash) (h0 : 0 ∉ path)
    (hshort : ∀ name ∈ components path, name.length ≤ 15) (hsize : path.length < size) (b : Bytes) :
    Exec.Returns (washPath size path) b (fun _ b' => b'.Holds 0 (joined (keptNames path)) ∧
        Exec.Returns (washPath size (joined (keptNames path))) b' fun _ b'' => b''.Holds 0 (joined (keptNames path))) ∧
      ∀ name ∈ keptNames path, name ≠ [] ∧ slash ∉ name ∧ name ≠ dot ∧ name ≠ dotDot := by
  have hproper := properName_components h0
  have hkept : ∀ n ∈ keptNames path, (ProperName n ∧ n.length < maxFileNameLen) ∧ n ≠ dot ∧ n ≠ dotDot :=
    of_mem_foldl_keep (fun n hn => ⟨hproper n hn, Nat.lt_succ_of_le (hshort n hn)⟩)
      fun n hn => absurd hn List.not_mem_nil
  have hcomp : components (joined (keptNames path)) = keptNames path :=
    components_joined fun n hn => ⟨(hkept n hn).1.1.ne_nil, (hkept n hn).1.1.no_slash⟩
  have hagain : keptNames (joined (keptNames path)) = keptNames path := by
    rw [keptNames, hcomp]
    exact foldl_keep_eq fun n hn => (hkept n hn).2
  have hlen : (joined (keptNames path)).length < size := by
    have hpath := joinPath_length_le habs
    have hfold : (joinPath (keptNames path)).length ≤ (joinPath []).length + (joinPath (components path)).length :=
      length_joinPath_foldl_keep (components path) []
    have hzero : (joinPath []).length = 0 := rfl
    by_cases hnil : keptNames path = []
    · rw [hnil, joined_nil, List.length_singleton]
      cases path with
      | nil => cases habs
      | cons c rest =>
        rw [List.length_cons] at hsize
        omega
    · rw [joined_eq_joinPath hnil]
      omega
  constructor
  · obtain ⟨b', hrun, h'⟩ := washPath_ok habs h0 (fun n hn => Nat.lt_succ_of_le (hshort n hn)) hsize b
    have hmem : ∀ n ∈ components (joined (keptNames path)), n.length < maxFileNameLen :=
      fun n hn => (hkept n (hcomp ▸ hn)).1.2
    obtain ⟨b'', hrun', h''⟩ := washPath_ok rfl (zero_not_mem_joined fun n hn => (hkept n hn).1.1) hmem hlen b'
    rw [hagain] at h''
    exact (Exec.post_of_ok hrun).mpr ⟨h', (Exec.post_of_ok hrun').mpr h''⟩
  · exact fun n hn => ⟨(hkept n hn).1.1.ne_nil, (hkept n hn).1.1.no_slash, (hkept n hn).2⟩

/-- `/a/./../b/` -/
theorem washPath_canonical_ab :
    Exec.Returns (washPath 512 [47, 97, 47, 46, 47, 46, 46, 47, 98, 47]) Bytes.zero (fun _ b' =>
        b'.Holds 0 (joined (keptNames [47, 97, 47, 46, 47, 46, 46, 47, 98, 47])) ∧
        Exec.Returns (washPath 512 (joined (keptNames [47, 97, 47, 46, 47, 46, 46, 47, 98, 47]))) b'
          fun _ b'' => b''.Holds 0 (joined (keptNames [47, 97, 47, 46, 47, 46, 46, 47, 98, 47]))) ∧
      ∀ name ∈ keptNames [47, 97, 47, 46, 47, 46, 46, 47, 98, 47],
        name ≠ [] ∧ slash ∉ name ∧ name ≠ dot ∧ name ≠ dotDot :=
  washPath_canonical rfl (by decide) (by decide) (by decide) Bytes.zero

example : joined (keptNames [47, 97, 47, 46, 47, 46, 46, 47, 98, 47]) = [47, 98] := by decide

end Shell
end Winx
