import Mathlib.Data.List.TakeWhile
import Winx.Fs.Path
import Winx.Lib.Words

/-! # The components of a path

A path names its components, in their order and without the slashes between them.
Parsing takes them off one by one, and the path searched so far is made of those
that were looked up.
-/

namespace Winx

/-- The components of a path. -/
def components (path : List UInt8) : List (List UInt8) :=
  (path.splitOnP (· == slash)).filter (· ≠ [])

/-- The components of what `path_parse` left of a path. -/
def restComponents (subPath : Option (List UInt8)) : List (List UInt8) :=
  subPath.elim [] components

/-- The path with the given components. -/
def joinPath (names : List (List UInt8)) : List UInt8 := names.flatMap (slash :: ·)

variable {path name : List UInt8} {names : List (List UInt8)}

theorem components_eq_words (path : List UInt8) : components path = Words.words slash path := rfl

@[simp] theorem components_nil : components [] = [] := Words.words_nil

theorem components_slash (path : List UInt8) : components (slash :: path) = components path :=
  Words.words_cons_sep path

/-- The slashes at the start of a path separate nothing. -/
theorem components_dropWhile (path : List UInt8) :
    components (path.dropWhile (· == slash)) = components path := by
  induction path with
  | nil => rfl
  | cons c path ih =>
    rw [List.dropWhile_cons]
    split
    · rename_i hc
      rw [ih, beq_iff_eq.mp hc, components_slash]
    · rfl

theorem components_single (hne : name ≠ []) (h : slash ∉ name) : components name = [name] :=
  Words.words_run hne h

theorem components_append_slash (hne : name ≠ []) (h : slash ∉ name) (path : List UInt8) :
    components (name ++ slash :: path) = name :: components path :=
  Words.words_run_append hne h path

/-- The components on both sides of a slash. -/
theorem components_append (path rest : List UInt8) :
    components (path ++ slash :: rest) = components path ++ components rest :=
  Words.words_append path rest

/-- What follows the last slash. -/
theorem afterLastSlash_append (path : List UInt8) (h : slash ∉ name) :
    ((path ++ slash :: name).reverse.takeWhile (· != slash)).reverse = name := by
  have hall : ∀ c ∈ name.reverse, (c != slash) = true := by
    intro c hc
    rw [bne_iff_ne]
    rintro rfl
    exact h (List.mem_reverse.mp hc)
  rw [List.reverse_append, List.reverse_cons, List.append_assoc, List.takeWhile_append_of_pos hall]
  have hstop : ([slash] ++ path.reverse).takeWhile (· != slash) = [] := rfl
  rw [hstop, List.append_nil, List.reverse_reverse]

/-- A path with a slash, but none at its end, ends with its last component. -/
theorem exists_afterLastSlash (hslash : slash ∈ path) (hlast : path.getLast? ≠ some slash) :
    ∃ pre name, path = pre ++ slash :: name ∧ name ≠ [] ∧ slash ∉ name := by
  obtain ⟨name, pre, hpath, hname⟩ := List.eq_append_cons_of_mem (List.mem_reverse.mpr hslash)
  have hpath : path = pre.reverse ++ slash :: name.reverse := by
    rw [← List.reverse_reverse path, hpath]
    simp
  refine ⟨pre.reverse, name.reverse, hpath, fun hnil => hlast ?_, by simpa using hname⟩
  rw [hpath, hnil, List.getLast?_concat]

/-- What `path_parse` makes of a path, without the slashes at its start. -/
theorem pathParse_spec (path : List UInt8) : slash ∉ (pathParse path).1 ∧
    ((pathParse path).2 = none ∧ path.dropWhile (· == slash) = (pathParse path).1 ∨
      ∃ rest, (pathParse path).2 = some (slash :: rest) ∧ (pathParse path).1 ≠ [] ∧
        path.dropWhile (· == slash) = (pathParse path).1 ++ slash :: rest) := by
  simp only [pathParse]
  have hhead := List.head?_dropWhile_not (· == slash) path
  generalize path.dropWhile (· == slash) = p at hhead ⊢
  have hsplit := List.takeWhile_append_dropWhile (p := (· != slash)) (l := p)
  have hrest := List.head?_dropWhile_not (· != slash) p
  generalize hname : p.takeWhile (· != slash) = name at hsplit ⊢
  generalize p.dropWhile (· != slash) = rest at hrest hsplit ⊢
  refine ⟨?_, ?_⟩
  · rw [← hname]
    intro hmem
    have := List.mem_takeWhile_imp hmem
    simp at this
  · cases rest with
    | nil => exact .inl ⟨if_pos rfl, by rw [← hsplit, List.append_nil]⟩
    | cons c rest =>
      have hc : c = slash := by simpa using hrest
      subst hc
      refine .inr ⟨rest, if_neg (List.cons_ne_nil _ _), ?_, hsplit.symm⟩
      rintro rfl
      rw [← hsplit] at hhead
      simp at hhead

/-- `path_parse` takes off the first component. -/
theorem components_pathParse (path : List UInt8) :
    components path = if (pathParse path).1 = [] then []
      else (pathParse path).1 :: restComponents (pathParse path).2 := by
  obtain ⟨hslash, ⟨hrest, hp⟩ | ⟨rest, hrest, hne, hp⟩⟩ := pathParse_spec path
  · rw [← components_dropWhile, hp, hrest]
    split
    · rename_i hnil
      rw [hnil, components_nil]
    · rename_i hne
      exact components_single hne hslash
  · rw [← components_dropWhile, hp, hrest, if_neg hne, components_append_slash hne hslash]
    exact congrArg _ (components_slash rest).symm

/-- Parsing goes on with a shorter path. -/
theorem path_induction {P : List UInt8 → Prop}
    (hstep : ∀ path, (∀ rest, (pathParse path).2 = some (slash :: rest) → P rest) → P path)
    (path : List UInt8) : P path := by
  induction h : path.length using Nat.strong_induction_on generalizing path with
  | _ n ih =>
    subst h
    refine hstep path fun rest hrest => ih rest.length ?_ rest rfl
    have hdrop := List.length_dropWhile_le (· == slash) path
    obtain ⟨-, ⟨hnone, -⟩ | ⟨rest', hsome, hne, hp⟩⟩ := pathParse_spec path
    · rw [hnone] at hrest
      cases hrest
    · rw [hsome] at hrest
      obtain rfl : rest' = rest := by simpa using hrest
      rw [hp, List.length_append, List.length_cons] at hdrop
      omega

/-- A component has a name, of characters of the path that are no slashes. -/
theorem of_mem_components (path : List UInt8) : ∀ name ∈ components path,
    name ≠ [] ∧ slash ∉ name ∧ ∀ c ∈ name, c ∈ path := by
  induction path using path_induction with
  | hstep path ih =>
    intro name hname
    have hmem {c : UInt8} (hc : c ∈ path.dropWhile (· == slash)) : c ∈ path :=
      (List.dropWhile_sublist _).subset hc
    obtain ⟨hslash, ⟨hrest, hp⟩ | ⟨rest, hrest, hne, hp⟩⟩ := pathParse_spec path
    all_goals rw [components_pathParse, hrest] at hname
    · split at hname
      · cases hname
      · rename_i hne
        obtain rfl := List.mem_singleton.mp hname
        exact ⟨hne, hslash, fun c hc => hmem (hp ▸ hc)⟩
    · rw [if_neg hne] at hname
      rcases List.mem_cons.mp hname with rfl | hname
      · exact ⟨hne, hslash, fun c hc => hmem (hp ▸ List.mem_append_left _ hc)⟩
      · rw [restComponents, Option.elim_some, components_slash] at hname
        obtain ⟨hne', hslash', hsub⟩ := ih rest hrest name hname
        refine ⟨hne', hslash', fun c hc => hmem (hp ▸ List.mem_append_right _ ?_)⟩
        exact List.mem_cons_of_mem _ (hsub c hc)

/-- The path made of the components is hardly longer than the path. -/
theorem length_joinPath_components (path : List UInt8) :
    (joinPath (components path)).length ≤ path.length + 1 := by
  induction path using path_induction with
  | hstep path ih =>
    have hdrop := List.length_dropWhile_le (· == slash) path
    obtain ⟨-, ⟨hrest, hp⟩ | ⟨rest, hrest, hne, hp⟩⟩ := pathParse_spec path
    all_goals rw [hp] at hdrop; rw [components_pathParse, hrest]
    · split
      · exact Nat.zero_le _
      · simp only [joinPath, restComponents, Option.elim_none, List.flatMap_cons, List.flatMap_nil,
          List.append_nil, List.length_cons]
        omega
    · have hle := ih rest hrest
      rw [List.length_append, List.length_cons] at hdrop
      rw [if_neg hne, restComponents, Option.elim_some, components_slash, joinPath,
        List.flatMap_cons, List.length_append, List.length_cons]
      rw [joinPath] at hle
      omega

theorem joinPath_cons (name : List UInt8) (names : List (List UInt8)) :
    joinPath (name :: names) = slash :: name ++ joinPath names := rfl

theorem joinPath_append (walked : List (List UInt8)) (name : List UInt8) :
    joinPath (walked ++ [name]) = joinPath walked ++ slash :: name := by
  simp [joinPath]

theorem length_le_length_joinPath (names : List (List UInt8)) :
    names.length ≤ (joinPath names).length := by
  induction names with
  | nil => exact le_rfl
  | cons name names ih =>
    rw [joinPath] at ih
    rw [joinPath, List.flatMap_cons, List.length_append, List.length_cons, List.length_cons]
    omega

/-- The components of the path made of given ones. -/
theorem components_joinPath (h : ∀ name ∈ names, name ≠ [] ∧ slash ∉ name) :
    components (joinPath names) = names := by
  induction names with
  | nil => exact components_nil
  | cons name names ih =>
    obtain ⟨hne, hslash⟩ := h name List.mem_cons_self
    have hrest := ih fun n hn => h n (List.mem_cons_of_mem _ hn)
    rw [joinPath, List.flatMap_cons, List.cons_append, components_slash]
    cases names with
    | nil => rw [List.flatMap_nil, List.append_nil, components_single hne hslash]
    | cons next names =>
      rw [List.flatMap_cons, List.cons_append, components_append_slash hne hslash]
      rw [joinPath, List.flatMap_cons, List.cons_append, components_slash] at hrest
      rw [hrest]

/-- The first component is what `path_parse` stores, and the others are in what it leaves. -/
theorem pathParse_components (path : List UInt8) :
    (pathParse path).1 = (components path).headD [] ∧
      restComponents (pathParse path).2 = (components path).tail := by
  rw [components_pathParse]
  split
  · rename_i hnil
    obtain ⟨-, ⟨hrest, -⟩ | ⟨rest, -, hne, -⟩⟩ := pathParse_spec path
    · exact ⟨hnil, by rw [hrest]; rfl⟩
    · exact absurd hnil hne
  · exact ⟨rfl, rfl⟩

section Parsing

variable {s : Fs}

theorem length_headD_le {n : ℕ} (h : ∀ name ∈ names, name.length ≤ n) :
    (names.headD []).length ≤ n := by
  cases names with
  | nil => exact Nat.zero_le _
  | cons name names => exact h name List.mem_cons_self

/-- `search_file` takes the next component into its buffer. -/
theorem nextName_ok (subPath : Option (List UInt8))
    (h : ∀ name ∈ restComponents subPath, name.length ≤ 15) : ∃ rest,
      nextName subPath s = .ok (((restComponents subPath).headD [], rest), s) ∧
        restComponents rest = (restComponents subPath).tail := by
  cases subPath with
  | none => exact ⟨none, rfl, rfl⟩
  | some p =>
    obtain ⟨hname, hrest⟩ := pathParse_components p
    refine ⟨(pathParse p).2, ?_, hrest⟩
    have hlen := length_headD_le h
    rw [restComponents, Option.elim_some] at hlen ⊢
    rw [← hname] at hlen ⊢
    rw [Exec.eq_ok_iff]
    simp only [nextName, storeName, Exec.post_bind, post_inBounds, Exec.post_pure, and_self]
    exact ⟨fun _ => trivial, fun hlong => absurd hlen (by omega)⟩

/-- The loop of `path_depth_cnt` with a name buffer for `room` characters. -/
def pathDepthLoopWithin (room : ℕ) : ℕ → Option (List UInt8) → FsM ℕ
  | 0, _ => throw .diverged
  | _ + 1, none => pure 0
  | fuel + 1, some p => do
    let (name, rest) := pathParse p
    inBounds (name.length ≤ room)
    if name = [] then pure 0
    else
      let depth ← pathDepthLoopWithin room fuel rest
      pure (depth + 1)

/-- `path_depth_cnt` with a name buffer for `room` characters. -/
def pathDepthCntWithin (room : ℕ) (pathname : List UInt8) : FsM ℕ := do
  let s ← get
  let (name, rest) := pathParse pathname
  inBounds (name.length ≤ room)
  if name = [] ∧ s.junk 0 = 0 then pure 0
  else
    let depth ← pathDepthLoopWithin room (pathname.length + 1) rest
    pure (depth + 1)

theorem pathDepthLoopWithin_16 (fuel : ℕ) (subPath : Option (List UInt8)) :
    pathDepthLoopWithin 16 fuel subPath = pathDepthLoop fuel subPath := by
  induction fuel generalizing subPath with
  | zero => rfl
  | succ fuel ih =>
    cases subPath with
    | none => rfl
    | some p => simp only [pathDepthLoopWithin, pathDepthLoop, ih]

theorem pathDepthCntWithin_16 (path : List UInt8) :
    pathDepthCntWithin 16 path = pathDepthCnt path := by
  simp only [pathDepthCntWithin, pathDepthCnt, pathDepthLoopWithin_16]

variable {room : ℕ}

theorem pathDepthLoopWithin_ok (fuel : ℕ) (subPath : Option (List UInt8))
    (hlen : ∀ name ∈ restComponents subPath, name.length ≤ room)
    (hfuel : (restComponents subPath).length < fuel) :
    pathDepthLoopWithin room fuel subPath s = .ok ((restComponents subPath).length, s) := by
  induction fuel generalizing subPath with
  | zero => omega
  | succ fuel ih =>
    cases subPath with
    | none => rfl
    | some p =>
      obtain ⟨hname, hrest⟩ := pathParse_components p
      have hbound := length_headD_le hlen
      rw [restComponents, Option.elim_some] at hlen hfuel hbound ⊢
      rw [← hname] at hbound
      rw [Exec.eq_ok_iff, pathDepthLoopWithin]
      simp only [Exec.post_bind, post_inBounds]
      refine ⟨fun _ => ?_, fun hlong => absurd hbound hlong⟩
      rw [hname]
      cases hcomp : components p with
      | nil => exact ⟨rfl, rfl⟩
      | cons name names =>
        rw [hcomp] at hlen hfuel hrest
        rw [List.headD_cons, if_neg (of_mem_components p name (by rw [hcomp]; simp)).1]
        have hnext := ih (pathParse p).2 (by rw [hrest]; exact fun n hn => hlen n (List.mem_of_mem_tail hn))
          (by rw [hrest]; simpa using hfuel)
        rw [Exec.post_bind_of_ok hnext, hrest]
        exact ⟨rfl, rfl⟩

/-- Counting counts the components, if there are any and they fit the buffer. -/
theorem pathDepthCntWithin_ok {path : List UInt8}
    (hlen : ∀ name ∈ components path, name.length ≤ room) :
    pathDepthCntWithin room path s = .ok (if components path = [] ∧ s.junk 0 ≠ 0 then 1
      else (components path).length, s) := by
  obtain ⟨hname, hrest⟩ := pathParse_components path
  have hbound := length_headD_le hlen
  rw [← hname] at hbound
  have hcount := length_joinPath_components path
  have hnames := length_le_length_joinPath (components path)
  have hloop : pathDepthLoopWithin room (path.length + 1) (pathParse path).2 s =
      .ok ((components path).tail.length, s) := by
    rw [← hrest]
    refine pathDepthLoopWithin_ok _ _ ?_ ?_
    · rw [hrest]
      exact fun n hn => hlen n (List.mem_of_mem_tail hn)
    · rw [hrest, List.length_tail]
      omega
  rw [Exec.eq_ok_iff]
  simp only [pathDepthCntWithin, Exec.post_bind, Exec.post_get, post_inBounds]
  refine ⟨fun _ => ?_, fun hlong => absurd hbound hlong⟩
  rw [hname]
  cases hcomp : components path with
  | nil =>
    rw [hcomp] at hloop
    rw [List.headD_nil]
    split
    · rename_i h0
      exact ⟨by rw [if_neg fun h => h.2 h0.2]; rfl, rfl⟩
    · rename_i h0
      rw [Exec.post_bind_of_ok hloop]
      exact ⟨by rw [if_pos ⟨rfl, fun h => h0 ⟨rfl, h⟩⟩]; rfl, rfl⟩
  | cons name names =>
    rw [hcomp] at hloop
    rw [List.headD_cons,
      if_neg fun h => (of_mem_components path name (by rw [hcomp]; exact List.mem_cons_self)).1 h.1,
      if_neg fun h => List.cons_ne_nil _ _ h.1, Exec.post_bind_of_ok hloop]
    exact ⟨rfl, rfl⟩

/-- `path_depth_cnt` counts the components, if there are any. -/
theorem pathDepthCnt_ok {path : List UInt8} (hlen : ∀ name ∈ components path, name.length ≤ 16) :
    pathDepthCnt path s = .ok (if components path = [] ∧ s.junk 0 ≠ 0 then 1
      else (components path).length, s) := by
  rw [← pathDepthCntWithin_16]
  exact pathDepthCntWithin_ok hlen

/-- Only a path whose components fit the buffer is counted. -/
theorem pathDepthLoopWithin_fits (fuel : ℕ) (subPath : Option (List UInt8)) :
    Exec.Post (pathDepthLoopWithin room fuel subPath) s
      (fun _ _ => ∀ name ∈ restComponents subPath, name.length ≤ room) (· ≠ .badPointer) := by
  induction fuel generalizing s subPath with
  | zero => exact (by decide : Fault.diverged ≠ .badPointer)
  | succ fuel ih =>
    cases subPath with
    | none => exact fun name hname => absurd hname List.not_mem_nil
    | some p =>
      have hcomp := components_pathParse p
      simp only [pathDepthLoopWithin, Exec.post_bind, post_inBounds, Exec.post_ite, Exec.post_pure,
        restComponents, Option.elim_some]
      refine ⟨fun hfits => ⟨fun hnil => ?_, fun hne => ?_⟩, by simp⟩
      · rw [hcomp, if_pos hnil]
        exact fun name hname => absurd hname List.not_mem_nil
      · refine (ih (pathParse p).2).mono ?_ fun _ => id
        intro _ _ hrest
        rw [hcomp, if_neg hne]
        exact List.forall_mem_cons.mpr ⟨hfits, hrest⟩

theorem pathDepthCntWithin_fits (path : List UInt8) :
    Exec.Post (pathDepthCntWithin room path) s
      (fun _ _ => ∀ name ∈ components path, name.length ≤ room) (· ≠ .badPointer) := by
  have hcomp := components_pathParse path
  simp only [pathDepthCntWithin, Exec.post_bind, Exec.post_get, post_inBounds, Exec.post_ite,
    Exec.post_pure]
  refine ⟨fun hfits => ⟨fun hnil => ?_, fun _ => ?_⟩, by simp⟩
  · rw [hcomp, if_pos hnil.1]
    exact fun name hname => absurd hname List.not_mem_nil
  · refine (pathDepthLoopWithin_fits _ (pathParse path).2).mono ?_ fun _ => id
    intro _ _ hrest
    rw [hcomp]
    split
    · exact fun name hname => absurd hname List.not_mem_nil
    · exact List.forall_mem_cons.mpr ⟨hfits, hrest⟩

end Parsing

end Winx
