import Winx.Fs.HandleCounts

/-! # Reading directories through handles

`sys_opendir` walks the path with handles of its own and returns one more, at
the first entry. Only for the root directory it returns `root_dir`, which all
processes share, and leaves its cursor where it is.
-/

namespace Winx

/-- `sys_readdir` -/
def sysReaddir : Option DirPtr → FsM (Option DirEntry)
  | none => throw .assertFailed
  | some dir => dirRead dir

/-- `sys_rewinddir` -/
def sysRewinddir (dir : DirPtr) : FsM Unit := do
  let d ← derefDir dir
  storeDir dir { d with dirPos := 0 }

/-- A handle that a call has opened itself, given the next address at its start. -/
def OwnHandle (n : ℕ) (s : Fs) (ptr : DirPtr) : Prop := ∀ a, ptr = .heap a → n ≤ a ∧ a < s.nextDir

variable {s s' : Fs} {K : Set (ℕ × DirPtr)} {n : ℕ} {ptr dir : DirPtr}

section Search

theorem OwnHandle.rootDir (n : ℕ) (s : Fs) : OwnHandle n s .rootDir := by
  rintro a ⟨⟩

theorem OwnHandle.keeps (h : OwnHandle n s ptr) (hk : KeepsHandles K s s') : OwnHandle n s' ptr :=
  fun a ha => ⟨(h a ha).1, (h a ha).2.trans_le hk.nextDir⟩

/-- Code that only reads. -/
theorem KeepsHandles.of_same {α : Type} {m : FsM α} (h : HandlesOk s)
    (hm : Exec.Ensures m s fun _ s' => s' = s) :
    Exec.Ensures m s fun _ s' => KeepsHandles K s s' ∧ True :=
  hm.mono fun _ s' heq => ⟨by rw [heq]; exact KeepsHandles.refl K h, trivial⟩

/-- Closing a handle of the call. -/
theorem dirClose_own (h : HandlesOk s) (hown : OwnHandle n s ptr) :
    Exec.Ensures (dirClose ptr) s fun _ s' => KeepsHandles (handlesBelow n) s s' ∧ True := by
  refine (dirClose_keeps h ptr).mono fun _ s' hk => ⟨hk.mono ?_, trivial⟩
  rintro x hx a rfl rfl
  exact absurd (hx a rfl) (not_lt.mpr (hown a rfl).1)

/-- Opening a handle for the call. -/
theorem dirOpen_own (h : HandlesOk s) (hn : n ≤ s.nextDir) (inodeNo : UInt32) :
    Exec.Ensures (dirOpen inodeNo) s fun r s' =>
      KeepsHandles (handlesBelow n) s s' ∧ OwnHandle n s' r := by
  refine (dirOpen_keeps h inodeNo).mono ?_
  rintro r s' ⟨hk, rfl, hnext, -⟩
  refine ⟨hk.mono fun x hx a ha => (hx a ha).trans_le hn, ?_⟩
  rintro a ⟨⟩
  exact ⟨hn, by omega⟩

theorem sysMallocUnchecked_keeps (h : HandlesOk s) :
    Exec.Ensures sysMallocUnchecked s fun _ s' => KeepsHandles K s s' ∧ True := by
  rw [Exec.Ensures, post_sysMallocUnchecked]
  exact ⟨fun _ => ⟨keepsHandles_withMallocs K h _, trivial⟩, fun _ => trivial⟩

theorem searchDirEntry_keeps (h : HandlesOk s) (pdir : DirPtr) (name : List UInt8) :
    Exec.Ensures (searchDirEntry pdir name) s fun _ s' => KeepsHandles K s s' ∧ True := by
  have hmalloc : Exec.Ensures sysMalloc s fun _ s' => KeepsHandles K s s' ∧ True := by
    rw [Exec.Ensures, post_sysMalloc]
    exact ⟨keepsHandles_withMallocs K h _, trivial⟩
  refine KeepsHandles.bind hmalloc fun ok s₁ h₁ _ => ?_
  split
  · refine KeepsHandles.bind (KeepsHandles.of_same h₁.ok (derefDir_same _)) fun dir s₂ h₂ _ => ?_
    refine KeepsHandles.bind (KeepsHandles.of_same h₂.ok (by simp [derefInode])) fun inode s₃ h₃ _ => ?_
    refine KeepsHandles.bind (KeepsHandles.of_same h₃.ok (loadBlocks_same _)) fun allBlocks s₄ h₄ _ => ?_
    refine KeepsHandles.bind (sysMallocUnchecked_keeps h₄.ok) fun _ s₅ h₅ _ => ?_
    exact KeepsHandles.of_same h₅.ok (searchBlocks_same ..)
  · exact ⟨KeepsHandles.refl K h₁.ok, trivial⟩

/-- The loop of `search_file` closes and opens handles of its own only. -/
theorem searchLoop_keeps (fuel : ℕ) {st : SearchState} (h : HandlesOk s) (hn : n ≤ s.nextDir)
    (hsame : st.record.parentDir = st.parentDir) (hown : OwnHandle n s st.parentDir) :
    Exec.Ensures (searchLoop fuel st) s fun r s' =>
      KeepsHandles (handlesBelow n) s s' ∧ OwnHandle n s' r.2.parentDir := by
  induction fuel generalizing s st with
  | zero => trivial
  | succ fuel ih =>
    rw [searchLoop]
    split
    · refine KeepsHandles.bind (dirClose_own h (hsame ▸ hown)) fun _ s₁ h₁ _ => ?_
      refine KeepsHandles.bind (dirOpen_own h₁.ok (hn.trans h₁.nextDir) _) fun r s₂ h₂ hr => ?_
      exact ⟨KeepsHandles.refl _ h₂.ok, hr⟩
    · refine KeepsHandles.bind (KeepsHandles.of_same h (by simp)) fun _ s₁ h₁ _ => ?_
      refine KeepsHandles.bind (searchDirEntry_keeps h₁.ok _ _) fun e s₂ h₂ _ => ?_
      have hown₂ := (hown.keeps h₁).keeps h₂
      have hn₂ := (hn.trans h₁.nextDir).trans h₂.nextDir
      cases e with
      | none => exact ⟨KeepsHandles.refl _ h₂.ok, hsame ▸ hown₂⟩
      | some e =>
        refine KeepsHandles.bind (KeepsHandles.of_same h₂.ok (nextName_same _)) fun name s₃ h₃ _ => ?_
        have hown₃ := hown₂.keeps h₃
        have hn₃ := hn₂.trans h₃.nextDir
        split
        · split
          · refine KeepsHandles.bind (KeepsHandles.of_same h₃.ok (derefDir_same _)) fun dir s₄ h₄ _ => ?_
            refine KeepsHandles.bind (KeepsHandles.of_same h₄.ok (by simp [derefInode])) fun inode s₅ h₅ _ => ?_
            have hown₅ := (hown₃.keeps h₄).keeps h₅
            refine KeepsHandles.bind (dirClose_own h₅.ok hown₅) fun _ s₆ h₆ _ => ?_
            have hn₆ := ((hn₃.trans h₄.nextDir).trans h₅.nextDir).trans h₆.nextDir
            refine KeepsHandles.bind (dirOpen_own h₆.ok hn₆ _) fun r s₇ h₇ hr => ?_
            exact ih h₇.ok (hn₆.trans h₇.nextDir) rfl hr
          · split
            · exact ⟨KeepsHandles.refl _ h₃.ok, hsame ▸ hown₃⟩
            · exact ih h₃.ok hn₃ hsame hown₃

theorem searchFile_keeps (h : HandlesOk s) (hn : n ≤ s.nextDir) (pathname : List UInt8) :
    Exec.Ensures (searchFile pathname) s fun r s' =>
      KeepsHandles (handlesBelow n) s s' ∧ OwnHandle n s' r.2.parentDir := by
  unfold searchFile
  split
  · exact ⟨KeepsHandles.refl _ h, .rootDir n s⟩
  · refine KeepsHandles.bind (KeepsHandles.of_same h (by simp)) fun s₁ s₂ h₂ _ => ?_
    refine KeepsHandles.bind (KeepsHandles.of_same h₂.ok (by simp)) fun _ s₃ h₃ _ => ?_
    refine KeepsHandles.bind (KeepsHandles.of_same h₃.ok (by simp [storeName])) fun _ s₄ h₄ _ => ?_
    exact searchLoop_keeps _ h₄.ok (((hn.trans h₂.nextDir).trans h₃.nextDir).trans h₄.nextDir) rfl
      (.rootDir n s₄)

/-- `sys_opendir` returns `root_dir` as it is for the root directory, and else a new handle at the
first entry. -/
theorem sysOpendir_keeps (h : HandlesOk s) (hrun : s.cur ∈ s.tasks.map (·.pid)) (name : List UInt8) :
    Exec.Ensures (sysOpendir name) s fun r s' => KeepsHandles (handlesBelow s.nextDir) s s' ∧
      ∀ ptr, r = some ptr → (ptr = .rootDir ∧ name = [slash] ∧ s' = s) ∨
        ∃ a d, ptr = .heap a ∧ s.nextDir ≤ a ∧ a < s'.nextDir ∧ s'.dirOf ptr = some d ∧
          d.dirPos = 0 := by
  unfold sysOpendir
  rw [Exec.Ensures, Exec.post_bind, post_assert]
  refine ⟨fun _ => ?_, fun _ => trivial⟩
  split
  · rename_i hname
    refine ⟨KeepsHandles.refl _ h, ?_⟩
    rintro ptr ⟨⟩
    exact Or.inl ⟨rfl, hname, rfl⟩
  · refine KeepsHandles.bind (searchFile_keeps h le_rfl name) fun r s₁ h₁ hown => ?_
    obtain ⟨inodeNo, record⟩ := r
    dsimp only at hown ⊢
    split
    · rw [Exec.Ensures, Exec.post_bind]
      refine (dirOpen_keeps h₁.ok _).mono ?_
      rintro ret s₂ ⟨h₂, rfl, hnext, hopen⟩
      have hown₂ := hown.keeps h₂
      obtain ⟨d, hd, hpos⟩ := hopen (by rw [h₁.cur, h₁.pids]; exact hrun)
      rw [Exec.post_bind]
      refine (dirClose_keeps h₂.ok _).mono ?_
      intro _ s₃ h₃
      have hto : KeepsHandles (handlesBelow s.nextDir) s₁ s₂ :=
        h₂.mono fun x hx a ha => (hx a ha).trans_le h₁.nextDir
      refine ⟨hto.trans (h₃.mono ?_), ?_⟩
      · rintro x hx a rfl hptr
        exact absurd (hx a rfl) (not_lt.mpr (hown a hptr).1)
      · rintro ptr ⟨⟩
        refine Or.inr ⟨_, d, rfl, h₁.nextDir, (by omega : _ < s₂.nextDir).trans_le h₃.nextDir, ?_, hpos⟩
        rw [dirOf_eq_handle] at hd ⊢
        rw [h₃.cur, ← hd]
        refine h₃.handles (s₂.cur, _) ?_
        rintro a ⟨⟩ hptr
        exact absurd (hown _ hptr).2 (Nat.lt_irrefl _)
    · refine KeepsHandles.bind (dirClose_own h₁.ok hown) fun _ s₂ h₂ _ => ?_
      refine ⟨KeepsHandles.refl _ h₂.ok, ?_⟩
      rintro ptr ⟨⟩

end Search

section Read

/-- What reading through a pointer may change: its cursor and its buffer. -/
def CursorChange (dir : DirPtr) (s s' : Fs) : Prop :=
  s' = s ∨ ∃ d d', s.dirOf dir = some d ∧ d'.inode = d.inode ∧ s' = s.setDirOf dir d'

variable {d d' : Dir} {i : Inode}

theorem CursorChange.of_setDirOf (hd : s.dirOf dir = some d) (heq : d'.inode = d.inode)
    (h : CursorChange dir (s.setDirOf dir d') s') : CursorChange dir s s' := by
  rcases h with rfl | ⟨e, e', he, heq', rfl⟩
  · exact Or.inr ⟨d, d', hd, heq, rfl⟩
  · rw [dirOf_setDirOf hd] at he
    obtain rfl := Option.some.inj he
    exact Or.inr ⟨d, e', hd, heq'.trans heq, setDirOf_setDirOf⟩

theorem readEntries_same (buf : Bytes) (dirEntrySize dirPos : UInt32) (n k : ℕ) (pos : UInt32) :
    Exec.Ensures (readEntries buf dirEntrySize dirPos n k pos) s fun _ s' => s' = s := by
  induction n generalizing k pos with
  | zero => rfl
  | succ n ih =>
    rw [readEntries]
    split
    · split
      · exact ih _ _
      · simp
    · exact ih _ _

theorem readDirBlocks_frame (allBlocks : ℕ → UInt32) (n idx : ℕ) (pos : UInt32) :
    Exec.Ensures (readDirBlocks dir allBlocks n idx pos) s fun _ s' => CursorChange dir s s' := by
  induction n generalizing s idx pos with
  | zero => exact Or.inl rfl
  | succ n ih =>
    rw [readDirBlocks]
    simp only [Exec.Ensures, Exec.post_bind, Exec.post_get, post_derefDir, post_derefInode,
      Exec.post_ite, Exec.post_pure, implies_true, and_true]
    refine fun d hd i _ => ⟨fun _ => Or.inl rfl, fun _ => ⟨fun _ => ih _ _, fun _ => ?_⟩⟩
    rw [post_ideRead]
    refine ⟨fun _ => ?_, fun _ => trivial⟩
    rw [post_storeDir]
    refine Exec.Ensures.mono (readEntries_same ..) ?_
    rintro ⟨pos', found⟩ s₁ rfl
    cases found with
    | some k =>
      refine Or.inr ⟨d, _, hd, ?_, setDirOf_setDirOf⟩
      rfl
    | none =>
      refine (ih _ _).mono fun _ s₂ h₂ => CursorChange.of_setDirOf hd ?_ h₂
      rfl

/-- `dir_read` changes nothing but the cursor and the buffer of its handle. -/
theorem dirRead_frame (dir : DirPtr) :
    Exec.Ensures (dirRead dir) s fun _ s' => CursorChange dir s s' := by
  simp only [dirRead, Exec.Ensures, Exec.post_bind, post_derefDir, post_derefInode, implies_true,
    and_true]
  intro d _ i _
  refine Exec.Ensures.mono (loadBlocks_same i) ?_
  rintro allBlocks s₁ rfl
  exact readDirBlocks_frame _ _ _ _

/-- At the end it changes nothing. -/
theorem dirRead_atEnd (hd : s.dirOf dir = some d) (hi : s.inodes d.inode = some i)
    (hend : i.iSize ≤ d.dirPos) : Exec.Ensures (dirRead dir) s fun _ s' => s' = s := by
  have hloop (allBlocks : ℕ → UInt32) (n : ℕ) (pos : UInt32) :
      Exec.Ensures (readDirBlocks dir allBlocks n 0 pos) s fun _ s' => s' = s := by
    cases n with
    | zero => rfl
    | succ n => simp [readDirBlocks, hd, hi, hend]
  simp only [dirRead, Exec.Ensures, Exec.post_bind, post_derefDir, hd, Option.some.injEq, forall_eq',
    post_derefInode, hi, implies_true, and_true, reduceCtorEq]
  refine Exec.Ensures.mono (loadBlocks_same i) ?_
  rintro allBlocks s₁ rfl
  exact hloop _ _ _

theorem countP_replace {l : List (ℕ × Dir)} {a : ℕ} (hkeys : (l.map Prod.fst).Nodup)
    (hd : l.lookup a = some d) (heq : d'.inode = d.inode) (p : ℕ) :
    (l.map fun x => if x.1 = a then (a, d') else x).countP (fun x => decide (x.2.inode = p)) =
      l.countP fun x => decide (x.2.inode = p) := by
  rw [List.countP_map]
  refine List.countP_congr fun x hx => ?_
  obtain ⟨l₁, l₂, rfl, -⟩ := List.lookup_eq_some_iff.mp hd
  by_cases hxa : x.1 = a
  · have hxd : x = (a, d) := List.inj_on_of_nodup_map hkeys hx (by simp) hxa
    simp [hxd, heq]
  · simp [hxa]

theorem lookup_replace_ne {l : List (ℕ × Dir)} {a b : ℕ} (hb : b ≠ a) :
    (l.map fun x => if x.1 = a then (a, d') else x).lookup b = l.lookup b := by
  induction l with
  | nil => rfl
  | cons x l ih =>
    rw [List.map_cons]
    split
    · rename_i hx
      rw [List.lookup_cons, List.lookup_cons, beq_false_of_ne hb, beq_false_of_ne (hx ▸ hb), ih]
    · rw [List.lookup_cons, List.lookup_cons, ih]

/-- The cursor of a handle moves: the other handles stay. -/
theorem keepsHandles_setDirOf (h : HandlesOk s) (hd : s.dirOf dir = some d)
    (heq : d'.inode = d.inode) :
    KeepsHandles {x | x.2 = dir → dir ≠ .rootDir ∧ x.1 ≠ s.cur} s (s.setDirOf dir d') := by
  cases dir with
  | rootDir =>
    obtain rfl := Option.some.inj hd
    have hrefs (p : ℕ) : (s.setDirOf .rootDir d').dirRefs p = s.dirRefs p := by
      simp only [Fs.dirRefs, Fs.setDirOf, Fs.setRootDir_tasks, Fs.setRootDir_rootDir, heq]
    refine ⟨⟨h.pids, h.keys, h.fresh, h.inode_lt, fun p i hi => (hrefs p).trans_le (h.counted p i hi),
      fun p hp => h.there p ((hrefs p).symm ▸ hp)⟩, rfl, ⟨_, rfl⟩, rfl, rfl, le_rfl, le_rfl,
      fun _ _ i hi => ⟨i, hi, rfl⟩, fun x hx => ?_⟩
    obtain ⟨q, ptr⟩ := x
    cases ptr with
    | rootDir => exact absurd rfl (hx rfl).1
    | heap a => rfl
  | heap a =>
    obtain ⟨t, ht, hlookup⟩ := Option.bind_eq_some_iff.mp hd
    have hmap : s.setDirOf (.heap a) d' =
        s.mapDirs fun l => l.map fun x => if x.1 = a then (a, d') else x := rfl
    have hfst (l : List (ℕ × Dir)) :
        (l.map fun x => if x.1 = a then (a, d') else x).map Prod.fst = l.map Prod.fst := by
      rw [List.map_map]
      refine List.map_congr_left fun x _ => ?_
      rw [Function.comp_apply]
      split
      · rename_i hx
        exact hx.symm
      · rfl
    have hrefs (p : ℕ) : (s.setDirOf (.heap a) d').dirRefs p = s.dirRefs p := by
      have hsum := dirRefs_mapDirs (p := p)
        (f := fun l => l.map fun x => if x.1 = a then (a, d') else x) h.pids ht
      rw [countP_replace (h.keys t (List.mem_of_find?_eq_some ht)) hlookup heq] at hsum
      rw [hmap]
      omega
    refine ⟨⟨?_, fun u hu => ?_, fun u hu x hx => ?_, h.inode_lt,
      fun p i hi => (hrefs p).trans_le (h.counted p i hi), fun p hp => h.there p (hrefs p ▸ hp)⟩,
      rfl, ⟨_, rfl⟩, rfl, mapDirs_pids, le_rfl, le_rfl, fun _ _ i hi => ⟨i, hi, rfl⟩, fun x hx => ?_⟩
    · exact (congrArg List.Nodup (mapDirs_pids (s := s))).mpr h.pids
    · obtain ⟨v, hv, heq'⟩ := mem_mapDirs hu
      rw [heq']
      split
      · rw [hfst]; exact h.keys v hv
      · exact h.keys v hv
    · obtain ⟨v, hv, heq'⟩ := mem_mapDirs hu
      have hkey : x.1 ∈ u.dirs.map Prod.fst := List.mem_map_of_mem hx
      have hsame : u.dirs.map Prod.fst = v.dirs.map Prod.fst := by
        rw [heq']
        split
        · exact hfst _
        · rfl
      rw [hsame] at hkey
      obtain ⟨y, hy, hxy⟩ := List.mem_map.mp hkey
      exact hxy ▸ h.fresh v hv y hy
    · obtain ⟨q, ptr⟩ := x
      cases ptr with
      | rootDir => rfl
      | heap b =>
        rw [hmap, handle_mapDirs, Fs.handle]
        cases hu : s.tasks.find? (·.pid = q) with
        | none => rfl
        | some u =>
          rw [Option.bind_some, Option.bind_some]
          split
          · rename_i hcur
            have hpid : u.pid = q := by simpa using List.find?_some hu
            have hb : b ≠ a := by
              rintro rfl
              exact (hx rfl).2 (by rw [← hpid, hcur])
            exact lookup_replace_ne hb
          · rfl

end Read

end Winx
