import Winx.Fs.DirRead
import Winx.Fs.Walk

/-! # Directory handles and open counts

A directory handle is a `struct dir` of a process, or the global `root_dir`.
Each one counts as an opening of its inode, so an inode stays in memory as long
as a handle refers to it. Looking up a path opens and closes handles of its own
and leaves those that were there alone.
-/

namespace Winx

/-- The `struct dir` behind a pointer of a process. -/
def Fs.handle (s : Fs) (q : ℕ) : DirPtr → Option Dir
  | .rootDir => some s.rootDir
  | .heap a => (s.tasks.find? (·.pid = q)).bind fun t => t.dirs.lookup a

/-- How many handles refer to the inode at an address. -/
def Fs.dirRefs (s : Fs) (p : ℕ) : ℕ :=
  (s.tasks.map fun t => t.dirs.countP fun x => decide (x.2.inode = p)).sum +
    if s.rootDir.inode = p then 1 else 0

/-- The handles have different addresses, and every handle counts as an opening of its inode. -/
structure HandlesOk (s : Fs) : Prop where
  pids : s.PidsDistinct
  keys : ∀ t ∈ s.tasks, (t.dirs.map Prod.fst).Nodup
  fresh : ∀ t ∈ s.tasks, ∀ x ∈ t.dirs, x.1 < s.nextDir
  inode_lt : ∀ p i, s.inodes p = some i → p < s.nextInode
  counted : ∀ p i, s.inodes p = some i → s.dirRefs p ≤ i.iOpenCnts
  there : ∀ p, 0 < s.dirRefs p → ∃ i, s.inodes p = some i

/-- What a call leaves alone: the disk, what the inodes hold, and the handles in `K`. -/
structure KeepsHandles (K : Set (ℕ × DirPtr)) (s s' : Fs) : Prop where
  ok : HandlesOk s'
  disk : s'.disk = s.disk
  part : ∃ l, s'.part = s.part.setOpenInodes l
  cur : s'.cur = s.cur
  pids : s'.tasks.map (·.pid) = s.tasks.map (·.pid)
  nextInode : s.nextInode ≤ s'.nextInode
  nextDir : s.nextDir ≤ s'.nextDir
  inodes : ∀ p < s.nextInode, ∀ i', s'.inodes p = some i' →
    ∃ i, s.inodes p = some i ∧ i'.setOpenCnts 0 = i.setOpenCnts 0
  handles : ∀ x ∈ K, s'.handle x.1 x.2 = s.handle x.1 x.2

/-- The handles that have an address below `n`, and `root_dir`. -/
def handlesBelow (n : ℕ) : Set (ℕ × DirPtr) := {x | ∀ a, x.2 = .heap a → a < n}

variable {s s' s'' : Fs} {K L : Set (ℕ × DirPtr)} {p n q a : ℕ} {i : Inode} {d : Dir}

theorem KeepsHandles.refl (K : Set (ℕ × DirPtr)) (h : HandlesOk s) : KeepsHandles K s s :=
  ⟨h, rfl, ⟨_, rfl⟩, rfl, rfl, le_rfl, le_rfl, fun _ _ i' h => ⟨i', h, rfl⟩, fun _ _ => rfl⟩

theorem KeepsHandles.trans (h : KeepsHandles K s s') (h' : KeepsHandles K s' s'') :
    KeepsHandles K s s'' where
  ok := h'.ok
  disk := h'.disk.trans h.disk
  part := by
    obtain ⟨l, hl⟩ := h.part
    obtain ⟨l', hl'⟩ := h'.part
    exact ⟨l', by rw [hl', hl]; rfl⟩
  cur := h'.cur.trans h.cur
  pids := h'.pids.trans h.pids
  nextInode := h.nextInode.trans h'.nextInode
  nextDir := h.nextDir.trans h'.nextDir
  inodes p hp i'' hi'' := by
    obtain ⟨i', hi', heq'⟩ := h'.inodes p (hp.trans_le h.nextInode) i'' hi''
    obtain ⟨i, hi, heq⟩ := h.inodes p hp i' hi'
    exact ⟨i, hi, heq'.trans heq⟩
  handles x hx := (h'.handles x hx).trans (h.handles x hx)

theorem KeepsHandles.mono (h : KeepsHandles K s s') (hL : L ⊆ K) : KeepsHandles L s s' :=
  { h with handles := fun x hx => h.handles x (hL hx) }

theorem KeepsHandles.bind {α β : Type} {m : FsM α} {f : α → FsM β} {P : α → Fs → Prop}
    {Q : β → Fs → Prop} (hm : Exec.Ensures m s fun r s' => KeepsHandles K s s' ∧ P r s')
    (hf : ∀ r s', KeepsHandles K s s' → P r s' →
      Exec.Ensures (f r) s' fun r' s'' => KeepsHandles K s' s'' ∧ Q r' s'') :
    Exec.Ensures (m >>= f) s fun r s' => KeepsHandles K s s' ∧ Q r s' :=
  Exec.Post.bind hm fun r s' h => (hf r s' h.1 h.2).mono fun _ _ h' => ⟨h.1.trans h'.1, h'.2⟩

/-- A change of what is used for nothing here. -/
theorem keepsHandles_withMallocs (K : Set (ℕ × DirPtr)) (h : HandlesOk s) (f : ℕ → Bool) :
    KeepsHandles K s (s.withMallocs f) :=
  ⟨⟨h.pids, h.keys, h.fresh, h.inode_lt, h.counted, h.there⟩, rfl, ⟨_, rfl⟩, rfl, rfl,
    le_rfl, le_rfl, fun _ _ i' hi' => ⟨i', hi', rfl⟩, fun x _ => by
      obtain ⟨q, ptr⟩ := x
      cases ptr <;> rfl⟩

section Inodes

theorem HandlesOk.dirRefs_next (h : HandlesOk s) : s.dirRefs s.nextInode = 0 := by
  by_contra hne
  obtain ⟨j, hj⟩ := h.there _ (Nat.pos_of_ne_zero hne)
  exact absurd (h.inode_lt _ j hj) (Nat.lt_irrefl _)

/-- The inode at an address gets another count, not below its handles. -/
theorem keepsHandles_setOpenCnts (K : Set (ℕ × DirPtr)) (h : HandlesOk s) (hi : s.inodes p = some i)
    {cnt : ℕ} (hcnt : s.dirRefs p ≤ cnt) :
    KeepsHandles K s (s.setInode p (some (i.setOpenCnts cnt))) := by
  have hupdate {q : ℕ} {j : Inode} (hj : (s.setInode p (some (i.setOpenCnts cnt))).inodes q = some j) :
      (q = p ∧ j = i.setOpenCnts cnt) ∨ (q ≠ p ∧ s.inodes q = some j) := by
    rw [Fs.setInode_inodes, Function.update_apply] at hj
    split at hj
    · rename_i hq
      exact Or.inl ⟨hq, (Option.some.inj hj).symm⟩
    · rename_i hq
      exact Or.inr ⟨hq, hj⟩
  refine ⟨⟨h.pids, h.keys, h.fresh, fun q j hj => ?_, fun q j hj => ?_, fun q hq => ?_⟩, rfl,
    ⟨_, rfl⟩, rfl, rfl, le_rfl, le_rfl, fun q _ j hj => ?_, fun x _ => ?_⟩
  · rcases hupdate hj with ⟨rfl, -⟩ | ⟨-, hj⟩
    · exact h.inode_lt _ i hi
    · exact h.inode_lt q j hj
  · rcases hupdate hj with ⟨rfl, rfl⟩ | ⟨-, hj⟩
    · exact hcnt
    · exact h.counted q j hj
  · by_cases hqp : q = p
    · exact ⟨_, by rw [hqp]; exact Function.update_self ..⟩
    · obtain ⟨j, hj⟩ := h.there q hq
      exact ⟨j, (Function.update_of_ne hqp ..).trans hj⟩
  · rcases hupdate hj with ⟨rfl, rfl⟩ | ⟨-, hj⟩
    · exact ⟨i, hi, rfl⟩
    · exact ⟨j, hj, rfl⟩
  · obtain ⟨q, ptr⟩ := x
    cases ptr <;> rfl

/-- A new inode comes in. -/
theorem keepsHandles_insert (K : Set (ℕ × DirPtr)) (h : HandlesOk s) (i : Inode) :
    KeepsHandles K s (s.insert i) := by
  have hupdate {q : ℕ} {j : Inode} (hj : (s.insert i).inodes q = some j) :
      (q = s.nextInode ∧ j = i) ∨ (q ≠ s.nextInode ∧ s.inodes q = some j) := by
    change Function.update s.inodes s.nextInode (some i) q = some j at hj
    rw [Function.update_apply] at hj
    split at hj
    · rename_i hq
      exact Or.inl ⟨hq, (Option.some.inj hj).symm⟩
    · rename_i hq
      exact Or.inr ⟨hq, hj⟩
  refine ⟨⟨h.pids, h.keys, h.fresh, fun q j hj => ?_, fun q j hj => ?_, fun q hq => ?_⟩, rfl,
    ⟨_, rfl⟩, rfl, rfl, Nat.le_succ _, le_rfl, fun q hq j hj => ?_, fun x _ => ?_⟩
  · rcases hupdate hj with ⟨rfl, -⟩ | ⟨-, hj⟩
    · exact Nat.lt_succ_self _
    · exact (h.inode_lt q j hj).trans (Nat.lt_succ_self _)
  · rcases hupdate hj with ⟨rfl, -⟩ | ⟨-, hj⟩
    · exact h.dirRefs_next.trans_le (Nat.zero_le _)
    · exact h.counted q j hj
  · by_cases hqn : q = s.nextInode
    · exact ⟨i, by rw [hqn]; exact Function.update_self ..⟩
    · obtain ⟨j, hj⟩ := h.there q hq
      exact ⟨j, (Function.update_of_ne hqn ..).trans hj⟩
  · rcases hupdate hj with ⟨rfl, -⟩ | ⟨-, hj⟩
    · exact absurd hq (Nat.lt_irrefl _)
    · exact ⟨j, hj, rfl⟩
  · obtain ⟨q, ptr⟩ := x
    cases ptr <;> rfl

/-- Opening an inode makes room for one more handle to it. -/
theorem inodeOpen_keeps (K : Set (ℕ × DirPtr)) (h : HandlesOk s) (inodeNo : UInt32) :
    Exec.Ensures (inodeOpen inodeNo) s fun p s' => KeepsHandles K s s' ∧
      s'.nextDir = s.nextDir ∧ ∃ i, s'.inodes p = some i ∧ s'.dirRefs p + 1 ≤ i.iOpenCnts := by
  rw [Exec.Ensures, inodeOpen, Exec.post_bind, Exec.post_get]
  cases hfind : findOpenInode s inodeNo with
  | some p =>
    simp only [Exec.post_bind, post_derefInode, post_storeInode, Exec.post_pure, implies_true, and_true]
    intro i hi
    refine ⟨keepsHandles_setOpenCnts K h hi ((h.counted p i hi).trans (Nat.le_succ _)), rfl,
      _, Function.update_self .., ?_⟩
    exact Nat.succ_le_succ (h.counted p i hi)
  | none =>
    simp only [inodeLoad, newInode, pushOpenInode, Exec.post_bind, Exec.post_get, post_deref,
      post_sysMallocUnchecked, Exec.post_pure, post_ideRead, Exec.post_set, Exec.post_modify,
      implies_true, and_true]
    intro pos _ _ _ _
    have htick : KeepsHandles K s s.tick.tick := keepsHandles_withMallocs K h _
    refine ⟨htick.trans (keepsHandles_insert K htick.ok _), rfl, _, Function.update_self .., ?_⟩
    exact (congrArg (· + 1) h.dirRefs_next).le

end Inodes

section Tasks

/-- What the running process sees behind a pointer. -/
theorem dirOf_eq_handle (s : Fs) (ptr : DirPtr) : s.dirOf ptr = s.handle s.cur ptr := by
  cases ptr <;> rfl

theorem find?_map_task {f : Task → Task} (hf : ∀ t, (f t).pid = t.pid) (l : List Task) (q : ℕ) :
    (l.map f).find? (·.pid = q) = (l.find? (·.pid = q)).map f := by
  rw [List.find?_map]
  congr 2
  funext t
  simp [hf]

/-- The running process gets other handles. -/
def Fs.mapDirs (s : Fs) (f : List (ℕ × Dir) → List (ℕ × Dir)) : Fs :=
  s.setTasks (s.tasks.map fun t => if t.pid = s.cur then { t with dirs := f t.dirs } else t)

variable {f : List (ℕ × Dir) → List (ℕ × Dir)}

theorem handle_mapDirs (s : Fs) (f : List (ℕ × Dir) → List (ℕ × Dir)) (q a : ℕ) :
    (s.mapDirs f).handle q (.heap a) =
      (s.tasks.find? (·.pid = q)).bind fun t =>
        (if t.pid = s.cur then f t.dirs else t.dirs).lookup a := by
  rw [Fs.handle, Fs.mapDirs, Fs.setTasks_tasks, find?_map_task (fun t => by split <;> rfl),
    Option.bind_map]
  congr 1
  funext t
  simp only [Function.comp_apply]
  split <;> rfl

theorem mapDirs_pids : (s.mapDirs f).tasks.map (·.pid) = s.tasks.map (·.pid) := by
  rw [Fs.mapDirs, Fs.setTasks_tasks, List.map_map]
  refine List.map_congr_left fun t _ => ?_
  simp only [Function.comp_apply]
  split <;> rfl

theorem mem_mapDirs {t : Task} (ht : t ∈ (s.mapDirs f).tasks) :
    ∃ u ∈ s.tasks, t.dirs = if u.pid = s.cur then f u.dirs else u.dirs := by
  rw [Fs.mapDirs, Fs.setTasks_tasks] at ht
  obtain ⟨u, hu, rfl⟩ := List.mem_map.mp ht
  exact ⟨u, hu, by split <;> rfl⟩

/-- The handles of the running process are the ones whose number changes. -/
theorem dirRefs_mapDirs {t : Task} (hpids : s.PidsDistinct) (ht : s.Running t) :
    (s.mapDirs f).dirRefs p + t.dirs.countP (fun x => decide (x.2.inode = p)) =
      s.dirRefs p + (f t.dirs).countP fun x => decide (x.2.inode = p) := by
  have hsum := sum_map_update (fun t : Task => t.pid)
    (fun t : Task => t.dirs.countP fun x => decide (x.2.inode = p))
    (fun t : Task => { t with dirs := f t.dirs }) hpids ht.mem.1 ht.mem.2
  simp only [Fs.dirRefs, Fs.mapDirs, Fs.setTasks_tasks, Fs.setTasks_rootDir] at hsum ⊢
  omega

/-- A handle counts as a reference to its inode. -/
theorem dirRefs_pos_of_handle {ptr : DirPtr} (h : s.handle q ptr = some d) :
    0 < s.dirRefs d.inode := by
  cases ptr with
  | rootDir =>
    obtain rfl := Option.some.inj h
    simp [Fs.dirRefs]
  | heap a =>
    obtain ⟨t, ht, hd⟩ := Option.bind_eq_some_iff.mp h
    have hmem : (a, d) ∈ t.dirs := by
      obtain ⟨l₁, l₂, heq, -⟩ := List.lookup_eq_some_iff.mp hd
      rw [heq]
      exact List.mem_append_right _ List.mem_cons_self
    have hcount : 0 < t.dirs.countP fun x => decide (x.2.inode = d.inode) :=
      List.countP_pos_iff.mpr ⟨_, hmem, decide_eq_true rfl⟩
    have hle := List.le_sum_of_mem (List.mem_map_of_mem
      (f := fun t : Task => t.dirs.countP fun x => decide (x.2.inode = d.inode))
      (List.mem_of_find?_eq_some ht))
    exact (hcount.trans_le hle).trans_le (Nat.le_add_right ..)

end Tasks

section Open

/-- The running process gets a new handle. -/
def Fs.addDir (s : Fs) (d : Dir) : Fs := s.bumpDir.mapDirs fun l => (s.nextDir, d) :: l

@[simp] theorem post_newDir {Q : DirPtr → Fs → Prop} {E : Fault → Prop} :
    Exec.Post (newDir d) s Q E ↔ Q (.heap s.nextDir) (s.addDir d) := Iff.rfl

/-- A new handle makes one more reference. -/
theorem dirRefs_addDir_le (hpids : s.PidsDistinct) :
    (s.addDir d).dirRefs p ≤ s.dirRefs p + if d.inode = p then 1 else 0 := by
  cases hfind : s.tasks.find? (·.pid = s.cur) with
  | some t =>
    have hrefs := dirRefs_mapDirs (s := s.bumpDir) (p := p) (f := fun l => (s.nextDir, d) :: l)
      hpids hfind
    have hbump : s.bumpDir.dirRefs p = s.dirRefs p := rfl
    rw [hbump, List.countP_cons] at hrefs
    simp only [decide_eq_true_eq] at hrefs
    rw [Fs.addDir]
    omega
  | none =>
    have hsame : (s.addDir d).tasks = s.tasks := by
      refine (List.map_congr_left fun t ht => if_neg ?_).trans (List.map_id s.tasks)
      simpa using List.find?_eq_none.mp hfind t ht
    rw [Fs.dirRefs, hsame]
    exact Nat.le_add_right ..

/-- A handle to an inode with room for it comes in. -/
theorem keepsHandles_addDir (h : HandlesOk s) (hi : s.inodes d.inode = some i)
    (hspare : s.dirRefs d.inode + 1 ≤ i.iOpenCnts) :
    KeepsHandles (handlesBelow s.nextDir) s (s.addDir d) where
  ok := by
    have hrefs (q : ℕ) := dirRefs_addDir_le (d := d) (p := q) h.pids
    refine ⟨?_, fun t ht => ?_, fun t ht x hx => ?_, h.inode_lt, fun q j hj => ?_, fun q hq => ?_⟩
    · have hpids := mapDirs_pids (s := s.bumpDir) (f := fun l => (s.nextDir, d) :: l)
      exact (congrArg List.Nodup hpids).mpr h.pids
    · obtain ⟨u, hu, heq⟩ := mem_mapDirs ht
      rw [heq]
      split
      · refine List.nodup_cons.mpr ⟨fun hmem => ?_, h.keys u hu⟩
        obtain ⟨x, hx, hkey⟩ := List.mem_map.mp hmem
        exact (h.fresh u hu x hx).ne hkey
      · exact h.keys u hu
    · change x.1 < s.nextDir + 1
      obtain ⟨u, hu, heq⟩ := mem_mapDirs ht
      rw [heq] at hx
      split at hx
      · rcases List.mem_cons.mp hx with rfl | hx
        · exact Nat.lt_succ_self _
        · exact (h.fresh u hu x hx).trans (Nat.lt_succ_self _)
      · exact (h.fresh u hu x hx).trans (Nat.lt_succ_self _)
    · refine (hrefs q).trans ?_
      split
      · rename_i hq
        subst hq
        obtain rfl := Option.some.inj (hi.symm.trans hj)
        exact hspare
      · exact h.counted q j hj
    · by_cases hqd : d.inode = q
      · exact ⟨i, hqd ▸ hi⟩
      · have hle := hrefs q
        rw [if_neg hqd] at hle
        exact h.there q (hq.trans_le hle)
  disk := rfl
  part := ⟨_, rfl⟩
  cur := rfl
  pids := mapDirs_pids (s := s.bumpDir)
  nextInode := le_rfl
  nextDir := Nat.le_succ _
  inodes _ _ j hj := ⟨j, hj, rfl⟩
  handles x hx := by
    obtain ⟨q, ptr⟩ := x
    cases ptr with
    | rootDir => rfl
    | heap a =>
      have hlt : a < s.nextDir := hx a rfl
      rw [Fs.addDir, handle_mapDirs, Fs.handle]
      congr 1
      funext t
      split
      · rw [List.lookup_cons, beq_false_of_ne hlt.ne]
      · rfl

/-- The new handle is there. -/
theorem dirOf_addDir (hrun : s.cur ∈ s.tasks.map (·.pid)) :
    (s.addDir d).dirOf (.heap s.nextDir) = some d := by
  obtain ⟨t, ht, hpid⟩ := List.mem_map.mp hrun
  obtain ⟨u, hu⟩ := Fs.exists_running ⟨t, ht, hpid⟩
  rw [dirOf_eq_handle, Fs.addDir, handle_mapDirs]
  change ((s.tasks.find? (·.pid = s.cur)).bind _) = _
  rw [show s.tasks.find? (·.pid = s.cur) = some u from hu, Option.bind_some]
  have hcur : u.pid = s.bumpDir.cur := hu.mem.2
  rw [if_pos hcur, List.lookup_cons, beq_self_eq_true]

/-- `dir_open` makes a handle of its own, at the first entry. -/
theorem dirOpen_keeps (h : HandlesOk s) (inodeNo : UInt32) :
    Exec.Ensures (dirOpen inodeNo) s fun r s' => KeepsHandles (handlesBelow s.nextDir) s s' ∧
      r = .heap s.nextDir ∧ s'.nextDir = s.nextDir + 1 ∧
        (s.cur ∈ s.tasks.map (·.pid) → ∃ d, s'.dirOf r = some d ∧ d.dirPos = 0) := by
  rw [dirOpen, Exec.Ensures, Exec.post_bind, post_sysMallocUnchecked]
  refine ⟨fun _ => ?_, fun _ => trivial⟩
  have htick : KeepsHandles (handlesBelow s.nextDir) s s.tick := keepsHandles_withMallocs _ h _
  refine Exec.Post.bind (inodeOpen_keeps (handlesBelow s.nextDir) htick.ok inodeNo) fun p s₁ hopen => ?_
  obtain ⟨hkeeps, hnext, i, hi, hspare⟩ := hopen
  have hnext : s₁.nextDir = s.nextDir := hnext
  have hto : KeepsHandles (handlesBelow s.nextDir) s s₁ := htick.trans hkeeps
  have hadd : KeepsHandles (handlesBelow s₁.nextDir) s₁ (s₁.addDir ⟨p, 0, Bytes.zero⟩) :=
    keepsHandles_addDir hto.ok hi hspare
  rw [post_newDir]
  refine ⟨hto.trans (hnext ▸ hadd), congrArg DirPtr.heap hnext, congrArg (· + 1) hnext, fun hrun => ?_⟩
  refine ⟨_, dirOf_addDir ?_, rfl⟩
  rw [hto.cur, hto.pids]
  exact hrun

end Open

section Close

/-- Taking out a handle takes out what it counts for. -/
theorem countP_filter_lookup_le {l : List (ℕ × Dir)} (h : l.lookup a = some d) (f : ℕ × Dir → Bool) :
    (l.filter (·.1 ≠ a)).countP f + (if f (a, d) then 1 else 0) ≤ l.countP f := by
  obtain ⟨l₁, l₂, rfl, -⟩ := List.lookup_eq_some_iff.mp h
  rw [List.filter_append, List.filter_cons_of_neg (by simp), List.countP_append, List.countP_append,
    List.countP_cons]
  have h₁ := (List.filter_sublist (p := fun x : ℕ × Dir => decide (x.1 ≠ a)) (l := l₁)).countP_le (p := f)
  have h₂ := (List.filter_sublist (p := fun x : ℕ × Dir => decide (x.1 ≠ a)) (l := l₂)).countP_le (p := f)
  omega

/-- Looking up another handle after one is taken out. -/
theorem lookup_filter_ne {l : List (ℕ × Dir)} {b : ℕ} (hb : b ≠ a) :
    (l.filter (·.1 ≠ a)).lookup b = l.lookup b := by
  induction l with
  | nil => rfl
  | cons x l ih =>
    by_cases hx : x.1 = a
    · rw [List.filter_cons_of_neg (by simpa using hx), ih, List.lookup_cons,
        beq_false_of_ne (hx ▸ hb)]
    · rw [List.filter_cons_of_pos (by simpa using hx), List.lookup_cons, List.lookup_cons, ih]

/-- A handle of the running process goes, and its inode is opened once less. -/
theorem keepsHandles_removeDir (h : HandlesOk s) (hd : s.dirOf (.heap a) = some d)
    (hi : s.inodes d.inode = some i) {f : ℕ → Option Inode} {l : List ℕ}
    (hother : ∀ q ≠ d.inode, f q = s.inodes q)
    (hclosed : f d.inode = some (i.setOpenCnts (i.iOpenCnts - 1)) ∨
      f d.inode = none ∧ i.iOpenCnts = 1) :
    KeepsHandles {x | x ≠ (s.cur, .heap a)} s
      (({ s with inodes := f, part := s.part.setOpenInodes l } : Fs).mapDirs
        fun ds => ds.filter (·.1 ≠ a)) := by
  obtain ⟨t, ht, hlookup⟩ := Option.bind_eq_some_iff.mp hd
  have hrefs (q : ℕ) : (({ s with inodes := f, part := s.part.setOpenInodes l } : Fs).mapDirs
      fun ds => ds.filter (·.1 ≠ a)).dirRefs q + (if d.inode = q then 1 else 0) ≤ s.dirRefs q := by
    have hsum := dirRefs_mapDirs (s := { s with inodes := f, part := s.part.setOpenInodes l }) (p := q)
      (f := fun ds => ds.filter (·.1 ≠ a)) h.pids ht
    have hcount := countP_filter_lookup_le hlookup fun x => decide (x.2.inode = q)
    simp only [decide_eq_true_eq] at hcount
    change _ = s.dirRefs q + _ at hsum
    omega
  have hold {q : ℕ} {j : Inode} (hj : f q = some j) :
      (q = d.inode ∧ j = i.setOpenCnts (i.iOpenCnts - 1)) ∨ (q ≠ d.inode ∧ s.inodes q = some j) := by
    by_cases hq : q = d.inode
    · subst hq
      rcases hclosed with hf | ⟨hf, -⟩
      · exact Or.inl ⟨rfl, (Option.some.inj (hf.symm.trans hj)).symm⟩
      · rw [hf] at hj; cases hj
    · exact Or.inr ⟨hq, (hother q hq).symm.trans hj⟩
  refine ⟨⟨?_, fun u hu => ?_, fun u hu x hx => ?_, fun q j hj => ?_, fun q j hj => ?_, fun q hq => ?_⟩,
    rfl, ⟨_, rfl⟩, rfl, mapDirs_pids, le_rfl, le_rfl, fun q _ j hj => ?_, fun x hx => ?_⟩
  · exact (congrArg List.Nodup mapDirs_pids).mpr h.pids
  · obtain ⟨v, hv, heq⟩ := mem_mapDirs hu
    rw [heq]
    split
    · exact (h.keys v hv).sublist ((List.filter_sublist).map _)
    · exact h.keys v hv
  · obtain ⟨v, hv, heq⟩ := mem_mapDirs hu
    rw [heq] at hx
    split at hx
    · exact h.fresh v hv x (List.mem_of_mem_filter hx)
    · exact h.fresh v hv x hx
  · rcases hold hj with ⟨rfl, -⟩ | ⟨-, hj⟩
    · exact h.inode_lt _ i hi
    · exact h.inode_lt q j hj
  · have hle := hrefs q
    rcases hold hj with ⟨rfl, rfl⟩ | ⟨-, hj⟩
    · have hcount := h.counted _ i hi
      rw [if_pos rfl] at hle
      change _ ≤ i.iOpenCnts - 1
      omega
    · exact ((Nat.le_add_right ..).trans hle).trans (h.counted q j hj)
  · have hle := hrefs q
    by_cases hqd : q = d.inode
    · subst hqd
      have hcount := h.counted _ i hi
      rw [if_pos rfl] at hle
      rcases hclosed with hf | ⟨-, hone⟩
      · exact ⟨_, hf⟩
      · omega
    · obtain ⟨j, hj⟩ := h.there q (hq.trans_le ((Nat.le_add_right ..).trans hle))
      exact ⟨j, (hother q hqd).trans hj⟩
  · rcases hold hj with ⟨rfl, rfl⟩ | ⟨-, hj⟩
    · exact ⟨i, hi, rfl⟩
    · exact ⟨j, hj, rfl⟩
  · obtain ⟨q, ptr⟩ := x
    cases ptr with
    | rootDir => rfl
    | heap b =>
      rw [handle_mapDirs, Fs.handle]
      change (s.tasks.find? _).bind _ = _
      cases hu : s.tasks.find? (·.pid = q) with
      | none => rfl
      | some u =>
        rw [Option.bind_some, Option.bind_some]
        split
        · rename_i hcur
          have hpid : u.pid = q := by simpa using List.find?_some hu
          have hb : b ≠ a := by
            rintro rfl
            exact hx (by rw [← hpid, hcur])
          exact lookup_filter_ne hb
        · rfl

/-- `dir_close` leaves the other handles alone, and `root_dir`. -/
theorem dirClose_keeps (h : HandlesOk s) (dir : DirPtr) :
    Exec.Ensures (dirClose dir) s fun _ s' =>
      KeepsHandles {x | ∀ a, x = (s.cur, .heap a) → dir ≠ .heap a} s s' := by
  cases dir with
  | rootDir => exact KeepsHandles.refl _ h
  | heap a =>
    simp only [dirClose, inodeClose, modifyThread, Exec.Ensures, Exec.post_bind, post_derefDir,
      post_derefInode, post_storeInode, Exec.post_ite, Exec.post_modify, Exec.post_pure, implies_true,
      and_true]
    intro d hd i hi
    have hhandle : s.handle s.cur (.heap a) = some d := hd
    have hpos : 0 < i.iOpenCnts := (dirRefs_pos_of_handle hhandle).trans_le (h.counted _ i hi)
    rw [if_neg hpos.ne']
    have hsub : {x | ∀ b, x = (s.cur, .heap b) → DirPtr.heap a ≠ .heap b} ⊆
        {x : ℕ × DirPtr | x ≠ (s.cur, .heap a)} := fun x hx heq => hx a heq rfl
    refine ⟨fun hzero => KeepsHandles.mono ?_ hsub, fun hne => KeepsHandles.mono ?_ hsub⟩
    · refine keepsHandles_removeDir h hd hi (fun q hq => ?_) (Or.inr ⟨Function.update_self .., by omega⟩)
      exact (Function.update_of_ne hq ..).trans (Function.update_of_ne hq ..)
    · refine keepsHandles_removeDir h hd hi (fun q hq => ?_) (Or.inl (Function.update_self ..))
      exact Function.update_of_ne hq ..

end Close

end Winx
