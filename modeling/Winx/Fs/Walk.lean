import Winx.Fs.Descriptors

/-! # What system calls do to the tables

Looking up a path opens and closes directories, and changes no descriptor. Writing
an entry to a directory changes the disk and the inode of the directory, and
neither opens nor closes anything.
-/

namespace Winx

/-- The tables of the processes. -/
def Fs.tables (s : Fs) : List (ℕ × (ℕ → Int)) := s.tasks.map fun t => (t.pid, t.fdTable)

/-- The record of an inode as `inode_open` loads it. -/
def Fs.loadedInode (s : Fs) (inodeNo : UInt32) : Option Inode :=
  (inodeLocate s.part inodeNo).map fun inodePos =>
    Inode.ofBytes ((Bytes.zero.splice 0 (inodePos.secCnt * 512)
      (s.disk.window (inodePos.secLba.toNat * 512))).window inodePos.offSize.toNat)

/-- What opening and closing directories may change. -/
structure Walk (s s' : Fs) : Prop where
  fileTable : s'.fileTable = s.fileTable
  tables : s'.tables = s.tables
  cur : s'.cur = s.cur
  next : s.nextInode ≤ s'.nextInode
  opened : ∀ p ∈ s'.part.openInodes, p ∈ s.part.openInodes ∨
    s.nextInode ≤ p ∧ p < s'.nextInode
  inode : ∀ p i', s'.inodes p = some i' →
    (∃ i, s.inodes p = some i ∧ i'.writeDeny = i.writeDeny) ∨
      s.nextInode ≤ p ∧ p < s'.nextInode

/-- What writing to a directory may change. -/
structure QuietFs (s s' : Fs) : Prop where
  fileTable : s'.fileTable = s.fileTable
  tables : s'.tables = s.tables
  cur : s'.cur = s.cur
  next : s'.nextInode = s.nextInode
  openInodes : s'.part.openInodes = s.part.openInodes
  inode : ∀ p, (s'.inodes p).map Inode.writeDeny = (s.inodes p).map Inode.writeDeny

section Relations

variable {s s' s'' : Fs}

theorem Walk.refl (s : Fs) : Walk s s :=
  ⟨rfl, rfl, rfl, le_rfl, fun _ h => .inl h, fun _ i' h => .inl ⟨i', h, rfl⟩⟩

theorem Walk.trans (h : Walk s s') (h' : Walk s' s'') : Walk s s'' where
  fileTable := h'.fileTable.trans h.fileTable
  tables := h'.tables.trans h.tables
  cur := h'.cur.trans h.cur
  next := h.next.trans h'.next
  opened p hp := by
    have hle := h.next
    have hle' := h'.next
    rcases h'.opened p hp with hp | hp
    · rcases h.opened p hp with hp | hp
      · exact .inl hp
      · exact .inr (by omega)
    · exact .inr (by omega)
  inode p i'' hi'' := by
    have hle := h.next
    have hle' := h'.next
    rcases h'.inode p i'' hi'' with ⟨i', hi', heq⟩ | hp
    · rcases h.inode p i' hi' with ⟨i, hi, heq'⟩ | hp
      · exact .inl ⟨i, hi, heq.trans heq'⟩
      · exact .inr (by omega)
    · exact .inr (by omega)

theorem QuietFs.refl (s : Fs) : QuietFs s s := ⟨rfl, rfl, rfl, rfl, rfl, fun _ => rfl⟩

theorem QuietFs.trans (h : QuietFs s s') (h' : QuietFs s' s'') : QuietFs s s'' where
  fileTable := h'.fileTable.trans h.fileTable
  tables := h'.tables.trans h.tables
  cur := h'.cur.trans h.cur
  next := h'.next.trans h.next
  openInodes := h'.openInodes.trans h.openInodes
  inode p := (h'.inode p).trans (h.inode p)

end Relations

section Reading

variable {s : Fs} {p : ℕ}

theorem derefDir_same (dir : DirPtr) : Exec.Ensures (derefDir dir) s fun _ s' => s' = s := by
  cases dir with
  | rootDir => rfl
  | heap a => simp [derefDir, runningThread]

theorem loadBlocks_same (inode : Inode) : Exec.Ensures (loadBlocks inode) s fun _ s' => s' = s := by
  unfold loadBlocks readTable
  split
  · simp
  · rfl

theorem searchBlocks_same (allBlocks : ℕ → UInt32) (name : List UInt8) (fuel blockIdx : ℕ) :
    Exec.Ensures (searchBlocks allBlocks name fuel blockIdx) s fun _ s' => s' = s := by
  induction fuel generalizing blockIdx with
  | zero => rfl
  | succ fuel ih =>
    rw [searchBlocks, Exec.Ensures, Exec.post_bind, Exec.post_get]
    split
    · rfl
    · split
      · exact ih _
      · rw [Exec.post_bind, post_ideRead]
        refine ⟨fun _ => ?_, fun _ => trivial⟩
        split
        · rfl
        · exact ih _

theorem nextName_same (subPath : Option (List UInt8)) :
    Exec.Ensures (nextName subPath) s fun _ s' => s' = s := by
  cases subPath <;> simp [nextName, storeName]

theorem pathDepthLoop_same (fuel : ℕ) (p : Option (List UInt8)) :
    Exec.Ensures (pathDepthLoop fuel p) s fun _ s' => s' = s := by
  induction fuel generalizing p with
  | zero => trivial
  | succ fuel ih =>
    cases p with
    | none => rfl
    | some p =>
      simp only [pathDepthLoop, Exec.Ensures, Exec.post_bind, post_inBounds, Exec.post_ite,
        Exec.post_pure, implies_true, and_true]
      exact fun _ => ⟨trivial, fun _ => ih _⟩

theorem pathDepthCnt_same (pathname : List UInt8) :
    Exec.Ensures (pathDepthCnt pathname) s fun _ s' => s' = s := by
  simp only [pathDepthCnt, Exec.Ensures, Exec.post_bind, Exec.post_get, post_inBounds,
    Exec.post_ite, Exec.post_pure, implies_true, and_true]
  exact fun _ => ⟨trivial, fun _ => pathDepthLoop_same _ _⟩

end Reading

/-- The state after a new inode was put on the list. -/
def Fs.insert (s : Fs) (i : Inode) : Fs :=
  ((s.setInode s.nextInode (some i)).bumpInode).setPart
    (s.part.setOpenInodes (s.nextInode :: s.part.openInodes))

/-- The relation holds of all that looking up a path does, step by step. -/
structure WalkClosed (R : Fs → Fs → Prop) : Prop where
  refl : ∀ s, R s s
  trans : ∀ {s t u}, R s t → R t u → R s u
  mallocs : ∀ s f, R s (s.withMallocs f)
  openCnts : ∀ s p i n, s.inodes p = some i → R s (s.setInode p (some (i.setOpenCnts n)))
  insert : ∀ s i, R s (s.insert i)
  remove : ∀ (s : Fs) (p : ℕ),
    R s ((s.setPart (s.part.setOpenInodes (s.part.openInodes.erase p))).setInode p none)
  bumpDir : ∀ s : Fs, R s s.bumpDir
  dirs : ∀ (s : Fs) (f : Task → List (ℕ × Dir)),
    R s (s.setTasks (s.tasks.map fun t => if t.pid = s.cur then { t with dirs := f t } else t))

namespace WalkClosed

variable {R : Fs → Fs → Prop} (h : WalkClosed R) {s : Fs}

include h

theorem bind {α β : Type} {m : FsM α} {f : α → FsM β} (hm : Exec.Ensures m s fun _ s' => R s s')
    (hf : ∀ a s', R s s' → Exec.Ensures (f a) s' fun _ s'' => R s' s'') :
    Exec.Ensures (m >>= f) s fun _ s' => R s s' :=
  Exec.Post.bind hm fun a s' hr => (hf a s' hr).mono fun _ _ hr' => h.trans hr hr'

theorem of_same {α : Type} {m : FsM α} (hm : Exec.Ensures m s fun _ s' => s' = s) :
    Exec.Ensures m s fun _ s' => R s s' :=
  hm.mono fun _ _ heq => heq ▸ h.refl s

theorem sysMalloc : Exec.Ensures sysMalloc s fun _ s' => R s s' := by
  rw [Exec.Ensures, post_sysMalloc]
  exact h.mallocs s _

theorem sysMallocUnchecked : Exec.Ensures sysMallocUnchecked s fun _ s' => R s s' := by
  simp only [Exec.Ensures, Winx.sysMallocUnchecked, Exec.post_bind, post_sysMalloc, Exec.post_ite,
    Exec.post_pure, Exec.post_throw, implies_true, and_true]
  exact fun _ => h.mallocs s _

theorem inodeLoad (inodeNo : UInt32) : Exec.Ensures (inodeLoad inodeNo) s fun _ s' => R s s' := by
  refine h.bind (h.of_same (by simp)) fun part s₁ _ => ?_
  refine h.bind (h.of_same (by simp)) fun pos s₂ _ => ?_
  refine h.bind h.sysMallocUnchecked fun _ s₃ _ => ?_
  refine h.bind h.sysMallocUnchecked fun _ s₄ _ => ?_
  refine h.bind (h.of_same (by simp)) fun inodeBuf s₅ _ => ?_
  exact h.insert s₅ _

theorem inodeOpen (inodeNo : UInt32) : Exec.Ensures (inodeOpen inodeNo) s fun _ s' => R s s' := by
  rw [Exec.Ensures, Winx.inodeOpen, Exec.post_bind, Exec.post_get]
  split
  · simp only [derefInode, storeInode, Exec.post_bind, Exec.post_get, post_deref, Exec.post_modify,
      Exec.post_pure, implies_true, and_true]
    exact fun i hi => h.openCnts s _ i _ hi
  · exact h.inodeLoad inodeNo

theorem inodeClose (p : ℕ) : Exec.Ensures (inodeClose p) s fun _ s' => R s s' := by
  simp only [Exec.Ensures, Winx.inodeClose, derefInode, storeInode, Exec.post_bind, Exec.post_get,
    post_deref, Exec.post_modify, Exec.post_ite, Exec.post_pure, implies_true, and_true]
  intro i hi
  exact ⟨fun _ => h.trans (h.openCnts s p i _ hi) (h.remove _ p), fun _ => h.openCnts s p i _ hi⟩

theorem dirOpen (inodeNo : UInt32) : Exec.Ensures (dirOpen inodeNo) s fun _ s' => R s s' := by
  refine h.bind h.sysMallocUnchecked fun _ s₁ _ => ?_
  refine h.bind (h.inodeOpen inodeNo) fun p s₂ _ => ?_
  exact h.trans (h.bumpDir s₂) (h.dirs s₂.bumpDir _)

theorem dirClose (dir : DirPtr) : Exec.Ensures (dirClose dir) s fun _ s' => R s s' := by
  cases dir with
  | rootDir => exact h.refl s
  | heap a =>
    rw [Winx.dirClose]
    refine h.bind (h.of_same (derefDir_same _)) fun dir s₁ _ => ?_
    refine h.bind (h.inodeClose _) fun _ s₂ _ => ?_
    exact h.dirs s₂ _

theorem searchDirEntry (pdir : DirPtr) (name : List UInt8) :
    Exec.Ensures (searchDirEntry pdir name) s fun _ s' => R s s' := by
  refine h.bind h.sysMalloc fun ok s₁ _ => ?_
  split
  · refine h.bind (h.of_same (derefDir_same _)) fun dir s₂ _ => ?_
    refine h.bind (h.of_same (by simp [derefInode])) fun inode s₃ _ => ?_
    refine h.bind (h.of_same (loadBlocks_same _)) fun allBlocks s₄ _ => ?_
    refine h.bind h.sysMallocUnchecked fun _ s₅ _ => ?_
    exact h.of_same (searchBlocks_same ..)
  · exact h.refl s₁

theorem searchLoop (fuel : ℕ) (st : SearchState) :
    Exec.Ensures (searchLoop fuel st) s fun _ s' => R s s' := by
  induction fuel generalizing s st with
  | zero => exact trivial
  | succ fuel ih =>
    rw [Winx.searchLoop]
    split
    · refine h.bind (h.dirClose _) fun _ s₁ _ => ?_
      refine h.bind (h.dirOpen _) fun parentDir s₂ _ => ?_
      exact h.refl s₂
    · refine h.bind (h.of_same (by simp)) fun _ s₁ _ => ?_
      refine h.bind (h.searchDirEntry _ _) fun e s₂ _ => ?_
      cases e with
      | none => exact h.refl s₂
      | some e =>
        refine h.bind (h.of_same (nextName_same _)) fun name s₃ _ => ?_
        split
        · split
          · refine h.bind (h.of_same (derefDir_same _)) fun dir s₄ _ => ?_
            refine h.bind (h.of_same (by simp [derefInode])) fun inode s₅ _ => ?_
            refine h.bind (h.dirClose _) fun _ s₆ _ => ?_
            refine h.bind (h.dirOpen _) fun parentDir s₇ _ => ?_
            exact ih _
          · split
            · exact h.refl s₃
            · exact ih _

theorem searchFile (pathname : List UInt8) :
    Exec.Ensures (searchFile pathname) s fun _ s' => R s s' := by
  unfold Winx.searchFile
  split
  · exact h.refl s
  · refine h.bind (h.of_same (by simp)) fun s₁ s₂ _ => ?_
    refine h.bind (h.of_same (by simp)) fun _ s₃ _ => ?_
    refine h.bind (h.of_same (by simp [storeName])) fun _ s₄ _ => ?_
    exact h.searchLoop _ _

end WalkClosed

section Walking

variable {s : Fs} {p : ℕ} {inodeNo : UInt32}

theorem Walk.bind {α β : Type} {m : FsM α} {f : α → FsM β}
    (hm : Exec.Ensures m s fun _ s' => Walk s s')
    (hf : ∀ a s', Walk s s' → Exec.Ensures (f a) s' fun _ s'' => Walk s' s'') :
    Exec.Ensures (m >>= f) s fun _ s' => Walk s s' :=
  Exec.Post.bind hm fun a s' h => (hf a s' h).mono fun _ _ h' => h.trans h'

theorem QuietFs.bind {α β : Type} {m : FsM α} {f : α → FsM β}
    (hm : Exec.Ensures m s fun _ s' => QuietFs s s')
    (hf : ∀ a s', QuietFs s s' → Exec.Ensures (f a) s' fun _ s'' => QuietFs s' s'') :
    Exec.Ensures (m >>= f) s fun _ s' => QuietFs s s' :=
  Exec.Post.bind hm fun a s' h => (hf a s' h).mono fun _ _ h' => h.trans h'

theorem walk_setInode {i i' : Inode} (hi : s.inodes p = some i) (hdeny : i'.writeDeny = i.writeDeny) :
    Walk s (s.setInode p (some i')) where
  fileTable := rfl
  tables := rfl
  cur := rfl
  next := le_rfl
  opened _ h := .inl h
  inode q j hj := by
    rw [Fs.setInode_inodes, Function.update_apply] at hj
    split at hj
    · rename_i hq
      rw [← Option.some.inj hj]
      exact .inl ⟨i, hq ▸ hi, hdeny⟩
    · exact .inl ⟨j, hj, rfl⟩

theorem walk_tick (s : Fs) : Walk s s.tick :=
  ⟨rfl, rfl, rfl, le_rfl, fun _ h => .inl h, fun _ i' h => .inl ⟨i', h, rfl⟩⟩

theorem walk_insert (s : Fs) (i : Inode) : Walk s (s.insert i) where
  fileTable := rfl
  tables := rfl
  cur := rfl
  next := Nat.le_succ _
  opened q hq := by
    rcases List.mem_cons.mp hq with rfl | hq
    · exact .inr ⟨le_rfl, Nat.lt_succ_self _⟩
    · exact .inl hq
  inode q k hk := by
    change Function.update s.inodes s.nextInode (some i) q = some k at hk
    rw [Function.update_apply] at hk
    split at hk
    · rename_i hq
      exact .inr ⟨hq.ge, hq ▸ Nat.lt_succ_self _⟩
    · exact .inl ⟨k, hk, rfl⟩

/-- The part of `inode_open` that loads an inode. -/
theorem inodeLoad_walk : Exec.Ensures (inodeLoad inodeNo) s fun p s' => Walk s s' ∧
    p ∈ s'.part.openInodes ∧ (∀ q ∈ s'.part.openInodes, q ∈ s.part.openInodes ∨ q = p) ∧
    s.nextInode ≤ p ∧
    ∃ i j, s'.inodes p = some i ∧ s.loadedInode inodeNo = some j ∧ i.writeDeny = j.writeDeny := by
  simp only [Exec.Ensures, inodeLoad, sysMallocUnchecked, newInode, pushOpenInode, Exec.post_bind,
    Exec.post_get, post_deref, post_sysMalloc, Exec.post_ite, Exec.post_pure, Exec.post_throw,
    post_ideRead, Exec.post_set, Exec.post_modify, implies_true, and_true]
  intro pos hpos _ _ _
  have hload : s.loadedInode inodeNo = some (Inode.ofBytes ((Bytes.zero.splice 0 (pos.secCnt * 512)
      (s.disk.window (pos.secLba.toNat * 512))).window pos.offSize.toNat)) := by
    rw [Fs.loadedInode, hpos, Option.map_some]
  have htick : Walk s s.tick.tick := (walk_tick s).trans (walk_tick _)
  exact ⟨htick.trans (walk_insert _ _), List.mem_cons_self,
    fun q hq => (List.mem_cons.mp hq).symm, le_rfl, _, _, Function.update_self .., hload, rfl⟩

/-- `inode_open` of an inode that is not open loads it. -/
theorem inodeOpen_walk : Exec.Ensures (inodeOpen inodeNo) s fun p s' => Walk s s' ∧
    p ∈ s'.part.openInodes ∧ (∀ q ∈ s'.part.openInodes, q ∈ s.part.openInodes ∨ q = p) ∧
    ∃ i, s'.inodes p = some i ∧
      (findOpenInode s inodeNo = some p ∧ (s.inodes p).map Inode.writeDeny = some i.writeDeny ∨
        findOpenInode s inodeNo = none ∧ s.nextInode ≤ p ∧
          ∃ j, s.loadedInode inodeNo = some j ∧ i.writeDeny = j.writeDeny) := by
  rw [Exec.Ensures, inodeOpen, Exec.post_bind, Exec.post_get]
  cases hfind : findOpenInode s inodeNo with
  | some p =>
    simp only [derefInode, storeInode, Exec.post_bind, Exec.post_get, post_deref, Exec.post_modify,
      Exec.post_pure, implies_true, and_true]
    intro i hi
    refine ⟨walk_setInode hi rfl, List.mem_of_find?_eq_some hfind, fun _ hq => .inl hq, _,
      Function.update_self .., .inl ⟨trivial, ?_⟩⟩
    rw [hi]
    rfl
  | none =>
    refine Exec.Ensures.mono inodeLoad_walk fun p s' => ?_
    rintro ⟨hwalk, hmem, hnew, hle, i, j, hi, hload, hdeny⟩
    exact ⟨hwalk, hmem, hnew, i, hi, .inr ⟨rfl, hle, j, hload, hdeny⟩⟩

theorem walk_remove (s : Fs) : Walk s
    ((s.setPart (s.part.setOpenInodes (s.part.openInodes.erase p))).setInode p none) where
  fileTable := rfl
  tables := rfl
  cur := rfl
  next := le_rfl
  opened q hq := .inl (List.mem_of_mem_erase hq)
  inode q i hi := by
    rw [Fs.setInode_inodes, Function.update_apply] at hi
    split at hi
    · cases hi
    · exact .inl ⟨i, hi, rfl⟩

/-- A change of the directories that a process holds. -/
theorem walk_dirs (s : Fs) (f : Task → List (ℕ × Dir)) : Walk s
    (s.setTasks (s.tasks.map fun t => if t.pid = s.cur then { t with dirs := f t } else t)) where
  fileTable := rfl
  tables := by
    rw [Fs.tables, Fs.setTasks_tasks, List.map_map]
    refine List.map_congr_left fun t _ => ?_
    simp only [Function.comp_apply]
    split <;> rfl
  cur := rfl
  next := le_rfl
  opened _ h := .inl h
  inode _ i' h := .inl ⟨i', h, rfl⟩

/-- Looking up a path does nothing else. -/
theorem walkClosed_walk : WalkClosed Walk where
  refl := Walk.refl
  trans := Walk.trans
  mallocs _ _ := ⟨rfl, rfl, rfl, le_rfl, fun _ h => .inl h, fun _ i' h => .inl ⟨i', h, rfl⟩⟩
  openCnts _ _ _ _ hi := walk_setInode hi rfl
  insert := walk_insert
  remove s _ := walk_remove s
  bumpDir _ := ⟨rfl, rfl, rfl, le_rfl, fun _ h => .inl h, fun _ i' h => .inl ⟨i', h, rfl⟩⟩
  dirs := walk_dirs

theorem inodeClose_walk : Exec.Ensures (inodeClose p) s fun _ s' => Walk s s' :=
  walkClosed_walk.inodeClose p

theorem dirClose_walk (dir : DirPtr) : Exec.Ensures (dirClose dir) s fun _ s' => Walk s s' :=
  walkClosed_walk.dirClose dir

/-- Code that only reads. -/
theorem Walk.of_same {α : Type} {m : FsM α} (h : Exec.Ensures m s fun _ s' => s' = s) :
    Exec.Ensures m s fun _ s' => Walk s s' :=
  h.mono fun _ _ h => h ▸ Walk.refl s

theorem searchFile_walk (pathname : List UInt8) :
    Exec.Ensures (searchFile pathname) s fun _ s' => Walk s s' :=
  walkClosed_walk.searchFile pathname

end Walking

section Writing

variable {s : Fs} {p : ℕ}

/-- Code that only reads. -/
theorem QuietFs.of_same {α : Type} {m : FsM α} (h : Exec.Ensures m s fun _ s' => s' = s) :
    Exec.Ensures m s fun _ s' => QuietFs s s' :=
  h.mono fun _ _ h => h ▸ QuietFs.refl s

theorem quiet_setInode {i i' : Inode} (hi : s.inodes p = some i)
    (hdeny : i'.writeDeny = i.writeDeny) : QuietFs s (s.setInode p (some i')) where
  fileTable := rfl
  tables := rfl
  cur := rfl
  next := rfl
  openInodes := rfl
  inode q := by
    rw [Fs.setInode_inodes, Function.update_apply]
    split
    · rename_i hq
      rw [hq, hi, Option.map_some, Option.map_some, hdeny]
    · rfl

theorem ideWrite_quiet (lba : UInt32) (buf : Bytes) (n : ℕ) :
    Exec.Ensures (ideWrite lba buf n) s fun _ s' => QuietFs s s' := by
  rw [Exec.Ensures, post_ideWrite]
  exact ⟨fun _ => ⟨rfl, rfl, rfl, rfl, rfl, fun _ => rfl⟩, fun _ => trivial⟩

theorem setPart_quiet {b : Bitmap} (f : Partition → Bitmap → Partition)
    (hf : ∀ part b, (f part b).openInodes = part.openInodes) : QuietFs s (s.setPart (f s.part b)) :=
  ⟨rfl, rfl, rfl, rfl, hf _ _, fun _ => rfl⟩

theorem blockBitmapAlloc_quiet : Exec.Ensures blockBitmapAlloc s fun _ s' => QuietFs s s' := by
  rw [Exec.Ensures, blockBitmapAlloc, Exec.post_bind, Exec.post_get]
  split
  · exact QuietFs.refl s
  · exact setPart_quiet Partition.setBlockBitmap fun _ _ => rfl

theorem inodeBitmapAlloc_quiet : Exec.Ensures inodeBitmapAlloc s fun _ s' => QuietFs s s' := by
  rw [Exec.Ensures, inodeBitmapAlloc, Exec.post_bind, Exec.post_get]
  split
  · exact QuietFs.refl s
  · exact setPart_quiet Partition.setInodeBitmap fun _ _ => rfl

theorem clearInodeBit_quiet (bitIdx : UInt32) :
    Exec.Ensures (clearInodeBit bitIdx) s fun _ s' => QuietFs s s' := by
  simp only [Exec.Ensures, clearInodeBit, Exec.post_bind, Exec.post_get, post_inBounds,
    Exec.post_set, implies_true, and_true]
  exact fun _ => setPart_quiet Partition.setInodeBitmap fun _ _ => rfl

theorem clearBlockBit_quiet (bitIdx : UInt32) :
    Exec.Ensures (clearBlockBit bitIdx) s fun _ s' => QuietFs s s' := by
  simp only [Exec.Ensures, clearBlockBit, Exec.post_bind, Exec.post_get, post_inBounds,
    Exec.post_set, implies_true, and_true]
  exact fun _ => setPart_quiet Partition.setBlockBitmap fun _ _ => rfl

theorem bitmapSync_quiet (bitIdx : UInt32) (btmpType : BitmapType) :
    Exec.Ensures (bitmapSync bitIdx btmpType) s fun _ s' => QuietFs s s' := by
  rw [Exec.Ensures, bitmapSync, Exec.post_bind, Exec.post_get]
  cases btmpType <;> exact ideWrite_quiet _ _ _

theorem writeTable_quiet (lba : UInt32) (allBlocks : ℕ → UInt32) :
    Exec.Ensures (writeTable lba allBlocks) s fun _ s' => QuietFs s s' :=
  ideWrite_quiet _ _ _

theorem derefInode_same : Exec.Ensures (derefInode p) s fun i s' => s' = s ∧ s.inodes p = some i := by
  simp [derefInode]

/-- Storing an inode back with its flag. -/
theorem storeInode_quiet {i i' : Inode} (hi : (s.inodes p).map Inode.writeDeny = some i.writeDeny)
    (hdeny : i'.writeDeny = i.writeDeny) :
    Exec.Ensures (storeInode p i') s fun _ s' => QuietFs s s' := by
  obtain ⟨j, hj, heq⟩ := Option.map_eq_some_iff.mp hi
  exact quiet_setInode hj (hdeny.trans heq.symm)

theorem growDir_quiet : Exec.Ensures (growDir p) s fun _ s' => QuietFs s s' := by
  simp only [Exec.Ensures, growDir, derefInode, storeInode, Exec.post_bind, Exec.post_get,
    post_deref, Exec.post_modify, implies_true, and_true]
  exact fun i hi => quiet_setInode hi rfl

theorem writeFirstEntry_quiet (lba : UInt32) (pde : DirEntry) :
    Exec.Ensures (writeFirstEntry p lba pde) s fun _ s' => QuietFs s s' := by
  refine QuietFs.bind (QuietFs.of_same (by simp)) fun _ s₁ _ => ?_
  refine QuietFs.bind (ideWrite_quiet _ _ _) fun _ s₂ _ => ?_
  refine QuietFs.bind growDir_quiet fun _ s₃ _ => ?_
  exact QuietFs.refl s₃

theorem extendDir_quiet (pde : DirEntry) (blockIdx : ℕ) (allBlocks : ℕ → UInt32) :
    Exec.Ensures (extendDir p pde blockIdx allBlocks) s fun _ s' => QuietFs s s' := by
  refine QuietFs.bind (QuietFs.of_same (by simp)) fun _ s₁ _ => ?_
  refine QuietFs.bind blockBitmapAlloc_quiet fun block s₂ _ => ?_
  cases block with
  | none => exact QuietFs.refl s₂
  | some blockLba =>
    refine QuietFs.bind (bitmapSync_quiet _ _) fun _ s₃ _ => ?_
    refine Exec.Post.bind derefInode_same fun dirInode s₄ h => ?_
    obtain ⟨rfl, hi⟩ := h
    have hdeny : (s₄.inodes p).map Inode.writeDeny = some dirInode.writeDeny := by
      rw [hi, Option.map_some]
    split
    · refine QuietFs.bind (storeInode_quiet hdeny rfl) fun _ s₅ _ => ?_
      exact writeFirstEntry_quiet _ _
    · split
      · refine QuietFs.bind (storeInode_quiet hdeny rfl) fun _ s₅ h₅ => ?_
        refine QuietFs.bind blockBitmapAlloc_quiet fun first s₆ h₆ => ?_
        cases first with
        | none =>
          refine QuietFs.bind (clearBlockBit_quiet _) fun _ s₇ h₇ => ?_
          refine QuietFs.bind (storeInode_quiet ?_ rfl) fun _ s₈ _ => QuietFs.refl s₈
          rw [((h₅.trans h₆).trans h₇).inode, hdeny]
          rfl
        | some firstLba =>
          refine QuietFs.bind (bitmapSync_quiet _ _) fun _ s₇ _ => ?_
          refine QuietFs.bind (writeTable_quiet _ _) fun _ s₈ _ => ?_
          exact writeFirstEntry_quiet _ _
      · refine QuietFs.bind (writeTable_quiet _ _) fun _ s₅ _ => ?_
        exact writeFirstEntry_quiet _ _

theorem syncBlocks_quiet (pde : DirEntry) (allBlocks : ℕ → UInt32) (n blockIdx : ℕ) :
    Exec.Ensures (syncBlocks p pde allBlocks n blockIdx) s fun _ s' => QuietFs s s' := by
  induction n generalizing s blockIdx with
  | zero => exact QuietFs.refl s
  | succ n ih =>
    refine QuietFs.bind (QuietFs.of_same (by simp)) fun part s₁ _ => ?_
    split
    · exact extendDir_quiet _ _ _
    · refine QuietFs.bind (QuietFs.of_same (by simp)) fun ioBuf s₂ _ => ?_
      split
      · refine QuietFs.bind (ideWrite_quiet _ _ _) fun _ s₃ _ => ?_
        refine QuietFs.bind growDir_quiet fun _ s₄ _ => ?_
        exact QuietFs.refl s₄
      · exact ih _

theorem syncDirEntry_quiet (parentDir : DirPtr) (pde : DirEntry) :
    Exec.Ensures (syncDirEntry parentDir pde) s fun _ s' => QuietFs s s' := by
  refine QuietFs.bind (QuietFs.of_same (by simp)) fun part s₁ _ => ?_
  refine QuietFs.bind (QuietFs.of_same (derefDir_same _)) fun dir s₂ _ => ?_
  refine QuietFs.bind (QuietFs.of_same (by simp [derefInode])) fun inode s₃ _ => ?_
  refine QuietFs.bind (QuietFs.of_same (by simp)) fun _ s₄ _ => ?_
  exact syncBlocks_quiet _ _ _ _

theorem inodeSync_quiet (inode : Inode) :
    Exec.Ensures (inodeSync inode) s fun _ s' => QuietFs s s' := by
  refine QuietFs.bind (QuietFs.of_same (by simp)) fun part s₁ _ => ?_
  refine QuietFs.bind (QuietFs.of_same (by simp)) fun inodePos s₂ _ => ?_
  refine QuietFs.bind (QuietFs.of_same (by simp)) fun _ s₃ _ => ?_
  refine QuietFs.bind ?_ fun _ s₄ _ => ?_
  · simp only [Exec.Ensures, sysMallocUnchecked, Exec.post_bind, post_sysMalloc, Exec.post_ite,
      Exec.post_pure, Exec.post_throw, implies_true, and_true]
    exact fun _ => ⟨rfl, rfl, rfl, rfl, rfl, fun _ => rfl⟩
  · refine QuietFs.bind (QuietFs.of_same (by simp)) fun inodeBuf s₅ _ => ?_
    exact ideWrite_quiet _ _ _

theorem createDirEntry_same (filename : List UInt8) (inodeNo : UInt32) (fileType : FileType) :
    Exec.Ensures (createDirEntry filename inodeNo fileType) s fun _ s' => s' = s := by
  simp [createDirEntry]

end Writing

end Winx
