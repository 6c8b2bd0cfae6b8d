import Winx.Fs.DirShape
import Winx.Fs.OpenEffect
import Winx.Fs.Visit

/-! # What a failed open leaves

Looking up the path leaves at most the directory searched last open, and refusing
it closes that directory. `file_create` undoes what it took when it fails before
the file is there. But once the file is there or open, a failure undoes nothing:
not the entry of the file table, nor the flag and the count of the inode.
-/

namespace Winx

/-- The state is as before, but for addresses and memory used up. -/
def Restored (s u : Fs) : Prop := ∃ a b f, u = (s.advance a b 0).withMallocs f

/-- At most one directory is open on top of the state before. -/
inductive Visiting (s : Fs) : DirPtr → Fs → Prop
  | root {u : Fs} : Restored s u → Visiting s .rootDir u
  | heap (a b : ℕ) (no : UInt32) (j : Inode) (f : ℕ → Bool) :
      Visiting s (.heap (s.nextDir + b)) (((s.advance a b 0).openDir no j).withMallocs f)

variable {s u v : Fs} {ptr : DirPtr}

section Search

theorem Restored.refl (s : Fs) : Restored s s := ⟨0, 0, s.mallocs, rfl⟩

theorem Restored.withMallocs (h : Restored s u) (f : ℕ → Bool) : Restored s (u.withMallocs f) := by
  obtain ⟨a, b, g, rfl⟩ := h
  exact ⟨a, b, f, rfl⟩

theorem Visiting.withMallocs (h : Visiting s ptr u) (f : ℕ → Bool) :
    Visiting s ptr (u.withMallocs f) := by
  cases h with
  | root h => exact .root (h.withMallocs f)
  | heap a b no j g => exact .heap a b no j f

/-- Closing the directory leads back. -/
theorem Visiting.close (hs : Openable s) (h : Visiting s ptr u) :
    ∃ v, dirClose ptr u = .ok ((), v) ∧ Restored s v := by
  cases h with
  | root h => exact ⟨u, rfl, h⟩
  | heap a b no j f =>
    refine ⟨_, dirClose_openDir (hs.advance a b 0) no j f, ?_⟩
    refine ⟨a + if findOpenInode (s.advance a b 0) no = none then 1 else 0, b + 1, f, ?_⟩
    simp only [Fs.advance, Fs.withMallocs, Nat.add_assoc]

theorem Visiting.ensures_close (hs : Openable s) (h : Visiting s ptr u) :
    Exec.Ensures (dirClose ptr) u fun _ v => Restored s v := by
  obtain ⟨v, hcall, hv⟩ := h.close hs
  exact (Exec.post_of_ok hcall).mpr hv

/-- `inode_open` finds the inode or loads one. -/
theorem inodeOpen_opens (no : UInt32) : Exec.Ensures (inodeOpen no) s fun p s' => ∃ j f,
    p = s.openedAt no ∧ s' = (s.openInode no j).withMallocs f := by
  rw [Exec.Ensures, inodeOpen, Exec.post_bind, Exec.post_get, Fs.openedAt]
  cases hfind : findOpenInode s no with
  | some p =>
    obtain ⟨-, i, hi, -⟩ := findOpenInode_some hfind
    simp only [Exec.post_bind, post_derefInode, post_storeInode, Exec.post_pure, hi,
      Option.some.injEq, forall_eq', implies_true, and_true]
    refine ⟨i, s.mallocs, rfl, ?_⟩
    simp only [Fs.openInode, hfind, hi, Option.map_some]
    rfl
  | none =>
    simp only [inodeLoad, Exec.post_bind, Exec.post_get, post_deref, post_sysMallocUnchecked,
      post_ideRead, newInode, pushOpenInode, Exec.post_set, Exec.post_pure, Exec.post_modify,
      implies_true, and_true]
    intro pos _ _ _ _
    refine ⟨Inode.ofBytes ((Bytes.zero.splice 0 (pos.secCnt * 512)
      (s.tick.tick.disk.window (pos.secLba.toNat * 512))).window pos.offSize.toNat),
      s.tick.tick.mallocs, rfl, ?_⟩
    simp only [Fs.openInode, hfind]
    rfl

/-- Opening the next directory. -/
theorem Restored.open (h : Restored s v) (no : UInt32) :
    Exec.Ensures (dirOpen no) v fun ptr u => Visiting s ptr u := by
  obtain ⟨a, b, f, rfl⟩ := h
  rw [Exec.Ensures, dirOpen, Exec.post_bind, post_sysMallocUnchecked]
  refine ⟨fun _ => ?_, fun _ => trivial⟩
  refine Exec.Post.bind (inodeOpen_opens no) fun p u hopen => ?_
  obtain ⟨j, g, rfl, rfl⟩ := hopen
  rw [post_newDir]
  have hstate : ((((s.advance a b 0).withMallocs f).tick.openInode no j).withMallocs g).addDir
      ⟨((s.advance a b 0).withMallocs f).tick.openedAt no, 0, Bytes.zero⟩ =
      ((s.advance a b 0).openDir no j).withMallocs g := by
    have hfind : findOpenInode ((s.advance a b 0).withMallocs f).tick no =
        findOpenInode (s.advance a b 0) no := rfl
    rw [Fs.openDir, Fs.openInode, Fs.openInode, Fs.openedAt, Fs.openedAt, hfind]
    cases findOpenInode (s.advance a b 0) no <;> rfl
  have hnext : ((((s.advance a b 0).withMallocs f).tick.openInode no j).withMallocs g).nextDir =
      s.nextDir + b := openInode_nextDir
  rw [hstate, hnext]
  exact .heap a b no j g

theorem searchDirEntry_mallocs (pdir : DirPtr) (name : List UInt8) :
    Exec.Ensures (searchDirEntry pdir name) s fun _ s' => ∃ f, s' = s.withMallocs f := by
  rw [Exec.Ensures, searchDirEntry, Exec.post_bind, post_sysMalloc]
  split
  · refine Exec.Post.bind (derefDir_same _) fun dir s₁ h₁ => ?_
    refine Exec.Post.bind derefInode_same fun inode s₂ h₂ => ?_
    refine Exec.Post.bind (loadBlocks_same _) fun allBlocks s₃ h₃ => ?_
    rw [Exec.post_bind, post_sysMallocUnchecked]
    refine ⟨fun _ => ?_, fun _ => trivial⟩
    refine (searchBlocks_same _ _ _ _).mono fun _ s₄ h₄ => ?_
    rw [h₄, h₃, h₂.1, h₁]
    exact ⟨_, rfl⟩
  · exact ⟨_, rfl⟩

theorem searchLoop_visiting (hs : Openable s) (fuel : ℕ) {st : SearchState}
    (h : Visiting s st.parentDir u) (hrecord : st.record.parentDir = st.parentDir) :
    Exec.Ensures (searchLoop fuel st) u fun r u' => Visiting s r.2.parentDir u' := by
  induction fuel generalizing st u with
  | zero => trivial
  | succ fuel ih =>
    rw [searchLoop]
    split
    · rw [hrecord]
      refine Exec.Post.bind (h.ensures_close hs) fun _ v hv => ?_
      exact Exec.Post.bind (hv.open _) fun ptr u' hu' => hu'
    · rw [Exec.Ensures, Exec.post_bind, post_assert]
      refine ⟨fun _ => ?_, fun _ => trivial⟩
      refine Exec.Post.bind (searchDirEntry_mallocs _ _) fun e u₁ h₁ => ?_
      obtain ⟨f, rfl⟩ := h₁
      have hvisit := h.withMallocs f
      cases e with
      | none =>
        rw [← hrecord] at hvisit
        exact hvisit
      | some e =>
        refine Exec.Post.bind (nextName_same _) fun x u₂ h₂ => ?_
        subst h₂
        dsimp only
        split
        · refine Exec.Post.bind (derefDir_same _) fun dir u₃ h₃ => ?_
          subst h₃
          refine Exec.Post.bind derefInode_same fun inode u₄ h₄ => ?_
          obtain ⟨rfl, -⟩ := h₄
          refine Exec.Post.bind (hvisit.ensures_close hs) fun _ v hv => ?_
          exact Exec.Post.bind (hv.open _) fun ptr u' hu' => ih hu' rfl
        · split
          · rw [← hrecord] at hvisit
            exact hvisit
          · exact ih hvisit hrecord

/-- `search_file` leaves the directory searched last open, and nothing else. -/
theorem searchFile_visiting (hs : Openable s) (pathname : List UInt8) :
    Exec.Ensures (searchFile pathname) s fun r u => Visiting s r.2.parentDir u := by
  have hroot : Visiting s .rootDir s := .root (.refl s)
  rw [searchFile]
  split
  · exact hroot
  · rw [Exec.Ensures, Exec.post_bind, Exec.post_get, Exec.post_bind, post_assert]
    refine ⟨fun _ => ?_, fun _ => trivial⟩
    dsimp only
    rw [storeName, Exec.post_bind, post_inBounds]
    exact ⟨fun _ => searchLoop_visiting hs _ hroot rfl, fun _ => trivial⟩

theorem afterLastSlash_same (path : List UInt8) :
    Exec.Ensures (afterLastSlash path) s fun _ s' => s' = s := by
  unfold afterLastSlash
  split
  · rfl
  · trivial

end Search

section Create

variable {p k j : ℕ} {i : Inode} {e : DirEntry} {f : ℕ → UInt32} {flag inodeNo : UInt32}

/-- Nothing is different but the block bitmap on the disk. -/
def EntryRefused (s u : Fs) : Prop :=
  ∃ d, u = s.setDisk d ∧ Bytes.EqOutside (bitmapArea s.part) s.disk d

theorem EntryRefused.refl (s : Fs) : EntryRefused s s := ⟨s.disk, rfl, .refl _ _⟩

theorem writeFirstEntry_true {lba : UInt32} :
    Exec.Ensures (writeFirstEntry p lba e) s fun r _ => r = true := by
  rw [Exec.Ensures, writeFirstEntry, Exec.post_bind, Exec.post_get, Exec.post_bind]
  refine Exec.Ensures.mono Exec.ensures_true fun _ u _ => ?_
  exact Exec.Post.bind Exec.ensures_true fun _ v _ => rfl

/-- The state with another disk and file table, and with addresses and memory used up. -/
def Fs.amend (s : Fs) (d : Bytes) (files : ℕ → File) (n : ℕ) (f : ℕ → Bool) : Fs :=
  { s with disk := d, fileTable := files, nextInode := n, mallocs := f }

/-- What a `file_create` that fails leaves: free entries of the file table may differ, and the block
bitmap on the disk. -/
def CreateUndone (s u : Fs) : Prop := ∃ d files n f, u = s.amend d files n f ∧
  Bytes.EqOutside (bitmapArea s.part) s.disk d ∧
  ∀ g, files g = s.fileTable g ∨ (s.fileTable g).fdInode = none ∧ (files g).fdInode = none

/-- New inodes get addresses that are not in use. -/
def Fs.Fresh (s : Fs) : Prop := ∀ p, s.nextInode ≤ p → s.inodes p = none

/-- The state with an inode number taken. -/
def Fs.takeNumber (s : Fs) (j : ℕ) : Fs :=
  s.setPart (s.part.setInodeBitmap (s.part.inodeBitmap.set j true))

theorem Layout.takeNumber (h : Layout s.part) : Layout (s.takeNumber j).part :=
  ⟨h.1, h.2, h.3, h.4, h.5, h.6, h.7, h.8, h.9, h.10⟩

theorem post_inodeBitmapAlloc {Q : Option UInt32 → Fs → Prop} {E : Fault → Prop} :
    Exec.Post inodeBitmapAlloc s Q E ↔
      (s.part.inodeBitmap.scan 1 = none → Q none s) ∧
      ∀ j, s.part.inodeBitmap.scan 1 = some j → Q (some (UInt32.ofNat j)) (s.takeNumber j) := by
  cases h : s.part.inodeBitmap.scan 1 <;> simp [inodeBitmapAlloc, Fs.takeNumber, h]

/-- Giving back a number that was just taken. -/
theorem clearInodeBit_taken (hl : Layout s.part) (hj : s.part.inodeBitmap.scan 1 = some j) :
    Exec.Ensures (clearInodeBit (UInt32.ofNat j)) (s.takeNumber j) fun _ u => u = s := by
  obtain ⟨hlt, hclear, -⟩ := Bitmap.scan_one_eq_some_iff.mp hj
  rw [hl.inodeBitmap_len] at hlt
  have hidx : (UInt32.ofNat j).toNat = j := Word.toNat_ofNat (by omega)
  simp only [Exec.Ensures, clearInodeBit, Exec.post_bind, Exec.post_get, post_inBounds,
    Exec.post_set, implies_true, and_true, hidx]
  intro _
  simp only [Fs.takeNumber, Fs.setPart, Partition.setInodeBitmap, Bitmap.set_true_set_false hclear]

end Create

/-- Whether the running process has a free descriptor. -/
def Fs.FreeFd (s : Fs) : Prop :=
  ∀ t, s.Running t → ∃ k, 3 ≤ k ∧ k < maxFilesOpenPerProc ∧ t.fdTable k = -1

/-- The tables, the open inodes, the bitmaps and the directories are as before. Entries of the file
table that are free may differ. -/
structure NothingOpened (s u : Fs) : Prop where
  files : ∀ g, u.fileTable g = s.fileTable g ∨
    (s.fileTable g).fdInode = none ∧ (u.fileTable g).fdInode = none
  tables : u.tables = s.tables
  openInodes : u.part.openInodes = s.part.openInodes
  inodes : ∀ p ∈ s.part.openInodes, u.inodes p = s.inodes p
  blockBitmap : u.part.blockBitmap = s.part.blockBitmap
  inodeBitmap : u.part.inodeBitmap = s.part.inodeBitmap
  disk : Bytes.EqOutside (bitmapArea s.part) s.disk u.disk

section Calls

variable {flag no : UInt32} {r : Int} {dir : DirPtr}

theorem Restored.nothingOpened (h : Restored s u) : NothingOpened s u := by
  obtain ⟨a, b, f, rfl⟩ := h
  exact ⟨fun g => .inl rfl, rfl, rfl, fun p _ => rfl, rfl, rfl, .refl _ _⟩

/-- Closing a directory does not look at the disk, the file table, the addresses or the memory. -/
theorem dirClose_amend (h : dirClose dir s = .ok ((), u)) (d : Bytes) (files : ℕ → File) (n : ℕ)
    (f : ℕ → Bool) : dirClose dir (s.amend d files n f) = .ok ((), u.amend d files n f) := by
  cases dir with
  | rootDir =>
    cases h
    rfl
  | heap a =>
    rw [Exec.eq_ok_iff] at h ⊢
    simp only [dirClose, Exec.Returns, Exec.post_bind, post_derefDir, inodeClose, post_derefInode,
      post_storeInode, modifyThread, Exec.post_modify, Exec.post_ite, true_and] at h ⊢
    refine ⟨fun o ho => ⟨fun i hi => ⟨fun h0 => ?_, fun h0 => ?_⟩, fun hi => ?_⟩, fun ho => h.2 ho⟩
    · rw [← ((h.1 o ho).1 i hi).1 h0]
      rfl
    · rw [← ((h.1 o ho).1 i hi).2 h0]
      rfl
    · exact (h.1 o ho).2 hi

/-- The state with one directory open knows fresh addresses too. -/
theorem Visiting.fresh (hs : Openable s) (h : Visiting s dir u) : u.Fresh := by
  have hold : ∀ p, s.nextInode ≤ p → s.inodes p = none := fun p hp => hs.fresh hp
  cases h with
  | root h =>
    obtain ⟨a, b, f, rfl⟩ := h
    exact fun p hp => hold p ((Nat.le_add_right _ _).trans hp)
  | heap a b no j f =>
    intro p hp
    simp only [Fs.openDir, Fs.openInode] at hp ⊢
    cases hfind : findOpenInode (s.advance a b 0) no with
    | some q =>
      rw [hfind] at hp
      obtain ⟨-, i, hi, -⟩ := findOpenInode_some hfind
      have hlt := hs.inode_lt q i hi
      have hle : s.nextInode + a ≤ p := hp
      exact (Function.update_of_ne (by omega) _ s.inodes).trans (hold p (by omega))
    | none =>
      rw [hfind] at hp
      have hle : s.nextInode + a + 1 ≤ p := hp
      exact (Function.update_of_ne (by simp only [Fs.advance_nextInode]; omega) _ s.inodes).trans
        (hold p (by omega))

theorem openInode_fileTable (no : UInt32) (j : Inode) :
    (s.openInode no j).fileTable = s.fileTable := by
  unfold Fs.openInode
  split <;> rfl

theorem openDir_tables (no : UInt32) (j : Inode) : (s.openDir no j).tables = s.tables := by
  have hopen : (s.openInode no j).tables = s.tables := by
    unfold Fs.openInode
    split <;> rfl
  rw [← hopen, Fs.openDir, Fs.tables, Fs.tables, Fs.addDir, Fs.mapDirs, Fs.setTasks_tasks,
    List.map_map]
  refine List.map_congr_left fun t _ => ?_
  simp only [Function.comp_apply]
  split <;> rfl

/-- Opening a directory changes neither the disk nor the file table, and of the partition only the
list of open inodes. -/
theorem Visiting.same (h : Visiting s dir u) : u.disk = s.disk ∧ u.fileTable = s.fileTable ∧
    u.tables = s.tables ∧ ∃ l, u.part = s.part.setOpenInodes l := by
  cases h with
  | root h =>
    obtain ⟨a, b, f, rfl⟩ := h
    exact ⟨rfl, rfl, rfl, s.part.openInodes, rfl⟩
  | heap a b no j f =>
    exact ⟨openInode_disk (s := s.advance a b 0), openInode_fileTable (s := s.advance a b 0) no j,
      openDir_tables (s := s.advance a b 0) no j, openInode_part (s := s.advance a b 0)⟩

theorem Visiting.layout (hl : Layout s.part) (h : Visiting s dir u) : Layout u.part := by
  obtain ⟨-, -, -, l, hpart⟩ := h.same
  rw [hpart]
  exact hl.setOpenInodes l

/-- After a `file_create` that was undone the directory is closed. -/
theorem CreateUndone.close (hs : Openable s) (h : Visiting s dir u) (hv : CreateUndone u v) :
    Exec.Ensures (dirClose dir) v fun _ v' => NothingOpened s v' := by
  obtain ⟨d, files, n, f, rfl, hd, hfiles⟩ := hv
  obtain ⟨w, hclose, hw⟩ := h.close hs
  rw [Exec.Ensures, Exec.post_of_ok (dirClose_amend hclose d files n f)]
  obtain ⟨hdisk, htable, -, l, hpart⟩ := h.same
  rw [hdisk, hpart] at hd
  rw [htable] at hfiles
  obtain ⟨a, b, g, rfl⟩ := hw
  exact ⟨hfiles, rfl, rfl, fun p _ => rfl, rfl, rfl, hd⟩

/-- `pcb_fd_install` succeeds if the process has a free descriptor. -/
theorem InstalledIn.ne {g : ℕ} (h : InstalledIn s g r u) (hfree : s.FreeFd) : r ≠ -1 := by
  obtain ⟨t, ht, ⟨k, -, -, -, rfl, -⟩ | ⟨hfull, -, -⟩⟩ := h
  · omega
  · obtain ⟨k, hle, hlt, hk⟩ := hfree t ht
    exact absurd hk (hfull k hle hlt)

/-- A descriptor stays free as long as the tables stay. -/
theorem Fs.FreeFd.of_tables (h : s.FreeFd) (htables : u.tables = s.tables) (hcur : u.cur = s.cur) :
    u.FreeFd := by
  intro t ht
  obtain ⟨t', ht', htable⟩ := ht.of_tables htables hcur
  obtain ⟨k, hle, hlt, hk⟩ := h t' ht'
  exact ⟨k, hle, hlt, by rw [← htable, hk]⟩

end Calls

end Winx
