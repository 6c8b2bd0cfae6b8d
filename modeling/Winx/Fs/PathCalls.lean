import Winx.Fs.NewDir
import Winx.Fs.PathState

/-! # Calls on paths

Seven system calls take a path to `search_file` and go on with what it finds. The
asserts on their way hold, and the name buffers suffice, for a path that fits the
tree: it is absolute and not too long, does not name the root directory, its names
are short where they are stored, and where a new entry may go there is a place.
-/

namespace Winx

/-- The system calls that take a path. -/
inductive PathCall
  | open (flags : UInt8)
  | unlink
  | mkdir
  | rmdir
  | opendir
  | chdir
  | stat

/-- A call with a path, and whether its result is not an error. -/
def PathCall.run (path : List UInt8) : PathCall → FsM Bool
  | .open flags => (· != -1) <$> sysOpen path flags
  | .unlink => (· != -1) <$> sysUnlink path
  | .mkdir => (· != -1) <$> sysMkdir path
  | .rmdir => (· != -1) <$> sysRmdir path
  | .opendir => Option.isSome <$> sysOpendir path
  | .chdir => (· != -1) <$> sysChdir path
  | .stat => (·.1 != -1) <$> sysStat path

/-- A path that is an error for a call: it is not absolute or too long, it names the root directory
where something is made or removed, or ends with a slash where a file is opened. -/
def PathCall.Malformed (path : List UInt8) : PathCall → Prop
  | .open _ => path.head? ≠ some slash ∨ 512 ≤ path.length ∨ path.getLast? = some slash
  | .unlink | .mkdir | .rmdir => path.head? ≠ some slash ∨ 512 ≤ path.length ∨ IsRootPath path
  | .opendir | .chdir | .stat => path.head? ≠ some slash ∨ 512 ≤ path.length

/-- Whatever the memory holds, no call with the path fails an assertion or leaves its buffers: it
returns, with an error if the path is malformed, or follows a null pointer for want of memory. -/
def NeverPanics (s : Fs) (path : List UInt8) : Prop := ∀ (c : PathCall) junk mallocs,
  Exec.Post (c.run path) (s.given junk mallocs) (fun ok _ => c.Malformed path → ok = false)
    fun e => e = .badPointer ∧ ¬ c.Malformed path

/-- There is an inode number for a new entry, and a block for a new directory or an entry of the file
table for a new file. -/
def Fs.RoomForEntry (s : Fs) (path : List UInt8) : Prop := s.part.inodeBitmap.scan 1 ≠ none ∧
  (s.part.blockBitmap.scan 1 ≠ none ∨ path.getLast? ≠ some slash ∧ s.freeSlot ≠ none)

/-- A path that fits the tree. -/
structure PathFits (s : Fs) (path : List UInt8) : Prop extends PathParsed path where
  short : ∀ name ∈ components path, name.length ≤ 16
  names : NamesFit s (components path)
  elsewhere : ¬ Reaches s (components path) 0 []
  place : ∀ d name, Reaches s (components path) d [name] → s.RoomForEntry path →
    ∃ k < 12, ¬ FullBlock s.disk (curInode s d.toNat) k

/-- The code returns or follows a null pointer. -/
def Safe {α : Type} (x : FsM α) (s : Fs) : Prop := Exec.Post x s (fun _ _ => True) (· = .badPointer)

/-- A directory that is open and can get an entry. -/
structure Insertable (s : Fs) (dir : DirPtr) (o : Dir) (i : Inode) : Prop extends DirBlocks s i where
  dirOf : s.dirOf dir = some o
  inode : s.inodes o.inode = some i
  size_mod : i.iSize % 24 = 0
  free : FreeOnDisk s.part

variable {s u v : Fs} {path name : List UInt8} {d no flag : UInt32} {dir ptr : DirPtr} {o : Dir}
  {i : Inode} {e : DirEntry} {p : ℕ} {α β : Type} {x : FsM α} {f : α → FsM β}

section Rules

theorem Calm.safe (h : Calm x s) : Safe x s := h.mono (fun _ _ _ => trivial) fun _ => id

theorem Calm.then (h : Calm x s) (hf : ∀ a s', s.part.Alike s'.part → Safe (f a) s') :
    Safe (x >>= f) s :=
  Exec.Post.bind h hf

theorem safe_pure (a : α) : Safe (pure a) s := trivial

theorem calm_close (dir : DirPtr) (a : α) : Calm (do dirClose dir; pure a) s :=
  (calm_dirClose dir).bind fun _ _ _ => calm_pure a

end Rules

section Create

theorem FreeOnDisk.first {part : Partition} (h : FreeOnDisk part) : FirstFreeOnDisk part := by
  intro j hj
  obtain ⟨hlt, hclear, -⟩ := Bitmap.scan_one_eq_some_iff.mp hj
  exact h j hlt hclear

theorem DirOk.size_mod (h : DirOk s i) : i.iSize % 24 = 0 := by
  refine UInt32.toNat_inj.mp ?_
  rw [UInt32.toNat_mod, h.size, sizeofDirEntry]
  exact Nat.mul_mod_right 24 _

/-- An entry is added where there is a place. -/
theorem Insertable.syncDirEntry (h : Insertable s dir o i) (hplace : ∃ k < 12, ¬ FullBlock s.disk i k) :
    Exec.Returns (syncDirEntry dir e) s fun _ s' => s.part.Alike s'.part := by
  classical
  have hfull (l : ℕ) (hl : l < Nat.find hplace) : FullBlock s.disk i l := by
    by_contra hn
    exact Nat.find_min hplace hl ⟨hl.trans (Nat.find_spec hplace).1, hn⟩
  obtain ⟨hk, hnot⟩ := Nat.find_spec hplace
  apply (syncDirEntry_spec h.toDirBlocks h.dirOf h.inode hk hfull hnot).mono
  · rintro r s' (⟨-, rfl⟩ | ⟨-, m, d, b, i', he, rfl⟩)
    · exact .refl _
    · exact ⟨rfl, rfl, rfl, he.alloc.len, rfl⟩
  · rintro _ (hmod | ⟨-, hfirst⟩)
    · exact hmod h.size_mod
    · exact hfirst h.free.first

/-- The block of a new directory is filled, if there is one. -/
theorem Insertable.mkdirBlock (h : Insertable s dir o i) (no : UInt32)
    (hfirst : s.part.blockBitmap.scanTest 0 = true) (hname : name.length < 16) : Exec.Returns (mkdirBlock dir name no) s fun r _ =>
      r = none ↔ s.part.blockBitmap.scan 1 = none := by
  rw [Exec.Returns, Winx.mkdirBlock, Exec.post_bind, Exec.post_get, Exec.post_bind, post_blockBitmapAlloc]
  refine ⟨fun hnone => ?_, fun j hj => ?_⟩
  · exact iff_of_true rfl hnone
  obtain ⟨hlt, hclear, -⟩ := Bitmap.scan_one_eq_some_iff.mp hj
  have hblock := h.layout.isBlock hlt
  have hmax := h.free.first j hj
  generalize s.part.sb.dataStartLba + UInt32.ofNat j = lba at hblock ⊢
  dsimp only
  rw [Exec.post_bind, post_assert]
  have hidx : lba - s.part.sb.dataStartLba ≠ 0 := by
    intro h0
    have hzero := congrArg UInt32.toNat h0
    rw [Word.toNat_sub (by have := hblock.2; omega), hblock.2, Nat.add_sub_cancel_left] at hzero
    obtain rfl : j = 0 := hzero
    rw [hfirst] at hclear
    cases hclear
  refine ⟨fun _ => ?_, fun hbad => hbad hidx⟩
  have hsync := bitmapSync_block_spec
    (s := s.setPart (s.part.setBlockBitmap (s.part.blockBitmap.set j true)))
    (h.layout.setBlockBitmap rfl) ((isBlock_setBlockBitmap rfl).mpr hblock)
  refine hsync.bind fun _ u hu => ?_
  obtain ⟨disk, rfl, -⟩ := hu
  have hdir : ((s.setPart (s.part.setBlockBitmap (s.part.blockBitmap.set j true))).setDisk disk).dirOf
      dir = some o := by
    rw [← h.dirOf]
    cases dir <;> rfl
  have hle : lba ≤ maxLba := by
    rw [UInt32.le_iff_toNat_le, hblock.2]
    exact hmax
  simp only [Exec.post_bind, post_derefDir, hdir, Option.some.injEq, forall_eq', reduceCtorEq,
    false_implies, and_true, post_derefInode, Fs.setDisk_inodes, Fs.setPart_inodes, h.inode,
    post_ideWrite, hle, Nat.zero_lt_one, and_self, true_implies, not_true_eq_false, createDirEntry,
    post_inBounds, hname, Exec.post_pure, false_iff]
  rw [hj]
  simp

theorem calm_fileCreateFinish (hl : Layout s.part) (hn : no.toNat < 4096) (p g : ℕ) :
    Calm (fileCreateFinish dir no p g) s := by
  refine (calm_derefDir dir).bind fun o u₁ h₁ => ?_
  refine (calm_derefInode _).bind fun i u₂ h₂ => ?_
  have hl₂ := h₂.layout (h₁.layout hl)
  refine (calm_inodeSync hl₂ i).bind fun _ u₃ h₃ => ?_
  refine (calm_derefInode p).bind fun j u₄ h₄ => ?_
  have hl₄ := h₄.layout (h₃.layout hl₂)
  refine (calm_inodeSync hl₄ j).bind fun _ u₅ h₅ => ?_
  refine (calm_inodeBitmapSync (h₅.layout hl₄) hn).bind fun _ u₆ _ => ?_
  refine (calm_pushOpenInode p).bind fun _ u₇ _ => ?_
  exact (calm_storeInode p _).bind fun _ _ _ => calm_pcbFdInstall g

/-- What only changes other parts of the state leaves room in the directory. -/
theorem Insertable.frame (h : Insertable s dir o i) (hdisk : u.disk = s.disk)
    (hpart : s.part.Alike u.part) (hbits : u.part.blockBitmap = s.part.blockBitmap)
    (hdir : u.dirOf dir = s.dirOf dir) (hinode : u.inodes o.inode = s.inodes o.inode) :
    Insertable u dir o i := by
  refine ⟨⟨hpart.layout h.layout, ?_, ?_, ?_, ?_⟩, hdir.trans h.dirOf, hinode.trans h.inode, h.size_mod,
    ?_⟩
  · rw [hdisk]
    exact h.readable
  · intro c h0
    rw [hdisk] at h0 ⊢
    obtain ⟨j, hj, hset⟩ := h.used c h0
    exact ⟨j, hpart.isBlock.mpr hj, hbits ▸ hset⟩
  · rw [hdisk]
    exact h.inj
  · rw [hdisk]
    exact h.blank
  · intro j
    rw [hbits, hpart.sb]
    exact h.free j

/-- The entry of a new file. -/
theorem Insertable.fileCreateEntry (h : Insertable s dir o i) (hn : no.toNat < 4096)
    (hname : name.length < 16)
    (hplace : s.freeSlot ≠ none → ∃ k < 12, ¬ FullBlock s.disk i k) :
    Exec.Post (fileCreateEntry dir name flag no p) s
      (fun r u => s.part.Alike u.part ∧ ∀ no' p' g, r = some (no', p', g) → no' = no)
      (· = .badPointer) := by
  have hundo (w : Fs) (hw : s.part.Alike w.part) : Exec.Post (do
      clearInodeBit no
      pure none : FsM (Option (UInt32 × ℕ × ℕ))) w
      (fun r u => s.part.Alike u.part ∧ ∀ no' p' g, r = some (no', p', g) → no' = no)
      (· = .badPointer) :=
    Exec.Post.bind (calm_clearInodeBit (hw.layout h.layout) hn) fun _ v hv => ⟨hw.trans hv, by simp⟩
  rw [Winx.fileCreateEntry, Exec.post_bind, post_getFreeSlotInGlobal]
  cases hslot : s.freeSlot with
  | none => exact hundo _ ⟨rfl, rfl, rfl, rfl, rfl⟩
  | some g =>
    rw [hslot] at hplace
    have h' : Insertable (s.setFile g ⟨0, flag, some p⟩) dir o i :=
      h.frame rfl (.refl _) rfl (by cases dir <;> rfl) rfl
    dsimp only
    rw [Exec.post_bind, Exec.post_modify, createDirEntry, Exec.post_bind, Exec.post_bind,
      post_inBounds]
    refine ⟨fun _ => ?_, fun hbad => absurd hname hbad⟩
    rw [Exec.post_pure]
    refine (h'.syncDirEntry (hplace (by simp))).bind fun ok v hv => ?_
    cases ok with
    | true => exact ⟨hv, fun _ _ _ heq => (Prod.mk.inj (Option.some.inj heq)).1.symm⟩
    | false => exact hundo _ hv

/-- `file_create` in such a directory. -/
theorem Insertable.fileCreate (h : Insertable s dir o i) (hopen : Openable s)
    (hname : name.length < 16)
    (hplace : s.part.inodeBitmap.scan 1 ≠ none → s.freeSlot ≠ none →
      ∃ k < 12, ¬ FullBlock s.disk i k) : Safe (fileCreate dir name flag) s := by
  have hp : o.inode ≠ s.nextInode := (hopen.inode_lt _ _ h.inode).ne
  have hstart : Exec.Post (fileCreateStart dir name flag) s
      (fun r u => s.part.Alike u.part ∧ ∀ no p g, r = some (no, p, g) → no.toNat < 4096)
      (· = .badPointer) := by
    rw [fileCreateStart, Exec.post_bind, post_sysMalloc]
    split
    · rw [Exec.post_bind, post_inodeBitmapAlloc]
      refine ⟨fun _ => ⟨.refl _, by simp⟩, fun j hj => ?_⟩
      obtain ⟨hlt, -, -⟩ := Bitmap.scan_one_eq_some_iff.mp hj
      have hlt' : j < 4096 := by
        have := h.layout.inodeBitmap_len
        change j < 8 * s.part.inodeBitmap.btmpBytesLen at hlt
        omega
      have hidx : (UInt32.ofNat j).toNat = j := Word.toNat_ofNat (by omega)
      have htaken : s.part.Alike (s.takeNumber j).part := ⟨rfl, rfl, rfl, rfl, rfl⟩
      dsimp only
      rw [Exec.post_bind, post_sysMalloc]
      split
      · rw [Exec.post_bind, post_newInode]
        have h' : Insertable (((s.tick.takeNumber j).tick.setInode s.nextInode
            (some (inodeInit (UInt32.ofNat j) zeroInode))).bumpInode) dir o i := by
          refine h.frame rfl htaken rfl (by cases dir <;> rfl) ?_
          exact Function.update_of_ne hp _ _
        refine (h'.fileCreateEntry (by omega) hname fun hslot => ?_).mono ?_ fun _ => id
        · exact hplace (by simp [show s.part.inodeBitmap.scan 1 = some j from hj]) hslot
        · rintro r u ⟨hu, hr⟩
          refine ⟨htaken.trans hu, fun no p g heq => ?_⟩
          rw [hr no p g heq, hidx]
          exact hlt'
      · refine Exec.Post.bind (calm_clearInodeBit ?_ (by omega)) fun _ v hv => ⟨htaken.trans hv, by simp⟩
        exact h.layout.takeNumber
    · exact ⟨.refl _, by simp⟩
  rw [fileCreate_eq]
  refine hstart.bind fun r u hu => ?_
  obtain ⟨hpart, hno⟩ := hu
  cases r with
  | none => exact trivial
  | some r =>
    obtain ⟨no, p, g⟩ := r
    exact (calm_fileCreateFinish (hpart.layout h.layout) (hno no p g rfl) p g).safe

end Create

section Given

theorem PathReady.given {junk : ℕ → UInt32} {mallocs : ℕ → Bool} (h : PathReady s) :
    PathReady (s.given junk mallocs) where
  toTreeOk := h.toTreeOk.given
  ok := ⟨h.ok.layout, ⟨h.ok.cache.obj, h.ok.cache.used, h.ok.cache.inj⟩, h.ok.blocks.inj, h.ok.blocks.used⟩
  tidy d hd :=
    have htidy := h.tidy d hd.of_given
    ⟨⟨⟨htidy.layout, htidy.readable, htidy.used, htidy.inj, htidy.blank⟩, htidy.size, htidy.dots⟩,
      htidy.self, htidy.parent, htidy.once, htidy.occupied, htidy.table⟩
  used d hd := h.used d hd.of_given
  regular d hd e he htype := ⟨(h.regular d hd.of_given e he htype).1,
    fun hdir => (h.regular d hd.of_given e he htype).2 hdir.of_given⟩
  once d hd := h.once d hd.of_given
  held := h.held
  free := h.free
  firstBlock := h.firstBlock

theorem PathFits.given {junk : ℕ → UInt32} {mallocs : ℕ → Bool} (h : PathFits s path) :
    PathFits (s.given junk mallocs) path where
  toPathParsed := h.toPathParsed
  short := h.short
  names := h.names.given
  elsewhere hr := h.elsewhere hr.of_given
  place d name hr := h.place d name hr.of_given

theorem PathFits.components_ne (h : PathFits s path) : components path ≠ [] := by
  intro hnil
  have helse := h.elsewhere
  rw [hnil] at helse
  exact helse .root

/-- What `search_file` leaves has the same geometry. -/
theorem Over.alike (h : Over s u) : s.part.Alike u.part := by
  obtain ⟨l, hpart⟩ := h.part
  rw [hpart]
  exact ⟨rfl, rfl, rfl, rfl, rfl⟩

end Given

section Open

/-- The directory that a new entry goes to. -/
def NewEntryIn (s u : Fs) (path : List UInt8) (ptr : DirPtr) (name : List UInt8) : Prop :=
  u.fileTable = s.fileTable ∧
    ∃ d, Reaches s (components path) d [name] ∧ Over s u ∧ u.Holds ptr d

theorem At.fileTable {k : ℕ} (hat : At s k d ptr u) : u.fileTable = s.fileTable := by
  cases hat with
  | root a b => rfl
  | heap a b => exact openInode_fileTable d (s.stored d)

theorem UInt32.ofInt_toNat (x : UInt32) : UInt32.ofInt x.toNat = x := by
  have hlt := x.toNat_lt
  have hmod : ((x.toNat : Int) % 2 ^ 32).toNat = x.toNat := by omega
  rw [UInt32.ofInt, hmod, UInt32.ofNat_toNat]

/-- The names that `search_file` looked up are short. -/
theorem pathDepthCnt_walked (hshort : ∀ n ∈ components path, n.length ≤ 16)
    {walked rest : List (List UInt8)} (hjoin : walked ++ name :: rest = components path) :
    pathDepthCnt (joinPath (walked ++ [name])) u = .ok (walked.length + 1, u) := by
  have hmem : ∀ n ∈ walked ++ [name], n ∈ components path := by
    rw [← hjoin]
    intro n hn
    rw [List.mem_append, List.mem_singleton] at hn
    rw [List.mem_append, List.mem_cons]
    exact hn.imp_right Or.inl
  have hparts : components (joinPath (walked ++ [name])) = walked ++ [name] :=
    components_joinPath fun n hn =>
      ⟨(of_mem_components path n (hmem n hn)).1, (of_mem_components path n (hmem n hn)).2.1⟩
  rw [pathDepthCnt_ok (by rw [hparts]; exact fun n hn => hshort n (hmem n hn)), hparts,
    if_neg (by simp), List.length_append, List.length_singleton]

theorem pathDepthCnt_components (hshort : ∀ n ∈ components path, n.length ≤ 16)
    (hne : components path ≠ []) : pathDepthCnt path u = .ok ((components path).length, u) := by
  rw [pathDepthCnt_ok hshort, if_neg fun hnil => hne hnil.1]

/-- The file name is the component that is missing. -/
theorem PathParsed.filename (h : PathParsed path) (hlast : path.getLast? ≠ some slash)
    {walked : List (List UInt8)} (hjoin : walked ++ [name] = components path) :
    afterLastSlash path = pure name := by
  have hslash : slash ∈ path := List.mem_of_mem_head? h.absolute
  obtain ⟨pre, name', rfl, hne, hnot⟩ := exists_afterLastSlash hslash hlast
  rw [components_append, components_single hne hnot] at hjoin
  rw [afterLastSlash, if_pos hslash, afterLastSlash_append pre hnot,
    List.singleton_inj.mp (List.append_inj_right' hjoin rfl)]

/-- The name of a new directory is the component that is missing. -/
theorem afterLastSlash_walked {walked : List (List UInt8)} (hjoin : walked ++ [name] = components path) :
    afterLastSlash (joinPath (walked ++ [name])) = pure name := by
  have hname : slash ∉ name :=
    (of_mem_components path name (hjoin ▸ List.mem_append_right _ List.mem_cons_self)).2.1
  rw [joinPath_append, afterLastSlash, if_pos (by simp), afterLastSlash_append _ hname]

/-- What `sys_open` goes on to. -/
theorem PathFits.openTarget (h : PathFits s path) (hs : PathReady s) (h0 : 0 ∉ path) (flags : UInt8) :
    Exec.Post (openTarget path flags) s (fun target u => match target with
      | .refused => True
      | .create ptr name => path.getLast? ≠ some slash ∧ NewEntryIn s u path ptr name
      | .existing no => no.toNat < 4096 ∧ Layout u.part) (· = .badPointer) := by
  have hrefuse (ptr : DirPtr) (v : Fs) : Exec.Post (do dirClose ptr; pure OpenTarget.refused) v
      (fun target u => match target with
        | .refused => True
        | .create ptr name => path.getLast? ≠ some slash ∧ NewEntryIn s u path ptr name
        | .existing no => no.toNat < 4096 ∧ Layout u.part) (· = .badPointer) :=
    Exec.Post.bind (calm_dirClose ptr) fun _ _ _ => trivial
  have hne : path ≠ [] := by
    rintro rfl
    cases h.absolute
  rw [Winx.openTarget, Exec.post_bind, post_inBounds]
  refine ⟨fun _ => ?_, fun hbad => absurd hne hbad⟩
  split
  · trivial
  · rename_i hlast
    split
    · trivial
    · rw [Exec.post_bind_of_ok (pathDepthCnt_components h.short h.components_ne)]
      refine (searchFile_ends hs.toTreeOk h.toPathParsed h0 h.names h.components_ne).bind ?_
      intro r u hends
      cases hends with
      | @missing d name walked rest ptr k u hr hjoin hat =>
        obtain ⟨hover, hholds⟩ := hat.over hs.toVisitable (hs.number d hr.isDir)
        have hnot : ftUnknown ≠ ftDirectory := by decide
        dsimp only
        rw [if_neg hnot, Exec.post_bind_of_ok (pathDepthCnt_walked h.short hjoin)]
        split
        · exact hrefuse _ _
        · rename_i hdepth
          split
          · exact hrefuse _ _
          · split
            · exact hrefuse _ _
            · split
              · rw [not_not, ← hjoin, List.length_append, List.length_cons] at hdepth
                obtain rfl : rest = [] := List.length_eq_zero_iff.mp (by omega)
                rw [h.toPathParsed.filename hlast hjoin, pure_bind]
                exact ⟨hlast, hat.fileTable, d, hr, hover, hholds⟩
              · rename_i hmiss _ hcreat
                exact absurd ⟨rfl, not_not.mp hcreat⟩ hmiss
      | @file d name walked rest e ptr k u hr hjoin hf htype hat =>
        obtain ⟨hover, hholds⟩ := hat.over hs.toVisitable (hs.number d hr.isDir)
        have hno := hs.numbers d hr.isDir e hf.mem.1
        have hnot : ftRegular ≠ ftDirectory := by decide
        dsimp only
        rw [if_neg hnot, Exec.post_bind_of_ok (pathDepthCnt_walked h.short hjoin)]
        split
        · exact hrefuse _ _
        · split
          · exact hrefuse _ _
          · split
            · exact hrefuse _ _
            · rename_i hmiss hfound
              have hneg : (e.iNo.toNat : Int) ≠ -1 := by omega
              rw [if_neg fun hcreat => hfound ⟨hneg, hcreat⟩, UInt32.ofInt_toNat]
              exact ⟨hno, hover.layout hs.layout⟩
      | dir hr hprev hat =>
        dsimp only
        rw [if_pos rfl]
        exact hrefuse _ _

/-- An entry can be added to the directory that is open on top. -/
theorem PathReady.insertable (hs : PathReady s) (hover : Over s u) (hd : IsDir s d)
    (hholds : u.Holds ptr d) : ∃ o i, Insertable u ptr o i ∧
      ∀ k, FullBlock u.disk i k ↔ FullBlock s.disk (curInode s d.toNat) k := by
  obtain ⟨o, c, ho, -, hi⟩ := hholds.object hover
  have htidy := hover.tidy (hs.tidy d hd) c
  refine ⟨o, _, ⟨htidy.toDirBlocks, ho, hi, htidy.toDirOk.size_mod, ?_⟩, fun k => ?_⟩
  · obtain ⟨l, hpart⟩ := hover.part
    rw [hpart]
    exact hs.free
  · rw [hover.disk]
    exact Iff.rfl

/-- A new entry has a short name, and a place where there is room for it. -/
theorem NewEntryIn.insertable (hin : NewEntryIn s u path ptr name) (h : PathFits s path)
    (hs : PathReady s) : name.length < 16 ∧ ∃ o i, Insertable u ptr o i ∧
      (s.RoomForEntry path → ∃ k < 12, ¬ FullBlock u.disk i k) := by
  obtain ⟨-, d, hr, hover, hholds⟩ := hin
  obtain ⟨o, i, hins, hfull⟩ := hs.insertable hover hr.isDir hholds
  refine ⟨Nat.lt_succ_of_le (h.names.here d [name] hr), o, i, hins, fun hroom => ?_⟩
  obtain ⟨k, hk, hnot⟩ := h.place d name hr hroom
  exact ⟨k, hk, fun hf => hnot ((hfull k).mp hf)⟩

theorem PathFits.sysOpen (h : PathFits s path) (hs : PathReady s) (h0 : 0 ∉ path) (flags : UInt8) :
    Safe (sysOpen path flags) s := by
  rw [sysOpen_eq]
  refine (h.openTarget hs h0 flags).bind fun target u htarget => ?_
  cases target with
  | refused => exact trivial
  | create ptr name =>
    obtain ⟨hlast, hin⟩ := htarget
    obtain ⟨hname, o, i, hins, hplace⟩ := hin.insertable h hs
    obtain ⟨hfile, d, -, hover, -⟩ := hin
    have hslot : u.freeSlot = s.freeSlot := by rw [Fs.freeSlot, hfile, Fs.freeSlot]
    have hbits : u.part.inodeBitmap = s.part.inodeBitmap := by
      obtain ⟨l, hpart⟩ := hover.part
      rw [hpart]
      rfl
    refine (hins.fileCreate hover.toOpenable hname fun hbit hfree => hplace ?_).bind fun fd v _ => ?_
    · rw [hbits] at hbit
      rw [hslot] at hfree
      exact ⟨hbit, .inr ⟨hlast, hfree⟩⟩
    · exact (calm_close ptr fd).safe
  | existing no => exact (calm_fileOpen htarget.2 htarget.1 _).safe

end Open

section Mkdir

/-- Where `sys_mkdir` goes on, there is a place for the entry. -/
theorem PathFits.mkdirTarget (h : PathFits s path) (hs : PathReady s) (h0 : 0 ∉ path) :
    Exec.Post (mkdirTarget path) s (fun r u => ∀ ptr name, r = some (ptr, name) →
      NewEntryIn s.tick u path ptr name) (· = .badPointer) := by
  have hrefuse (ptr : DirPtr) (v : Fs) :
      Exec.Post (do dirClose ptr; pure (none : Option (DirPtr × List UInt8))) v
        (fun r u => ∀ ptr name, r = some (ptr, name) → NewEntryIn s.tick u path ptr name)
        (· = .badPointer) :=
    Exec.Post.bind (calm_dirClose ptr) fun _ _ _ => nofun
  rw [Winx.mkdirTarget, Exec.post_bind, post_sysMalloc]
  split
  · have hs' : PathReady s.tick := hs.given
    have h' : PathFits s.tick path := h.given
    refine (searchFile_ends hs'.toTreeOk h.toPathParsed h0 h'.names h.components_ne).bind ?_
    intro r u hends
    cases hends with
    | @missing d name walked rest ptr k u hr hjoin hat =>
      obtain ⟨hover, hholds⟩ := hat.over hs'.toVisitable (hs'.number d hr.isDir)
      dsimp only
      rw [if_neg (not_not.mpr rfl),
        Exec.post_bind_of_ok (pathDepthCnt_components h.short h.components_ne),
        Exec.post_bind_of_ok (pathDepthCnt_walked h.short hjoin)]
      split
      · exact hrefuse _ _
      · rename_i hdepth
        rw [not_not, ← hjoin, List.length_append, List.length_cons] at hdepth
        obtain rfl : rest = [] := List.length_eq_zero_iff.mp (by omega)
        rw [afterLastSlash_walked hjoin, pure_bind]
        rintro ptr' name' heq
        obtain ⟨rfl, rfl⟩ := Prod.mk.inj (Option.some.inj heq)
        exact ⟨hat.fileTable, d, hr, hover, hholds⟩
    | @file d name walked rest e ptr k u hr hjoin hf htype hat =>
      have hneg : (e.iNo.toNat : Int) ≠ -1 := by omega
      dsimp only
      rw [if_pos hneg]
      exact hrefuse _ _
    | @dir d prev ptr k u hr hprev hat =>
      have hneg : (d.toNat : Int) ≠ -1 := by omega
      dsimp only
      rw [if_pos hneg]
      exact hrefuse _ _
  · exact nofun

/-- Once the block of a new directory is filled there is still room for its entry. -/
theorem Insertable.mkdirBlock_made (h : Insertable s dir o i) (no : UInt32)
    (hfirst : s.part.blockBitmap.scanTest 0 = true) (hname : name.length < 16) :
    Exec.Returns (Winx.mkdirBlock dir name no) s fun r v => s.part.Alike v.part ∧
      (r = none ↔ s.part.blockBitmap.scan 1 = none) ∧ ∀ block, r = some block → v.junk = s.junk ∧
        Insertable v dir o i ∧ ∀ k, FullBlock v.disk i k ↔ FullBlock s.disk i k := by
  have hreturns := (h.mkdirBlock no hfirst hname).and
    (Exec.Ensures.and (mkdirBlock_spec h.layout name)
      (Winx.mkdirBlock_made h.toDirBlocks h.dirOf h.inode name))
  refine hreturns.mono ?_
  rintro r v ⟨hnone, ⟨hsame, hset⟩, hmade⟩
  cases r with
  | none =>
    rw [hsame rfl]
    exact ⟨.refl _, hnone, by simp⟩
  | some block =>
    obtain ⟨newDirInode, o', e⟩ := block
    obtain ⟨rfl, -, lba, j, d, b, -, rfl, -, hblocks, -, hfull⟩ := hmade _ _ _ rfl
    obtain ⟨l, d', -, hgrow⟩ := hset nofun
    have hpart := congrArg Fs.part hgrow
    change (s.grow o'.inode d b i).part = s.part.setBlockBitmap (s.part.blockBitmap.set l true) at hpart
    have halike : s.part.Alike (s.grow o'.inode d b i).part := by
      rw [hpart]
      exact ⟨rfl, rfl, rfl, rfl, rfl⟩
    refine ⟨halike, hnone, ?_⟩
    rintro block heq
    obtain rfl := Option.some.inj heq
    refine ⟨rfl, ⟨hblocks, ?_, Function.update_self .., h.size_mod, ?_⟩, hfull⟩
    · rw [← h.dirOf]
      cases dir <;> rfl
    · rw [hpart]
      intro j hj hclear
      refine h.free j hj ?_
      change (s.part.blockBitmap.set l true).scanTest j = false at hclear
      rw [Bitmap.scanTest_set] at hclear
      split at hclear
      · cases hclear
      · exact hclear

/-- `sys_mkdir` after the path is looked up. -/
theorem Insertable.mkdirRun (h : Insertable s dir o i)
    (hfirst : s.part.blockBitmap.scanTest 0 = true) (hname : name.length < 16)
    (hplace : s.part.inodeBitmap.scan 1 ≠ none → s.part.blockBitmap.scan 1 ≠ none →
      ∃ k < 12, ¬ FullBlock s.disk i k) : Safe (mkdirRun (some (dir, name))) s := by
  rw [Winx.mkdirRun, Safe, Exec.post_bind, post_inodeBitmapAlloc]
  refine ⟨fun _ => (calm_close dir _).safe, fun j hj => ?_⟩
  obtain ⟨hlt, -, -⟩ := Bitmap.scan_one_eq_some_iff.mp hj
  have hno : (UInt32.ofNat j).toNat < 4096 := by
    have hlen := h.layout.inodeBitmap_len
    change j < 8 * s.part.inodeBitmap.btmpBytesLen at hlt
    rw [Word.toNat_ofNat (by omega)]
    omega
  have htaken : Insertable (s.takeNumber j) dir o i :=
    h.frame rfl ⟨rfl, rfl, rfl, rfl, rfl⟩ rfl (by cases dir <;> rfl) rfl
  refine (htaken.mkdirBlock_made _ hfirst hname).bind ?_
  rintro block v ⟨hpart, hnone, hblock⟩
  have hend (w : Fs) (hw : Layout w.part) : Safe (do
      clearInodeBit (UInt32.ofNat j)
      dirClose dir
      pure (-1) : FsM Int) w :=
    (calm_clearInodeBit hw hno).then fun _ _ _ => (calm_close dir _).safe
  have hlayout := hpart.layout htaken.layout
  cases block with
  | none => exact hend v hlayout
  | some block =>
    obtain ⟨-, hins, hfull⟩ := hblock block rfl
    have hscan : s.part.blockBitmap.scan 1 ≠ none := by
      intro hno
      cases hnone.mpr hno
    obtain ⟨newDirInode, o', e⟩ := block
    have hplace' : ∃ k < 12, ¬ FullBlock v.disk i k := by
      obtain ⟨k, hk, hnot⟩ := hplace (by simp [hj]) hscan
      exact ⟨k, hk, fun hf => hnot ((hfull k).mp hf)⟩
    have hentry : Calm (mkdirEntry dir (UInt32.ofNat j) (some (newDirInode, o', e))) v := by
      rw [mkdirEntry, Calm]
      refine (hins.syncDirEntry hplace').bind fun ok w hw => ?_
      refine Exec.Post.mono (Q := fun _ w' => w.part.Alike w'.part) ?_ (fun _ _ => hw.trans) fun _ => id
      cases ok with
      | false => exact .refl _
      | true =>
        have hlw := hw.layout hlayout
        refine (calm_derefInode _).bind fun parentInode w₁ h₁ => ?_
        have hl₁ := h₁.layout hlw
        refine (calm_inodeSync hl₁ _).bind fun _ w₂ h₂ => ?_
        have hl₂ := h₂.layout hl₁
        refine (calm_inodeSync hl₂ _).bind fun _ w₃ h₃ => ?_
        exact (calm_inodeBitmapSync (h₃.layout hl₂) hno).bind fun _ w₄ _ => calm_pure true
    refine hentry.then fun ok w hw => ?_
    cases ok with
    | true => exact (calm_close dir _).safe
    | false => exact hend w (hw.layout hlayout)

theorem PathFits.sysMkdir (h : PathFits s path) (hs : PathReady s) (h0 : 0 ∉ path) :
    Safe (sysMkdir path) s := by
  rw [sysMkdir_eq]
  refine (h.mkdirTarget hs h0).bind fun target u htarget => ?_
  cases target with
  | none => exact trivial
  | some target =>
    obtain ⟨ptr, name⟩ := target
    have hin := htarget ptr name rfl
    obtain ⟨hname, o, i, hins, hplace⟩ := hin.insertable h.given hs.given
    obtain ⟨-, d, -, hover, -⟩ := hin
    obtain ⟨l, hpart⟩ := hover.part
    have hinodes : u.part.inodeBitmap = s.part.inodeBitmap := by rw [hpart]; rfl
    have hblocks : u.part.blockBitmap = s.part.blockBitmap := by rw [hpart]; rfl
    refine hins.mkdirRun ?_ hname fun hnumber hblock => hplace ?_
    · rw [hblocks]
      exact hs.firstBlock
    · rw [hinodes] at hnumber
      rw [hblocks] at hblock
      exact ⟨hnumber, .inl hblock⟩

end Mkdir

section Others

theorem Over.tick (h : Over s u) : Over s u.tick where
  running := h.running
  dirs := h.dirs
  inode_lt := h.inode_lt
  opened := h.opened
  disk := h.disk
  part := h.part
  inode := h.inode

theorem Fs.Holds.tick (h : u.Holds ptr d) : u.tick.Holds ptr d := by
  obtain ⟨o, ho, hfind⟩ := h
  refine ⟨o, ?_, hfind⟩
  rw [← ho]
  cases ptr <;> rfl

/-- Deleting the entry of an inode and the inode. -/
theorem PathReady.deleteEntry (hs : PathReady s) (hover : Over s u) (hd : IsDir s d)
    (hholds : u.Holds ptr d) (hno : UsedInode s no.toNat) (hx : ∀ v, Calm x v) : Calm (do
      let _ ← Winx.deleteDirEntry ptr no
      inodeRelease no
      x) u := by
  refine Exec.Post.bind (hs.deleteDirEntry hover hd hholds no) fun _ v hv => ?_
  have hlayout := hv.1.layout (hover.layout hs.layout)
  have hrelease := (calm_inodeRelease hlayout hno.1 (hv.2 no hno)).bind fun _ w _ => hx w
  exact hrelease.mono (fun _ _ => hv.1.trans) fun _ => id

/-- Opening a directory on top of what is open. -/
theorem PathReady.openOver (hs : PathReady s) (hover : Over s u) (hd : IsDir s d) :
    Exec.Post (dirOpen d) u (fun new v => Over s v ∧ v.Holds new d ∧
      ∀ ptr d', u.Holds ptr d' → v.Holds ptr d') (· = .badPointer) := by
  rw [post_dirOpen (hover.layout hs.layout) (hs.number_lt hd)]
  exact ⟨fun _ => hover.openDir (hs.number d hd) _, fun _ => rfl⟩

/-- A directory that is found to be empty can be removed. -/
theorem PathReady.dirRemove (hs : PathReady s) (hover : Over s u) (hd : IsDir s d)
    {prev : UInt32} (hprev : IsDir s prev) {new : DirPtr} (hnew : u.Holds new d)
    (hold : u.Holds ptr prev) : Exec.Returns (dirIsEmpty new) u fun r v => v = u ∧
      (r = true → Calm (Winx.dirRemove ptr new) u) := by
  obtain ⟨o, c, ho, -, hi⟩ := hnew.object hover
  have htidy := hover.tidy (hs.tidy d hd) c
  refine (htidy.emptinessRight ho hi).mono ?_
  rintro r v ⟨rfl, -, hempty⟩
  refine ⟨rfl, fun hr => ?_⟩
  obtain ⟨hsectors, -⟩ := hempty hr
  have hall : (List.range' 1 12).all (fun k =>
      ((curInode s d.toNat).setOpenCnts c).sector k == 0) = true := by
    rw [List.all_eq_true]
    intro k hk
    obtain ⟨hle, hlt⟩ := List.mem_range'_1.mp hk
    exact beq_iff_eq.mpr (hsectors k hle (by omega))
  rw [Calm, Winx.dirRemove, Exec.post_bind, post_derefDir]
  refine ⟨fun o' ho' => ?_, fun _ => rfl⟩
  obtain rfl := Option.some.inj (ho.symm.trans ho')
  rw [Exec.post_bind, post_derefInode]
  refine ⟨fun i' hi' => ?_, fun _ => rfl⟩
  obtain rfl := Option.some.inj (hi.symm.trans hi')
  rw [Exec.post_bind, post_assert]
  refine ⟨fun _ => ?_, fun hbad => absurd hall hbad⟩
  rw [Exec.post_bind, post_sysMalloc]
  split
  · have hno : ((curInode s d.toNat).setOpenCnts c).iNo = d := hs.number d hd
    rw [hno]
    exact hs.deleteEntry hover.tick hprev hold.tick (hs.used d hd) fun _ => calm_pure _
  · exact .refl _

theorem PathFits.sysUnlink (h : PathFits s path) (hs : PathReady s) (h0 : 0 ∉ path) :
    Safe (sysUnlink path) s := by
  rw [Winx.sysUnlink, Safe, Exec.post_bind, post_assert]
  refine ⟨fun _ => ?_, fun hbad => absurd (Nat.lt_succ_of_le h.length_le) hbad⟩
  refine (searchFile_ends hs.toTreeOk h.toPathParsed h0 h.names h.components_ne).bind ?_
  intro r u hends
  cases hends with
  | missing hr hjoin hat => exact (calm_close _ _).safe
  | @file d name walked rest e ptr k u hr hjoin hf htype hat =>
    obtain ⟨hover, hholds⟩ := hat.over hs.toVisitable (hs.number d hr.isDir)
    obtain ⟨hused, hnot⟩ := hs.regular d hr.isDir e hf.mem.1 htype
    have hzero : (e.iNo.toNat : Int) ≠ 0 := by
      intro heq
      have hno : e.iNo = 0 := UInt32.toNat_inj.mp (by exact_mod_cast heq)
      exact hnot (hno ▸ .root)
    have hneg : (e.iNo.toNat : Int) ≠ -1 := by omega
    have htype' : ftRegular ≠ ftDirectory := by decide
    dsimp only
    rw [Exec.post_bind, post_assert]
    refine ⟨fun _ => ?_, fun hbad => absurd hzero hbad⟩
    rw [if_neg hneg, if_neg htype', UInt32.ofInt_toNat, Exec.post_bind, Exec.post_get]
    split
    · exact (calm_close _ _).safe
    · rw [Exec.post_bind, post_sysMalloc]
      split
      · exact (hs.deleteEntry hover.tick hr.isDir hholds.tick hused fun _ => calm_close ptr _).safe
      · exact (calm_close _ _).safe
  | @dir d prev ptr k u hr hprev hat =>
    have hzero : (d.toNat : Int) ≠ 0 := by
      intro heq
      have hno : d = 0 := UInt32.toNat_inj.mp (by exact_mod_cast heq)
      exact h.elsewhere (hno ▸ hr)
    have hneg : (d.toNat : Int) ≠ -1 := by omega
    dsimp only
    rw [Exec.post_bind, post_assert]
    refine ⟨fun _ => ?_, fun hbad => absurd hzero hbad⟩
    rw [if_neg hneg, if_pos rfl]
    exact (calm_close _ _).safe

theorem PathFits.sysRmdir (h : PathFits s path) (hs : PathReady s) (h0 : 0 ∉ path) :
    Safe (sysRmdir path) s := by
  rw [Winx.sysRmdir, Safe]
  refine (searchFile_ends hs.toTreeOk h.toPathParsed h0 h.names h.components_ne).bind ?_
  intro r u hends
  cases hends with
  | missing hr hjoin hat =>
    exact (calm_close _ _).safe
  | @file d name walked rest e ptr k u hr hjoin hf htype hat =>
    obtain ⟨hused, hnot⟩ := hs.regular d hr.isDir e hf.mem.1 htype
    have hzero : (e.iNo.toNat : Int) ≠ 0 := by
      intro heq
      have hno : e.iNo = 0 := UInt32.toNat_inj.mp (by exact_mod_cast heq)
      exact hnot (hno ▸ .root)
    have hneg : (e.iNo.toNat : Int) ≠ -1 := by omega
    dsimp only
    rw [Exec.post_bind, post_assert]
    refine ⟨fun _ => ?_, fun hbad => absurd hzero hbad⟩
    rw [if_neg hneg, if_pos rfl, pure_bind]
    exact (calm_close _ _).safe
  | @dir d prev ptr k u hr hprev hat =>
    obtain ⟨hover, hholds⟩ := hat.over hs.toVisitable (hs.number prev hprev)
    have hzero : (d.toNat : Int) ≠ 0 := by
      intro heq
      have hno : d = 0 := UInt32.toNat_inj.mp (by exact_mod_cast heq)
      exact h.elsewhere (hno ▸ hr)
    have hneg : (d.toNat : Int) ≠ -1 := by omega
    have htype' : ftDirectory ≠ ftRegular := by decide
    dsimp only
    rw [Exec.post_bind, post_assert]
    refine ⟨fun _ => ?_, fun hbad => absurd hzero hbad⟩
    rw [if_neg hneg, if_neg htype', UInt32.ofInt_toNat]
    refine (hs.openOver hover hr.isDir).bind ?_
    rintro new v ⟨hover', hnew, hkept⟩
    have hclose (retval : Int) (w : Fs) : Safe (do
        dirClose new
        dirClose ptr
        pure retval) w := (calm_dirClose new).then fun _ _ _ => (calm_close ptr retval).safe
    refine (hs.dirRemove hover' hr.isDir hprev hnew (hkept _ _ hholds)).bind ?_
    rintro isEmpty v' ⟨rfl, hremove⟩
    split
    · rename_i hyes
      exact (hremove hyes).then fun ret w _ => hclose _ w
    · exact hclose _ _

theorem PathFits.sysOpendir (h : PathFits s path) (hs : PathReady s) (h0 : 0 ∉ path) :
    Safe (sysOpendir path) s := by
  rw [Winx.sysOpendir, Safe, Exec.post_bind, post_assert]
  refine ⟨fun _ => ?_, fun hbad => absurd (Nat.lt_succ_of_le h.length_le) hbad⟩
  split
  · trivial
  · refine (searchFile_ends hs.toTreeOk h.toPathParsed h0 h.names h.components_ne).bind ?_
    intro r u hends
    dsimp only
    split
    · rename_i hdir
      cases hends with
      | missing hr hjoin hat => exact absurd rfl hdir.1
      | file hr hjoin hf htype hat => exact absurd hdir.2 (by decide : ftRegular ≠ ftDirectory)
      | @dir d prev ptr k u hr hprev hat =>
        obtain ⟨hover, -⟩ := hat.over hs.toVisitable (hs.number prev hprev)
        dsimp only
        rw [UInt32.ofInt_toNat]
        refine (calm_dirOpen (hover.layout hs.layout) (hs.number_lt hr.isDir)).then fun new v _ => ?_
        exact (calm_close ptr _).safe
    · exact (calm_close _ _).safe

theorem PathFits.sysChdir (h : PathFits s path) (hs : PathReady s) (h0 : 0 ∉ path) :
    Safe (sysChdir path) s := by
  rw [Winx.sysChdir, Safe]
  refine (searchFile_ends hs.toTreeOk h.toPathParsed h0 h.names h.components_ne).bind ?_
  intro r u hends
  dsimp only
  split
  · rw [modifyThread, Exec.post_bind, Exec.post_modify, pure_bind]
    exact (calm_close _ _).safe
  · rw [pure_bind]
    exact (calm_close _ _).safe

theorem PathFits.sysStat (h : PathFits s path) (hs : PathReady s) (h0 : 0 ∉ path) :
    Safe (sysStat path) s := by
  have hroot : ¬ (path = [slash] ∨ path = [slash, 46] ∨ path = [slash, 46, 46]) := h.notRoot
  rw [Winx.sysStat, Safe, if_neg hroot]
  refine (searchFile_ends hs.toTreeOk h.toPathParsed h0 h.names h.components_ne).bind ?_
  intro r u hends
  have hstat (no : UInt32) (hno : no.toNat < 4096) (hl : Layout u.part) : Safe (do
      let p ← inodeOpen no
      let inode ← derefInode p
      inodeClose p
      dirClose r.2.parentDir
      pure ((0 : Int), some (⟨no, inode.iSize, r.2.fileType⟩ : Stat))) u := by
    refine (calm_inodeOpen hl hno).then fun p v _ => ?_
    refine (calm_derefInode p).then fun i w _ => ?_
    exact (calm_inodeClose p).then fun _ _ _ => (calm_close _ _).safe
  dsimp only
  split
  · rename_i hfound
    cases hends with
    | missing hr hjoin hat => exact absurd rfl hfound
    | @file d name walked rest e ptr k u hr hjoin hf htype hat =>
      obtain ⟨hover, -⟩ := hat.over hs.toVisitable (hs.number d hr.isDir)
      have hno := hs.numbers d hr.isDir e hf.mem.1
      rw [UInt32.ofInt_toNat]
      exact hstat e.iNo hno (hover.layout hs.layout)
    | @dir d prev ptr k u hr hprev hat =>
      obtain ⟨hover, -⟩ := hat.over hs.toVisitable (hs.number prev hprev)
      rw [UInt32.ofInt_toNat]
      exact hstat d (hs.number_lt hr.isDir) (hover.layout hs.layout)
  · rw [pure_bind]
    exact (calm_close _ _).safe

end Others

end Winx
