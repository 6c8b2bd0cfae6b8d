import Winx.Fs.PathCalls

/-! # Paths that make a call fail

A path that does not fit the tree makes a call fail an assertion or leave a buffer, for
some content of the memory. Which call it is depends on what is wrong with the path:
`sys_chdir` and `sys_unlink` look it up, `sys_mkdir` also counts its components, and
`sys_mkdir` and `sys_open` put the new entry into a directory without a place.
-/

namespace Winx

variable {s u v : Fs} {path name : List UInt8} {d : UInt32} {ptr : DirPtr} {o : Dir} {i : Inode}
  {c : PathCall} {α β : Type} {x : FsM α} {f : α → FsM β} {junk : ℕ → UInt32} {mallocs : ℕ → Bool}

section Fits

theorem safe_map {g : α → β} : Safe (g <$> x) s ↔ Safe x s := by
  rw [Safe, Exec.post_map]
  rfl

end Fits

section Faults

theorem NeverPanics.safe (h : NeverPanics s path) (c : PathCall) (junk : ℕ → UInt32)
    (mallocs : ℕ → Bool) : Safe (c.run path) (s.given junk mallocs) :=
  (h c junk mallocs).mono (fun _ _ _ => trivial) fun _ he => he.1

theorem Safe.of_bind (h : Safe (x >>= f) s) : Safe x s := by
  rw [Safe, Exec.post_bind] at h
  exact h.mono (fun _ _ _ => trivial) fun _ => id

theorem Safe.bind_ok (h : Safe (x >>= f) s) {a : α} (hx : x s = .ok (a, u)) : Safe (f a) u := by
  rwa [Safe, Exec.post_bind_of_ok hx] at h

theorem not_safe_error {e : Fault} (h : Safe x s) (hx : x s = .error e) : e = .badPointer := by
  rwa [Safe, Exec.post_of_error hx] at h

theorem NeverPanics.unlink (h : NeverPanics s path) (junk : ℕ → UInt32) (mallocs : ℕ → Bool) :
    Safe (sysUnlink path) (s.given junk mallocs) := safe_map.mp (h.safe .unlink junk mallocs)

/-- `sys_chdir` begins with the lookup. -/
theorem NeverPanics.search (h : NeverPanics s path) (junk : ℕ → UInt32) (mallocs : ℕ → Bool) :
    Safe (searchFile path) (s.given junk mallocs) :=
  (safe_map.mp (h.safe .chdir junk mallocs)).of_bind

/-- `sys_unlink` asserts that the lookup does not end at the root directory. -/
theorem NeverPanics.search_ne_zero (h : NeverPanics s path) (hlen : path.length < 512)
    {record : PathSearchRecord} (hcall : searchFile path (s.given junk mallocs) = .ok ((0, record), u)) :
    False := by
  have hunlink := h.unlink junk mallocs
  rw [sysUnlink, assert, if_pos hlen, pure_bind] at hunlink
  have hassert := (hunlink.bind_ok hcall).of_bind
  rw [Safe, post_assert] at hassert
  cases hassert.2 (not_not_intro rfl)

theorem NeverPanics.parsed (h : NeverPanics s path) : PathParsed path := by
  have hnotRoot : ¬ IsRootPath path := by
    intro hroot
    have hlen : path.length < 512 := by
      rcases hroot with rfl | rfl | rfl
      · decide
      · decide
      · decide
    have hif : path = [slash] ∨ path = [slash, 46] ∨ path = [slash, 46, 46] := hroot
    have hcall : searchFile path (s.given s.junk s.mallocs) =
        .ok ((0, ⟨[], .rootDir, ftDirectory⟩), s.given s.junk s.mallocs) := by
      rw [searchFile, if_pos hif]
      rfl
    exact h.search_ne_zero hlen hcall
  have hsearch := h.search s.junk s.mallocs
  have hif : ¬ (path = [slash] ∨ path = [slash, 46] ∨ path = [slash, 46, 46]) := hnotRoot
  rw [searchFile, if_neg hif] at hsearch
  have hassert := Safe.of_bind (hsearch.bind_ok rfl)
  rw [Safe, post_assert] at hassert
  by_cases hpath : path.head? = some slash ∧ 1 < path.length ∧ path.length < 512
  · exact ⟨hpath.1, Nat.le_of_lt_succ hpath.2.2, hnotRoot⟩
  · cases hassert.2 hpath

/-- With enough memory the lookup comes to every directory on its way. -/
theorem NeverPanics.searching (h : NeverPanics s path) (hs : TreeOk s) (h0 : 0 ∉ path)
    {rest : List (List UInt8)} (hw : Reaches s (components path) d rest) :
    ∃ k, ∀ junk mallocs, junk 1 = 0 → (∀ n < k, mallocs n = true) →
      ∃ ptr u prev walked st fuel,
        Searching (s.given junk mallocs) path k d rest ptr u prev walked st fuel := by
  obtain ⟨k, hk⟩ := hw.searching hs h.parsed h0
  refine ⟨k, fun junk mallocs hjunk hm => (hk junk mallocs hjunk hm).resolve_left fun hcall => ?_⟩
  cases not_safe_error (h.search junk mallocs) hcall

/-- What the next turn of the lookup needs to know of the path. -/
theorem Searching.turn {k fuel : ℕ} {rest : List (List UInt8)} {prev : UInt32}
    {walked : List (List UInt8)} {st : SearchState} (hpath : PathParsed path) (h0 : 0 ∉ path)
    (hr : Searching s path k d (name :: rest) ptr u prev walked st fuel) :
    name ≠ [] ∧ 0 ∉ name ∧ (joinPath walked).length < 512 := by
  have hmem : name ∈ components path := by
    rw [← hr.join]
    simp
  obtain ⟨hne, hnul⟩ := components_noNul h0 name hmem
  have hlen := hpath.length_joinPath
  rw [← hr.join, joinPath, List.flatMap_append, List.length_append] at hlen
  exact ⟨hne, hnul, lt_of_le_of_lt (Nat.le_add_right _ _) hlen⟩

theorem NeverPanics.namesFit (h : NeverPanics s path) (hs : TreeOk s) (h0 : 0 ∉ path) :
    NamesFit s (components path) := by
  constructor
  · intro d rest hw
    obtain ⟨k, hk⟩ := h.searching hs h0 hw
    obtain ⟨ptr, u, prev, walked, st, fuel, hr⟩ := hk (fun _ => 0) (fun _ => true) rfl fun _ _ => rfl
    exact hr.fits
  · intro d name rest e hw hf
    obtain ⟨k, hk⟩ := h.searching hs h0 hw
    obtain ⟨ptr, u, prev, walked, st, fuel, hr⟩ := hk (fun _ => 0) (fun _ => true) rfl fun _ _ => rfl
    obtain ⟨hne, hnul, hlen⟩ := hr.turn h.parsed h0
    obtain ⟨fuel, rfl⟩ := Nat.exists_eq_add_one.mpr (Nat.zero_lt_of_lt hr.enough)
    have hdir : IsDir (s.given (fun _ => 0) fun _ => true) d := (hw.given).isDir
    rcases searchLoop_turn fuel hs.given hdir hr.opened hr.vars hne hnul hr.fits hlen with
      ⟨hmiss, -⟩ | ⟨-, ⟨n, hn, -⟩, -⟩ | ⟨-, e', -, ⟨-, hcall⟩ | ⟨hfit, -⟩⟩
    · rcases hmiss with hno | hmiss
      · cases hno
      · exact absurd hf.given (hmiss e)
    · cases hn
    · cases not_safe_error (h.search _ _) (hr.run.trans hcall)
    · exact hfit

theorem NeverPanics.elsewhere (h : NeverPanics s path) (hs : TreeOk s) (h0 : 0 ∉ path) :
    ¬ Reaches s (components path) 0 [] := by
  intro hw
  obtain ⟨k, hk⟩ := h.searching hs h0 hw
  obtain ⟨ptr, u, prev, walked, st, fuel, hr⟩ := hk (fun _ => 0) (fun _ => true) rfl fun _ _ => rfl
  obtain ⟨fuel, rfl⟩ := Nat.exists_eq_add_one.mpr (Nat.zero_lt_of_lt hr.enough)
  rcases searchLoop_last fuel hs.given hr.prev hr.opened hr.vars with ⟨⟨n, -, hn⟩, -⟩ | ⟨ptr', u', -, hcall⟩
  · cases hn
  · rw [hr.dirE] at hcall
    exact h.search_ne_zero (Nat.lt_succ_of_le h.parsed.length_le) (hr.run.trans hcall)

theorem Reaches.ne_nil (h : ¬ Reaches s (components path) 0 []) : components path ≠ [] := by
  intro hnil
  rw [hnil] at h
  exact h .root

/-- Out of memory, the lookup answers that the next name is missing. -/
theorem NeverPanics.missing (h : NeverPanics s path) (hs : TreeOk s) (h0 : 0 ∉ path)
    {rest : List (List UInt8)} (hw : Reaches s (components path) d (name :: rest)) :
    ∃ k, ∀ junk mallocs, junk 1 = 0 → (∀ n < k, mallocs n = true) → mallocs k = false →
      ∃ walked ptr v, walked ++ name :: rest = components path ∧
        At (s.given junk mallocs) (k + 1) d ptr v ∧ searchFile path (s.given junk mallocs) =
          .ok ((-1, ⟨joinPath (walked ++ [name]), ptr, ftUnknown⟩), v) := by
  obtain ⟨k, hk⟩ := h.searching hs h0 hw
  refine ⟨k, fun junk mallocs hjunk hm hno => ?_⟩
  obtain ⟨ptr, u, prev, walked, st, fuel, hr⟩ := hk junk mallocs hjunk hm
  obtain ⟨hne, hnul, hlen⟩ := hr.turn h.parsed h0
  obtain ⟨fuel, rfl⟩ := Nat.exists_eq_add_one.mpr (Nat.zero_lt_of_lt hr.enough)
  have hdir : IsDir (s.given junk mallocs) d := hw.given.isDir
  have hmalloc : (s.given junk mallocs).mallocs k = false := hno
  rcases searchLoop_turn fuel hs.given hdir hr.opened hr.vars hne hnul hr.fits hlen with
    ⟨-, v, -, hat, hcall⟩ | ⟨hyes, -⟩ | ⟨hyes, -⟩
  · exact ⟨walked, ptr, v, hr.join, hat hmalloc, hr.run.trans hcall⟩
  · cases hmalloc.symm.trans hyes
  · cases hmalloc.symm.trans hyes

/-- The part of `sys_mkdir` after the lookup answers that a name is missing. -/
theorem mkdirTarget_missing {k : ℕ} {record : PathSearchRecord}
    (hcall : searchFile path (s.given junk fun n => n != k) = .ok ((-1, record), v)) :
    mkdirTarget path (s.given junk fun n => n != k + 1) = (do
      let pathnameDepth ← pathDepthCnt path
      let pathSearchedDepth ← pathDepthCnt record.searchedPath
      if pathnameDepth ≠ pathSearchedDepth then
        dirClose record.parentDir
        pure none
      else
        let dirname ← afterLastSlash record.searchedPath
        pure (some (record.parentDir, dirname)) : FsM (Option (DirPtr × List UInt8))) v := by
  have hmalloc : sysMalloc (s.given junk fun n => n != k + 1) =
      .ok (true, s.given junk fun n => n != k) := by
    have hne : (0 != k + 1) = true := bne_iff_ne.mpr (Nat.succ_ne_zero k).symm
    rw [Exec.eq_ok_iff, Exec.Returns, post_sysMalloc]
    refine ⟨hne, ?_⟩
    change s.given junk (fun n => n + 1 != k + 1) = _
    exact congrArg (s.given junk) (funext fun n => by simp [bne])
  rw [mkdirTarget, Exec.bind_eq_ok hmalloc, if_pos rfl, Exec.bind_eq_ok hcall]
  dsimp only
  rw [if_neg (not_not_intro rfl)]

/-- `sys_mkdir` counts the components of a path whose first name is missing. -/
theorem NeverPanics.short (h : NeverPanics s path) (hs : TreeOk s) (h0 : 0 ∉ path) :
    ∀ n ∈ components path, n.length ≤ 16 := by
  obtain ⟨first, rest, hfirst⟩ := List.exists_cons_of_ne_nil (Reaches.ne_nil (h.elsewhere hs h0))
  have hw : Reaches s (components path) 0 (first :: rest) := hfirst ▸ .root
  obtain ⟨k, hk⟩ := h.missing hs h0 hw
  obtain ⟨walked, ptr, v, -, -, hcall⟩ := hk (fun _ => 0) (fun n => n != k) rfl
    (fun n hn => bne_iff_ne.mpr hn.ne) (bne_self_eq_false k)
  have hmkdir := safe_map.mp (h.safe .mkdir (fun _ => 0) fun n => n != k + 1)
  rw [sysMkdir_eq] at hmkdir
  have htarget := hmkdir.of_bind
  rw [Safe, Exec.Post, mkdirTarget_missing hcall] at htarget
  have hsafe : Safe (pathDepthCnt path) v := Safe.of_bind htarget
  have hfits : Exec.Post (pathDepthCntWithin 16 path) v
      (fun _ _ => ∀ n ∈ components path, n.length ≤ 16) (· ≠ .badPointer) := pathDepthCntWithin_fits path
  rw [pathDepthCntWithin_16] at hfits
  cases hcount : pathDepthCnt path v with
  | ok r =>
    rw [Exec.Post, hcount] at hfits
    exact hfits
  | error e =>
    rw [Exec.post_of_error hcount] at hfits
    exact absurd (not_safe_error hsafe hcount) hfits

/-- Where the blocks are full, `sync_dir_entry` goes on to what the memory held for the next one. -/
theorem Insertable.syncDirEntry_full (h : Insertable s ptr o i) {e : DirEntry}
    (hfull : ∀ k < 12, FullBlock s.disk i k) (hjunk : s.junk 12 = 0xffffffff) :
    ¬ Safe (Winx.syncDirEntry ptr e) s := by
  intro hsafe
  rw [Safe, post_syncDirEntry h.toDirBlocks h.dirOf h.inode le_rfl hfull] at hsafe
  have hblocks := hsafe.1 h.size_mod
  have hlba : knownBlocks s i 12 = 0xffffffff := hjunk
  rw [syncBlocks, Exec.post_bind, Exec.post_get, hlba, if_neg (by decide), Exec.post_bind, post_ideRead]
    at hblocks
  cases hblocks.2 (by decide)

/-- `sys_mkdir` puts the entry of a new directory into the directory at the end of the path. -/
theorem Insertable.mkdirRun_full (h : Insertable v ptr o i) (hs : PathReady s) (hover : Over s v)
    (hfull : ∀ k < 12, FullBlock v.disk i k) (hjunk : v.junk 12 = 0xffffffff) (hname : name.length ≤ 15)
    (hnumber : s.part.inodeBitmap.scan 1 ≠ none) (hblock : s.part.blockBitmap.scan 1 ≠ none) :
    ¬ Safe (Winx.mkdirRun (some (ptr, name))) v := by
  intro hsafe
  obtain ⟨l, hpart⟩ := hover.part
  have hinodes : v.part.inodeBitmap = s.part.inodeBitmap := by rw [hpart]; rfl
  have hblocks : v.part.blockBitmap = s.part.blockBitmap := by rw [hpart]; rfl
  obtain ⟨j, hj⟩ := Option.ne_none_iff_exists'.mp hnumber
  rw [Winx.mkdirRun, Safe, Exec.post_bind, post_inodeBitmapAlloc, hinodes] at hsafe
  have hrun : Safe _ _ := hsafe.2 j hj
  have htaken : Insertable (v.takeNumber j) ptr o i :=
    h.frame rfl ⟨rfl, rfl, rfl, rfl, rfl⟩ rfl (by cases ptr <;> rfl) rfl
  have hfirst : (v.takeNumber j).part.blockBitmap.scanTest 0 = true := by
    change v.part.blockBitmap.scanTest 0 = true
    rw [hblocks]
    exact hs.firstBlock
  have hmkdir := htaken.mkdirBlock_made (UInt32.ofNat j) hfirst (Nat.lt_succ_of_le hname)
  obtain ⟨block, w, hcall, -, hnone, hmade⟩ := Exec.returns_iff.mp hmkdir
  cases block with
  | none =>
    refine hblock (hblocks ▸ ?_)
    exact hnone.mp rfl
  | some block =>
    obtain ⟨hkept, hins, hsame⟩ := hmade block rfl
    have hentry := (hrun.bind_ok hcall).of_bind
    obtain ⟨newDirInode, dir, e⟩ := block
    refine hins.syncDirEntry_full (fun k hk => (hsame k).mpr (hfull k hk)) ?_ hentry.of_bind
    rw [hkept]
    exact hjunk

/-- `sys_open` puts the entry of a new file there. -/
theorem Insertable.fileCreateEntry_full (h : Insertable s ptr o i)
    (hfull : ∀ k < 12, FullBlock s.disk i k) (hjunk : s.junk 12 = 0xffffffff) (hname : name.length ≤ 15)
    (hslot : s.freeSlot ≠ none) (flag no : UInt32) (p : ℕ) :
    ¬ Safe (Winx.fileCreateEntry ptr name flag no p) s := by
  intro hsafe
  obtain ⟨g, hg⟩ := Option.ne_none_iff_exists'.mp hslot
  rw [Winx.fileCreateEntry, Safe, Exec.post_bind, post_getFreeSlotInGlobal, hg] at hsafe
  dsimp only at hsafe
  rw [Exec.post_bind, Exec.post_modify, createDirEntry, Exec.post_bind, Exec.post_bind, post_inBounds]
    at hsafe
  have hentry := hsafe.1 (Nat.lt_succ_of_le hname)
  rw [Exec.post_pure] at hentry
  have hins : Insertable (s.setFile g ⟨0, flag, some p⟩) ptr o i :=
    h.frame rfl (.refl _) rfl (by cases ptr <;> rfl) rfl
  exact hins.syncDirEntry_full hfull hjunk (Safe.of_bind hentry)

theorem Insertable.fileCreate_full (h : Insertable v ptr o i) (hopen : Openable v)
    (hfull : ∀ k < 12, FullBlock v.disk i k) (hjunk : v.junk 12 = 0xffffffff) (hname : name.length ≤ 15)
    (hmallocs : ∀ n, v.mallocs n = true) (hnumber : v.part.inodeBitmap.scan 1 ≠ none)
    (hslot : v.freeSlot ≠ none) (flag : UInt32) : ¬ Safe (Winx.fileCreate ptr name flag) v := by
  intro hsafe
  have hp : o.inode ≠ v.nextInode := (hopen.inode_lt _ _ h.inode).ne
  obtain ⟨j, hj⟩ := Option.ne_none_iff_exists'.mp hnumber
  rw [fileCreate_eq] at hsafe
  have hstart := hsafe.of_bind
  rw [fileCreateStart, Safe, Exec.post_bind, post_sysMalloc, if_pos (hmallocs 0), Exec.post_bind,
    post_inodeBitmapAlloc] at hstart
  have hmalloc := hstart.2 j hj
  have hsecond : (v.tick.takeNumber j).mallocs 0 = true := hmallocs 1
  dsimp only at hmalloc
  rw [Exec.post_bind, post_sysMalloc, if_pos hsecond, Exec.post_bind, post_newInode] at hmalloc
  have hins : Insertable (((v.tick.takeNumber j).tick.setInode v.nextInode
      (some (inodeInit (UInt32.ofNat j) zeroInode))).bumpInode) ptr o i :=
    h.frame rfl ⟨rfl, rfl, rfl, rfl, rfl⟩ rfl (by cases ptr <;> rfl) (Function.update_of_ne hp _ _)
  exact hins.fileCreateEntry_full hfull hjunk hname hslot flag _ _ hmalloc

theorem openInode_junk {no : UInt32} {j : Inode} : (s.openInode no j).junk = s.junk := by
  unfold Fs.openInode
  split <;> rfl

theorem At.junk_eq {k : ℕ} (h : At s k d ptr u) : u.junk = s.junk := by
  cases h with
  | root => rfl
  | heap a b => exact openInode_junk (s := s.advance a b 0)

/-- The junk that makes the search for a place leave the disk. -/
def offDisk (n : ℕ) : UInt32 := if n = 12 then 0xffffffff else 0

/-- An entry cannot be added to a directory whose blocks are full. -/
theorem NeverPanics.place (h : NeverPanics s path) (hs : PathReady s) (h0 : 0 ∉ path)
    (hw : Reaches s (components path) d [name]) (hroom : s.RoomForEntry path) :
    ∃ k < 12, ¬ FullBlock s.disk (curInode s d.toNat) k := by
  by_contra hnot
  push Not at hnot
  obtain ⟨hnumber, hblock⟩ := hroom
  obtain ⟨k, hk⟩ := h.missing hs.toTreeOk h0 hw
  obtain ⟨walked, ptr, v, hjoin, hat, hcall⟩ := hk offDisk (fun n => n != k) rfl
    (fun n hn => bne_iff_ne.mpr hn.ne) (bne_self_eq_false k)
  have hs' : PathReady (s.given offDisk fun n => n != k) := hs.given
  have hdir : IsDir (s.given offDisk fun n => n != k) d := hw.given.isDir
  obtain ⟨hover, hholds⟩ := hat.over hs'.toVisitable (hs'.number d hdir)
  obtain ⟨o, i, hins, hsame⟩ := hs'.insertable hover hdir hholds
  have hfull (l : ℕ) (hl : l < 12) : FullBlock v.disk i l := (hsame l).mpr (hnot l hl)
  have hjunk : v.junk 12 = 0xffffffff := by
    rw [hat.junk_eq]
    rfl
  have hname : name.length ≤ 15 := (h.namesFit hs.toTreeOk h0).here d [name] hw
  have hshort := h.short hs.toTreeOk h0
  have hne := Reaches.ne_nil (h.elsewhere hs.toTreeOk h0)
  have hlen : (components path).length = walked.length + 1 := by
    rw [← hjoin, List.length_append, List.length_singleton]
  rcases hblock with hblock | ⟨hlast, hslot⟩
  · have hmkdir := safe_map.mp (h.safe .mkdir offDisk fun n => n != k + 1)
    have htarget : mkdirTarget path (s.given offDisk fun n => n != k + 1) =
        .ok (some (ptr, name), v) := by
      rw [mkdirTarget_missing hcall, Exec.bind_eq_ok (pathDepthCnt_components hshort hne),
        Exec.bind_eq_ok (pathDepthCnt_walked hshort hjoin), if_neg (not_not_intro hlen),
        afterLastSlash_walked hjoin]
      rfl
    rw [sysMkdir_eq] at hmkdir
    exact hins.mkdirRun_full hs' hover hfull hjunk hname hnumber hblock (hmkdir.bind_ok htarget)
  · have hopen := safe_map.mp (h.safe (.open 4) offDisk fun n => n != k)
    have hnonempty : path ≠ [] := by
      rintro rfl
      cases h.parsed.absolute
    have htarget : openTarget path 4 (s.given offDisk fun n => n != k) = .ok (.create ptr name, v) := by
      rw [openTarget, inBounds, if_pos hnonempty, pure_bind, if_neg hlast, if_neg (by decide),
        Exec.bind_eq_ok (pathDepthCnt_components hshort hne), Exec.bind_eq_ok hcall]
      dsimp only
      rw [if_neg (by decide), Exec.bind_eq_ok (pathDepthCnt_walked hshort hjoin),
        if_neg (not_not_intro hlen), if_neg (by decide), if_neg (by decide), if_pos (by decide),
        h.parsed.filename hlast hjoin]
      rfl
    rw [sysOpen_eq] at hopen
    have hcreate := (hopen.bind_ok htarget).of_bind
    refine hins.fileCreate_full hover.toOpenable hfull hjunk hname (fun n => ?_) ?_ ?_ _ hcreate
    · rw [hat.mallocs]
      exact bne_iff_ne.mpr (by omega)
    · obtain ⟨l, hpart⟩ := hover.part
      rw [hpart]
      exact hnumber
    · rw [Fs.freeSlot, hat.fileTable]
      exact hslot

end Faults

section Small

end Small

end Winx
