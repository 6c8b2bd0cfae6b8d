import Winx.Fs.Opening

/-! # What opening a file does to the tables

Whatever comes of `sys_open`, only a free entry of the file table changes, and at
most one descriptor of the running process, which was free and gets this entry.
-/

namespace Winx

/-- Only free entries of the file table change, and none becomes a pipe. -/
def FreshEntries (s s' : Fs) : Prop := ∀ h, s'.fileTable h = s.fileTable h ∨
  (s.fileTable h).fdInode = none ∧ (s'.fileTable h).fdFlag ≠ pipeFlag

/-- Free entries may change, and nothing else of the tables. -/
structure EntriesChange (s s' : Fs) : Prop where
  entries : FreshEntries s s'
  tables : s'.tables = s.tables
  cur : s'.cur = s.cur

/-- What opening a file does to the tables. -/
structure OpenEffect (s : Fs) (r : Int) (s' : Fs) : Prop where
  entries : FreshEntries s s'
  cur : s'.cur = s.cur
  tables : s'.tables = s.tables ∧ r = -1 ∨ ∃ t k g p, s.Running t ∧ 3 ≤ k ∧
    k < maxFilesOpenPerProc ∧ t.fdTable k = -1 ∧ r = (k : ℕ) ∧ g < maxFileOpen ∧
    (s.fileTable g).fdInode = none ∧ (s'.fileTable g).fdInode = some p ∧
    s'.tables = (s.setFd k (g : ℕ)).tables

section Tables

variable {s s' s'' : Fs} {g h k p : ℕ} {v r : Int} {f : File} {flag inodeNo : UInt32}

theorem FreshEntries.of_eq (h : s'.fileTable = s.fileTable) : FreshEntries s s' := fun g =>
  .inl (congrFun h g)

theorem FreshEntries.trans (h : FreshEntries s s') (h' : FreshEntries s' s'') :
    FreshEntries s s'' := by
  intro g
  rcases h' g with hsame' | ⟨hfree', hflag'⟩
  · rcases h g with hsame | ⟨hfree, hflag⟩
    · exact .inl (hsame'.trans hsame)
    · exact .inr ⟨hfree, hsame' ▸ hflag⟩
  · rcases h g with hsame | ⟨hfree, hflag⟩
    · exact .inr ⟨hsame ▸ hfree', hflag'⟩
    · exact .inr ⟨hfree, hflag'⟩

/-- The entry that is marked was free. -/
theorem FreshEntries.mark (hfree : (s.fileTable g).fdInode = none) (hflag : f.fdFlag ≠ pipeFlag)
    (hfile : s'.fileTable = Function.update s.fileTable g f) : FreshEntries s s' := by
  intro h
  rw [hfile]
  by_cases hne : h = g
  · subst hne
    rw [Function.update_self]
    exact .inr ⟨hfree, hflag⟩
  · exact .inl (Function.update_of_ne hne _ _)

theorem tables_setFd (k : ℕ) (v : Int) : (s.setFd k v).tables = s.tables.map fun x =>
    if x.1 = s.cur then (x.1, Function.update x.2 k v) else x := by
  rw [Fs.tables, Fs.tables, Fs.setFd, Fs.setTasks_tasks, List.map_map, List.map_map]
  refine List.map_congr_left fun t _ => ?_
  simp only [Function.comp_apply]
  split <;> rfl

theorem exists_task (h : s'.tables = s.tables) {u : Task} (hu : u ∈ s'.tasks) :
    ∃ t ∈ s.tasks, t.pid = u.pid ∧ t.fdTable = u.fdTable := by
  have hmem : (u.pid, u.fdTable) ∈ s.tables := h ▸ List.mem_map_of_mem hu
  obtain ⟨t, ht, heq⟩ := List.mem_map.mp hmem
  exact ⟨t, ht, congrArg Prod.fst heq, congrArg Prod.snd heq⟩

/-- The process that runs has the same table. -/
theorem Fs.Running.of_tables (h : s'.tables = s.tables) (hcur : s'.cur = s.cur) {u : Task}
    (hu : s'.Running u) : ∃ t, s.Running t ∧ t.fdTable = u.fdTable := by
  have hfind (s : Fs) : s.tables.find? (fun x => x.1 = s.cur) =
      (s.tasks.find? fun t => t.pid = s.cur).map fun t => (t.pid, t.fdTable) := by
    rw [Fs.tables, List.find?_map]
    rfl
  have hsame := hfind s'
  rw [show s'.tasks.find? (fun t => t.pid = s'.cur) = some u from hu, h, hcur, hfind s,
    Option.map_some] at hsame
  obtain ⟨t, ht, heq⟩ := Option.map_eq_some_iff.mp hsame
  exact ⟨t, ht, congrArg Prod.snd heq⟩

/-- Installing an entry in a state with the same tables. -/
theorem InstalledIn.effect (h : InstalledIn s' g r s'') (hentries : FreshEntries s s')
    (htables : s'.tables = s.tables) (hcur : s'.cur = s.cur) (hlt : g < maxFileOpen)
    (hfree : (s.fileTable g).fdInode = none) (hp : (s'.fileTable g).fdInode = some p) :
    OpenEffect s r s'' := by
  obtain ⟨u, hu, ⟨k, hle, hk, hfd, rfl, rfl⟩ | ⟨-, rfl, rfl⟩⟩ := h
  · obtain ⟨t, ht, htable⟩ := hu.of_tables htables hcur
    refine ⟨hentries, hcur, .inr ⟨t, k, g, p, ht, hle, hk, htable ▸ hfd, rfl, hlt, hfree, hp, ?_⟩⟩
    rw [tables_setFd, tables_setFd, htables, hcur]
  · exact ⟨hentries, hcur, .inl ⟨htables, rfl⟩⟩

/-- `file_open` after the path is looked up. -/
theorem FileOpened.effect (h : FileOpened s inodeNo flag r s') (hflag : flag ≠ pipeFlag) :
    OpenEffect s r s' := by
  cases h with
  | full hslot hr hs => exact ⟨.of_eq (by rw [hs]), by rw [hs], .inl ⟨by rw [hs], hr⟩⟩
  | @denied g p i s₁ hslot hopen hwants hdeny hr hs =>
    have hfree := (Fs.of_freeSlot hslot).2.2
    subst hs
    refine ⟨?_, hopen.walk.cur, .inl ⟨hopen.walk.tables, hr⟩⟩
    exact (FreshEntries.of_eq hopen.walk.fileTable).trans
      (.mark (by rw [hopen.walk.fileTable, hfree]) hflag rfl)
  | @writer g p i s₁ hslot hopen hwants hdeny hs =>
    obtain ⟨-, hlt, hfree⟩ := Fs.of_freeSlot hslot
    exact hs.effect (p := p) ((FreshEntries.of_eq hopen.walk.fileTable).trans
      (.mark (by rw [hopen.walk.fileTable, hfree]) hflag rfl)) hopen.walk.tables hopen.walk.cur hlt
      hfree (by simp)
  | @reader g p i s₁ hslot hopen hwants hs =>
    obtain ⟨-, hlt, hfree⟩ := Fs.of_freeSlot hslot
    exact hs.effect (p := p) ((FreshEntries.of_eq hopen.walk.fileTable).trans
      (.mark (by rw [hopen.walk.fileTable, hfree]) hflag rfl)) hopen.walk.tables hopen.walk.cur hlt
      hfree (by simp)

theorem EntriesChange.trans (h : EntriesChange s s') (h' : EntriesChange s' s'') :
    EntriesChange s s'' :=
  ⟨h.entries.trans h'.entries, h'.tables.trans h.tables, h'.cur.trans h.cur⟩

theorem QuietFs.entries (h : QuietFs s s') : EntriesChange s s' := ⟨.of_eq h.fileTable, h.tables, h.cur⟩

theorem Walk.entries (h : Walk s s') : EntriesChange s s' := ⟨.of_eq h.fileTable, h.tables, h.cur⟩

/-- `file_create` from the new inode up to the directory entry. -/
theorem fileCreateEntry_effect (hflag : flag ≠ pipeFlag) (parentDir : DirPtr)
    (filename : List UInt8) :
    Exec.Ensures (fileCreateEntry parentDir filename flag inodeNo p) s fun r s' =>
      EntriesChange s s' ∧ ∀ x ∈ r, x.2.2 < maxFileOpen ∧ (s.fileTable x.2.2).fdInode = none ∧
        (s'.fileTable x.2.2).fdInode = some x.2.1 := by
  have hgiveUp {s₁ : Fs} (h : EntriesChange s s₁) :
      Exec.Ensures (do modify (·.setInode p none); clearInodeBit inodeNo; pure none) s₁
        fun (r : Option (UInt32 × ℕ × ℕ)) s' => EntriesChange s s' ∧ ∀ x ∈ r,
          x.2.2 < maxFileOpen ∧ (s.fileTable x.2.2).fdInode = none ∧
            (s'.fileTable x.2.2).fdInode = some x.2.1 := by
    rw [Exec.Ensures, Exec.post_bind, Exec.post_modify]
    refine Exec.Post.bind (clearInodeBit_quiet _) fun _ s₂ h₂ => ?_
    have hset : EntriesChange s₁ (s₁.setInode p none) := ⟨.of_eq rfl, rfl, rfl⟩
    exact ⟨h.trans (hset.trans h₂.entries), by simp⟩
  rw [Exec.Ensures, fileCreateEntry, Exec.post_bind, post_getFreeSlotInGlobal]
  cases hslot : s.freeSlot with
  | none => exact hgiveUp ⟨.of_eq rfl, rfl, rfl⟩
  | some g =>
    obtain ⟨-, hlt, hfree⟩ := Fs.of_freeSlot hslot
    have hmark : EntriesChange s (s.setFile g ⟨0, flag, some p⟩) :=
      ⟨.mark hfree hflag rfl, rfl, rfl⟩
    rw [Exec.post_bind, Exec.post_modify]
    refine Exec.Post.bind (createDirEntry_same _ _ _) fun entry s₂ h₂ => ?_
    subst h₂
    refine Exec.Post.bind (syncDirEntry_quiet _ _) fun ok s₃ h₃ => ?_
    have h₃' := hmark.trans h₃.entries
    split
    · refine ⟨h₃', fun x hx => ?_⟩
      obtain rfl := Option.some.inj hx
      refine ⟨hlt, hfree, ?_⟩
      rw [h₃.fileTable]
      simp
    · rw [Exec.post_bind, Exec.post_modify]
      refine hgiveUp ⟨fun h => ?_, h₃'.tables, h₃'.cur⟩
      by_cases hne : h = g
      · subst hne
        exact .inr ⟨hfree, by rw [Fs.setFile_fileTable, Function.update_self]; decide⟩
      · rw [Fs.setFile_fileTable, Function.update_of_ne hne]
        exact h₃'.entries h

/-- `file_create` up to the directory entry, and the entry it marks. -/
theorem fileCreateStart_effect (hflag : flag ≠ pipeFlag) (parentDir : DirPtr)
    (filename : List UInt8) :
    Exec.Ensures (fileCreateStart parentDir filename flag) s fun r s' => EntriesChange s s' ∧
      ∀ x ∈ r, x.2.2 < maxFileOpen ∧ (s.fileTable x.2.2).fdInode = none ∧
        (s'.fileTable x.2.2).fdInode = some x.2.1 := by
  have htick (s : Fs) : QuietFs s s.tick := ⟨rfl, rfl, rfl, rfl, rfl, fun _ => rfl⟩
  rw [Exec.Ensures, fileCreateStart, Exec.post_bind, post_sysMalloc]
  split
  · refine Exec.Post.bind inodeBitmapAlloc_quiet fun bit s₁ h₁ => ?_
    have hquiet := (htick s).trans h₁
    cases bit with
    | none => exact ⟨hquiet.entries, by simp⟩
    | some no =>
      rw [Exec.post_bind, post_sysMalloc]
      have hquiet₂ := hquiet.trans (htick s₁)
      split
      · rw [Exec.post_bind, post_newInode]
        refine Exec.Ensures.mono (fileCreateEntry_effect hflag parentDir filename) fun r s₃ h₃ => ?_
        have hnew : EntriesChange s₁.tick (s₁.tick.setInode s₁.tick.nextInode
            (some (inodeInit no zeroInode))).bumpInode := ⟨.of_eq rfl, rfl, rfl⟩
        refine ⟨hquiet₂.entries.trans (hnew.trans h₃.1), fun x hx => ?_⟩
        obtain ⟨hlt, hfree, hp⟩ := h₃.2 x hx
        exact ⟨hlt, hquiet₂.fileTable ▸ hfree, hp⟩
      · refine Exec.Post.bind (clearInodeBit_quiet _) fun _ s₂ h₂ => ?_
        exact ⟨(hquiet₂.trans h₂).entries, by simp⟩
  · exact ⟨(htick s).entries, by simp⟩

theorem fileCreate_effect (hflag : flag ≠ pipeFlag) (parentDir : DirPtr)
    (filename : List UInt8) :
    Exec.Ensures (fileCreate parentDir filename flag) s fun r s' => OpenEffect s r s' := by
  rw [fileCreate_eq]
  refine Exec.Post.bind (fileCreateStart_effect hflag parentDir filename) fun r s₁ h₁ => ?_
  obtain ⟨hchange, hentry⟩ := h₁
  cases r with
  | none => exact ⟨hchange.entries, hchange.cur, .inl ⟨hchange.tables, rfl⟩⟩
  | some x =>
    obtain ⟨hlt, hfree, hp⟩ := hentry x rfl
    obtain ⟨no, q, g⟩ := x
    dsimp only at hlt hfree hp
    refine Exec.Post.bind (derefDir_same _) fun dir s₂ h₂ => ?_
    subst h₂
    refine Exec.Post.bind derefInode_same fun parentInode s₂ h₂ => ?_
    obtain ⟨rfl, -⟩ := h₂
    refine Exec.Post.bind (inodeSync_quiet _) fun _ s₃ h₃ => ?_
    refine Exec.Post.bind derefInode_same fun inode s₄ h₄ => ?_
    obtain ⟨rfl, -⟩ := h₄
    refine Exec.Post.bind (inodeSync_quiet _) fun _ s₅ h₅ => ?_
    refine Exec.Post.bind (bitmapSync_quiet _ _) fun _ s₆ h₆ => ?_
    have hquiet := (h₃.trans h₅).trans h₆
    have hchange' := hchange.trans hquiet.entries
    rw [pushOpenInode, storeInode, Exec.post_bind, Exec.post_modify, Exec.post_bind,
      Exec.post_modify]
    refine pcbFdInstall_ensures.mono fun r s' h => ?_
    refine h.effect (p := q) (hchange'.entries.trans (.of_eq rfl)) hchange'.tables hchange'.cur hlt
      hfree ?_
    rw [← hp, ← hquiet.fileTable]
    rfl

/-- The flags of `sys_open` are not those of a pipe. -/
theorem toUInt32_ne_pipeFlag (flags : UInt8) : flags.toUInt32 ≠ pipeFlag := by
  intro h
  have := congrArg UInt32.toNat h
  have hlt := flags.toNat_lt
  rw [UInt8.toNat_toUInt32] at this
  simp only [pipeFlag, UInt32.reduceToNat] at this
  omega

/-- Closing a directory after a file was opened. -/
theorem OpenEffect.walk (h : OpenEffect s r s') (hwalk : Walk s' s'') : OpenEffect s r s'' where
  entries := h.entries.trans (.of_eq hwalk.fileTable)
  cur := hwalk.cur.trans h.cur
  tables := by
    rw [hwalk.tables, hwalk.fileTable]
    exact h.tables

theorem OpenEffect.of_walk (hwalk : Walk s s') (h : OpenEffect s' r s'') : OpenEffect s r s'' where
  entries := (FreshEntries.of_eq hwalk.fileTable).trans h.entries
  cur := h.cur.trans hwalk.cur
  tables := by
    rcases h.tables with ⟨htables, hr⟩ | ⟨u, k, g, p, hu, hle, hk, hfd, hr, hlt, hfree, hp, htables⟩
    · exact .inl ⟨htables.trans hwalk.tables, hr⟩
    · obtain ⟨t, ht, htable⟩ := hu.of_tables hwalk.tables hwalk.cur
      refine .inr ⟨t, k, g, p, ht, hle, hk, htable ▸ hfd, hr, hlt, hwalk.fileTable ▸ hfree, hp, ?_⟩
      rw [htables, tables_setFd, tables_setFd, hwalk.tables, hwalk.cur]

theorem sysOpen_effect (pathname : List UInt8) (flags : UInt8) :
    Exec.Ensures (sysOpen pathname flags) s fun r s' => OpenEffect s r s' := by
  rw [sysOpen_eq]
  refine Exec.Post.bind (openTarget_walk pathname flags) fun target s₁ hwalk => ?_
  have hflag := toUInt32_ne_pipeFlag flags
  cases target with
  | refused => exact ⟨.of_eq hwalk.fileTable, hwalk.cur, .inl ⟨hwalk.tables, rfl⟩⟩
  | existing no => exact fileOpen_opened.mono fun r s' h => (h.effect hflag).of_walk hwalk
  | create parentDir filename =>
    refine Exec.Post.bind (fileCreate_effect hflag parentDir filename) fun fd s₂ h₂ => ?_
    refine Exec.Post.bind (dirClose_walk parentDir) fun _ s₃ h₃ => ?_
    exact (h₂.walk h₃).of_walk hwalk

end Tables

end Winx
