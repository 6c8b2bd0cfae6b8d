import Winx.Fs.Walk

/-! # Opening a file

`sys_open` first looks up the path and decides what to do, and then creates the
file or opens the existing one. Either way it marks a free entry of the file
table and installs it in the table of the process; `file_open` refuses a second
writer after the entry is marked.
-/

namespace Winx

/-- What `sys_open` goes on to do once the path is looked up. -/
inductive OpenTarget
  | refused
  | create (parentDir : DirPtr) (filename : List UInt8)
  | existing (inodeNo : UInt32)
  deriving DecidableEq

/-- The part of `sys_open` that looks up the path. -/
def openTarget (pathname : List UInt8) (flags : UInt8) : FsM OpenTarget := do
  inBounds (pathname ≠ [])
  if pathname.getLast? = some slash then pure .refused
  else if flags > 7 then pure .refused
  else
    let pathnameDepth ← pathDepthCnt pathname
    let (inodeNo, record) ← searchFile pathname
    if record.fileType = ftDirectory then
      dirClose record.parentDir
      pure .refused
    else
      let pathSearchedDepth ← pathDepthCnt record.searchedPath
      if pathnameDepth ≠ pathSearchedDepth then
        dirClose record.parentDir
        pure .refused
      else
        let flag := flags.toUInt32
        if inodeNo = -1 ∧ flag &&& oCreat = 0 then
          dirClose record.parentDir
          pure .refused
        else if inodeNo ≠ -1 ∧ flag &&& oCreat ≠ 0 then
          dirClose record.parentDir
          pure .refused
        else if flag &&& oCreat ≠ 0 then
          let filename ← afterLastSlash pathname
          pure (.create record.parentDir filename)
        else pure (.existing (UInt32.ofInt inodeNo))

/-- The rest of `sys_open`. -/
def OpenTarget.run (flag : UInt32) : OpenTarget → FsM Int
  | refused => pure (-1)
  | create parentDir filename => do
    let fd ← fileCreate parentDir filename flag
    dirClose parentDir
    pure fd
  | existing inodeNo => fileOpen inodeNo flag

theorem sysOpen_eq (pathname : List UInt8) (flags : UInt8) :
    sysOpen pathname flags = openTarget pathname flags >>= OpenTarget.run flags.toUInt32 := by
  rw [sysOpen, openTarget, bind_assoc]
  refine bind_congr fun _ => ?_
  split
  · rfl
  · split
    · rfl
    · rw [bind_assoc]
      refine bind_congr fun pathnameDepth => ?_
      rw [bind_assoc]
      refine bind_congr fun ⟨inodeNo, record⟩ => ?_
      dsimp only
      split
      · rw [bind_assoc]
        rfl
      · rw [bind_assoc]
        refine bind_congr fun pathSearchedDepth => ?_
        split
        · rw [bind_assoc]
          rfl
        · split
          · rw [bind_assoc]
            rfl
          · split
            · rw [bind_assoc]
              rfl
            · split
              · rw [bind_assoc]
                rfl
              · rfl

/-- The part of `file_create` that marks an entry for the new inode at `p` and writes the directory
entry: the number of the inode, its address and the entry. -/
def fileCreateEntry (parentDir : DirPtr) (filename : List UInt8) (flag inodeNo : UInt32) (p : ℕ) :
    FsM (Option (UInt32 × ℕ × ℕ)) := do
  match ← getFreeSlotInGlobal with
  | none =>
    modify (·.setInode p none)
    clearInodeBit inodeNo
    pure none
  | some fdIdx =>
    modify (·.setFile fdIdx ⟨0, flag, some p⟩)
    let newDirEntry ← createDirEntry filename inodeNo ftRegular
    let ok ← syncDirEntry parentDir newDirEntry
    if ok then pure (some (inodeNo, p, fdIdx))
    else
      modify (·.setFile fdIdx ⟨0, 0, none⟩)
      modify (·.setInode p none)
      clearInodeBit inodeNo
      pure none

/-- The part of `file_create` up to the directory entry. -/
def fileCreateStart (parentDir : DirPtr) (filename : List UInt8) (flag : UInt32) :
    FsM (Option (UInt32 × ℕ × ℕ)) := do
  let ok ← sysMalloc
  if ok then
    match ← inodeBitmapAlloc with
    | none => pure none
    | some inodeNo =>
      let ok ← sysMalloc
      if ok then
        let p ← newInode (inodeInit inodeNo zeroInode)
        fileCreateEntry parentDir filename flag inodeNo p
      else
        clearInodeBit inodeNo
        pure none
  else pure none

theorem fileCreate_eq (parentDir : DirPtr) (filename : List UInt8) (flag : UInt32) :
    fileCreate parentDir filename flag = fileCreateStart parentDir filename flag >>= fun
      | none => pure (-1)
      | some (inodeNo, p, fdIdx) => fileCreateFinish parentDir inodeNo p fdIdx := by
  rw [fileCreate, fileCreateStart, bind_assoc]
  refine bind_congr fun ok => ?_
  split
  · rw [bind_assoc]
    refine bind_congr fun bit => ?_
    cases bit with
    | none => rfl
    | some inodeNo =>
      dsimp only
      rw [bind_assoc]
      refine bind_congr fun ok => ?_
      split
      · rw [bind_assoc]
        refine bind_congr fun p => ?_
        rw [fileCreateEntry, bind_assoc]
        refine bind_congr fun slot => ?_
        cases slot with
        | none =>
          dsimp only
          rw [bind_assoc]
          refine bind_congr fun _ => ?_
          rw [bind_assoc]
          rfl
        | some fdIdx =>
          dsimp only
          rw [bind_assoc]
          refine bind_congr fun _ => ?_
          rw [bind_assoc]
          refine bind_congr fun newDirEntry => ?_
          rw [bind_assoc]
          refine bind_congr fun ok => ?_
          split
          · rfl
          · rw [bind_assoc]
            refine bind_congr fun _ => ?_
            rw [bind_assoc]
            refine bind_congr fun _ => ?_
            rw [bind_assoc]
            rfl
      · rw [bind_assoc]
        rfl
  · rfl

section Effects

variable {s : Fs} {g p : ℕ} {flag : UInt32} {inodeNo : UInt32}

theorem post_newInode {i : Inode} {Q : ℕ → Fs → Prop} {E : Fault → Prop} :
    Exec.Post (newInode i) s Q E ↔
      Q s.nextInode (s.setInode s.nextInode (some i)).bumpInode := Iff.rfl

/-- Closing a directory brings in no inode. -/
theorem dirClose_next (dir : DirPtr) :
    Exec.Ensures (dirClose dir) s fun _ s' => s'.nextInode = s.nextInode := by
  cases dir with
  | rootDir => rfl
  | heap a =>
    simp [dirClose, derefDir, runningThread, inodeClose, derefInode, storeInode, modifyThread]

theorem WalkClosed.openTarget {R : Fs → Fs → Prop} (h : WalkClosed R) (pathname : List UInt8)
    (flags : UInt8) : Exec.Ensures (Winx.openTarget pathname flags) s fun _ s' => R s s' := by
  have hrefuse (dir : DirPtr) (s : Fs) :
      Exec.Ensures (do Winx.dirClose dir; pure OpenTarget.refused) s fun _ s' => R s s' :=
    h.bind (h.dirClose _) fun _ s₁ _ => h.refl s₁
  refine h.bind (h.of_same (by simp)) fun _ s₁ _ => ?_
  split
  · exact h.refl s₁
  · split
    · exact h.refl s₁
    · refine h.bind (h.of_same (pathDepthCnt_same _)) fun pathnameDepth s₂ _ => ?_
      refine h.bind (h.searchFile _) fun found s₃ _ => ?_
      dsimp only
      split
      · exact hrefuse _ _
      · refine h.bind (h.of_same (pathDepthCnt_same _)) fun pathSearchedDepth s₄ _ => ?_
        split
        · exact hrefuse _ _
        · split
          · exact hrefuse _ _
          · split
            · exact hrefuse _ _
            · split
              · refine h.bind (h.of_same ?_) fun filename s₅ _ => h.refl s₅
                unfold afterLastSlash
                split
                · rfl
                · trivial
              · exact h.refl s₄

theorem openTarget_walk (pathname : List UInt8) (flags : UInt8) :
    Exec.Ensures (openTarget pathname flags) s fun _ s' => Walk s s' :=
  walkClosed_walk.openTarget pathname flags

/-- An entry is installed for the running process, or its table is full. -/
def InstalledIn (s : Fs) (g : ℕ) (r : Int) (s' : Fs) : Prop :=
  ∃ t, s.Running t ∧
    ((∃ k, 3 ≤ k ∧ k < maxFilesOpenPerProc ∧ t.fdTable k = -1 ∧ r = k ∧ s' = s.setFd k g) ∨
      (∀ k, 3 ≤ k → k < maxFilesOpenPerProc → t.fdTable k ≠ -1) ∧ r = -1 ∧ s' = s)

theorem pcbFdInstall_ensures :
    Exec.Ensures (pcbFdInstall g) s fun r s' => InstalledIn s g r s' := by
  cases ht : s.tasks.find? (·.pid = s.cur) with
  | some t => exact (pcbFdInstall_spec ht).ensures.mono fun _ _ h => ⟨t, ht, h⟩
  | none => simp [pcbFdInstall, runningThread, ht, deref]

/-- `inode_open` returns the address of an open inode, found on the list or loaded. -/
structure Opens (s : Fs) (inodeNo : UInt32) (p : ℕ) (i : Inode) (s' : Fs) : Prop where
  walk : Walk s s'
  mem : p ∈ s'.part.openInodes
  new : ∀ q ∈ s'.part.openInodes, q ∈ s.part.openInodes ∨ q = p
  obj : s'.inodes p = some i
  origin : findOpenInode s inodeNo = some p ∧ (s.inodes p).map Inode.writeDeny = some i.writeDeny ∨
    findOpenInode s inodeNo = none ∧ s.nextInode ≤ p ∧
      ∃ j, s.loadedInode inodeNo = some j ∧ i.writeDeny = j.writeDeny

/-- What `file_open` leaves. -/
inductive FileOpened (s : Fs) (inodeNo flag : UInt32) (r : Int) (s' : Fs) : Prop
  | full (hslot : s.freeSlot = none) (hr : r = -1) (hs : s' = s)
  | denied {g p : ℕ} {i : Inode} {s₁ : Fs} (hslot : s.freeSlot = some g)
      (hopen : Opens s inodeNo p i s₁) (hwants : wantsWrite flag = true) (hdeny : i.writeDeny = true)
      (hr : r = -1) (hs : s' = s₁.setFile g ⟨0, flag, some p⟩)
  | writer {g p : ℕ} {i : Inode} {s₁ : Fs} (hslot : s.freeSlot = some g)
      (hopen : Opens s inodeNo p i s₁) (hwants : wantsWrite flag = true) (hdeny : i.writeDeny = false)
      (hs : InstalledIn ((s₁.setFile g ⟨0, flag, some p⟩).setInode p
        (some { i with writeDeny := true })) g r s')
  | reader {g p : ℕ} {i : Inode} {s₁ : Fs} (hslot : s.freeSlot = some g)
      (hopen : Opens s inodeNo p i s₁) (hwants : wantsWrite flag = false)
      (hs : InstalledIn (s₁.setFile g ⟨0, flag, some p⟩) g r s')

theorem fileOpen_opened : Exec.Ensures (fileOpen inodeNo flag) s fun r s' =>
    FileOpened s inodeNo flag r s' := by
  rw [Exec.Ensures, fileOpen, Exec.post_bind, post_getFreeSlotInGlobal]
  cases hslot : s.freeSlot with
  | none => exact .full hslot rfl rfl
  | some g =>
    refine Exec.Post.bind inodeOpen_walk fun p s₁ h => ?_
    obtain ⟨hwalk, hmem, hnew, i, hi, horigin⟩ := h
    have hopen : Opens s inodeNo p i s₁ := ⟨hwalk, hmem, hnew, hi, horigin⟩
    rw [Exec.post_bind, Exec.post_modify]
    split
    · rename_i hwants
      refine Exec.Post.bind derefInode_same fun inode s₂ h => ?_
      obtain ⟨rfl, hinode⟩ := h
      obtain rfl : i = inode := Option.some.inj (hi.symm.trans hinode)
      split
      · rename_i hdeny
        exact .denied hslot hopen hwants hdeny rfl rfl
      · rename_i hdeny
        rw [storeInode, Exec.post_bind, Exec.post_modify]
        exact Exec.Ensures.mono pcbFdInstall_ensures fun r s' h =>
          .writer hslot hopen hwants (by simpa using hdeny) h
    · rename_i hwants
      exact Exec.Ensures.mono pcbFdInstall_ensures fun r s' h =>
        .reader hslot hopen (by simpa using hwants) h

/-- `inode_close` changes one inode only. -/
theorem inodeClose_closed : Exec.Ensures (inodeClose p) s fun _ s' => s'.tasks = s.tasks ∧
    s'.cur = s.cur ∧ s'.fileTable = s.fileTable ∧ s'.nextInode = s.nextInode ∧
    (∀ q ∈ s'.part.openInodes, q ∈ s.part.openInodes) ∧ (∀ q, q ≠ p → s'.inodes q = s.inodes q) ∧
    ∀ i', s'.inodes p = some i' → ∃ i, s.inodes p = some i ∧ i'.writeDeny = i.writeDeny := by
  rw [Exec.Ensures, inodeClose]
  refine Exec.Post.bind derefInode_same fun i s₁ h => ?_
  obtain ⟨rfl, hi⟩ := h
  simp only [storeInode, Exec.post_bind, Exec.post_modify]
  refine Exec.post_ite.mpr ⟨fun _ => ?_, fun _ => ?_⟩
  · refine ⟨rfl, rfl, rfl, rfl, fun q hq => List.mem_of_mem_erase hq, fun q hq => ?_, ?_⟩
    · rw [Fs.setInode_inodes, Function.update_of_ne hq]
      exact Function.update_of_ne hq _ _
    · intro i' hi'
      rw [Fs.setInode_inodes, Function.update_self] at hi'
      cases hi'
  · refine ⟨rfl, rfl, rfl, rfl, fun q hq => hq, fun q hq => Function.update_of_ne hq _ _, ?_⟩
    intro i' hi'
    rw [Fs.setInode_inodes, Function.update_self] at hi'
    obtain rfl := Option.some.inj hi'
    exact ⟨i, hi, rfl⟩

/-- What `file_close` does to the entry and its inode. -/
theorem fileClose_closed : Exec.Ensures (fileClose g) s fun _ s' => ∃ p,
    (s.fileTable g).fdInode = some p ∧ s'.tasks = s.tasks ∧ s'.cur = s.cur ∧
    s'.fileTable = Function.update s.fileTable g { s.fileTable g with fdInode := none } ∧
    s'.nextInode = s.nextInode ∧ (∀ q ∈ s'.part.openInodes, q ∈ s.part.openInodes) ∧
    (∀ q, q ≠ p → s'.inodes q = s.inodes q) ∧
    ∀ i', s'.inodes p = some i' → i'.writeDeny = false ∧ ∃ i, s.inodes p = some i := by
  rw [Exec.Ensures, fileClose, Exec.post_bind, Exec.post_get, Exec.post_bind, post_deref]
  refine ⟨fun p hp => ?_, fun _ => trivial⟩
  refine Exec.Post.bind derefInode_same fun i s₁ h => ?_
  obtain ⟨rfl, hi⟩ := h
  simp only [storeInode, Exec.post_bind, Exec.post_modify, Exec.post_pure]
  refine Exec.Ensures.mono inodeClose_closed fun _ s₂ h => ?_
  obtain ⟨htasks, hcur, hfile, hnext, hopen, hne, hself⟩ := h
  refine ⟨p, hp, htasks, hcur, ?_, hnext, hopen, fun q hq => ?_, fun i' hi' => ?_⟩
  · rw [Fs.setFile_fileTable, hfile]
    rfl
  · exact (hne q hq).trans (Function.update_of_ne hq _ _)
  · obtain ⟨j, hj, hdeny⟩ := hself i' hi'
    rw [Fs.setInode_inodes, Function.update_self] at hj
    obtain rfl := Option.some.inj hj
    exact ⟨hdeny, i, hi⟩

end Effects

end Winx
