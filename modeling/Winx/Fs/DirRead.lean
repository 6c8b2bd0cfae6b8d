import Winx.Fs.DirView

/-! # Reading a directory

`dir_read` starts at the first block at every call, counts the live entries it
passes in units of their size, and stops at the one its cursor names. The
cursor is the number of entries read, so repeated calls go through the entries
of the directory in order.
-/

namespace Winx

/-- The `struct dir` behind a pointer is replaced. -/
def Fs.setDirOf (s : Fs) : DirPtr → Dir → Fs
  | .rootDir, d => s.setRootDir d
  | .heap a, d => s.setTasks (s.tasks.map fun t =>
      if t.pid = s.cur then { t with dirs := t.dirs.map fun x => if x.1 = a then (a, d) else x }
      else t)

/-- Store to a `struct dir`. -/
def storeDir (dir : DirPtr) (d : Dir) : FsM Unit := modify (·.setDirOf dir d)

/-- The scan of `n` entries from entry `k` on in `dir_read`: the position it comes to, and the entry
it stops at. -/
def readEntries (buf : Bytes) (dirEntrySize dirPos : UInt32) :
    ℕ → ℕ → UInt32 → FsM (UInt32 × Option ℕ)
  | 0, _, curDirEntryPos => pure (curDirEntryPos, none)
  | n + 1, k, curDirEntryPos =>
    if entryType buf k ≠ ftUnknown then
      if curDirEntryPos < dirPos then
        readEntries buf dirEntrySize dirPos n (k + 1) (curDirEntryPos + dirEntrySize)
      else do
        assert (curDirEntryPos = dirPos)
        pure (curDirEntryPos, some k)
    else readEntries buf dirEntrySize dirPos n (k + 1) curDirEntryPos

/-- The loop of `dir_read` over `n` blocks. -/
def readDirBlocks (dir : DirPtr) (allBlocks : ℕ → UInt32) : ℕ → ℕ → UInt32 → FsM (Option DirEntry)
  | 0, _, _ => pure none
  | n + 1, blockIdx, curDirEntryPos => do
    let s ← get
    let d ← derefDir dir
    let dirInode ← derefInode d.inode
    if d.dirPos ≥ dirInode.iSize then pure none
    else if allBlocks blockIdx = 0 then readDirBlocks dir allBlocks n (blockIdx + 1) curDirEntryPos
    else
      let buf ← ideRead (allBlocks blockIdx) Bytes.zero 1
      storeDir dir { d with dirBuf := buf }
      let (curDirEntryPos, found) ←
        readEntries buf s.part.sb.dirEntrySize d.dirPos (dirEntrysPerSec s) 0 curDirEntryPos
      match found with
      | some k =>
        storeDir dir { d with dirBuf := buf, dirPos := d.dirPos + s.part.sb.dirEntrySize }
        pure (some (DirEntry.ofBytes (buf.window (sizeofDirEntry * k))))
      | none => readDirBlocks dir allBlocks n (blockIdx + 1) curDirEntryPos

/-- `dir_read`: the entry its result points to, `none` for a null result. -/
def dirRead (dir : DirPtr) : FsM (Option DirEntry) := do
  let d ← derefDir dir
  let dirInode ← derefInode d.inode
  let allBlocks ← loadBlocks dirInode
  readDirBlocks dir allBlocks (if dirInode.sector 12 ≠ 0 then 140 else 12) 0 0

/-- `n` calls of `dir_read`, one after the other. -/
def dirReadTimes (dir : DirPtr) : ℕ → FsM (List (Option DirEntry))
  | 0 => pure []
  | n + 1 => do
    let e ← dirRead dir
    let es ← dirReadTimes dir n
    pure (e :: es)

section SetDir

variable {s : Fs} {dir : DirPtr} {d d' : Dir}

@[simp] theorem setDirOf_disk : (s.setDirOf dir d).disk = s.disk := by cases dir <;> rfl
@[simp] theorem setDirOf_part : (s.setDirOf dir d).part = s.part := by cases dir <;> rfl
@[simp] theorem setDirOf_inodes : (s.setDirOf dir d).inodes = s.inodes := by cases dir <;> rfl
@[simp] theorem setDirOf_cur : (s.setDirOf dir d).cur = s.cur := by cases dir <;> rfl

@[simp] theorem post_storeDir {Q : Unit → Fs → Prop} {E : Fault → Prop} :
    Exec.Post (storeDir dir d) s Q E ↔ Q () (s.setDirOf dir d) := Iff.rfl

@[simp] theorem setDirOf_setDirOf : (s.setDirOf dir d).setDirOf dir d' = s.setDirOf dir d' := by
  cases dir with
  | rootDir => rfl
  | heap a =>
    simp only [Fs.setDirOf, Fs.setTasks, List.map_map]
    refine congrArg (fun ts => { s with tasks := ts }) (List.map_congr_left fun t _ => ?_)
    by_cases ht : t.pid = s.cur
    · simp only [Function.comp_apply, ht, if_true, List.map_map]
      refine congrArg (fun ds => { t with pid := s.cur, dirs := ds }) ?_
      refine List.map_congr_left fun x _ => ?_
      by_cases hx : x.1 = a <;> simp [hx]
    · simp [ht]

/-- The process that runs. -/
theorem find?_setDirOf {a : ℕ} : (s.setDirOf (.heap a) d).tasks.find? (·.pid = s.cur) =
    (s.tasks.find? (·.pid = s.cur)).map fun t =>
      { t with dirs := t.dirs.map fun x => if x.1 = a then (a, d) else x } := by
  simp only [Fs.setDirOf, Fs.setTasks]
  induction s.tasks with
  | nil => rfl
  | cons t ts ih =>
    by_cases ht : t.pid = s.cur
    · simp [ht]
    · simpa [ht] using ih

theorem lookup_replace {l : List (ℕ × Dir)} {a : ℕ} (h : l.lookup a = some d) :
    (l.map fun x => if x.1 = a then (a, d') else x).lookup a = some d' := by
  induction l with
  | nil => cases h
  | cons x l ih =>
    obtain ⟨b, e⟩ := x
    by_cases hb : b = a
    · simp [hb]
    · rw [List.lookup_cons, beq_false_of_ne (Ne.symm hb)] at h
      simp [hb, beq_false_of_ne (Ne.symm hb), ih h, List.lookup_cons]

theorem dirOf_setDirOf (h : s.dirOf dir = some d) : (s.setDirOf dir d').dirOf dir = some d' := by
  cases dir with
  | rootDir => rfl
  | heap a =>
    rw [Fs.dirOf] at h ⊢
    rw [setDirOf_cur, find?_setDirOf]
    cases ht : s.tasks.find? (·.pid = s.cur) with
    | none => rw [ht] at h; cases h
    | some t =>
      rw [ht] at h
      exact lookup_replace h

end SetDir

section Read

variable {s : Fs} {disk : Bytes} {i : Inode} {lba : UInt32} {dir : DirPtr} {d : Dir}

/-- The scan of a block from slot `k` with `c` entries passed, on the way to entry `e`. -/
theorem readEntries_spec {cur pos : UInt32} {c e : ℕ} (n k : ℕ) (hk : k + n ≤ entrysPerSec)
    (hce : c ≤ e) (he : e < 2 ^ 26) (hcur : cur.toNat = 24 * c) (hpos : pos.toNat = 24 * e) :
    Exec.Returns (readEntries (sectorBuf disk lba) 24 pos n k cur) s fun r s' => s' = s ∧
      match r.2 with
      | some m => ((List.range' k n).filter fun m => (slotEntry disk lba m).fType ≠ ftUnknown)[e - c]?
          = some m
      | none => r.1.toNat = 24 * (c + ((List.range' k n).filter fun m =>
          (slotEntry disk lba m).fType ≠ ftUnknown).length) ∧
        c + ((List.range' k n).filter fun m => (slotEntry disk lba m).fType ≠ ftUnknown).length
          ≤ e := by
  induction n generalizing k cur c with
  | zero => exact ⟨rfl, hcur, hce⟩
  | succ n ih =>
    have htype : entryType (sectorBuf disk lba) k = (slotEntry disk lba k).fType :=
      entryType_sectorBuf (by omega)
    rw [readEntries, List.range'_succ, List.filter_cons, htype]
    by_cases hlive : (slotEntry disk lba k).fType ≠ ftUnknown
    · rw [if_pos hlive, if_pos (decide_eq_true hlive)]
      by_cases hlt : c < e
      · have hcur' : (cur + 24).toNat = 24 * (c + 1) := by
          rw [Word.toNat_add] <;> simp only [UInt32.reduceToNat, hcur] <;> omega
        rw [if_pos (by rw [UInt32.lt_iff_toNat_lt]; omega)]
        refine (ih (k + 1) (by omega) hlt hcur').mono fun r s' hr => ⟨hr.1, ?_⟩
        have hr := hr.2
        rw [List.length_cons]
        split at hr
        · rw [show e - c = (e - (c + 1)) + 1 by omega, List.getElem?_cons_succ]
          exact hr
        · exact ⟨hr.1.trans (by omega), by omega⟩
      · obtain rfl : c = e := by omega
        rw [if_neg (by rw [UInt32.lt_iff_toNat_lt]; omega), Exec.Returns, Exec.post_bind,
          post_assert]
        have heq : cur = pos := UInt32.toNat_inj.mp (by omega)
        refine ⟨fun _ => ⟨rfl, ?_⟩, fun hne => hne heq⟩
        rw [Nat.sub_self]
        rfl
    · rw [if_neg hlive, if_neg (by simpa using hlive)]
      exact ih (k + 1) (by omega) hce hcur

/-- The entries of the blocks from index `idx` on. -/
def slotsFrom (disk : Bytes) (i : Inode) (idx n : ℕ) : List (ℕ × ℕ) :=
  (List.range' idx n).flatMap (blockSlots disk i)

theorem slotsFrom_succ (disk : Bytes) (i : Inode) (idx n : ℕ) :
    slotsFrom disk i idx (n + 1) = blockSlots disk i idx ++ slotsFrom disk i (idx + 1) n := by
  rw [slotsFrom, List.range'_succ, List.flatMap_cons]
  rfl

/-- The blocks that `dir_read` goes through are all there are. -/
theorem slotsFrom_zero :
    slotsFrom disk i 0 (if i.sector 12 ≠ 0 then 140 else 12) = liveSlots disk i := by
  rw [liveSlots, List.range_eq_range']
  split
  · rfl
  · rename_i h0
    have hnone : slotsFrom disk i 12 128 = [] := by
      refine List.flatMap_eq_nil_iff.mpr fun k hk => ?_
      have hk' := List.mem_range'_1.mp hk
      rw [blockSlots, if_pos]
      rw [blockLba, if_neg (by omega), if_pos (Or.inl (not_not.mp h0))]
    have hsplit : List.range' 0 140 = List.range' 0 12 ++ List.range' 12 128 := by decide
    rw [hsplit, List.flatMap_append, show (List.range' 12 128).flatMap (blockSlots disk i) = [] from
      hnone, List.append_nil]
    rfl

/-- The state after a call that reads at entry `e` of a directory with `total` entries. -/
structure ReadState (s : Fs) (dir : DirPtr) (d : Dir) (e total : ℕ) (s' : Fs) : Prop where
  state : s' = s ∨ ∃ d', s' = s.setDirOf dir d'
  handle : ∃ d', s'.dirOf dir = some d' ∧ d'.inode = d.inode ∧
    d'.dirPos.toNat = 24 * if e < total then e + 1 else e

/-- The loop of `dir_read` from the block at `idx`, with `c` entries passed, on the way to
entry `e`. -/
theorem readDirBlocks_spec {cur : UInt32} {e total : ℕ} (n idx c : ℕ) (hidx : idx + n ≤ 140)
    (hl : Layout s.part) (hdir : s.dirOf dir = some d) (hi : s.inodes d.inode = some i)
    (hread : DirReadable s.disk i) (hsize : i.iSize.toNat = 24 * total)
    (htotal : c + (slotsFrom s.disk i idx n).length = total) (hce : c ≤ e) (he : e < 2 ^ 26)
    (hpos : d.dirPos.toNat = 24 * e) (hcur : cur.toNat = 24 * c) :
    Exec.Returns (readDirBlocks dir (blockLba s.disk i) n idx cur) s fun r s' =>
      r = ((slotsFrom s.disk i idx n)[e - c]?).map (entryAt s.disk i) ∧
        ReadState s dir d e total s' := by
  induction n generalizing s d idx c cur with
  | zero =>
    refine ⟨rfl, Or.inl rfl, d, hdir, rfl, ?_⟩
    rw [if_neg (by have : (slotsFrom s.disk i idx 0).length = 0 := rfl; omega), hpos]
  | succ n ih =>
    rw [slotsFrom_succ, List.length_append] at htotal
    rw [readDirBlocks, slotsFrom_succ]
    simp only [Exec.Returns, Exec.post_bind, Exec.post_get, post_derefDir, hdir, Option.some.injEq,
      forall_eq', reduceCtorEq, false_implies, and_true, post_derefInode, hi]
    by_cases hend : d.dirPos ≥ i.iSize
    · have htotal' : total ≤ e := by
        rw [ge_iff_le, UInt32.le_iff_toNat_le] at hend
        omega
      rw [if_pos hend, Exec.post_pure]
      refine ⟨?_, Or.inl rfl, d, hdir, rfl, ?_⟩
      · rw [List.getElem?_eq_none (by rw [List.length_append]; omega)]
        rfl
      · rw [if_neg (by omega), hpos]
    · have hlt : e < total := by
        rw [ge_iff_le, UInt32.le_iff_toNat_le] at hend
        omega
      rw [if_neg hend]
      by_cases h0 : blockLba s.disk i idx = 0
      · have hnone : blockSlots s.disk i idx = [] := by rw [blockSlots, if_pos h0]
        rw [hnone, List.length_nil, Nat.zero_add] at htotal
        rw [if_pos h0, hnone, List.nil_append]
        exact ih (idx + 1) c (by omega) hl hdir hi hread htotal hce hpos hcur
      · rw [if_neg h0, Exec.post_bind, post_readBlock (hread.block idx (by omega)), Exec.post_bind,
          post_storeDir, Exec.post_bind, hl.dirEntrySize, dirEntrysPerSec_eq hl]
        refine Exec.Returns.post (readEntries_spec entrysPerSec 0 (by omega) hce he hcur hpos)
          fun r s₁ hr => ?_
        obtain ⟨rfl, hr⟩ := hr
        have hblock : blockSlots s.disk i idx =
            ((List.range' 0 entrysPerSec).filter fun m =>
              (slotEntry s.disk (blockLba s.disk i idx) m).fType ≠ ftUnknown).map
                fun m => (idx, m) := by
          rw [blockSlots, if_neg h0, liveIn, List.range_eq_range']
        obtain ⟨cur', found⟩ := r
        cases found with
        | some m =>
          have hm : (blockSlots s.disk i idx)[e - c]? = some (idx, m) := by
            rw [hblock, List.getElem?_map, hr]
            rfl
          obtain ⟨hlen, -⟩ := List.getElem?_eq_some_iff.mp hm
          have hm' : m < entrysPerSec := by
            have hmem := List.mem_of_getElem? hr
            have := List.mem_range'_1.mp (List.mem_filter.mp hmem).1
            omega
          change Exec.Post (storeDir dir _ >>= _) _ _ _
          rw [Exec.post_bind, post_storeDir, setDirOf_setDirOf, Exec.post_pure,
            ofBytes_sectorBuf hm', List.getElem?_append_left hlen, hm]
          refine ⟨rfl, Or.inr ⟨_, rfl⟩, _, dirOf_setDirOf hdir, rfl, ?_⟩
          rw [if_pos hlt]
          have hadd : (d.dirPos + 24).toNat = d.dirPos.toNat + 24 :=
            Word.toNat_add (by simp only [UInt32.reduceToNat, hpos]; omega)
          exact hadd.trans (by omega)
        | none =>
          obtain ⟨hcur', hle⟩ := hr
          have hlen : (blockSlots s.disk i idx).length = ((List.range' 0 entrysPerSec).filter
              fun m => (slotEntry s.disk (blockLba s.disk i idx) m).fType ≠ ftUnknown).length := by
            rw [hblock, List.length_map]
          rw [← hlen] at hcur' hle
          rw [List.getElem?_append_right (by omega), Nat.sub_sub]
          let d₁ : Dir := { d with dirBuf := sectorBuf s.disk (blockLba s.disk i idx) }
          have hdisk : (s.setDirOf dir d₁).disk = s.disk := setDirOf_disk
          have hinodes : (s.setDirOf dir d₁).inodes d₁.inode = some i := by
            rw [setDirOf_inodes]
            exact hi
          have hrest := ih (s := s.setDirOf dir d₁) (d := d₁) (idx + 1)
            (c + (blockSlots s.disk i idx).length) (by omega) (by rw [setDirOf_part]; exact hl)
            (dirOf_setDirOf hdir) hinodes (by rw [hdisk]; exact hread)
            (by rw [hdisk]; omega) hle hpos hcur'
          rw [hdisk] at hrest
          refine hrest.mono fun r s' hr => ⟨hr.1, ?_, hr.2.handle⟩
          obtain rfl | ⟨d', rfl⟩ := hr.2.state
          · exact Or.inr ⟨d₁, rfl⟩
          · exact Or.inr ⟨d', setDirOf_setDirOf⟩

theorem length_liveEntries : (liveEntries disk i).length = (liveSlots disk i).length :=
  List.length_map _

/-- `dir_read` with the cursor at entry `e` returns that entry and moves on, or nothing. -/
theorem dirRead_spec {e : ℕ} (hl : Layout s.part) (hdir : s.dirOf dir = some d)
    (hi : s.inodes d.inode = some i) (hread : DirReadable s.disk i)
    (hsize : i.iSize.toNat = sizeofDirEntry * (liveEntries s.disk i).length) (he : e < 2 ^ 26)
    (hpos : d.dirPos.toNat = 24 * e) :
    Exec.Returns (dirRead dir) s fun r s' => r = (liveEntries s.disk i)[e]? ∧
      ReadState s dir d e (liveEntries s.disk i).length s' := by
  simp only [dirRead, Exec.Returns, Exec.post_bind, post_derefDir, hdir, Option.some.injEq,
    forall_eq', reduceCtorEq, false_implies, and_true, post_derefInode, hi, post_loadBlocks hread]
  have hidx : 0 + (if i.sector 12 ≠ 0 then 140 else 12) ≤ 140 := by split <;> omega
  have hall : slotsFrom s.disk i 0 (if i.sector 12 ≠ 0 then 140 else 12) = liveSlots s.disk i :=
    slotsFrom_zero
  refine (readDirBlocks_spec _ 0 0 hidx hl hdir hi hread hsize ?_ (Nat.zero_le e) he hpos
    rfl).post fun r s' hr => ?_
  · rw [hall, Nat.zero_add, length_liveEntries]
  · rw [hall, Nat.sub_zero, ← List.getElem?_map] at hr
    exact hr

/-- The state after a call is one in which the next call finds the same directory. -/
theorem ReadState.same {e total : ℕ} {s' : Fs} (h : ReadState s dir d e total s') :
    s'.disk = s.disk ∧ s'.part = s.part ∧ s'.inodes = s.inodes ∧ s'.cur = s.cur := by
  obtain rfl | ⟨d', rfl⟩ := h.state
  · exact ⟨rfl, rfl, rfl, rfl⟩
  · exact ⟨setDirOf_disk, setDirOf_part, setDirOf_inodes, setDirOf_cur⟩

theorem dirReadTimes_spec (n : ℕ) {e : ℕ} (hl : Layout s.part) (hdir : s.dirOf dir = some d)
    (hi : s.inodes d.inode = some i) (hread : DirReadable s.disk i)
    (hsize : i.iSize.toNat = sizeofDirEntry * (liveEntries s.disk i).length)
    (he : e ≤ (liveEntries s.disk i).length) (hpos : d.dirPos.toNat = 24 * e) :
    Exec.Returns (dirReadTimes dir n) s fun es _ =>
      es = (List.range n).map fun k => (liveEntries s.disk i)[e + k]? := by
  induction n generalizing s d e with
  | zero => rfl
  | succ n ih =>
    have hmax : (liveEntries s.disk i).length ≤ 140 * entrysPerSec :=
      length_liveEntries.trans_le length_liveSlots_le
    rw [entrysPerSec] at hmax
    rw [dirReadTimes, Exec.Returns, Exec.post_bind]
    refine (dirRead_spec hl hdir hi hread hsize (by omega) hpos).post fun r s₁ hr => ?_
    obtain ⟨rfl, hstate⟩ := hr
    obtain ⟨hdisk, hpart, hinodes, -⟩ := hstate.same
    obtain ⟨d₁, hdir₁, hinode, hpos₁⟩ := hstate.handle
    rw [Exec.post_bind]
    have hle : (if e < (liveEntries s.disk i).length then e + 1 else e) ≤
        (liveEntries s₁.disk i).length := by
      rw [hdisk]
      split <;> omega
    refine (ih (hpart ▸ hl) hdir₁ (by rw [hinodes, hinode]; exact hi) (hdisk ▸ hread)
      (by rw [hdisk]; exact hsize) hle hpos₁).post fun es s₂ hes => ?_
    rw [Exec.post_pure, hes, hdisk, List.range_succ_eq_map, List.map_cons, List.map_map]
    refine congrArg₂ _ rfl (List.map_congr_left fun k _ => ?_)
    rw [Function.comp_apply]
    split
    · rw [show e + 1 + k = e + k.succ by omega]
    · rw [List.getElem?_eq_none (by omega), List.getElem?_eq_none (by omega)]

/-- Repeated calls of `dir_read` from the start return the live entries in order, and then nothing
any more. -/
theorem dirRead_enumerates (hl : Layout s.part) (hdir : s.dirOf dir = some d)
    (hi : s.inodes d.inode = some i) (hread : DirReadable s.disk i)
    (hsize : i.iSize.toNat = sizeofDirEntry * (liveEntries s.disk i).length) (hpos : d.dirPos = 0)
    (n : ℕ) : Exec.Returns (dirReadTimes dir n) s fun es _ =>
      es = (List.range n).map fun k => (liveEntries s.disk i)[k]? := by
  refine (dirReadTimes_spec n hl hdir hi hread hsize (Nat.zero_le _)
    (by rw [hpos]; rfl)).mono fun es _ hes => ?_
  simpa only [Nat.zero_add] using hes

theorem dirReadable_rootFs : ∀ i, rootFs.inodes 0 = some i → DirReadable rootFs.disk i := by
  rintro i hi
  obtain rfl := Option.some.inj hi
  exact ⟨by decide +kernel, by decide +kernel⟩

/-- The root directory of a fresh partition has two entries. -/
theorem dirRead_enumerates_root : ∃ i, rootFs.inodes 0 = some i ∧
    (liveEntries rootFs.disk i).length = 2 ∧
    Exec.Returns (dirReadTimes .rootDir 3) rootFs fun es _ =>
      es = (List.range 3).map fun k => (liveEntries rootFs.disk i)[k]? := by
  refine ⟨_, rfl, by decide +kernel, ?_⟩
  exact dirRead_enumerates (d := rootFs.rootDir) layout_rootFs rfl rfl (dirReadable_rootFs _ rfl)
    (by decide +kernel) rfl 3

end Read

end Winx
