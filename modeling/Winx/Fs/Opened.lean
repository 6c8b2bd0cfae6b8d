import Winx.Fs.DirEmpty
import Winx.Fs.Visit

/-! # Directories open on top

A state with some more directories open has the same disk and the same inodes, up to
how often they are open, and it can go on opening directories.
-/

namespace Winx

/-- The state `u` is the state `s` with more open. -/
structure Over (s u : Fs) : Prop extends Openable u where
  disk : u.disk = s.disk
  part : ∃ l, u.part = s.part.setOpenInodes l
  inode : ∀ n : UInt32, ∃ c, curInode u n.toNat = (curInode s n.toNat).setOpenCnts c

/-- The pointer is a handle of a directory that is open. -/
def Fs.Holds (u : Fs) (ptr : DirPtr) (d : UInt32) : Prop :=
  ∃ o, u.dirOf ptr = some o ∧ findOpenInode u d = some o.inode

variable {s u : Fs} {no n d : UInt32} {ptr : DirPtr} {k : ℕ} {j : Inode} {dir : Dir}

section Open

theorem openInode_inodes_of_ne {q : ℕ} (hq : q ≠ s.openedAt no) :
    (s.openInode no j).inodes q = s.inodes q := by
  rw [Fs.openedAt] at hq
  unfold Fs.openInode
  cases hfind : findOpenInode s no with
  | some p =>
    rw [hfind, Option.getD_some] at hq
    exact Function.update_of_ne hq ..
  | none =>
    rw [hfind, Option.getD_none] at hq
    exact Function.update_of_ne hq ..

/-- An inode that is opened is found, and the others are found where they were. -/
theorem findOpenInode_openInode (h : Openable s) (hno : (curInode s no.toNat).iNo = no) (n : UInt32) :
    findOpenInode (s.openInode no (s.stored no)) n =
      if n = no then some (s.openedAt no) else findOpenInode s n := by
  have hcases := openInode_inodes (s := s) no
  cases hfind : findOpenInode s no with
  | some p =>
    obtain ⟨hp, i, hi, hino⟩ := findOpenInode_some hfind
    have hat : s.openedAt no = p := by rw [Fs.openedAt, hfind, Option.getD_some]
    have hopen : s.openInode no (s.stored no) = s.setInode p (some (i.setOpenCnts (i.iOpenCnts + 1))) := by
      simp only [Fs.openInode, hfind, hi, Option.map_some]
    have hsame : findOpenInode (s.openInode no (s.stored no)) n = findOpenInode s n := by
      rw [hopen]
      unfold findOpenInode
      refine congrArg (s.part.openInodes.find? ·) (funext fun q => ?_)
      rw [Fs.setInode_inodes]
      by_cases hq : q = p
      · rw [hq, Function.update_self, hi]
        rfl
      · rw [Function.update_of_ne hq]
    rw [hsame, hat]
    split
    · rename_i hn
      rw [hn, hfind]
    · rfl
  | none =>
    have hat : s.openedAt no = s.nextInode := by rw [Fs.openedAt, hfind, Option.getD_none]
    have hstored : (s.stored no).iNo = no := by
      rw [curInode_of_none hfind] at hno
      exact hno
    have hopen : s.openInode no (s.stored no) = s.insert ((s.stored no).setOpenCnts 1) := by
      simp only [Fs.openInode, hfind]
    rw [hopen, hat]
    have hlist : findOpenInode (s.insert ((s.stored no).setOpenCnts 1)) n =
        (s.nextInode :: s.part.openInodes).find? fun p =>
          (Function.update s.inodes s.nextInode (some ((s.stored no).setOpenCnts 1)) p).any
            fun i => i.iNo == n := rfl
    rw [hlist, List.find?_cons, Function.update_self, Option.any_some]
    have hhead : ((s.stored no).setOpenCnts 1).iNo = no := hstored
    rw [hhead]
    by_cases hn : n = no
    · rw [if_pos hn, hn, beq_self_eq_true]
    · rw [if_neg hn, beq_false_of_ne (Ne.symm hn)]
      change _ = s.part.openInodes.find? _
      refine congrArg (s.part.openInodes.find? ·) (funext fun q => ?_)
      by_cases hq : q = s.nextInode
      · rw [hq, Function.update_self, h.fresh le_rfl, Option.any_some, hhead, Option.any_none,
          beq_false_of_ne (Ne.symm hn)]
      · rw [Function.update_of_ne hq]

/-- Opening an inode changes no inode but for how often it is open. -/
theorem curInode_openInode (h : Openable s) (hno : (curInode s no.toNat).iNo = no) (n : UInt32) :
    ∃ c, curInode (s.openInode no (s.stored no)) n.toNat = (curInode s n.toNat).setOpenCnts c := by
  have hfind := findOpenInode_openInode h hno n
  by_cases hn : n = no
  · subst hn
    obtain ⟨c, hc⟩ := openInode_inodes (s := s) n
    rw [if_pos rfl] at hfind
    exact ⟨c, curInode_of_find hfind hc⟩
  · refine ⟨(curInode s n.toNat).iOpenCnts, ?_⟩
    change _ = curInode s n.toNat
    rw [if_neg hn] at hfind
    cases hq : findOpenInode s n with
    | none =>
      obtain ⟨l, hpart⟩ := @openInode_part s no (s.stored no)
      rw [hq] at hfind
      rw [curInode_of_none hfind, curInode_of_none hq, openInode_disk, hpart]
      rfl
    | some q =>
      obtain ⟨-, i, hi, hin⟩ := findOpenInode_some hq
      have hne : q ≠ s.openedAt no := by
        intro heq
        rw [Fs.openedAt] at heq
        cases hp : findOpenInode s no with
        | none =>
          rw [hp, Option.getD_none] at heq
          exact absurd (h.inode_lt q i hi) (by omega)
        | some p =>
          rw [hp, Option.getD_some] at heq
          obtain ⟨-, i', hi', hin'⟩ := findOpenInode_some hp
          rw [← heq, hi] at hi'
          exact hn (hin.symm.trans ((congrArg Inode.iNo (Option.some.inj hi')).trans hin'))
      rw [hq] at hfind
      have hi' : (s.openInode no (s.stored no)).inodes q = some i :=
        (openInode_inodes_of_ne hne).trans hi
      rw [curInode_of_find hfind hi', curInode_of_find hq hi]

theorem Openable.openInode (h : Openable s) (no : UInt32) (j : Inode) : Openable (s.openInode no j) := by
  unfold Fs.openInode
  cases hfind : findOpenInode s no with
  | some p =>
    obtain ⟨hp, i, hi, -⟩ := findOpenInode_some hfind
    simp only [hi, Option.map_some]
    refine ⟨h.running, h.dirs, fun q i' hi' => ?_, fun q hq i' hi' => ?_⟩
    all_goals
      rw [Fs.setInode_inodes] at hi'
      by_cases hqp : q = p
    · exact hqp ▸ h.inode_lt p i hi
    · rw [Function.update_of_ne hqp] at hi'
      exact h.inode_lt q i' hi'
    · rw [hqp, Function.update_self] at hi'
      rw [← Option.some.inj hi']
      exact Nat.succ_pos _
    · rw [Function.update_of_ne hqp] at hi'
      exact h.opened q hq i' hi'
  | none =>
    have hinodes : (s.insert (j.setOpenCnts 1)).inodes =
        Function.update s.inodes s.nextInode (some (j.setOpenCnts 1)) := rfl
    refine ⟨h.running, h.dirs, fun q i' hi' => ?_, fun q hq i' hi' => ?_⟩
    all_goals
      rw [hinodes] at hi'
      by_cases hqp : q = s.nextInode
    · exact hqp ▸ Nat.lt_succ_self _
    · rw [Function.update_of_ne hqp] at hi'
      exact (h.inode_lt q i' hi').trans (Nat.lt_succ_self _)
    · rw [hqp, Function.update_self] at hi'
      rw [← Option.some.inj hi']
      exact Nat.one_pos
    · rw [Function.update_of_ne hqp] at hi'
      exact h.opened q ((List.mem_cons.mp hq).resolve_left hqp) i' hi'

theorem Openable.addDir (h : Openable s) (dir : Dir) : Openable (s.addDir dir) where
  running := (mapDirs_pids (s := s.bumpDir)).symm ▸ h.running
  dirs t ht x hx := by
    change x.1 < s.nextDir + 1
    obtain ⟨t', ht', rfl⟩ := List.mem_map.mp ht
    split at hx
    · rcases List.mem_cons.mp hx with rfl | hx
      · exact Nat.lt_succ_self _
      · exact (h.dirs t' ht' x hx).trans (Nat.lt_succ_self _)
    · exact (h.dirs t' ht' x hx).trans (Nat.lt_succ_self _)
  inode_lt := h.inode_lt
  opened := h.opened

/-- The handles that are there stay when one is added. -/
theorem dirOf_addDir_of_some (h : Openable s) {o : Dir} (ho : s.dirOf ptr = some o) :
    (s.addDir dir).dirOf ptr = some o := by
  cases ptr with
  | rootDir => exact ho
  | heap a =>
    rw [dirOf_eq_handle, Fs.handle] at ho
    obtain ⟨t, ht, hlookup⟩ := Option.bind_eq_some_iff.mp ho
    have hmem := List.mem_of_find?_eq_some ht
    have hpid : t.pid = s.cur := by simpa using List.find?_some ht
    obtain ⟨l₁, l₂, hsplit, -⟩ := List.lookup_eq_some_iff.mp hlookup
    have hlt : a < s.nextDir := h.dirs t hmem (a, o) (by rw [hsplit]; simp)
    rw [dirOf_eq_handle, Fs.addDir, handle_mapDirs]
    change ((s.tasks.find? (·.pid = s.cur)).bind _) = _
    rw [ht, Option.bind_some, if_pos (show t.pid = s.bumpDir.cur from hpid), List.lookup_cons,
      beq_false_of_ne hlt.ne]
    exact hlookup

end Open

section Stack

theorem Over.advance (h : Openable s) (a b k : ℕ) : Over s (s.advance a b k) where
  toOpenable := h.advance a b k
  disk := rfl
  part := ⟨s.part.openInodes, rfl⟩
  inode n := ⟨(curInode s n.toNat).iOpenCnts, rfl⟩

/-- Opening a directory on top. -/
theorem Over.openDir (h : Over s u) (hno : (curInode s no.toNat).iNo = no) (f : ℕ → Bool) :
    Over s ((u.openDir no (u.stored no)).withMallocs f) ∧
      ((u.openDir no (u.stored no)).withMallocs f).Holds (.heap u.nextDir) no ∧
        ∀ ptr d, u.Holds ptr d → ((u.openDir no (u.stored no)).withMallocs f).Holds ptr d := by
  have hu := h.toOpenable
  have hno' : (curInode u no.toNat).iNo = no := by
    obtain ⟨c, hc⟩ := h.inode no
    rw [hc]
    exact hno
  have hopen := hu.openInode no (u.stored no)
  have hfind := findOpenInode_openInode hu hno'
  refine ⟨⟨?_, ?_, ?_, fun n => ?_⟩, ?_, ?_⟩
  · have hadd := hopen.addDir ⟨u.openedAt no, 0, Bytes.zero⟩
    exact ⟨hadd.running, hadd.dirs, hadd.inode_lt, hadd.opened⟩
  · exact openInode_disk.trans h.disk
  · obtain ⟨l, hpart⟩ := h.part
    obtain ⟨l', hpart'⟩ := @openInode_part u no (u.stored no)
    refine ⟨l', hpart'.trans ?_⟩
    rw [hpart]
    rfl
  · obtain ⟨c, hc⟩ := h.inode n
    obtain ⟨c', hc'⟩ := curInode_openInode hu hno' n
    refine ⟨c', hc'.trans ?_⟩
    rw [hc]
    rfl
  · have hdir := dirOf_addDir (d := ⟨u.openedAt no, 0, Bytes.zero⟩) hopen.running
    rw [openInode_nextDir] at hdir
    exact ⟨_, hdir, (hfind no).trans (if_pos rfl)⟩
  · rintro ptr d ⟨o, ho, hd⟩
    have hkeep : (u.openInode no (u.stored no)).dirOf ptr = some o := by
      rw [← ho]
      cases ptr with
      | rootDir =>
        unfold Fs.openInode
        split <;> rfl
      | heap a =>
        unfold Fs.openInode
        split <;> rfl
    refine ⟨o, dirOf_addDir_of_some hopen hkeep, (hfind d).trans ?_⟩
    split
    · rename_i hdn
      rw [Fs.openedAt, ← hdn, hd, Option.getD_some]
    · exact hd

/-- The state of a call that looks up a path has a directory open. -/
theorem At.over (hv : Visitable s) (hno : (curInode s d.toNat).iNo = d) (hat : At s k d ptr u) :
    Over s u ∧ u.Holds ptr d := by
  cases hat with
  | root a b => exact ⟨.advance hv.toOpenable a b k, s.rootDir, rfl, hv.root⟩
  | heap a b =>
    have hbase := Over.advance hv.toOpenable a b 0
    obtain ⟨hover, hholds, -⟩ := hbase.openDir hno fun n => s.mallocs (n + k)
    exact ⟨hover, hholds⟩

end Stack

section Dirs

/-- The object of a directory that is open. -/
theorem Fs.Holds.object (h : Over s u) (hh : u.Holds ptr d) : ∃ o c, u.dirOf ptr = some o ∧
    findOpenInode u d = some o.inode ∧
      u.inodes o.inode = some ((curInode s d.toNat).setOpenCnts c) := by
  obtain ⟨o, ho, hfind⟩ := hh
  obtain ⟨-, i, hi, -⟩ := findOpenInode_some hfind
  obtain ⟨c, hc⟩ := h.inode d
  refine ⟨o, c, ho, hfind, ?_⟩
  rw [← hc, curInode_of_find hfind hi, hi]

theorem Over.layout (h : Over s u) (hl : Layout s.part) : Layout u.part := by
  obtain ⟨l, hpart⟩ := h.part
  rw [hpart]
  exact hl.setOpenInodes l

/-- A directory is as tidy when more is open. -/
theorem Over.tidy (h : Over s u) {i : Inode} (hi : TidyDir s i) (c : ℕ) :
    TidyDir u (i.setOpenCnts c) := by
  obtain ⟨l, hpart⟩ := h.part
  have hused : ∀ c', slotLba u.disk (i.setOpenCnts c) c' ≠ 0 → ∃ j,
      IsBlock u.part (slotLba u.disk (i.setOpenCnts c) c') j ∧ u.part.blockBitmap.scanTest j = true := by
    rw [h.disk, hpart]
    exact hi.used
  have hother : DirReadable u.disk (i.setOpenCnts c) ∧ FreeSlotsBlank u.disk (i.setOpenCnts c) := by
    rw [h.disk]
    exact ⟨⟨hi.readable.block, hi.readable.table⟩, hi.blank⟩
  constructor
  · refine ⟨⟨h.layout hi.layout, hother.1, hused, ?_, hother.2⟩, ?_, ?_⟩
    all_goals rw [h.disk]
    · exact hi.inj
    · exact hi.size
    · exact hi.dots
  all_goals rw [h.disk]
  · exact hi.self
  · exact hi.parent
  · exact hi.once
  · exact hi.occupied
  · exact hi.table

end Dirs

end Winx
