import Winx.Fs.Components
import Winx.Fs.HandleCounts
import Winx.Fs.Lookup

/-! # Visiting directories

Opening a directory and closing it again leaves the state as it was, up to the
addresses and the answers of `sys_malloc` that were used up. So whatever
directories a call has visited, its state is the one it started in with at most
one directory open on top.
-/

namespace Winx

/-- The state when addresses and answers of `sys_malloc` are used up. -/
@[simps -fullyApplied] def Fs.advance (s : Fs) (a b k : ℕ) : Fs :=
  { s with
    nextInode := s.nextInode + a
    nextDir := s.nextDir + b
    mallocs := fun n => s.mallocs (n + k) }

/-- A state in which directories can be opened and closed. -/
structure Openable (s : Fs) : Prop where
  running : s.cur ∈ s.tasks.map (·.pid)
  dirs : ∀ t ∈ s.tasks, ∀ x ∈ t.dirs, x.1 < s.nextDir
  inode_lt : ∀ p i, s.inodes p = some i → p < s.nextInode
  opened : ∀ p ∈ s.part.openInodes, ∀ i, s.inodes p = some i → 0 < i.iOpenCnts

/-- A state in which paths can be walked from the root directory. -/
structure Visitable (s : Fs) : Prop extends Openable s where
  layout : Layout s.part
  root : findOpenInode s 0 = some s.rootDir.inode

/-- Where `inode_open` finds or puts an inode. -/
def Fs.openedAt (s : Fs) (no : UInt32) : ℕ := (findOpenInode s no).getD s.nextInode

/-- The inode stored on the disk under a number. -/
def Fs.stored (s : Fs) (no : UInt32) : Inode := diskInode s.disk s.part.sb no.toNat

/-- The state after `inode_open`, without the memory it uses, if inode `j` is loaded. -/
def Fs.openInode (s : Fs) (no : UInt32) (j : Inode) : Fs :=
  match findOpenInode s no with
  | some p => s.setInode p ((s.inodes p).map fun i => i.setOpenCnts (i.iOpenCnts + 1))
  | none => s.insert (j.setOpenCnts 1)

/-- The state after `dir_open`, without the memory it uses, if inode `j` is loaded. -/
def Fs.openDir (s : Fs) (no : UInt32) (j : Inode) : Fs :=
  (s.openInode no j).addDir ⟨s.openedAt no, 0, Bytes.zero⟩

/-- How often `dir_open` calls `sys_malloc`. -/
def Fs.openCost (s : Fs) (no : UInt32) : ℕ := if findOpenInode s no = none then 3 else 1

/-- `dir_open` gets its memory. -/
def Fs.OpenRoom (s : Fs) (no : UInt32) : Prop := ∀ n < s.openCost no, s.mallocs n = true

variable {s : Fs} {no d : UInt32} {p k : ℕ} {j : Inode} {f : ℕ → Bool}

section Open

/-- The object found on `open_inodes` has the number looked for. -/
theorem findOpenInode_some (h : findOpenInode s no = some p) :
    p ∈ s.part.openInodes ∧ ∃ i, s.inodes p = some i ∧ i.iNo = no := by
  have hno := List.find?_some h
  cases hi : s.inodes p with
  | none => simp [hi] at hno
  | some i =>
    rw [hi, Option.any_some, beq_iff_eq] at hno
    exact ⟨List.mem_of_find?_eq_some h, i, rfl, hno⟩

theorem openInode_nextDir : (s.openInode no j).nextDir = s.nextDir := by
  unfold Fs.openInode
  split <;> rfl

/-- What `inode_open` does. -/
theorem post_inodeOpen (hl : Layout s.part) (hn : no.toNat < 4096) {Q : ℕ → Fs → Prop}
    {E : Fault → Prop} : Exec.Post (inodeOpen no) s Q E ↔
      ((findOpenInode s no = none → s.mallocs 0 = true ∧ s.mallocs 1 = true) →
        Q (s.openedAt no) ((s.openInode no (s.stored no)).withMallocs
          fun n => s.mallocs (n + (s.openCost no - 1)))) ∧
      (¬ (findOpenInode s no = none → s.mallocs 0 = true ∧ s.mallocs 1 = true) →
        E .badPointer) := by
  rw [inodeOpen, Exec.post_bind, Exec.post_get, Fs.openedAt, Fs.openInode, Fs.openCost]
  cases hfind : findOpenInode s no with
  | some p =>
    obtain ⟨-, i, hi, -⟩ := findOpenInode_some hfind
    simp only [Exec.post_bind, post_derefInode, post_storeInode, Exec.post_pure, hi,
      Option.some.injEq, forall_eq', reduceCtorEq, false_implies, not_true_eq_false, and_true,
      true_implies, if_false]
    rfl
  | none =>
    rw [post_inodeLoad hl hn]
    simp only [true_implies, if_true]
    rfl

/-- What `dir_open` does. -/
theorem post_dirOpen (hl : Layout s.part) (hn : no.toNat < 4096) {Q : DirPtr → Fs → Prop}
    {E : Fault → Prop} : Exec.Post (dirOpen no) s Q E ↔
      (s.OpenRoom no → Q (.heap s.nextDir)
        ((s.openDir no (s.stored no)).withMallocs fun n => s.mallocs (n + s.openCost no))) ∧
      (¬ s.OpenRoom no → E .badPointer) := by
  have hroom : s.OpenRoom no ↔ s.mallocs 0 = true ∧
      (findOpenInode s no = none → s.mallocs 1 = true ∧ s.mallocs 2 = true) := by
    rw [Fs.OpenRoom, Fs.openCost]
    split
    · rename_i hnone
      constructor
      · exact fun h => ⟨h 0 (by decide), fun _ => ⟨h 1 (by decide), h 2 (by decide)⟩⟩
      · rintro ⟨h₀, h⟩ n hn
        have hn : n = 0 ∨ n = 1 ∨ n = 2 := by omega
        rcases hn with rfl | rfl | rfl
        · exact h₀
        · exact (h hnone).1
        · exact (h hnone).2
    · rename_i hsome
      constructor
      · exact fun h => ⟨h 0 (by decide), fun hnone => absurd hnone hsome⟩
      · rintro ⟨h₀, -⟩ n hn
        obtain rfl : n = 0 := by omega
        exact h₀
  rw [dirOpen, Exec.post_bind, post_sysMallocUnchecked, hroom]
  cases h₀ : s.mallocs 0 with
  | false => simp
  | true =>
    simp only [Exec.post_bind, true_implies, Bool.true_eq_false, false_implies, and_true, true_and]
    rw [post_inodeOpen (s := s.tick) hl hn]
    have hstate : ((s.tick.openInode no (s.stored no)).withMallocs fun n =>
          s.tick.mallocs (n + (s.tick.openCost no - 1))).addDir ⟨s.tick.openedAt no, 0, Bytes.zero⟩ =
        (s.openDir no (s.stored no)).withMallocs fun n => s.mallocs (n + s.openCost no) := by
      rw [Fs.openDir, Fs.openInode, Fs.openInode, Fs.openCost, Fs.openCost, Fs.openedAt, Fs.openedAt]
      have htick : findOpenInode s.tick no = findOpenInode s no := rfl
      rw [htick]
      cases findOpenInode s no <;> rfl
    have hdir : ((s.tick.openInode no (s.stored no)).withMallocs
        fun n => s.tick.mallocs (n + (s.tick.openCost no - 1))).nextDir = s.nextDir :=
      openInode_nextDir
    have hstored : s.tick.stored no = s.stored no := rfl
    simp only [post_newDir, hstored, hstate, hdir]
    rfl

end Open

section Close

theorem Openable.fresh (h : Openable s) (hp : s.nextInode ≤ p) : s.inodes p = none := by
  cases hi : s.inodes p with
  | none => rfl
  | some i => exact absurd (h.inode_lt p i hi) (not_lt.mpr hp)

/-- The handles that were there before stay when the new one goes. -/
theorem Openable.filter_tasks (h : Openable s) (dir : Dir) :
    (s.tasks.map fun t => if t.pid = s.cur then { t with dirs := (s.nextDir, dir) :: t.dirs }
      else t).map (fun t => if t.pid = s.cur then
        { t with dirs := t.dirs.filter (·.1 ≠ s.nextDir) } else t) = s.tasks := by
  rw [List.map_map]
  refine (List.map_congr_left fun t ht => ?_).trans (List.map_id s.tasks)
  have hkeep : t.dirs.filter (·.1 ≠ s.nextDir) = t.dirs := by
    rw [List.filter_eq_self]
    exact fun x hx => by simpa using (h.dirs t ht x hx).ne
  by_cases hpid : t.pid = s.cur
  · simp only [Function.comp_apply, if_pos hpid]
    rw [List.filter_cons_of_neg (by simp), hkeep]
    rfl
  · simp only [Function.comp_apply, if_neg hpid, id_eq]

/-- Closing an inode that stays open. -/
theorem inodeClose_stays {i : Inode} (hi : s.inodes p = some i) (hcnt : 1 < i.iOpenCnts) :
    inodeClose p s = .ok ((), s.setInode p (some (i.setOpenCnts (i.iOpenCnts - 1)))) := by
  rw [Exec.eq_ok_iff]
  simp only [inodeClose, Exec.Returns, Exec.post_bind, post_derefInode, hi, Option.some.injEq,
    forall_eq', reduceCtorEq, false_implies, and_true, post_storeInode]
  have hleft : (if i.iOpenCnts = 0 then 2 ^ 32 - 1 else i.iOpenCnts - 1) = i.iOpenCnts - 1 :=
    if_neg (by omega)
  have hpos : i.iOpenCnts - 1 ≠ 0 := by omega
  rw [hleft, if_neg hpos]
  exact ⟨trivial, rfl⟩

/-- Closing an inode that is open once. -/
theorem inodeClose_last {i : Inode} (hi : s.inodes p = some i) (hcnt : i.iOpenCnts = 1) :
    inodeClose p s = .ok ((),
      (s.setPart (s.part.setOpenInodes (s.part.openInodes.erase p))).setInode p none) := by
  rw [Exec.eq_ok_iff]
  simp only [inodeClose, Exec.Returns, Exec.post_bind, post_derefInode, hi, Option.some.injEq,
    forall_eq', reduceCtorEq, false_implies, and_true, post_storeInode]
  have hleft : (if i.iOpenCnts = 0 then 2 ^ 32 - 1 else i.iOpenCnts - 1) = 0 := by
    rw [hcnt]
    rfl
  rw [hleft, if_pos rfl, Exec.post_modify]
  refine ⟨trivial, ?_⟩
  simp only [Fs.setInode, Fs.setPart, Function.update_idem]

/-- Closing the directory opened last leaves the state as it was. -/
theorem dirClose_openDir (h : Openable s) (no : UInt32) (j : Inode) (f : ℕ → Bool) :
    dirClose (.heap s.nextDir) ((s.openDir no j).withMallocs f) =
      .ok ((), (s.advance (if findOpenInode s no = none then 1 else 0) 1 0).withMallocs f) := by
  have htasks := h.filter_tasks ⟨s.openedAt no, 0, Bytes.zero⟩
  have hrun : (s.openInode no j).cur ∈ (s.openInode no j).tasks.map (·.pid) := by
    unfold Fs.openInode
    split <;> exact h.running
  have hdir : ((s.openDir no j).withMallocs f).dirOf (.heap s.nextDir) =
      some ⟨s.openedAt no, 0, Bytes.zero⟩ := by
    have hnext : (s.openInode no j).nextDir = s.nextDir := openInode_nextDir
    rw [← hnext]
    exact dirOf_addDir hrun
  have hderef : derefDir (.heap s.nextDir) ((s.openDir no j).withMallocs f) =
      .ok (⟨s.openedAt no, 0, Bytes.zero⟩, (s.openDir no j).withMallocs f) := by
    rw [Exec.eq_ok_iff, Exec.Returns, post_derefDir, hdir]
    exact ⟨fun _ h => ⟨(Option.some.inj h).symm, rfl⟩, by simp⟩
  rw [dirClose, Exec.bind_eq_ok hderef]
  cases hfind : findOpenInode s no with
  | some p =>
    obtain ⟨hp, i, hi, -⟩ := findOpenInode_some hfind
    have hcnt := h.opened p hp i hi
    have hat : s.openedAt no = p := by rw [Fs.openedAt, hfind, Option.getD_some]
    have hopen : s.openInode no j = s.setInode p (some (i.setOpenCnts (i.iOpenCnts + 1))) := by
      simp only [Fs.openInode, hfind, hi, Option.map_some]
    have hself : Function.update s.inodes p (some i) = s.inodes := by
      rw [← hi, Function.update_eq_self]
    rw [hat] at htasks
    rw [Fs.openDir, hat, hopen]
    rw [Exec.bind_eq_ok (inodeClose_stays (Function.update_self ..)
      (show 1 < i.iOpenCnts + 1 by omega))]
    refine congrArg Except.ok (Prod.ext rfl ?_)
    simp only [Fs.advance, Fs.withMallocs, Fs.setTasks, Fs.setInode, Fs.addDir, Fs.mapDirs,
      Fs.bumpDir, Function.update_idem, reduceCtorEq, if_false, Nat.add_zero, Fs.mk.injEq, true_and,
      and_true]
    exact ⟨hself, htasks⟩
  | none =>
    have hat : s.openedAt no = s.nextInode := by rw [Fs.openedAt, hfind, Option.getD_none]
    have hopen : s.openInode no j = s.insert (j.setOpenCnts 1) := by
      simp only [Fs.openInode, hfind]
    have hgone : Function.update s.inodes s.nextInode none = s.inodes := by
      rw [← h.fresh le_rfl, Function.update_eq_self]
    rw [hat] at htasks
    rw [Fs.openDir, hat, hopen]
    rw [Exec.bind_eq_ok (inodeClose_last (Function.update_self ..) rfl)]
    refine congrArg Except.ok (Prod.ext rfl ?_)
    have hlist : (s.nextInode :: s.part.openInodes).erase s.nextInode = s.part.openInodes :=
      List.erase_cons_head ..
    simp only [Fs.advance, Fs.withMallocs, Fs.setTasks, Fs.setInode, Fs.setPart, Fs.insert, Fs.addDir,
      Fs.mapDirs, Fs.bumpDir, Fs.bumpInode, if_true, Nat.add_zero, Fs.mk.injEq, true_and,
      Partition.setOpenInodes, hlist]
    exact ⟨(Function.update_idem ..).trans hgone, htasks, trivial⟩

end Close

/-- The state of a call that began in `s`, used `k` answers of `sys_malloc` and has directory `d`
open. -/
inductive At (s : Fs) (k : ℕ) : UInt32 → DirPtr → Fs → Prop
  | root (a b : ℕ) : At s k 0 .rootDir (s.advance a b k)
  | heap (a b : ℕ) (d : UInt32) : At s k d (.heap (s.nextDir + b))
      (((s.advance a b 0).openDir d (s.stored d)).withMallocs fun n => s.mallocs (n + k))

section At

variable {ptr : DirPtr} {u : Fs}

theorem Openable.advance (h : Openable s) (a b k : ℕ) : Openable (s.advance a b k) where
  running := h.running
  dirs t ht x hx := (h.dirs t ht x hx).trans_le (Nat.le_add_right _ _)
  inode_lt p i hi := (h.inode_lt p i hi).trans_le (Nat.le_add_right _ _)
  opened := h.opened

theorem openInode_disk : (s.openInode no j).disk = s.disk := by
  unfold Fs.openInode
  split <;> rfl

theorem openInode_part : ∃ l, (s.openInode no j).part = s.part.setOpenInodes l := by
  unfold Fs.openInode
  split
  · exact ⟨s.part.openInodes, rfl⟩
  · exact ⟨_, rfl⟩

theorem At.disk (h : At s k d ptr u) : u.disk = s.disk := by
  cases h with
  | root => rfl
  | heap a b => exact openInode_disk (s := s.advance a b 0)

theorem At.part (h : At s k d ptr u) : ∃ l, u.part = s.part.setOpenInodes l := by
  cases h with
  | root => exact ⟨s.part.openInodes, rfl⟩
  | heap a b => exact openInode_part (s := s.advance a b 0)

theorem At.mallocs (h : At s k d ptr u) (n : ℕ) : u.mallocs n = s.mallocs (n + k) := by
  cases h <;> rfl

theorem At.tick (h : At s k d ptr u) : At s (k + 1) d ptr u.tick := by
  have hnext : (fun n => s.mallocs (n + 1 + k)) = fun n => s.mallocs (n + (k + 1)) :=
    funext fun n => by rw [Nat.add_right_comm, Nat.add_assoc]
  cases h with
  | root a b =>
    have heq : (s.advance a b k).tick = s.advance a b (k + 1) := by
      simp only [Fs.advance, Fs.tick, hnext]
    rw [heq]
    exact .root a b
  | heap a b d =>
    have heq : ((((s.advance a b 0).openDir d (s.stored d)).withMallocs fun n => s.mallocs (n + k))).tick =
        ((s.advance a b 0).openDir d (s.stored d)).withMallocs fun n => s.mallocs (n + (k + 1)) := by
      simp only [Fs.withMallocs, Fs.tick, hnext]
    rw [heq]
    exact .heap a b d

theorem curInode_of_find {i : Inode} (h : findOpenInode s d = some p) (hi : s.inodes p = some i) :
    curInode s d.toNat = i := by
  rw [curInode, UInt32.ofNat_toNat, h]
  exact congrArg (·.getD zeroInode) hi

theorem curInode_of_none (h : findOpenInode s d = none) :
    curInode s d.toNat = diskInode s.disk s.part.sb d.toNat :=
  curInode_of_miss (by rwa [UInt32.ofNat_toNat])

/-- What `inode_open` leaves where it opened the inode. -/
theorem openInode_inodes (d : UInt32) : ∃ n,
    (s.openInode d (s.stored d)).inodes (s.openedAt d) = some ((curInode s d.toNat).setOpenCnts n) := by
  rw [Fs.openInode, Fs.openedAt]
  cases hfind : findOpenInode s d with
  | some p =>
    obtain ⟨-, i, hi, -⟩ := findOpenInode_some hfind
    refine ⟨i.iOpenCnts + 1, ?_⟩
    rw [curInode_of_find hfind hi]
    have hnew : (s.inodes p).map (fun i => i.setOpenCnts (i.iOpenCnts + 1)) =
        some (i.setOpenCnts (i.iOpenCnts + 1)) := by rw [hi, Option.map_some]
    rw [← hnew]
    exact Function.update_self ..
  | none =>
    refine ⟨1, ?_⟩
    rw [curInode_of_none hfind]
    exact Function.update_self ..

/-- The handle refers to the inode of the directory. -/
theorem At.dirOf (hv : Visitable s) (h : At s k d ptr u) : ∃ dir n, u.dirOf ptr = some dir ∧
    u.inodes dir.inode = some ((curInode s d.toNat).setOpenCnts n) := by
  cases h with
  | root a b =>
    obtain ⟨-, i, hi, -⟩ := findOpenInode_some hv.root
    refine ⟨s.rootDir, i.iOpenCnts, rfl, ?_⟩
    rw [curInode_of_find hv.root hi]
    exact hi
  | heap a b d =>
    have hrun : ((s.advance a b 0).openInode d (s.stored d)).cur ∈
        ((s.advance a b 0).openInode d (s.stored d)).tasks.map (·.pid) := by
      unfold Fs.openInode
      split <;> exact hv.running
    obtain ⟨n, hn⟩ := openInode_inodes (s := s.advance a b 0) d
    have hdir := dirOf_addDir (d := ⟨(s.advance a b 0).openedAt d, 0, Bytes.zero⟩) hrun
    rw [openInode_nextDir] at hdir
    exact ⟨_, n, hdir, hn⟩

/-- Closing the directory leads back. -/
theorem At.close (hv : Visitable s) (h : At s k d ptr u) :
    ∃ a b, dirClose ptr u = .ok ((), s.advance a b k) := by
  cases h with
  | root a b => exact ⟨a, b, rfl⟩
  | heap a b d =>
    have hclose := dirClose_openDir (hv.toOpenable.advance a b 0) d (s.stored d)
      fun n => s.mallocs (n + k)
    refine ⟨a + if findOpenInode (s.advance a b 0) d = none then 1 else 0, b + 1, hclose.trans ?_⟩
    simp only [Fs.advance, Fs.withMallocs, Nat.add_assoc]

/-- Opening the next directory. -/
theorem post_dirOpen_at (hv : Visitable s) (hn : no.toNat < 4096) (a b k : ℕ) :
    ∃ ptr u, At s (k + s.openCost no) no ptr u ∧ ∀ (Q : DirPtr → Fs → Prop) (E : Fault → Prop),
      Exec.Post (dirOpen no) (s.advance a b k) Q E ↔
        ((s.advance 0 0 k).OpenRoom no → Q ptr u) ∧
          (¬ (s.advance 0 0 k).OpenRoom no → E .badPointer) := by
  refine ⟨_, _, .heap a b no, fun Q E => ?_⟩
  have hstate : ((s.advance a b k).openDir no (s.stored no)).withMallocs
      (fun n => (s.advance a b k).mallocs (n + (s.advance a b k).openCost no)) =
      ((s.advance a b 0).openDir no (s.stored no)).withMallocs
        fun n => s.mallocs (n + (k + s.openCost no)) := by
    have hcost : (s.advance a b k).openCost no = s.openCost no := rfl
    have hnext : (fun n => (s.advance a b k).mallocs (n + s.openCost no)) =
        fun n => s.mallocs (n + (k + s.openCost no)) :=
      funext fun n => congrArg s.mallocs (by rw [Nat.add_assoc, Nat.add_comm k])
    rw [hcost, hnext, Fs.openDir, Fs.openDir, Fs.openInode, Fs.openInode, Fs.openedAt, Fs.openedAt]
    have hfind : findOpenInode (s.advance a b k) no = findOpenInode (s.advance a b 0) no := rfl
    rw [hfind]
    cases findOpenInode (s.advance a b 0) no <;> rfl
  have hstored : (s.advance a b k).stored no = s.stored no := rfl
  rw [post_dirOpen (s := s.advance a b k) hv.layout hn, hstored, hstate]
  rfl

end At

end Winx
