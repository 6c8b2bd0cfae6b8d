import Winx.Fs.DirShape
import Winx.Fs.Handles
import Winx.Lib.Run

/-! # Directory handles of several processes

Processes open, read, rewind and close handles in any order. Each handle keeps
the results of its reads since it was opened or rewound. A handle gives the
entries of its directory one by one, unless it is `root_dir` and another handle
is `root_dir` too: those share their cursor.
-/

namespace Winx

/-- A handle that `sys_opendir` returned to a process: the inode of its directory at that time, and
what reading has returned since it was opened or rewound. -/
structure Handle where
  pid : ℕ
  dir : DirPtr
  inode : Inode
  got : List (Option DirEntry)

/-- The file system and the open handles, numbered in the order in which they were opened. -/
structure Session where
  fs : Fs
  handles : ℕ → Option Handle
  count : ℕ

/-- The calls on directory handles. -/
inductive HandleCall
  | sysOpendir (pid : ℕ) (name : List UInt8)
  | sysReaddir (k : ℕ)
  | sysRewinddir (k : ℕ)
  | sysClosedir (k : ℕ)

/-- Process `pid` runs. -/
def Fs.withCur (s : Fs) (pid : ℕ) : Fs := { s with cur := pid }

/-- `sys_opendir`, with the inode of the directory it opens. -/
def openHandle (name : List UInt8) : FsM (Option (DirPtr × Inode)) := do
  match ← sysOpendir name with
  | none => pure none
  | some dir =>
    let d ← derefDir dir
    let i ← derefInode d.inode
    pure (some (dir, i))

namespace Session

/-- File system code that process `pid` runs. -/
def call {α : Type} (pid : ℕ) (m : FsM α) : Exec Session Fault α := fun σ =>
  match m (σ.fs.withCur pid) with
  | .ok (a, s) => .ok (a, { σ with fs := s })
  | .error e => .error e

/-- Number `k` is the given handle, or no handle any more. -/
def setHandle (σ : Session) (k : ℕ) (h : Option Handle) : Session :=
  { σ with handles := Function.update σ.handles k h }

/-- There is one more handle. -/
def addHandle (σ : Session) (h : Handle) : Session :=
  { σ with handles := Function.update σ.handles σ.count (some h), count := σ.count + 1 }

/-- The values on the stack and the answers of `sys_malloc` during the next call. -/
def withEnv (σ : Session) (junk : ℕ → UInt32) (mallocs : ℕ → Bool) : Session :=
  { σ with fs := { σ.fs with junk := junk, mallocs := mallocs } }

end Session

namespace HandleCall

/-- What a call does. -/
def body : HandleCall → Exec Session Fault Unit
  | sysOpendir pid name => do
    match ← Session.call pid (openHandle name) with
    | none => pure ()
    | some (dir, i) => modify (·.addHandle ⟨pid, dir, i, []⟩)
  | sysReaddir k => do
    let σ ← get
    let h ← deref (σ.handles k)
    let e ← Session.call h.pid (Winx.sysReaddir (some h.dir))
    modify (·.setHandle k (some { h with got := h.got ++ [e] }))
  | sysRewinddir k => do
    let σ ← get
    let h ← deref (σ.handles k)
    Session.call h.pid (Winx.sysRewinddir h.dir)
    modify (·.setHandle k (some { h with got := [] }))
  | sysClosedir k => do
    let σ ← get
    let h ← deref (σ.handles k)
    let _ ← Session.call h.pid (Winx.sysClosedir (some h.dir))
    modify (·.setHandle k none)

/-- A call with these values on its stack and these answers of `sys_malloc`. -/
def run (x : (ℕ → UInt32) × (ℕ → Bool) × HandleCall) : Exec Session Fault Unit := do
  modify (·.withEnv x.1 x.2.1)
  x.2.2.body

/-- The processes that open directories are alive. -/
def Alive (σ : Session) : HandleCall → Prop
  | sysOpendir pid _ => pid ∈ σ.fs.tasks.map (·.pid)
  | _ => True

instance (σ : Session) : (c : HandleCall) → Decidable (c.Alive σ)
  | sysOpendir pid _ => inferInstanceAs (Decidable (pid ∈ σ.fs.tasks.map (·.pid)))
  | sysReaddir _ => .isTrue trivial
  | sysRewinddir _ => .isTrue trivial
  | sysClosedir _ => .isTrue trivial

/-- Handle `k` is `root_dir`, and so is another one. -/
def SharesRoot (σ : Session) (k : ℕ) : Prop :=
  (∃ h, σ.handles k = some h ∧ h.dir = .rootDir) ∧
    ∃ j, j ≠ k ∧ ∃ h, σ.handles j = some h ∧ h.dir = .rootDir

/-- The call does not get in the way of other handles of the root directory: `root_dir` is opened
with its cursor at the start, and while several handles are `root_dir`, the cursor stays. -/
def Apart (σ : Session) : HandleCall → Prop
  | sysOpendir _ name => name = [slash] → σ.fs.rootDir.dirPos = 0
  | sysReaddir k => SharesRoot σ k →
      ∀ i, σ.fs.inodes σ.fs.rootDir.inode = some i → i.iSize ≤ σ.fs.rootDir.dirPos
  | sysRewinddir k => SharesRoot σ k → σ.fs.rootDir.dirPos = 0
  | sysClosedir _ => True

end HandleCall

/-- A directory whose blocks can be read and whose size counts its live entries. -/
def DirListed (disk : Bytes) (i : Inode) : Prop :=
  DirReadable disk i ∧ i.iSize.toNat = sizeofDirEntry * (liveEntries disk i).length

/-- The handle has returned the live entries in order, each once, and then nothing, and so it goes
on: the directory is as it was when the handle was opened. -/
def Handle.Enumerates (s : Fs) (h : Handle) : Prop :=
  h.got = (List.range h.got.length).map (fun k => (liveEntries s.disk h.inode)[k]?) ∧
    Exec.Returns (sysReaddir (some h.dir)) (s.withCur h.pid) fun e _ =>
      e = (liveEntries s.disk h.inode)[h.got.length]?

/-- Every open handle enumerates its directory. -/
def Session.Independent (σ : Session) : Prop :=
  ∀ k h, σ.handles k = some h → DirListed σ.fs.disk h.inode → h.Enumerates σ.fs

variable {s s' : Fs} {σ : Session} {h : Handle} {K : Set (ℕ × DirPtr)} {disk : Bytes} {pid : ℕ}

/-- A handle in a state: its directory is there as it was, and the cursor counts what it has
returned. -/
structure HandleAt (s : Fs) (h : Handle) : Prop where
  there : ∃ d i, s.handle h.pid h.dir = some d ∧ s.inodes d.inode = some i ∧
    i.setOpenCnts 0 = h.inode.setOpenCnts 0 ∧ (DirListed s.disk h.inode →
      d.dirPos.toNat = 24 * min h.got.length (liveEntries s.disk h.inode).length)
  got : DirListed s.disk h.inode →
    h.got = (List.range h.got.length).map fun k => (liveEntries s.disk h.inode)[k]?
  fresh : ∀ a, h.dir = .heap a → a < s.nextDir

/-- The invariant of a session on a disk. -/
structure SessionInv (disk : Bytes) (σ : Session) : Prop where
  ok : HandlesOk σ.fs
  layout : Layout σ.fs.part
  disk : σ.fs.disk = disk
  handle : ∀ k h, σ.handles k = some h → HandleAt σ.fs h
  apart : ∀ j k h h', σ.handles j = some h → σ.handles k = some h' → j ≠ k → h.dir = h'.dir →
    h.dir = .rootDir ∨ h.pid ≠ h'.pid
  count : ∀ k, σ.count ≤ k → σ.handles k = none

section Handles

theorem handle_withCur (s : Fs) (pid q : ℕ) (ptr : DirPtr) :
    (s.withCur pid).handle q ptr = s.handle q ptr := by
  cases ptr <;> rfl

theorem HandlesOk.withCur (h : HandlesOk s) (pid : ℕ) : HandlesOk (s.withCur pid) :=
  ⟨h.pids, h.keys, h.fresh, h.inode_lt, h.counted, h.there⟩

theorem HandleAt.withCur (hat : HandleAt s h) (pid : ℕ) : HandleAt (s.withCur pid) h := by
  refine ⟨?_, hat.got, hat.fresh⟩
  obtain ⟨d, i, hd, hrest⟩ := hat.there
  exact ⟨d, i, (handle_withCur ..).trans hd, hrest⟩

/-- A directory does not depend on how often it is open. -/
theorem DirListed.congr {i j : Inode} (heq : i.setOpenCnts 0 = j.setOpenCnts 0)
    (h : DirListed disk j) : DirListed disk i := by
  have h0 : DirListed disk (j.setOpenCnts 0) := ⟨⟨h.1.block, h.1.table⟩, h.2⟩
  rw [← heq] at h0
  exact ⟨⟨h0.1.block, h0.1.table⟩, h0.2⟩

theorem liveEntries_congr {i j : Inode} (heq : i.setOpenCnts 0 = j.setOpenCnts 0) :
    liveEntries disk i = liveEntries disk j := by
  change liveEntries disk (i.setOpenCnts 0) = liveEntries disk (j.setOpenCnts 0)
  rw [heq]

/-- A handle that a call leaves alone stays as it is. -/
theorem HandleAt.keeps (hat : HandleAt s h) (hs : HandlesOk s) (hk : KeepsHandles K s s')
    (hmem : (h.pid, h.dir) ∈ K) : HandleAt s' h := by
  obtain ⟨d, i, hd, hi, heq, hpos⟩ := hat.there
  have hd' : s'.handle h.pid h.dir = some d := (hk.handles _ hmem).trans hd
  obtain ⟨i', hi'⟩ := hk.ok.there _ (dirRefs_pos_of_handle hd')
  obtain ⟨j, hj, heq'⟩ := hk.inodes _ (hs.inode_lt _ _ hi) i' hi'
  obtain rfl : i = j := Option.some.inj (hi.symm.trans hj)
  refine ⟨⟨d, i', hd', hi', heq'.trans heq, ?_⟩, ?_, fun a ha => (hat.fresh a ha).trans_le hk.nextDir⟩
  · rw [hk.disk]
    exact hpos
  · rw [hk.disk]
    exact hat.got

/-- The next read of a handle returns the next entry. -/
theorem HandleAt.read (hat : HandleAt s h) (hl : Layout s.part) (hlist : DirListed s.disk h.inode) :
    ∃ d, s.handle h.pid h.dir = some d ∧ Exec.Returns (dirRead h.dir) (s.withCur h.pid) fun e s' =>
      e = (liveEntries s.disk h.inode)[h.got.length]? ∧
        ReadState (s.withCur h.pid) h.dir d (min h.got.length (liveEntries s.disk h.inode).length)
          (liveEntries s.disk h.inode).length s' := by
  obtain ⟨d, i, hd, hi, heq, hpos⟩ := hat.there
  have hlist' : DirListed s.disk i := hlist.congr heq
  have hlive : liveEntries s.disk i = liveEntries s.disk h.inode := liveEntries_congr heq
  have hdir : (s.withCur h.pid).dirOf h.dir = some d := by
    rw [dirOf_eq_handle, handle_withCur]
    exact hd
  have hmax : (liveEntries s.disk i).length ≤ 140 * entrysPerSec :=
    length_liveEntries.trans_le length_liveSlots_le
  rw [hlive] at hmax
  have hle := min_le_right h.got.length (liveEntries s.disk h.inode).length
  rw [entrysPerSec] at hmax
  refine ⟨d, hd, ?_⟩
  have hspec := dirRead_spec (s := s.withCur h.pid) hl hdir hi hlist'.1 hlist'.2
    (e := min h.got.length (liveEntries s.disk h.inode).length) (by omega) (hpos hlist)
  change Exec.Returns _ _ fun r s' => r = (liveEntries s.disk i)[_]? ∧
    ReadState _ _ _ _ (liveEntries s.disk i).length s' at hspec
  rw [hlive] at hspec
  refine hspec.mono fun e s' hr => ⟨hr.1.trans ?_, hr.2⟩
  rcases Nat.lt_or_ge h.got.length (liveEntries s.disk h.inode).length with hlt | hge
  · rw [min_eq_left hlt.le]
  · rw [min_eq_right hge, List.getElem?_eq_none le_rfl, List.getElem?_eq_none hge]

theorem HandleAt.enumerates (hat : HandleAt s h) (hl : Layout s.part)
    (hlist : DirListed s.disk h.inode) : h.Enumerates s := by
  obtain ⟨d, -, hread⟩ := hat.read hl hlist
  exact ⟨hat.got hlist, hread.mono fun _ _ hr => hr.1⟩

end Handles

section Steps

variable {E : Fault → Prop}

@[simp] theorem Session.post_call {α : Type} {m : FsM α} {Q : α → Session → Prop} :
    Exec.Post (Session.call pid m) σ Q E ↔
      Exec.Post m (σ.fs.withCur pid) (fun a s => Q a { σ with fs := s }) E := by
  unfold Exec.Post Session.call
  cases m (σ.fs.withCur pid) <;> rfl

/-- A call that leaves the disk keeps the invariant if it does for the handles. -/
theorem SessionInv.call (hinv : SessionInv disk σ) (hk : KeepsHandles K (σ.fs.withCur pid) s')
    {f : ℕ → Option Handle} {c : ℕ} (hhandle : ∀ k h, f k = some h → HandleAt s' h)
    (hapart : ∀ j k h h', f j = some h → f k = some h' → j ≠ k → h.dir = h'.dir →
      h.dir = .rootDir ∨ h.pid ≠ h'.pid)
    (hcount : ∀ k, c ≤ k → f k = none) : SessionInv disk ⟨s', f, c⟩ := by
  refine ⟨hk.ok, ?_, hk.disk.trans hinv.disk, hhandle, hapart, hcount⟩
  obtain ⟨l, hl⟩ := hk.part
  rw [hl]
  exact hinv.layout.setOpenInodes l

/-- Handle `k` becomes another one with the same address, or is closed. -/
theorem SessionInv.set (hinv : SessionInv disk σ) {k : ℕ} {h₀ : Handle} (hh₀ : σ.handles k = some h₀)
    (hk : KeepsHandles K (σ.fs.withCur pid) s') {o : Option Handle}
    (hsame : ∀ h, o = some h → HandleAt s' h ∧ h.pid = h₀.pid ∧ h.dir = h₀.dir)
    (hother : ∀ j h, j ≠ k → σ.handles j = some h → HandleAt s' h) :
    SessionInv disk ({ σ with fs := s' }.setHandle k o) := by
  have hold {j : ℕ} {h : Handle} (hj : Function.update σ.handles k o j = some h) :
      HandleAt s' h ∧ ∃ h₁, σ.handles j = some h₁ ∧ h.pid = h₁.pid ∧ h.dir = h₁.dir := by
    rw [Function.update_apply] at hj
    split at hj
    · rename_i hjk
      obtain ⟨hat, hpid, hdir⟩ := hsame h hj
      exact ⟨hat, h₀, hjk ▸ hh₀, hpid, hdir⟩
    · rename_i hjk
      exact ⟨hother j h hjk hj, h, hj, rfl, rfl⟩
  refine hinv.call hk (fun j h hj => (hold hj).1) (fun j l h h' hj hl hne hdir => ?_) fun j hj => ?_
  · obtain ⟨-, h₁, hh₁, hpid₁, hdir₁⟩ := hold hj
    obtain ⟨-, h₂, hh₂, hpid₂, hdir₂⟩ := hold hl
    rw [hdir₁, hpid₁, hpid₂]
    exact hinv.apart j l h₁ h₂ hh₁ hh₂ hne (hdir₁.symm.trans (hdir.trans hdir₂))
  · have hjk : j ≠ k := by
      rintro rfl
      rw [hinv.count j hj] at hh₀
      cases hh₀
    exact (Function.update_of_ne hjk ..).trans (hinv.count j hj)

theorem openHandle_keeps (h : HandlesOk s) (hrun : s.cur ∈ s.tasks.map (·.pid)) (name : List UInt8) :
    Exec.Ensures (openHandle name) s fun r s' => KeepsHandles (handlesBelow s.nextDir) s s' ∧
      ∀ dir i, r = some (dir, i) → ∃ d, s'.dirOf dir = some d ∧ s'.inodes d.inode = some i ∧
        (dir = .rootDir ∧ name = [slash] ∧ s' = s ∨
          ∃ a, dir = .heap a ∧ s.nextDir ≤ a ∧ a < s'.nextDir ∧ d.dirPos = 0) := by
  refine KeepsHandles.bind (sysOpendir_keeps h hrun name) fun r s₁ h₁ hr => ?_
  cases r with
  | none =>
    refine ⟨KeepsHandles.refl _ h₁.ok, ?_⟩
    rintro dir i ⟨⟩
  | some dir =>
    simp only [Exec.Ensures, Exec.post_bind, post_derefDir, post_derefInode, Exec.post_pure,
      implies_true, and_true]
    refine fun d hd i hi => ⟨KeepsHandles.refl _ h₁.ok, ?_⟩
    rintro dir' i' heq
    obtain ⟨rfl, rfl⟩ := Prod.mk.inj (Option.some.inj heq)
    refine ⟨d, hd, hi, ?_⟩
    rcases hr dir rfl with hroot | ⟨a, d', hdir, hle, hlt, hd', hpos⟩
    · exact Or.inl hroot
    · obtain rfl : d = d' := Option.some.inj (hd.symm.trans hd')
      exact Or.inr ⟨a, hdir, hle, hlt, hpos⟩

/-- Opening a directory adds a handle at its first entry. -/
theorem sysOpendir_inv (hinv : SessionInv disk σ) {name : List UInt8}
    (halive : (HandleCall.sysOpendir pid name).Alive σ)
    (hapart : (HandleCall.sysOpendir pid name).Apart σ) :
    Exec.Ensures (HandleCall.sysOpendir pid name).body σ fun _ σ' => SessionInv disk σ' := by
  rw [HandleCall.body, Exec.Ensures, Exec.post_bind, Session.post_call]
  refine (openHandle_keeps (hinv.ok.withCur pid) halive name).mono ?_
  rintro r s' ⟨hk, hopen⟩
  have hbelow {k : ℕ} {h : Handle} (hh : σ.handles k = some h) :
      (h.pid, h.dir) ∈ handlesBelow (σ.fs.withCur pid).nextDir := (hinv.handle k h hh).fresh
  have hold (k : ℕ) (h : Handle) (hh : σ.handles k = some h) : HandleAt s' h :=
    ((hinv.handle k h hh).withCur pid).keeps (hinv.ok.withCur pid) hk (hbelow hh)
  cases r with
  | none => exact hinv.call hk hold hinv.apart hinv.count
  | some r =>
    obtain ⟨dir, i⟩ := r
    obtain ⟨d, hd, hi, hcase⟩ := hopen dir i rfl
    have hcur : s'.cur = pid := hk.cur
    rw [dirOf_eq_handle, hcur] at hd
    have hpos : d.dirPos = 0 := by
      rcases hcase with ⟨rfl, hname, rfl⟩ | ⟨-, -, -, -, hpos⟩
      · obtain rfl := Option.some.inj hd
        exact hapart hname
      · exact hpos
    have hnew : HandleAt s' ⟨pid, dir, i, []⟩ := by
      refine ⟨⟨d, i, hd, hi, rfl, fun _ => ?_⟩, fun _ => rfl, fun a ha => ?_⟩
      · rw [hpos]
        exact (congrArg (24 * ·) (Nat.zero_min _)).symm
      · rcases hcase with ⟨rfl, -⟩ | ⟨b, rfl, -, hlt, -⟩
        · cases ha
        · obtain rfl := DirPtr.heap.inj ha
          exact hlt
    -- No handle that was there has the address of the new one.
    have hfresh {k : ℕ} {h : Handle} (hh : σ.handles k = some h) (heq : h.dir = dir) :
        dir = .rootDir := by
      rcases hcase with ⟨hroot, -⟩ | ⟨a, rfl, hle, -⟩
      · exact hroot
      · exact absurd ((hinv.handle k h hh).fresh a heq) (not_lt.mpr hle)
    have hupdate {k : ℕ} {h : Handle}
        (hh : Function.update σ.handles σ.count (some ⟨pid, dir, i, []⟩) k = some h) :
        (k = σ.count ∧ h = ⟨pid, dir, i, []⟩) ∨ (k ≠ σ.count ∧ σ.handles k = some h) := by
      rw [Function.update_apply] at hh
      split at hh
      · rename_i hk
        exact Or.inl ⟨hk, (Option.some.inj hh).symm⟩
      · rename_i hk
        exact Or.inr ⟨hk, hh⟩
    refine hinv.call hk (fun k h hh => ?_) (fun j k h h' hh hh' hne heq => ?_) fun k hle => ?_
    · rcases hupdate hh with ⟨-, rfl⟩ | ⟨-, hh⟩
      · exact hnew
      · exact hold k h hh
    · rcases hupdate hh with ⟨rfl, rfl⟩ | ⟨-, hh⟩ <;> rcases hupdate hh' with ⟨rfl, rfl⟩ | ⟨-, hh'⟩
      · exact absurd rfl hne
      · exact Or.inl (hfresh hh' heq.symm)
      · exact Or.inl (heq.trans (hfresh hh heq))
      · exact hinv.apart j k h h' hh hh' hne heq
    · have hlt : σ.count < k := hle
      exact (Function.update_of_ne hlt.ne' ..).trans (hinv.count k hlt.le)

/-- Handles at other addresses, for the running process. -/
theorem SessionInv.other_mem (hinv : SessionInv disk σ) {j k : ℕ} {h h' : Handle}
    (hh : σ.handles k = some h) (hh' : σ.handles j = some h') (hne : j ≠ k)
    (hroot : ¬ HandleCall.SharesRoot σ k) :
    (h'.pid, h'.dir) ∈ {x : ℕ × DirPtr | x.2 = h.dir → h.dir ≠ .rootDir ∧ x.1 ≠ h.pid} := by
  intro (heq : h'.dir = h.dir)
  have hnot : h.dir ≠ .rootDir := fun hdir =>
    hroot ⟨⟨h, hh, hdir⟩, j, hne, h', hh', heq.trans hdir⟩
  rcases hinv.apart j k h' h hh' hh hne heq with hdir | hpid
  · exact absurd (heq.symm.trans hdir) hnot
  · exact ⟨hnot, hpid⟩

theorem CursorChange.handle {dir : DirPtr} {d : Dir} (hd : s.dirOf dir = some d)
    (h : CursorChange dir s s') : ∃ d', s'.dirOf dir = some d' ∧ d'.inode = d.inode := by
  rcases h with rfl | ⟨e, e', he, heq, rfl⟩
  · exact ⟨d, hd, rfl⟩
  · obtain rfl : d = e := Option.some.inj (hd.symm.trans he)
    exact ⟨e', dirOf_setDirOf hd, heq⟩

theorem CursorChange.keeps {dir : DirPtr} (hs : HandlesOk s) (h : CursorChange dir s s') :
    KeepsHandles {x | x.2 = dir → dir ≠ .rootDir ∧ x.1 ≠ s.cur} s s' := by
  rcases h with rfl | ⟨d, d', hd, heq, rfl⟩
  · exact KeepsHandles.refl _ hs
  · exact keepsHandles_setDirOf hs hd heq

/-- The handle whose cursor moves, with what it has returned after that. -/
theorem HandleAt.moved (hat : HandleAt s h) (hs : HandlesOk s)
    (hchange : CursorChange h.dir (s.withCur h.pid) s') {got : List (Option DirEntry)}
    (hpos : ∀ d, s'.dirOf h.dir = some d → DirListed s.disk h.inode →
      d.dirPos.toNat = 24 * min got.length (liveEntries s.disk h.inode).length)
    (hgot : DirListed s.disk h.inode →
      got = (List.range got.length).map fun k => (liveEntries s.disk h.inode)[k]?) :
    HandleAt s' { h with got := got } := by
  obtain ⟨d, i, hd, hi, heq, -⟩ := hat.there
  have hk := hchange.keeps (hs.withCur h.pid)
  obtain ⟨d', hd', hinode⟩ := hchange.handle (d := d)
    (by rw [dirOf_eq_handle, handle_withCur]; exact hd)
  have hpos' := hpos d' hd'
  rw [dirOf_eq_handle, hk.cur] at hd'
  obtain ⟨i', hi'⟩ := hk.ok.there _ (dirRefs_pos_of_handle hd')
  obtain ⟨j, hj, heq'⟩ := hk.inodes d'.inode (hinode ▸ hs.inode_lt _ _ hi) i' hi'
  obtain rfl : i = j := Option.some.inj ((hinode ▸ hi.symm).trans hj)
  refine ⟨⟨d', i', hd', hi', heq'.trans heq, ?_⟩, ?_, fun a ha => (hat.fresh a ha).trans_le hk.nextDir⟩
  · rw [hk.disk]
    exact hpos'
  · rw [hk.disk]
    exact hgot

theorem sysReaddir_inv (hinv : SessionInv disk σ) {k : ℕ}
    (hapart : (HandleCall.sysReaddir k).Apart σ) :
    Exec.Ensures (HandleCall.sysReaddir k).body σ fun _ σ' => SessionInv disk σ' := by
  simp only [HandleCall.body, Exec.Ensures, Exec.post_bind, Exec.post_get, post_deref,
    Session.post_call, Exec.post_modify, implies_true, and_true]
  intro h hh
  have hat := hinv.handle k h hh
  refine Exec.ensures_iff.mpr fun e s' hrun => ?_
  have hchange : CursorChange h.dir (σ.fs.withCur h.pid) s' := (dirRead_frame h.dir).of_ok hrun
  have hk := hchange.keeps (hinv.ok.withCur h.pid)
  refine hinv.set hh hk (fun h' heq => ?_) fun j h' hne hh' => ?_
  · obtain rfl := Option.some.inj heq
    refine ⟨hat.moved hinv.ok hchange (fun d' hd' hlist => ?_) fun hlist => ?_, rfl, rfl⟩
    · obtain ⟨d, -, hread⟩ := hat.read hinv.layout hlist
      obtain ⟨-, hstate⟩ := hread.ensures.of_ok hrun
      obtain ⟨d'', hd'', -, hpos⟩ := hstate.handle
      obtain rfl : d' = d'' := Option.some.inj (hd'.symm.trans hd'')
      rw [hpos, List.length_append, List.length_singleton]
      split <;> omega
    · obtain ⟨d, -, hread⟩ := hat.read hinv.layout hlist
      obtain ⟨rfl, -⟩ := hread.ensures.of_ok hrun
      rw [List.length_append, List.length_singleton, List.range_succ, List.map_append, ← hat.got hlist]
      rfl
  · have hat' := (hinv.handle j h' hh').withCur h.pid
    by_cases hshare : HandleCall.SharesRoot σ k
    · -- The cursor of the shared handle is at the end, so it stays there.
      obtain ⟨⟨h₁, hh₁, hroot⟩, -⟩ := id hshare
      obtain rfl : h = h₁ := Option.some.inj (hh.symm.trans hh₁)
      obtain ⟨d, i, hd, hi, -, -⟩ := hat.there
      rw [hroot] at hd hrun
      obtain rfl := Option.some.inj hd
      have hsame : s' = σ.fs.withCur h.pid :=
        (dirRead_atEnd (s := σ.fs.withCur h.pid) rfl hi (hapart hshare i hi)).of_ok hrun
      rw [hsame]
      exact hat'
    · exact hat'.keeps (hinv.ok.withCur h.pid) hk (hinv.other_mem hh hh' hne hshare)

theorem sysRewinddir_inv (hinv : SessionInv disk σ) {k : ℕ}
    (hapart : (HandleCall.sysRewinddir k).Apart σ) :
    Exec.Ensures (HandleCall.sysRewinddir k).body σ fun _ σ' => SessionInv disk σ' := by
  simp only [HandleCall.body, sysRewinddir, Exec.Ensures, Exec.post_bind, Exec.post_get, post_deref,
    Session.post_call, post_derefDir, post_storeDir, Exec.post_modify, implies_true, and_true]
  intro h hh d hd
  have hat := hinv.handle k h hh
  have hchange : CursorChange h.dir (σ.fs.withCur h.pid)
      ((σ.fs.withCur h.pid).setDirOf h.dir { d with dirPos := 0 }) := by
    refine Or.inr ⟨d, _, hd, ?_, rfl⟩
    rfl
  have hk := hchange.keeps (hinv.ok.withCur h.pid)
  refine hinv.set hh hk (fun h' heq => ?_) fun j h' hne hh' => ?_
  · obtain rfl := Option.some.inj heq
    refine ⟨hat.moved hinv.ok hchange (fun d' hd' _ => ?_) fun _ => rfl, rfl, rfl⟩
    rw [dirOf_setDirOf hd] at hd'
    obtain rfl := Option.some.inj hd'
    exact (congrArg (24 * ·) (Nat.zero_min _)).symm
  · have hat' := (hinv.handle j h' hh').withCur h.pid
    by_cases hshare : HandleCall.SharesRoot σ k
    · obtain ⟨⟨h₁, hh₁, hroot⟩, -⟩ := id hshare
      obtain rfl : h = h₁ := Option.some.inj (hh.symm.trans hh₁)
      rw [hroot] at hd ⊢
      obtain rfl := Option.some.inj hd
      have hsame : { σ.fs.rootDir with dirPos := 0 } = σ.fs.rootDir := by
        rw [← (hapart hshare : σ.fs.rootDir.dirPos = 0)]
      have hstay : (σ.fs.withCur h.pid).setDirOf .rootDir { σ.fs.rootDir with dirPos := 0 } =
          σ.fs.withCur h.pid := by
        rw [hsame]
        rfl
      exact hstay ▸ hat'
    · exact hat'.keeps (hinv.ok.withCur h.pid) hk (hinv.other_mem hh hh' hne hshare)

theorem sysClosedir_inv (hinv : SessionInv disk σ) (k : ℕ) :
    Exec.Ensures (HandleCall.sysClosedir k).body σ fun _ σ' => SessionInv disk σ' := by
  simp only [HandleCall.body, sysClosedir, Exec.Ensures, Exec.post_bind, Exec.post_get, post_deref,
    Session.post_call, Exec.post_modify, Exec.post_pure, implies_true, and_true]
  intro h hh
  refine (dirClose_keeps (hinv.ok.withCur h.pid) h.dir).mono fun _ s' hk => ?_
  refine hinv.set hh hk (by rintro h' ⟨⟩) fun j h' hne hh' => ?_
  refine ((hinv.handle j h' hh').withCur h.pid).keeps (hinv.ok.withCur h.pid) hk ?_
  intro a heq hdir
  obtain ⟨hpid, hdir'⟩ := Prod.mk.inj heq
  rcases hinv.apart j k h' h hh' hh hne (hdir'.trans hdir.symm) with hroot | hne'
  · rw [hdir'] at hroot
    cases hroot
  · exact absurd hpid hne'

theorem HandleCall.run_inv (hinv : SessionInv disk σ) {x : (ℕ → UInt32) × (ℕ → Bool) × HandleCall}
    (halive : x.2.2.Alive σ) (hapart : x.2.2.Apart σ) :
    Exec.Ensures (HandleCall.run x) σ fun _ σ' => SessionInv disk σ' := by
  obtain ⟨junk, mallocs, c⟩ := x
  have hhandle (q : ℕ) (ptr : DirPtr) :
      (σ.withEnv junk mallocs).fs.handle q ptr = σ.fs.handle q ptr := by
    cases ptr <;> rfl
  have henv : SessionInv disk (σ.withEnv junk mallocs) := by
    obtain ⟨hpids, hkeys, hfresh, hlt, hcounted, hthere⟩ := hinv.ok
    refine ⟨⟨hpids, hkeys, hfresh, hlt, hcounted, hthere⟩, hinv.layout, hinv.disk, fun k h hh => ?_,
      hinv.apart, hinv.count⟩
    obtain ⟨⟨d, i, hd, hrest⟩, hgot, hfresh'⟩ := hinv.handle k h hh
    exact ⟨⟨d, i, (hhandle ..).trans hd, hrest⟩, hgot, hfresh'⟩
  rw [HandleCall.run, Exec.Ensures, Exec.post_bind, Exec.post_modify]
  cases c with
  | sysOpendir pid name => exact sysOpendir_inv henv halive hapart
  | sysReaddir k => exact sysReaddir_inv henv hapart
  | sysRewinddir k => exact sysRewinddir_inv henv hapart
  | sysClosedir k => exact sysClosedir_inv henv k

end Steps

/-- In every run of calls that stay apart, the disk stays as it is and every open handle enumerates
its directory. -/
theorem independent_of_run {σ₀ : Session} (hok : HandlesOk σ₀.fs) (hl : Layout σ₀.fs.part)
    (hnone : ∀ k, σ₀.handles k = none)
    (hrun : Exec.Run HandleCall.run (fun σ x => x.2.2.Alive σ ∧ x.2.2.Apart σ) σ₀ σ) :
    σ.fs.disk = σ₀.fs.disk ∧ σ.Independent := by
  have hstart : SessionInv σ₀.fs.disk σ₀ := by
    refine ⟨hok, hl, rfl, ?_, ?_, fun k _ => hnone k⟩
    · rintro k h hh
      rw [hnone] at hh
      cases hh
    · rintro j k h h' hh
      rw [hnone] at hh
      cases hh
  have hinv := hrun.invariant (I := SessionInv σ₀.fs.disk) hstart
    fun σ x hinv hx => HandleCall.run_inv hinv hx.1 hx.2
  exact ⟨hinv.disk, fun k h hh hlist => (hinv.handle k h hh).enumerates hinv.layout hlist⟩

/-- A process on a fresh partition, before it opens anything. -/
def rootSession : Session := ⟨rootFs, fun _ => none, 0⟩

theorem handlesOk_rootFs : HandlesOk rootFs := by
  have hrefs (p : ℕ) : rootFs.dirRefs p = if 0 = p then 1 else 0 := by
    simp [Fs.dirRefs, rootFs, Fs.unmounted, eq_comm]
  have hinode {p : ℕ} {i : Inode} (h : rootFs.inodes p = some i) : p = 0 ∧ i = rootInode := by
    change (if p = 0 then some rootInode else none) = some i at h
    split at h
    · rename_i hp
      exact ⟨hp, (Option.some.inj h).symm⟩
    · cases h
  refine ⟨by simp [Fs.PidsDistinct, rootFs, Fs.unmounted], ?_, ?_, fun p i hi => ?_, fun p i hi => ?_, fun p hp => ?_⟩
  · simp [rootFs, Fs.unmounted]
  · simp [rootFs, Fs.unmounted]
  · obtain ⟨rfl, -⟩ := hinode hi
    exact Nat.zero_lt_one
  · obtain ⟨rfl, rfl⟩ := hinode hi
    exact le_rfl
  · rw [hrefs] at hp
    split at hp
    · rename_i h0
      exact ⟨rootInode, h0 ▸ rfl⟩
    · exact absurd hp (Nat.lt_irrefl 0)

/-- The session after the root directory is opened. -/
def openedSession : Session := rootSession.addHandle ⟨1, .rootDir, rootInode, []⟩

theorem Session.withEnv_self {σ : Session} {junk : ℕ → UInt32} {mallocs : ℕ → Bool}
    (hjunk : σ.fs.junk = junk) (hmallocs : σ.fs.mallocs = mallocs) : σ.withEnv junk mallocs = σ := by
  rw [← hjunk, ← hmallocs]
  rfl

theorem Fs.withCur_self {s : Fs} {pid : ℕ} (h : s.cur = pid) : s.withCur pid = s := by
  rw [← h]
  rfl

/-- Process 1 opens the root directory. -/
theorem sysOpendir_rootSession :
    HandleCall.run (fun _ => 0, fun _ => true, .sysOpendir 1 [slash]) rootSession =
      .ok ((), openedSession) := by
  have henv : rootSession.withEnv (fun _ => 0) (fun _ => true) = rootSession :=
    Session.withEnv_self rfl rfl
  have hcur : rootSession.fs.withCur 1 = rootFs := Fs.withCur_self rfl
  refine Exec.eq_ok_iff.mpr ?_
  simp only [HandleCall.run, HandleCall.body, openHandle, sysOpendir, Exec.Returns, Exec.post_bind,
    Exec.post_modify, Session.post_call, post_assert, if_true, Exec.post_pure, post_derefDir,
    post_derefInode, henv, hcur]
  refine ⟨fun _ => ⟨?_, fun h => by cases h⟩, fun h => h (by decide)⟩
  rintro d hd
  obtain rfl := Option.some.inj hd
  refine ⟨?_, fun h => by cases h⟩
  rintro i hi
  obtain rfl := Option.some.inj hi
  exact ⟨trivial, rfl⟩

/-- Only the size and the sectors of an inode matter. -/
theorem DirListed.of_sectors {i j : Inode} (h : DirListed disk j) (hsize : i.iSize = j.iSize)
    (hsectors : i.iSectors = j.iSectors) : DirListed disk i := by
  obtain ⟨iNo, iSize, userId, ctime, mtime, atime, privilege, iOpenCnts, writeDeny, iSectors⟩ := i
  cases hsize
  cases hsectors
  exact ⟨⟨h.1.block, h.1.table⟩, h.2⟩

theorem dirListed_root : DirListed rootFs.disk rootInode :=
  ⟨dirOk_rootFs.readable, dirOk_rootFs.size⟩

/-- Opening the root directory once and reading it is a run of calls that stay apart. -/
theorem independent_of_run_root : ∃ σ h,
    Exec.Run HandleCall.run (fun σ x => x.2.2.Alive σ ∧ x.2.2.Apart σ) rootSession σ ∧
      σ.handles 0 = some h ∧ h.got.length = 1 ∧ DirListed σ.fs.disk h.inode ∧
        σ.fs.disk = rootSession.fs.disk ∧ σ.Independent := by
  have hcall : Exec.returnsWith
      (HandleCall.run (fun _ => 0, fun _ => true, .sysReaddir 0) openedSession)
      (fun _ σ => (σ.handles 0).any fun h => h.got.length == 1 &&
        decide (h.inode.iSize = 48 ∧ ∀ k, h.inode.iSectors k = rootInode.iSectors k)) = true := by
    decide +kernel
  obtain ⟨u, σ, hread, hcall⟩ := Exec.exists_of_returnsWith hcall
  have hshare : ¬ HandleCall.SharesRoot openedSession 0 := by
    rintro ⟨-, j, hj, h, hh, -⟩
    have hnone : openedSession.handles j = none := Function.update_of_ne hj ..
    rw [hnone] at hh
    cases hh
  have hrun : Exec.Run HandleCall.run (fun σ x => x.2.2.Alive σ ∧ x.2.2.Apart σ) rootSession σ :=
    .tail (a := (fun _ => 0, fun _ => true, .sysReaddir 0))
      (.tail (a := (fun _ => 0, fun _ => true, .sysOpendir 1 [slash])) .refl
        ⟨by decide, fun _ => rfl⟩ sysOpendir_rootSession) ⟨trivial, fun h => absurd h hshare⟩ hread
  obtain ⟨hdisk, hind⟩ : σ.fs.disk = rootSession.fs.disk ∧ σ.Independent :=
    independent_of_run handlesOk_rootFs layout_rootFs (fun _ => rfl) hrun
  obtain ⟨h, hh, htest⟩ := (Option.any_eq_true _ _).mp hcall
  obtain ⟨hlen, hinode⟩ := Bool.and_eq_true_iff.mp htest
  obtain ⟨hsize, hsectors⟩ := of_decide_eq_true hinode
  refine ⟨σ, h, hrun, hh, beq_iff_eq.mp hlen, ?_, hdisk, hind⟩
  rw [hdisk]
  exact dirListed_root.of_sectors hsize (funext hsectors)

/-- A second handle of the root directory starts where the first one is. -/
theorem not_independent_of_run : ∃ σ,
    Exec.Run HandleCall.run (fun σ x => x.2.2.Alive σ) rootSession σ ∧ ¬ σ.Independent := by
  have hany : (Exec.runList HandleCall.run (fun σ x => x.2.2.Alive σ)
      [(fun _ => 0, fun _ => true, .sysOpendir 1 [slash]), (fun _ => 0, fun _ => true, .sysReaddir 0),
        (fun _ => 0, fun _ => true, .sysOpendir 1 [slash])] rootSession).any (fun σ =>
      (σ.handles 1).any fun h => decide ((∀ k < 140, blockLba σ.fs.disk h.inode k ≤ maxLba) ∧
        h.inode.sector 12 ≤ maxLba ∧
        h.inode.iSize.toNat = sizeofDirEntry * (liveEntries σ.fs.disk h.inode).length ∧
        ((liveEntries σ.fs.disk h.inode)[h.got.length]?).map (·.filename) = some dot) &&
        match sysReaddir (some h.dir) (σ.fs.withCur h.pid) with
        | .ok (e, _) => e.map (·.filename) == some dotDot
        | .error _ => false) = true := by
    decide +kernel
  obtain ⟨σ, hrun, hσ⟩ := Exec.Run.exists_of_any hany
  refine ⟨σ, hrun, fun hind => ?_⟩
  obtain ⟨h, hh, htest⟩ := (Option.any_eq_true _ _).mp hσ
  obtain ⟨hlist, hread⟩ := Bool.and_eq_true_iff.mp htest
  obtain ⟨hblock, htable, hsize, hfirst⟩ := of_decide_eq_true hlist
  obtain ⟨-, hreturns⟩ := hind 1 h hh ⟨⟨hblock, htable⟩, hsize⟩
  obtain ⟨e, s', hcall, rfl⟩ := Exec.returns_iff.mp hreturns
  rw [hcall] at hread
  simp only [hfirst] at hread
  cases hread

end Winx
