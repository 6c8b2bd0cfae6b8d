import Winx.Lib.Run
import Winx.Fs.Isolation
import Winx.Fs.Offsets
import Winx.Fs.SingleWriter

/-! # Positions of open files

The position of an open file does not pass its size, unless nothing is written to
an empty file: the writing loop starts from the size less one, and never comes to
the size itself. So every write that goes through leaves the position one short.
-/

namespace Winx

/-- The position of every open file is in the file. -/
def InRange (s : Fs) : Prop := ∀ fd p i, (s.fileTable fd).fdInode = some p → s.inodes p = some i →
  (s.fileTable fd).fdPos.toNat ≤ i.iSize.toNat

/-- Positions are in range, and the addresses of inodes in use are not those of fresh ones. -/
structure OffsetsOk (s : Fs) : Prop where
  inRange : InRange s
  entries : ∀ fd p, (s.fileTable fd).fdInode = some p → p < s.nextInode
  opened : ∀ p ∈ s.part.openInodes, p < s.nextInode

/-- No open file has a size that another directory entry would make wrap around. -/
def Room (s : Fs) : Prop := ∀ fd p i, (s.fileTable fd).fdInode = some p → s.inodes p = some i →
  i.iSize.toNat + s.part.sb.dirEntrySize.toNat < 2 ^ 32

/-- The calls on regular files. -/
inductive OffsetCall
  | sysOpen (pathname : List UInt8) (flags : UInt8)
  | sysWrite (fd : Int) (buf : Bytes) (count : UInt32)
  | sysRead (keys : Bytes) (fd : Int) (buf : Bytes) (count : UInt32)
  | sysLseek (fd : Int) (offset : Int) (whence : UInt8)
  | sysClose (fd : Int)

namespace OffsetCall

/-- A call by the running process; what is read is left out. -/
def body : OffsetCall → FsM Int
  | sysOpen pathname flags => Winx.sysOpen pathname flags
  | sysWrite fd buf count => Winx.sysWrite fd buf count
  | sysRead keys fd buf count => Prod.fst <$> Winx.sysRead keys fd buf count
  | sysLseek fd offset whence => Winx.sysLseek fd offset whence
  | sysClose fd => Winx.sysClose fd

/-- The state in which a process calls, with these values on its stack and this memory. -/
def entered (x : ℕ × (ℕ → UInt32) × (ℕ → Bool) × OffsetCall) (s : Fs) : Fs :=
  (s.enter x.1 x.2.1).withMallocs x.2.2.1

/-- A call by a process. -/
def run (x : ℕ × (ℕ → UInt32) × (ℕ → Bool) × OffsetCall) : FsM Int := do
  modify (entered x)
  x.2.2.2.body

/-- A write to inode `i` through entry `g` that is not refused. -/
def Writes (s : Fs) (g : ℕ) (i : Inode) : OffsetCall → Prop
  | sysWrite fd _ count => 0 ≤ fd ∧ fd ≠ 1 ∧ fdLocal2global fd s = .ok (g, s) ∧
      wantsWrite (s.fileTable g).fdFlag = true ∧
      (∃ p, (s.fileTable g).fdInode = some p ∧ s.inodes p = some i) ∧ WriteGoes s i count
  | _ => False

/-- How many bytes a call is to write. -/
def count : OffsetCall → UInt32
  | sysWrite _ _ count => count
  | _ => 0

/-- The calls that leave positions in range: nothing is written to an empty file, and no directory
grows that is open as a file and about to wrap around. -/
def Careful (s : Fs) (c : OffsetCall) : Prop :=
  (∀ g i, c.Writes s g i → c.count = 0 → i.iSize ≠ 0) ∧
    ∀ pathname flags, c = sysOpen pathname flags → flags.toUInt32 &&& oCreat ≠ 0 → Room s

/-- What a call is to do to a position: a write that succeeds leaves it at the size, and a call of
`sys_lseek` that fails leaves it where it was. -/
def Law (s : Fs) (r : Int) (s' : Fs) : OffsetCall → Prop
  | sysWrite fd _ _ => 0 ≤ r → 0 ≤ fd → fd ≠ 1 → ∀ g, fdLocal2global fd s = .ok (g, s) →
      ∀ p i, (s'.fileTable g).fdInode = some p → s'.inodes p = some i →
        (s'.fileTable g).fdPos = i.iSize
  | sysLseek _ _ _ => r = -1 → s'.fileTable = s.fileTable
  | _ => True

end OffsetCall

section Steps

variable {s s' : Fs} {fd g p : ℕ} {i : Inode} {flag inodeNo : UInt32}

theorem OffsetsOk.walk (h : OffsetsOk s) (hw : Walk s s') (hk : SizesKept s s') : OffsetsOk s' where
  inRange fd p i' hp hi' := by
    rw [hw.fileTable] at hp ⊢
    obtain ⟨i, hi, heq⟩ := hk.size p (h.entries fd p hp) i' hi'
    rw [heq]
    exact h.inRange fd p i hp hi
  entries fd p hp := by
    rw [hw.fileTable] at hp
    exact (h.entries fd p hp).trans_le hk.next
  opened p hp := by
    rcases hw.opened p hp with hp | hp
    · exact (h.opened p hp).trans_le hk.next
    · exact hp.2

theorem OffsetsOk.steady (h : OffsetsOk s) (hs : Steady s s') : OffsetsOk s' where
  inRange fd p i' hp hi' := by
    rw [hs.fileTable] at hp ⊢
    obtain ⟨i, hi, heq⟩ := hs.inode hi'
    rw [heq]
    exact h.inRange fd p i hp hi
  entries fd p hp := by
    rw [hs.fileTable] at hp
    exact hs.next ▸ h.entries fd p hp
  opened p hp := by
    rw [hs.openInodes] at hp
    exact hs.next ▸ h.opened p hp

/-- An entry of the file table is freed, or its position is set to a place in its file. -/
theorem OffsetsOk.setFile (h : OffsetsOk s) {f : File}
    (hf : ∀ p, f.fdInode = some p → p < s.nextInode ∧ ∀ i, s.inodes p = some i →
      f.fdPos.toNat ≤ i.iSize.toNat) : OffsetsOk (s.setFile g f) where
  inRange fd p i hp hi := by
    rw [Fs.setFile_fileTable, Function.update_apply] at hp ⊢
    split at hp
    · rename_i hg
      rw [if_pos hg]
      exact (hf p hp).2 i hi
    · rename_i hg
      rw [if_neg hg]
      exact h.inRange fd p i hp hi
  entries fd p hp := by
    rw [Fs.setFile_fileTable, Function.update_apply] at hp
    split at hp
    · exact (hf p hp).1
    · exact h.entries fd p hp
  opened := h.opened

/-- A new entry starts at position 0. -/
theorem OffsetsOk.mark (h : OffsetsOk s) (hp : p < s.nextInode) :
    OffsetsOk (s.setFile g ⟨0, flag, some p⟩) :=
  h.setFile fun q hq => by
    obtain rfl : p = q := Option.some.inj hq
    exact ⟨hp, fun _ _ => Nat.zero_le _⟩

/-- An inode is gone. -/
theorem OffsetsOk.removeInode (h : OffsetsOk s) : OffsetsOk (s.setInode p none) where
  inRange fd q i hq hi := by
    rw [Fs.setInode_inodes, Function.update_apply] at hi
    split at hi
    · cases hi
    · exact h.inRange fd q i hq hi
  entries := h.entries
  opened := h.opened

/-- A fresh inode belongs to no entry yet. -/
theorem OffsetsOk.newInode (h : OffsetsOk s) :
    OffsetsOk (s.setInode s.nextInode (some i)).bumpInode where
  inRange fd q j hq hj := by
    have hlt := h.entries fd q hq
    refine h.inRange fd q j hq ?_
    rw [← hj]
    exact (Function.update_of_ne hlt.ne _ _).symm
  entries fd q hq := (h.entries fd q hq).trans (Nat.lt_succ_self _)
  opened q hq := (h.opened q hq).trans (Nat.lt_succ_self _)

theorem OffsetsOk.installed (h : OffsetsOk s) {r : Int} (hi : InstalledIn s g r s') :
    OffsetsOk s' := by
  obtain ⟨t, -, ⟨k, -, -, -, -, rfl⟩ | ⟨-, -, rfl⟩⟩ := hi
  · exact ⟨h.inRange, h.entries, h.opened⟩
  · exact h

/-- A directory has got an entry more. -/
theorem OffsetsOk.oneMore (h : OffsetsOk s) (hroom : Room s) (hs : OneMore s s') :
    OffsetsOk s' := by
  obtain ⟨t, hst, rfl | ⟨q, j, hj, rfl⟩⟩ := hs
  · exact h.steady hst
  · have ht := h.steady hst
    refine ⟨fun fd p i hp hi => ?_, ht.entries, ht.opened⟩
    rw [Fs.setInode_inodes, Function.update_apply] at hi
    split at hi
    · rename_i hq
      subst hq
      have hin := ht.inRange fd p j hp hj
      obtain ⟨j₀, hj₀, heq⟩ := hst.inode hj
      have hp₀ : (s.fileTable fd).fdInode = some p := hst.fileTable ▸ hp
      have hfit := hroom fd p j₀ hp₀ hj₀
      rw [← heq, ← hst.sb] at hfit
      rw [← Option.some.inj hi]
      change ((t.fileTable fd).fdPos).toNat ≤ (j.iSize + t.part.sb.dirEntrySize).toNat
      rw [Word.toNat_add hfit]
      exact hin.trans (Nat.le_add_right _ _)
    · exact ht.inRange fd p i hp hi

theorem Room.walk (h : Room s) (hok : OffsetsOk s) (hw : Walk s s') (hk : SizesKept s s') : Room s' := by
  intro fd p i' hp hi'
  rw [hw.fileTable] at hp
  obtain ⟨i, hi, heq⟩ := hk.size p (hok.entries fd p hp) i' hi'
  rw [heq, hk.sb]
  exact h fd p i hp hi

theorem Room.steady (h : Room s) (hs : Steady s s') : Room s' := by
  intro fd p i' hp hi'
  rw [hs.fileTable] at hp
  obtain ⟨i, hi, heq⟩ := hs.inode hi'
  rw [heq, hs.sb]
  exact h fd p i hp hi

theorem Room.newInode (h : Room s) (hok : OffsetsOk s) :
    Room (s.setInode s.nextInode (some i)).bumpInode := by
  intro fd p j hp hj
  have hlt := hok.entries fd p hp
  refine h fd p j hp ?_
  rw [← hj]
  exact (Function.update_of_ne hlt.ne _ _).symm

/-- The entry of an empty file leaves room. -/
theorem Room.mark (h : Room s) (hi : s.inodes p = some i) (hsize : i.iSize = 0) :
    Room (s.setFile g ⟨0, flag, some p⟩) := by
  intro fd q j hq hj
  rw [Fs.setFile_fileTable, Function.update_apply] at hq
  split at hq
  · obtain rfl : p = q := Option.some.inj hq
    obtain rfl : i = j := Option.some.inj (hi.symm.trans hj)
    have := (s.setFile g ⟨0, flag, some p⟩).part.sb.dirEntrySize.toNat_lt
    rw [hsize, UInt32.toNat_zero]
    omega
  · exact h fd q j hq hj

end Steps

section Calls

variable {s s' : Fs} {fd g p : ℕ} {i : Inode} {flag inodeNo : UInt32}

/-- Code that moves nothing keeps the invariant. -/
theorem OffsetsOk.of_steady {α : Type} {m : FsM α} (h : OffsetsOk s)
    (hm : Exec.Ensures m s fun _ s' => Steady s s') : Exec.Ensures m s fun _ s' => OffsetsOk s' :=
  hm.mono fun _ _ hs => h.steady hs

/-- `file_create` from the new inode up to the directory entry. -/
theorem fileCreateEntry_offsets (h : OffsetsOk s) (hroom : Room s) (hp : p < s.nextInode)
    (hi : s.inodes p = some i) (hsize : i.iSize = 0) (parentDir : DirPtr) (filename : List UInt8) :
    Exec.Ensures (fileCreateEntry parentDir filename flag inodeNo p) s fun r s' => OffsetsOk s' ∧
      ∀ x ∈ r, x.2.1 < s'.nextInode := by
  have hgiveUp {s₁ : Fs} (h₁ : OffsetsOk s₁) :
      Exec.Ensures (do modify (·.setInode p none); clearInodeBit inodeNo; pure none) s₁
        fun (r : Option (UInt32 × ℕ × ℕ)) s' => OffsetsOk s' ∧ ∀ x ∈ r, x.2.1 < s'.nextInode := by
    rw [Exec.Ensures, Exec.post_bind, Exec.post_modify]
    refine Exec.Post.bind (clearInodeBit_steady _) fun _ s₂ h₂ => ?_
    exact ⟨h₁.removeInode.steady h₂, by simp⟩
  rw [Exec.Ensures, fileCreateEntry, Exec.post_bind, post_getFreeSlotInGlobal]
  cases s.freeSlot with
  | none => exact hgiveUp h
  | some g =>
    rw [Exec.post_bind, Exec.post_modify]
    refine Exec.Post.bind (createDirEntry_same _ _ _) fun entry s₁ h₁ => ?_
    subst h₁
    refine Exec.Post.bind ((syncDirEntry_oneMore _ _).and (syncDirEntry_quiet _ _))
      fun ok s₂ h₂ => ?_
    have hmark : OffsetsOk (s.setFile g ⟨0, flag, some p⟩) := h.mark hp
    have hok := hmark.oneMore (hroom.mark hi hsize) h₂.1
    split
    · refine ⟨hok, fun x hx => ?_⟩
      obtain rfl := Option.some.inj hx
      exact h₂.2.next ▸ hp
    · rw [Exec.post_bind, Exec.post_modify]
      exact hgiveUp (hok.setFile (by simp))

theorem fileCreateStart_offsets (h : OffsetsOk s) (hroom : Room s) (parentDir : DirPtr)
    (filename : List UInt8) :
    Exec.Ensures (fileCreateStart parentDir filename flag) s fun r s' => OffsetsOk s' ∧
      ∀ x ∈ r, x.2.1 < s'.nextInode := by
  rw [Exec.Ensures, fileCreateStart, Exec.post_bind, post_sysMalloc]
  split
  · refine Exec.Post.bind inodeBitmapAlloc_steady fun bit s₁ h₁ => ?_
    have hs := (steady_tick s).trans h₁
    cases bit with
    | none => exact ⟨h.steady hs, by simp⟩
    | some no =>
      rw [Exec.post_bind, post_sysMalloc]
      have hs := hs.trans (steady_tick s₁)
      split
      · rw [Exec.post_bind, post_newInode]
        exact fileCreateEntry_offsets (h.steady hs).newInode ((hroom.steady hs).newInode (h.steady hs))
          (Nat.lt_succ_self _) (Function.update_self ..) rfl parentDir filename
      · refine Exec.Post.bind (clearInodeBit_steady _) fun _ s₂ h₂ => ?_
        exact ⟨h.steady (hs.trans h₂), by simp⟩
  · exact ⟨h.steady (steady_tick s), by simp⟩

/-- `file_create` keeps positions in range. -/
theorem fileCreate_offsets (h : OffsetsOk s) (hroom : Room s) (parentDir : DirPtr)
    (filename : List UInt8) :
    Exec.Ensures (fileCreate parentDir filename flag) s fun _ s' => OffsetsOk s' := by
  rw [fileCreate_eq]
  refine Exec.Post.bind (fileCreateStart_offsets h hroom parentDir filename) fun r s₁ h₁ => ?_
  obtain ⟨hok, hentry⟩ := h₁
  cases r with
  | none => exact hok
  | some x =>
    obtain ⟨no, q, g⟩ := x
    have hq := hentry _ rfl
    refine Exec.Post.bind (derefDir_same _) fun dir s₂ h₂ => ?_
    subst h₂
    refine Exec.Post.bind derefInode_same fun parentInode s₂ h₂ => ?_
    obtain ⟨rfl, -⟩ := h₂
    refine Exec.Post.bind (inodeSync_steady _) fun _ s₃ h₃ => ?_
    refine Exec.Post.bind derefInode_same fun inode s₄ h₄ => ?_
    obtain ⟨rfl, hinode⟩ := h₄
    refine Exec.Post.bind (inodeSync_steady _) fun _ s₅ h₅ => ?_
    refine Exec.Post.bind (bitmapSync_steady _ _) fun _ s₆ h₆ => ?_
    have hs := (h₃.trans h₅).trans h₆
    have hok' := hok.steady hs
    have hpush : OffsetsOk (s₆.setPart (s₆.part.setOpenInodes (q :: s₆.part.openInodes))) := by
      refine ⟨hok'.inRange, hok'.entries, fun p hp => ?_⟩
      rcases List.mem_cons.mp hp with rfl | hp
      · exact hs.next ▸ hq
      · exact hok'.opened p hp
    obtain ⟨j, hj, heq⟩ : ∃ j, s₆.inodes q = some j ∧ j.iSize = inode.iSize := by
      have hsize := (h₅.trans h₆).size q
      rw [hinode, Option.map_some] at hsize
      exact Option.map_eq_some_iff.mp hsize
    rw [pushOpenInode, storeInode, Exec.post_bind, Exec.post_modify, Exec.post_bind,
      Exec.post_modify]
    refine Exec.Ensures.mono pcbFdInstall_ensures fun r s' hr => ?_
    exact (hpush.steady (steady_setInode (inode.setOpenCnts 1) hj heq.symm)).installed hr

/-- `file_open` keeps positions in range. -/
theorem fileOpen_offsets (h : OffsetsOk s) :
    Exec.Ensures (fileOpen inodeNo flag) s fun _ s' => OffsetsOk s' := by
  rw [Exec.Ensures, fileOpen, Exec.post_bind, post_getFreeSlotInGlobal]
  cases s.freeSlot with
  | none => exact h
  | some g =>
    refine Exec.Post.bind (inodeOpen_walk.and (walkClosed_sizesKept.inodeOpen inodeNo))
      fun p s₁ h₁ => ?_
    obtain ⟨⟨hwalk, hmem, -⟩, hkept⟩ := h₁
    have hok := h.walk hwalk hkept
    have hmark : OffsetsOk (s₁.setFile g ⟨0, flag, some p⟩) := hok.mark (hok.opened p hmem)
    rw [Exec.post_bind, Exec.post_modify]
    split
    · refine Exec.Post.bind derefInode_same fun inode s₂ h₂ => ?_
      obtain ⟨rfl, hinode⟩ := h₂
      split
      · exact hmark
      · rw [storeInode, Exec.post_bind, Exec.post_modify]
        refine Exec.Ensures.mono pcbFdInstall_ensures fun r s' hr => ?_
        exact (hmark.steady (steady_setInode { inode with writeDeny := true } hinode
          rfl)).installed hr
    · exact Exec.Ensures.mono pcbFdInstall_ensures fun r s' hr => hmark.installed hr

/-- `sys_open` creates a file only if it is told to. -/
theorem openTarget_create (pathname : List UInt8) (flags : UInt8) :
    Exec.Ensures (openTarget pathname flags) s fun target _ =>
      ∀ dir name, target = .create dir name → flags.toUInt32 &&& oCreat ≠ 0 := by
  have hany {α : Type} (m : FsM α) (s : Fs) : Exec.Ensures m s fun _ _ => True :=
    Exec.ensures_iff.mpr fun _ _ _ => trivial
  have hrefuse (dir : DirPtr) (s : Fs) : Exec.Ensures (do dirClose dir; pure OpenTarget.refused) s
      fun target _ => ∀ dir name, target = .create dir name → flags.toUInt32 &&& oCreat ≠ 0 :=
    Exec.Post.bind (hany _ _) fun _ _ _ => by simp
  rw [openTarget]
  refine Exec.Post.bind (hany _ _) fun _ s₁ _ => ?_
  split
  · simp
  · split
    · simp
    · refine Exec.Post.bind (hany _ _) fun pathnameDepth s₂ _ => ?_
      refine Exec.Post.bind (hany _ _) fun found s₃ _ => ?_
      dsimp only
      split
      · exact hrefuse _ _
      · refine Exec.Post.bind (hany _ _) fun pathSearchedDepth s₄ _ => ?_
        split
        · exact hrefuse _ _
        · split
          · exact hrefuse _ _
          · split
            · exact hrefuse _ _
            · split
              · rename_i hcreate
                exact Exec.Post.bind (hany _ _) fun _ _ _ _ _ _ => hcreate
              · simp

theorem sysOpen_offsets (h : OffsetsOk s) {pathname : List UInt8} {flags : UInt8}
    (hroom : flags.toUInt32 &&& oCreat ≠ 0 → Room s) :
    Exec.Ensures (sysOpen pathname flags) s fun _ s' => OffsetsOk s' := by
  rw [sysOpen_eq]
  refine Exec.Post.bind (((openTarget_walk pathname flags).and
    (walkClosed_sizesKept.openTarget pathname flags)).and (openTarget_create pathname flags))
    fun target s₁ h₁ => ?_
  obtain ⟨⟨hwalk, hkept⟩, hcreate⟩ := h₁
  have hok := h.walk hwalk hkept
  cases target with
  | refused => exact hok
  | existing no => exact fileOpen_offsets hok
  | create parentDir filename =>
    have hroom₁ := (hroom (hcreate _ _ rfl)).walk h hwalk hkept
    refine Exec.Post.bind (fileCreate_offsets hok hroom₁ parentDir filename) fun fd s₂ h₂ => ?_
    refine Exec.Post.bind ((dirClose_walk parentDir).and (walkClosed_sizesKept.dirClose parentDir))
      fun _ s₃ h₃ => ?_
    exact h₂.walk h₃.1 h₃.2

theorem fdLocal2global_ensures (fd : Int) :
    Exec.Ensures (fdLocal2global fd) s fun g s' => s' = s ∧ fdLocal2global fd s = .ok (g, s) := by
  refine Exec.ensures_iff.mpr fun g s' h => ?_
  have hsame : Exec.Ensures (fdLocal2global fd) s fun _ s' => s' = s := by
    simp [fdLocal2global, runningThread]
  obtain rfl := hsame.of_ok h
  exact ⟨rfl, h⟩

/-- `sys_close` keeps positions in range. -/
theorem sysClose_offsets (h : OffsetsOk s) (fd : Int) :
    Exec.Ensures (sysClose fd) s fun _ s' => OffsetsOk s' := by
  rw [sysClose]
  split
  · refine Exec.Post.bind (fdLocal2global_ensures fd) fun g s₁ h₁ => ?_
    obtain ⟨rfl, -⟩ := h₁
    have hclosed : Exec.Ensures (fileClose g) s₁ fun _ s' => OffsetsOk s' := by
      rw [Exec.Ensures, fileClose, Exec.post_bind, Exec.post_get, Exec.post_bind, post_deref]
      refine ⟨fun p hp => ?_, fun _ => trivial⟩
      refine Exec.Post.bind derefInode_same fun inode s₂ h₂ => ?_
      obtain ⟨rfl, hinode⟩ := h₂
      rw [storeInode, Exec.post_bind, Exec.post_modify]
      have hok : OffsetsOk (s₂.setInode p (some { inode with writeDeny := false })) :=
        h.steady (steady_setInode _ hinode rfl)
      refine Exec.Post.bind (inodeClose_walk.and (walkClosed_sizesKept.inodeClose p))
        fun _ s₃ h₃ => ?_
      exact (hok.walk h₃.1 h₃.2).setFile (by simp)
    refine Exec.Post.bind hclosed fun r s₂ h₂ => ?_
    exact ⟨h₂.inRange, h₂.entries, h₂.opened⟩
  · exact h

/-- A position that was moved within the file. -/
theorem OffsetsOk.movedTo {pos : UInt32} (h : OffsetsOk s)
    (hpos : ∀ p i, (s.fileTable fd).fdInode = some p → s.inodes p = some i →
      pos.toNat ≤ i.iSize.toNat) : OffsetsOk (movedTo s fd pos) :=
  h.setFile fun p hp => ⟨h.entries fd p hp, fun i hi => hpos p i hp hi⟩

theorem OffsetsOk.withMallocs (h : OffsetsOk s) (m : ℕ → Bool) : OffsetsOk (s.withMallocs m) :=
  ⟨h.inRange, h.entries, h.opened⟩

/-- `sys_read` keeps positions in range. -/
theorem sysRead_offsets (h : OffsetsOk s) (keys : Bytes) (fd : Int) (buf : Bytes) (count : UInt32) :
    Exec.Ensures (sysRead keys fd buf count) s fun _ s' => OffsetsOk s' := by
  rw [sysRead]
  split
  · exact h
  · split
    · exact h
    · refine Exec.Post.bind (fdLocal2global_ensures fd) fun g s₁ h₁ => ?_
      obtain ⟨rfl, -⟩ := h₁
      refine fileRead_moved.mono fun r s₂ h₂ => ?_
      obtain ⟨pos, m, p, i, rfl, hp, hi, hpos⟩ := h₂
      refine (h.movedTo fun q j hq hj => ?_).withMallocs m
      obtain rfl : p = q := Option.some.inj (hp.symm.trans hq)
      obtain rfl : i = j := Option.some.inj (hi.symm.trans hj)
      exact hpos (h.inRange g p i hp hi)

/-- `sys_lseek` moves the position to a place in the file, or not at all. -/
theorem lseekFile_moved (offset : Int) (whence : UInt8) :
    Exec.Ensures (lseekFile offset whence g) s fun r s' => s' = s ∧ r = -1 ∨
      ∃ pos, s' = movedTo s g pos ∧ r ≠ -1 ∧ ∀ p i, (s.fileTable g).fdInode = some p →
        s.inodes p = some i → pos.toNat ≤ i.iSize.toNat := by
  rw [Exec.Ensures, lseekFile, Exec.post_bind, Exec.post_get, Exec.post_bind, post_deref]
  refine ⟨fun p hp => ?_, fun _ => trivial⟩
  refine Exec.Post.bind derefInode_same fun inode s₁ h₁ => ?_
  obtain ⟨rfl, hinode⟩ := h₁
  dsimp only
  generalize (if whence = seekSet then toI32 (UInt32.ofInt offset) else
    if whence = seekCur then toI32 (UInt32.ofInt (toI32 (s₁.fileTable g).fdPos + offset)) else
    if whence = seekEnd then toI32 (UInt32.ofInt (toI32 inode.iSize + offset)) else 0) = newPos
  refine Exec.post_ite.mpr ⟨fun _ => .inl ⟨rfl, rfl⟩, fun hin => .inr ?_⟩
  rw [not_or, not_lt, not_lt] at hin
  refine ⟨UInt32.ofInt newPos, rfl, by omega, fun q j hq hj => ?_⟩
  obtain rfl : p = q := Option.some.inj (hp.symm.trans hq)
  obtain rfl : inode = j := Option.some.inj (hinode.symm.trans hj)
  have hlt := inode.iSize.toNat_lt
  have hle : newPos.toNat ≤ inode.iSize.toNat := by
    have hle := hin.2
    rw [toI32] at hle
    split at hle <;> omega
  have hof : UInt32.ofInt newPos = UInt32.ofNat newPos.toNat := by
    rw [UInt32.ofInt, Int.emod_eq_of_lt hin.1 (by omega)]
  rw [hof, Word.toNat_ofNat (by omega)]
  exact hle

/-- A write that is refused leaves the position where it was. -/
theorem sysLseek_offsets (h : OffsetsOk s) (fd offset : Int) (whence : UInt8) :
    Exec.Ensures (sysLseek fd offset whence) s fun r s' => OffsetsOk s' ∧
      (r = -1 → s'.fileTable = s.fileTable) := by
  rw [sysLseek]
  split
  · exact ⟨h, fun _ => rfl⟩
  · refine Exec.Post.bind (fdLocal2global_ensures fd) fun g s₁ h₁ => ?_
    obtain ⟨rfl, -⟩ := h₁
    refine (lseekFile_moved offset whence).mono fun r s₂ h₂ => ?_
    obtain ⟨rfl, rfl⟩ | ⟨pos, rfl, hr, hpos⟩ := h₂
    · exact ⟨h, fun _ => rfl⟩
    · exact ⟨h.movedTo hpos, fun heq => absurd heq hr⟩

/-- A file was written to that is not empty now. -/
theorem OffsetsOk.written {count : UInt32} {i' : Inode} (h : OffsetsOk s)
    (hw : Written g count s s' p i i') (hne : i'.iSize ≠ 0) : OffsetsOk s' where
  inRange fd q j hq hj := by
    rw [hw.fileTable, Function.update_apply] at hq ⊢
    split at hq
    · rename_i hfd
      rw [if_pos hfd]
      obtain rfl : p = q := Option.some.inj (hw.file.symm.trans hq)
      obtain rfl : i' = j := Option.some.inj (hw.new.symm.trans hj)
      have hpos : 0 < i'.iSize.toNat := Nat.pos_of_ne_zero fun h0 => hne (UInt32.toNat_inj.mp h0)
      change (i'.iSize - 1).toNat ≤ i'.iSize.toNat
      rw [Word.toNat_sub (show (1 : UInt32).toNat ≤ _ from hpos)]
      exact Nat.sub_le _ _
    · rename_i hfd
      rw [if_neg hfd]
      by_cases hqp : q = p
      · subst hqp
        obtain rfl : i' = j := Option.some.inj (hw.new.symm.trans hj)
        have hin := h.inRange fd q i hq hw.old
        have hsize := hw.size
        omega
      · have hold := hw.others q hqp
        rw [hj, Option.map_some] at hold
        obtain ⟨j₀, hj₀, heq⟩ := Option.map_eq_some_iff.mp hold.symm
        rw [← heq]
        exact h.inRange fd q j₀ hq hj₀
  entries fd q hq := by
    rw [hw.next]
    rw [hw.fileTable, Function.update_apply] at hq
    split at hq
    · exact h.entries g q hq
    · exact h.entries fd q hq
  opened q hq := by
    rw [hw.openInodes] at hq
    exact hw.next ▸ h.opened q hq

/-- `sys_write` keeps positions in range, and meets its law exactly if it does not write. -/
theorem sysWrite_offsets (h : OffsetsOk s) {fd : Int} {buf : Bytes} {count : UInt32}
    (hcareful : ∀ g i, OffsetCall.Writes s g i (.sysWrite fd buf count) → count = 0 → i.iSize ≠ 0) :
    Exec.Ensures (sysWrite fd buf count) s fun r s' => OffsetsOk s' ∧
      (OffsetCall.Law s r s' (.sysWrite fd buf count) ↔
        ¬ ∃ g i, OffsetCall.Writes s g i (.sysWrite fd buf count)) := by
  have hrefused {s' : Fs} {r : Int} (hr : r < 0)
      (hno : ∀ g i, ¬ OffsetCall.Writes s g i (.sysWrite fd buf count)) :
      OffsetCall.Law s r s' (.sysWrite fd buf count) ↔
        ¬ ∃ g i, OffsetCall.Writes s g i (.sysWrite fd buf count) := by
    refine ⟨fun _ ⟨g, i, hw⟩ => hno g i hw, fun _ hpos => ?_⟩
    omega
  rw [sysWrite]
  split
  · rename_i hneg
    exact ⟨h, hrefused (by decide) fun g i hw => by have := hw.1; omega⟩
  · split
    · rename_i hone
      rw [Exec.Ensures, Exec.post_bind, post_inBounds]
      refine ⟨fun _ => ⟨h, ?_, fun _ _ _ hne => absurd hone hne⟩, fun _ => trivial⟩
      rintro - ⟨g, i, hw⟩
      exact hw.2.1 hone
    · rename_i hnonneg hone
      refine Exec.Post.bind (fdLocal2global_ensures fd) fun g s₁ h₁ => ?_
      obtain ⟨rfl, hlocal⟩ := h₁
      have hentry {g' : ℕ} (hg' : fdLocal2global fd s₁ = .ok (g', s₁)) : g' = g := by
        rw [hlocal] at hg'
        cases hg'
        rfl
      rw [Exec.post_bind, Exec.post_get]
      split
      · rename_i hflag
        refine fileWrite_written.mono fun r s' hr => ?_
        obtain ⟨rfl, hsteady, hno⟩ | ⟨hr, p, i, i', hw, hgoes⟩ := hr
        · refine ⟨h.steady hsteady, hrefused (by decide) fun g' i hwrites => ?_⟩
          obtain ⟨-, -, hg', -, ⟨p, hp, hi⟩, hgoes⟩ := hwrites
          obtain rfl := hentry hg'
          exact hno p i hp hi hgoes
        · have hwrites : OffsetCall.Writes s₁ g i (.sysWrite fd buf count) :=
            ⟨not_lt.mp hnonneg, hone, hlocal, hflag, ⟨p, hw.file, hw.old⟩, hgoes⟩
          have hne : i'.iSize ≠ 0 := by
            intro h0
            have hsize := hw.size
            rw [h0, UInt32.toNat_zero] at hsize
            refine hcareful g i hwrites (UInt32.toNat_inj.mp ?_) (UInt32.toNat_inj.mp ?_)
            · rw [UInt32.toNat_zero]
              omega
            · rw [UInt32.toNat_zero]
              omega
          refine ⟨h.written hw hne, fun hlaw => ?_, fun hno => absurd ⟨g, i, hwrites⟩ hno⟩
          have hpos := hlaw hr (not_lt.mp hnonneg) hone g hlocal p i' ?_ hw.new
          · rw [hw.fileTable, Function.update_self] at hpos
            exact absurd hpos (by grind)
          · rw [hw.fileTable, Function.update_self]
            exact hw.file
      · rename_i hflag
        refine ⟨h, hrefused (by decide) fun g' i hwrites => ?_⟩
        obtain ⟨-, -, hg', hwrite, -⟩ := hwrites
        obtain rfl := hentry hg'
        exact hflag hwrite

/-- A call keeps positions in range, and meets its law exactly if it is not a write that goes
through. -/
theorem OffsetCall.body_offsets (h : OffsetsOk s) {c : OffsetCall} (hcareful : c.Careful s) :
    Exec.Ensures c.body s fun r s' => OffsetsOk s' ∧ (c.Law s r s' ↔ ¬ ∃ g i, c.Writes s g i) := by
  have hnone {m : FsM Int} (hm : Exec.Ensures m s fun r s' => OffsetsOk s' ∧ c.Law s r s')
      (hno : ∀ g i, ¬ c.Writes s g i) :
      Exec.Ensures m s fun r s' => OffsetsOk s' ∧ (c.Law s r s' ↔ ¬ ∃ g i, c.Writes s g i) :=
    hm.mono fun _ _ hm => ⟨hm.1, fun _ ⟨g, i, hw⟩ => hno g i hw, fun _ => hm.2⟩
  cases c with
  | sysOpen pathname flags =>
    refine hnone ((sysOpen_offsets h (hcareful.2 pathname flags rfl)).mono ?_) fun _ _ => id
    exact fun _ _ hok => ⟨hok, trivial⟩
  | sysWrite fd buf count => exact sysWrite_offsets h hcareful.1
  | sysRead keys fd buf count =>
    refine hnone ?_ fun _ _ => id
    rw [OffsetCall.body, Exec.Ensures, Exec.post_map]
    exact (sysRead_offsets h keys fd buf count).mono fun _ _ hok => ⟨hok, trivial⟩
  | sysLseek fd offset whence =>
    exact hnone (sysLseek_offsets h fd offset whence) fun _ _ => id
  | sysClose fd =>
    exact hnone ((sysClose_offsets h fd).mono fun _ _ hok => ⟨hok, trivial⟩) fun _ _ => id

end Calls

section Runs

variable {s₀ s : Fs}

theorem OffsetsOk.entered {x : ℕ × (ℕ → UInt32) × (ℕ → Bool) × OffsetCall} (h : OffsetsOk s) :
    OffsetsOk (OffsetCall.entered x s) :=
  ⟨h.inRange, h.entries, h.opened⟩

theorem OffsetCall.run_offsets (h : OffsetsOk s) {x : ℕ × (ℕ → UInt32) × (ℕ → Bool) × OffsetCall}
    (hcareful : x.2.2.2.Careful (entered x s)) :
    Exec.Ensures (OffsetCall.run x) s fun r s' => OffsetsOk s' ∧
      (x.2.2.2.Law (entered x s) r s' ↔ ¬ ∃ g i, x.2.2.2.Writes (entered x s) g i) := by
  rw [Exec.Ensures, OffsetCall.run, Exec.post_bind, Exec.post_modify]
  exact OffsetCall.body_offsets h.entered hcareful

/-- Sequences of calls on regular files, each admitted. -/
abbrev OffsetRun (ok : Fs → ℕ × (ℕ → UInt32) × (ℕ → Bool) × OffsetCall → Prop) (s₀ s : Fs) : Prop :=
  Exec.Run OffsetCall.run ok s₀ s

/-- As long as nothing is written to an empty file, positions are in range. A call then does to
positions what it is to do exactly if it is not a write that goes through. -/
theorem offsets_of_run (hstart : OffsetsOk s₀)
    (hrun : OffsetRun (fun s x => x.2.2.2.Careful (OffsetCall.entered x s)) s₀ s) :
    InRange s ∧ ∀ x r s', x.2.2.2.Careful (OffsetCall.entered x s) →
      OffsetCall.run x s = .ok (r, s') →
      (x.2.2.2.Law (OffsetCall.entered x s) r s' ↔
        ¬ ∃ g i, x.2.2.2.Writes (OffsetCall.entered x s) g i) := by
  have hok : OffsetsOk s := hrun.invariant hstart fun _ x hok hcareful =>
    (OffsetCall.run_offsets (x := x) hok hcareful).mono fun _ _ h => h.1
  exact ⟨hok.inRange, fun x r s' hcareful hcall =>
    ((OffsetCall.run_offsets hok hcareful).of_ok hcall).2⟩

theorem offsetsOk_rootFs : OffsetsOk rootFs where
  inRange _ _ _ := nofun
  entries _ _ := nofun
  opened p hp := by
    obtain rfl : p = 0 := List.mem_singleton.mp hp
    exact Nat.zero_lt_one

/-- The file `/a` is created. -/
theorem offsets_of_run_a : ∃ s : Fs, (s.fileTable 3).fdInode = some 1 ∧ InRange s := by
  have h : Exec.returnsWith
      (OffsetCall.run (1, fun _ => 0, fun _ => true, .sysOpen [47, 97] 6) rootFs)
      (fun _ s => (s.fileTable 3).fdInode == some 1) = true := by decide +kernel
  obtain ⟨r, s, hcall, hfile⟩ := Exec.exists_of_returnsWith h
  have hcareful : OffsetCall.Careful (OffsetCall.entered
      (1, fun _ => 0, fun _ => true, .sysOpen [47, 97] 6) rootFs) (.sysOpen [47, 97] 6) :=
    ⟨fun _ _ => False.elim, fun _ _ _ _ _ _ _ hopened => by cases hopened⟩
  exact ⟨s, beq_iff_eq.mp hfile, (offsets_of_run offsetsOk_rootFs (.tail .refl hcareful hcall)).1⟩

/-- The file `/a` is created, and nothing is written to it: its position is 4294967295. -/
theorem not_offsets_of_run : ¬ ∀ s₀ s, OffsetsOk s₀ → OffsetRun (fun _ _ => True) s₀ s →
    InRange s ∧ ∀ x r s', OffsetCall.run x s = .ok (r, s') →
      x.2.2.2.Law (OffsetCall.entered x s) r s' := by
  intro hall
  have h : (Exec.runList OffsetCall.run (fun _ _ => True)
      [(1, fun _ => 0, fun _ => true, .sysOpen [47, 97] 6),
        (1, fun _ => 0, fun _ => true, .sysWrite 3 Bytes.zero 0)] rootFs).any
        (fun s => (s.fileTable 3).fdInode == some 1 && (s.fileTable 3).fdPos == 4294967295 &&
          (s.inodes 1).map Inode.iSize == some 0) = true := by
    decide +kernel
  obtain ⟨s, hrun, hs⟩ := Exec.Run.exists_of_any h
  simp only [Bool.and_eq_true, beq_iff_eq, Option.map_eq_some_iff] at hs
  obtain ⟨⟨hfile, hpos⟩, i, hi, hsize⟩ := hs
  have hin := (hall _ s offsetsOk_rootFs hrun).1 3 1 i hfile hi
  rw [hpos, hsize] at hin
  exact absurd hin (by decide)

end Runs

end Winx
