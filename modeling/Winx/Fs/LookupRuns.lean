import Winx.Lib.Run
import Winx.Fs.DirDelete
import Winx.Fs.DirInsert
import Winx.Fs.Lookup

/-! # Looking up names in a changing directory

Whatever entries are added and deleted, the blocks of a directory stay distinct
data blocks whose free places are blank, as long as new entries find a place at
the direct blocks. So a lookup in any state reached is right exactly if the
block with the name is one the search comes to.
-/

namespace Winx

/-- A call that changes a directory, or the passing of time, after which the stack and the heap may
hold something else. -/
inductive DirCall
  | sync (e : DirEntry)
  | delete (inodeNo : UInt32)
  | elapse (junk : ℕ → UInt32) (mallocs : ℕ → Bool)

/-- Run a call on the directory behind a pointer. -/
def DirCall.run (dir : DirPtr) : DirCall → FsM Bool
  | .sync e => syncDirEntry dir e
  | .delete inodeNo => deleteDirEntry dir inodeNo
  | .elapse junk mallocs => do
    modify fun s => (s.withJunk junk).withMallocs mallocs
    pure true

/-- The call is admitted for the directory whose inode is at `p`: an entry that is added has a name,
and there is an empty direct slot or a direct block with a free place for it. -/
def DirCall.Direct (p : ℕ) (s : Fs) : DirCall → Prop
  | .sync e => e.Proper ∧ ∀ i, s.inodes p = some i → ∃ k < 12, ¬ FullBlock s.disk i k
  | .delete _ => True
  | .elapse _ _ => True

variable {s s₀ : Fs} {i₀ : Inode} {dir : DirPtr} {o : Dir} {name : List UInt8}

/-- The directory is there, and its blocks are those of a directory. -/
def DirThere (dir : DirPtr) (o : Dir) (s : Fs) : Prop :=
  s.dirOf dir = some o ∧ ∃ i, s.inodes o.inode = some i ∧ DirBlocks s i

/-- Every admitted call leaves the directory there. -/
theorem DirThere.call {c : DirCall} (h : DirThere dir o s) (hc : c.Direct o.inode s) :
    Exec.Ensures (c.run dir) s fun _ s' => DirThere dir o s' := by
  obtain ⟨hdir, i, hi, hblocks⟩ := h
  cases c with
  | sync e =>
    obtain ⟨hproper, hplace⟩ := hc
    refine (syncDirEntry_direct hblocks hdir hi (hplace i hi)).mono ?_
    rintro r s' (⟨-, rfl⟩ | ⟨-, a, d, b, i', he, rfl⟩)
    · exact ⟨hdir, i, hi, hblocks⟩
    · refine ⟨?_, i', Function.update_self .., he.dirBlocks hblocks hproper⟩
      rw [← hdir]
      cases dir <;> rfl
  | delete no =>
    refine (deleteDirEntry_spec hblocks hdir hi).ensures.mono ?_
    rintro r s' (⟨-, rfl, -⟩ | ⟨-, -, a, -, -, d, b, i', he, rfl⟩)
    · exact ⟨hdir, i, hi, hblocks⟩
    · refine ⟨?_, i', Function.update_self .., he.dirBlocks hblocks⟩
      rw [← hdir]
      cases dir <;> rfl
  | elapse junk mallocs =>
    refine ⟨?_, i, hi, hblocks.layout, hblocks.readable, hblocks.used, hblocks.inj, hblocks.blank⟩
    rw [← hdir]
    cases dir <;> rfl

/-- In every state that adding and deleting entries leads to, a lookup is right exactly if the name
is missing or in a block that the search comes to, and the buffers can be had. -/
theorem findsExactly_of_run (hdir : s₀.dirOf dir = some o) (hi : s₀.inodes o.inode = some i₀)
    (hok : DirOk s₀ i₀) (hrun : Exec.Run (DirCall.run dir) (fun s c => c.Direct o.inode s) s₀ s)
    (hname : name ≠ []) (h0 : 0 ∉ name) (hlen : name.length ≤ 15) :
    ∃ i, s.inodes o.inode = some i ∧ (FindsExactly s dir i name ↔ LookupSound s i name) := by
  obtain ⟨hdir', i, hi', hblocks⟩ := hrun.invariant (I := DirThere dir o)
    ⟨hdir, i₀, hi, hok.toDirBlocks⟩ fun _ _ h hc => h.call hc
  exact ⟨i, hi', findsExactly_iff hblocks.layout hdir' hi' hblocks.readable hblocks.blank hname h0 hlen⟩

/-- A file that was added to a fresh root directory is found. -/
theorem findsExactly_of_run_added : ∃ s i,
    Exec.Run (DirCall.run .rootDir) (fun s c => c.Direct 0 s) rootFs s ∧ s.inodes 0 = some i ∧
      (∃ e ∈ liveEntries s.disk i, e.filename = [97]) ∧ FindsExactly s .rootDir i [97] := by
  have hcall : Exec.returnsWith (syncDirEntry .rootDir ⟨[97], 1, ftRegular⟩ rootFs) (fun _ s =>
      s.mallocs 1 && s.mallocs 0 && (s.inodes 0).all fun i =>
        decide ((0, 2) ∈ liveSlots s.disk i ∧ (entryAt s.disk i (0, 2)).filename = [97])) = true := by
    decide +kernel
  obtain ⟨b, s, hrun, hcall⟩ := Exec.exists_of_returnsWith hcall
  obtain ⟨hmallocs, hlive⟩ := Bool.and_eq_true_iff.mp hcall
  obtain ⟨hm₁, hm₀⟩ := Bool.and_eq_true_iff.mp hmallocs
  have hplace : ∀ i, rootFs.inodes 0 = some i → ∃ k < 12, ¬ FullBlock rootFs.disk i k := by
    rintro i hi
    obtain rfl := Option.some.inj hi
    exact ⟨0, by decide, not_fullBlock_rootFs⟩
  have hreach : Exec.Run (DirCall.run .rootDir) (fun s c => c.Direct 0 s) rootFs s :=
    .tail (a := .sync ⟨[97], 1, ftRegular⟩) .refl ⟨⟨by decide, by decide, by decide⟩, hplace⟩ hrun
  have hdir : rootFs.dirOf .rootDir = some rootFs.rootDir := rfl
  obtain ⟨i, hi, hiff⟩ := findsExactly_of_run hdir rfl dirOk_rootFs hreach
    (show [97] ≠ [] by decide) (by decide) (by decide)
  have hi : s.inodes 0 = some i := hi
  rw [hi, Option.all_some, decide_eq_true_iff] at hlive
  have hmem : ∃ e ∈ liveEntries s.disk i, e.filename = [97] :=
    ⟨_, mem_liveEntries.mpr ⟨(0, 2), hlive.1, rfl⟩, hlive.2⟩
  exact ⟨s, i, hreach, hi, hmem, hiff.mpr ⟨fun _ => hm₁, fun _ => ⟨hm₀, (0, 2), hlive.1, hlive.2,
    Even.zero⟩⟩⟩

/-- A root directory with one file in each of its second and third block. -/
def sparseRoot : Inode :=
  { rootInode with
    iSize := 96
    iSectors := fun k => if k.val < 3 then rootInode.sector 0 + UInt32.ofNat k.val else 0 }

def sparseFs : Fs :=
  ((rootFs.setDisk (storeEntry (storeEntry rootFs.disk (sparseRoot.sector 1) 0
    (DirEntry.toBytes ⟨[98], 5, ftRegular⟩)) (sparseRoot.sector 2) 0
      (DirEntry.toBytes ⟨[99], 6, ftRegular⟩))).setPart
        (rootFs.part.setBlockBitmap (rootFs.part.blockBitmap.setRun 0 true 3))).setInode
          0 (some sparseRoot)

theorem dirOk_sparseFs : DirOk sparseFs sparseRoot :=
  .of_direct (layout_rootFs.setBlockBitmap (Bitmap.setRun_btmpBytesLen _ 3)) (by decide +kernel)
    (by decide +kernel) (by decide +kernel) (by decide +kernel) (by decide +kernel)

/-- After the only file of the second block is deleted, the file in the third one is not found. -/
theorem not_findsExactly_of_run : ∃ s₀ dir o i₀ s i name, s₀.dirOf dir = some o ∧
    s₀.inodes o.inode = some i₀ ∧ DirOk s₀ i₀ ∧
    Exec.Run (DirCall.run dir) (fun s c => c.Direct o.inode s) s₀ s ∧ s.inodes o.inode = some i ∧
    name ≠ [] ∧ 0 ∉ name ∧ name.length ≤ 15 ∧ ¬ FindsExactly s dir i name := by
  have hcall : Exec.returnsWith (deleteDirEntry .rootDir 5 sparseFs) (fun _ s =>
      Exec.returnsWith (searchDirEntry .rootDir [99] s) fun found _ => found.isNone &&
        (s.inodes 0).any fun i =>
          decide ((2, 0) ∈ liveSlots s.disk i ∧ (entryAt s.disk i (2, 0)).filename = [99])) = true := by
    decide +kernel
  obtain ⟨b, s, hrun, hcall⟩ := Exec.exists_of_returnsWith hcall
  have hreach : Exec.Run (DirCall.run .rootDir) (fun s c => c.Direct 0 s) sparseFs s :=
    .tail (a := .delete 5) .refl trivial hrun
  obtain ⟨found, s', hsearch, hcall⟩ := Exec.exists_of_returnsWith hcall
  obtain ⟨hfound, hcall⟩ := Bool.and_eq_true_iff.mp hcall
  obtain rfl := Option.isNone_iff_eq_none.mp hfound
  obtain ⟨i, hi, hlive⟩ := (Option.any_eq_true ..).mp hcall
  obtain ⟨hmem, hname⟩ := of_decide_eq_true hlive
  refine ⟨sparseFs, .rootDir, sparseFs.rootDir, sparseRoot, s, i, [99], rfl, rfl, dirOk_sparseFs,
    hreach, hi, by decide, by decide, by decide, fun hfinds => ?_⟩
  have hnone := (Exec.Returns.ensures hfinds).of_ok hsearch
  exact hnone _ (mem_liveEntries.mpr ⟨(2, 0), hmem, rfl⟩) hname

end Winx
