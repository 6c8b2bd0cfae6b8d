import Winx.Fs.Calm
import Winx.Fs.Opened
import Winx.Fs.SearchRuns
import Winx.Fs.Write

/-! # States that calls on paths begin in

In a well-formed file system every directory is tidy, its entries are for inodes in
use, and no entry is there twice. Deleting an entry of a directory in such a state
stops at a null pointer only, and the blocks of every inode can still be freed.
-/

namespace Winx

/-- A well-formed file system. -/
structure PathReady (s : Fs) : Prop extends TreeOk s where
  ok : FsOk s
  tidy : ∀ d, IsDir s d → TidyDir s (curInode s d.toNat)
  used : ∀ d, IsDir s d → UsedInode s d.toNat
  regular : ∀ d, IsDir s d → ∀ e ∈ s.dirEntries d, e.fType = ftRegular →
    UsedInode s e.iNo.toNat ∧ ¬ IsDir s e.iNo
  once : ∀ d, IsDir s d → ∀ no, ∀ a ∈ liveSlots s.disk (curInode s d.toNat),
    ∀ b ∈ liveSlots s.disk (curInode s d.toNat), (entryAt s.disk (curInode s d.toNat) a).Names no →
      (entryAt s.disk (curInode s d.toNat) b).Names no → a = b
  held : ∀ n c, UsedInode s n → slotLba s.disk (curInode s n) c ≤ maxLba
  free : FreeOnDisk s.part
  firstBlock : s.part.blockBitmap.scanTest 0 = true

variable {s u : Fs} {d no f : UInt32} {p : ℕ} {ptr : DirPtr} {i i' : Inode} {a : ℕ × ℕ} {size : UInt32}
  {disk : Bytes} {b : Bitmap}

section Erase

/-- A block is outside of what is written when an entry of another inode is deleted. -/
theorem not_mem_erased (hl : Layout s.part) {lba : UInt32} {j : ℕ} (hj : IsBlock s.part lba j)
    (hne : ∀ c, slotLba s.disk i c ≠ lba) : ∀ x ∈ sectorArea lba,
      x ∉ bitmapArea s.part ∪ inodeTableArea s.part ∪ erasedArea s.disk i a := by
  have hle := hj.le
  rintro x hx ((hx' | hx') | ⟨-, hx'⟩ | ⟨-, -, -, hx'⟩)
  · refine hl.not_mem_bitmapArea ?_ hx'
    rw [sectorArea, Set.mem_ofPred_eq] at hx
    omega
  · exact sectorArea_inodeTable hle x hx hx'
  · exact sectorArea_disjoint (hne (.block a.1)).symm x hx hx'
  · exact sectorArea_disjoint (hne .table).symm x hx hx'

/-- The blocks of a directory can be freed after an entry is deleted. -/
theorem EntryErased.releasable_self (h : DirBlocks s i) (he : EntryErased s i a size disk b i') :
    Releasable (s.tick.grow p disk b i') i' := by
  constructor
  · intro c h0
    obtain ⟨j, hj, -⟩ := he.used h h0
    exact ⟨j, (isBlock_setBlockBitmap he.bits.len).mpr hj⟩
  · by_cases h0 : i'.sector 12 = 0
    · exact h0 ▸ UInt32.zero_le
    · exact (he.slotLba_eq (c := .table) h0).trans_le h.readable.table

theorem Releasable.pureInode (h : Releasable s i) : Releasable s i.pureInode := ⟨h.block, h.table⟩

/-- The blocks of another inode can be freed after an entry is deleted. -/
theorem EntryErased.releasable_other (hl : Layout s.part) (he : EntryErased s i a size disk b i')
    {j : Inode} (hj : Releasable s j)
    (hne : j.sector 12 ≠ 0 → ∀ c, slotLba s.disk i c ≠ j.sector 12) :
    Releasable (s.tick.grow p disk b i') j := by
  have hslot (c : Slot) : slotLba disk j c = slotLba s.disk j c := by
    refine Winx.slotLba_eq he.disk (fun h0 => ?_) c
    obtain ⟨k, hk⟩ := hj.block .table h0
    exact not_mem_erased hl hk (hne h0)
  constructor
  · intro c h0
    change slotLba disk j c ≠ 0 at h0
    change ∃ k, IsBlock _ (slotLba disk j c) k
    rw [hslot] at h0 ⊢
    obtain ⟨k, hk⟩ := hj.block c h0
    exact ⟨k, (isBlock_setBlockBitmap he.bits.len).mpr hk⟩
  · exact hj.table

/-- Whatever inode is looked up after an entry is deleted, its blocks can be freed if they could
before: it is the inode of the directory, another one that is open, or what is stored. -/
theorem EntryErased.releasable (h : DirBlocks s i) (hd : findOpenInode s d = some p)
    (hi : s.inodes p = some i) (he : EntryErased s i a size disk b i')
    (hrecord : RecordStored s p i (s.tick.grow p disk b i')) (hf : f.toNat < 4096)
    (hj : Releasable s (curInode s f.toNat))
    (hne : f ≠ d → (curInode s f.toNat).sector 12 ≠ 0 →
      ∀ c, slotLba s.disk i c ≠ (curInode s f.toNat).sector 12) :
    Releasable (s.tick.grow p disk b i') (curInode (s.tick.grow p disk b i') f.toNat) := by
  obtain ⟨sectors, hsame⟩ := id he.same
  have hno : i'.iNo = i.iNo := by rw [hsame]
  have hfind : findOpenInode (s.tick.grow p disk b i') f = findOpenInode s f :=
    findOpenInode_grow (s := s.tick) hi hno f
  have hself := he.releasable_self (p := p) h
  have hkeep (hfd : f ≠ d) := he.releasable_other (p := p) h.layout hj (hne hfd)
  cases hq : findOpenInode s f with
  | some q =>
    obtain ⟨-, j, hjq, hjno⟩ := findOpenInode_some hq
    by_cases hqp : q = p
    · subst hqp
      rw [curInode_of_find (hfind.trans hq) (Function.update_self ..)]
      exact hself
    · have hfd : f ≠ d := by
        rintro rfl
        exact hqp (Option.some.inj (hq.symm.trans hd))
      have hq' : (s.tick.grow p disk b i').inodes q = some j :=
        (Function.update_of_ne hqp _ s.inodes).trans hjq
      have hcur := hkeep hfd
      rw [curInode_of_find hq hjq] at hcur
      rw [curInode_of_find (hfind.trans hq) hq']
      exact hcur
  | none =>
    have hfd : f ≠ d := by
      rintro rfl
      cases hq.symm.trans hd
    obtain ⟨j, hjp, hstored⟩ := hrecord
    obtain rfl : j = i' := by
      change Function.update s.inodes p (some i') p = some j at hjp
      rw [Function.update_self] at hjp
      exact (Option.some.inj hjp).symm
    rw [curInode_of_none (hfind.trans hq)]
    have hdisk := hstored f.toNat hf
    change diskInode disk s.part.sb f.toNat = _ at hdisk
    change Releasable _ (diskInode disk s.part.sb f.toNat)
    rw [hdisk]
    split
    · exact hself.pureInode
    · have hcur := hkeep hfd
      rw [curInode_of_none hq] at hcur
      exact hcur

end Erase

section Delete

/-- The blocks of an inode in use can be freed, whatever is open. -/
theorem PathReady.releasable (h : PathReady s) (hover : Over s u) (hn : UsedInode s f.toNat) :
    Releasable u (curInode u f.toNat) := by
  obtain ⟨c, hc⟩ := hover.inode f
  obtain ⟨l, hpart⟩ := hover.part
  rw [hc]
  constructor
  · rw [hover.disk, hpart]
    intro k h0
    obtain ⟨j, hj, -⟩ := h.ok.blocks.used f.toNat k hn h0
    exact ⟨j, hj⟩
  · exact h.held f.toNat .table hn

/-- Deleting an entry of a directory that is open. -/
theorem PathReady.deleteDirEntry (h : PathReady s) (hover : Over s u) (hd : IsDir s d)
    (hh : u.Holds ptr d) (no : UInt32) :
    Exec.Post (deleteDirEntry ptr no) u (fun _ v => u.part.Alike v.part ∧
      ∀ f : UInt32, UsedInode s f.toNat → Releasable v (curInode v f.toNat)) (· = .badPointer) := by
  obtain ⟨o, c, ho, hfind, hi⟩ := hh.object hover
  have htidy := hover.tidy (h.tidy d hd) c
  refine (deleteDirEntry_stored htidy.toDirBlocks ho hi).mono ?_ ?_
  · rintro r v ⟨hres, hrecord⟩
    rcases hres with ⟨rfl, rfl, -⟩ | ⟨rfl, -, a, -, -, disk, b, i', he, rfl⟩
    · exact ⟨.refl _, fun f hn => h.releasable hover hn⟩
    · refine ⟨⟨rfl, rfl, rfl, he.bits.len, rfl⟩, fun f hn => ?_⟩
      refine he.releasable htidy.toDirBlocks hfind hi (hrecord rfl) hn.1 (h.releasable hover hn) ?_
      intro hfd h0 k heq
      obtain ⟨c', hc'⟩ := hover.inode f
      rw [hc'] at h0 heq
      rw [hover.disk] at heq
      have hmn := (h.ok.blocks.inj f.toNat d.toNat .table k hn (h.used d hd) h0 heq.symm).1
      exact hfd (UInt32.toNat_inj.mp hmn)
  · rintro e ⟨a, ha, hnames, ⟨-, he⟩ | hsize | ⟨a', ha', hne, hnames'⟩⟩
    · exact he
    · have hge := htidy.toDirOk.size_ge ha
      rw [sizeofDirEntry] at hsize
      omega
    · rw [hover.disk] at ha hnames ha' hnames'
      exact absurd (h.once d hd no a' ha' a ha hnames' hnames) hne

end Delete

end Winx
