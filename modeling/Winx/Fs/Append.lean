import Winx.Fs.Write

/-! # Appending leaves the rest alone

After a write that succeeds the other inodes hold what they held, unless the
number of the file passes 255 and its record is written over that of another
inode that is not open.
-/

namespace Winx

variable {s : Fs} {i i' : Inode} {buf d d' : Bytes} {b : Bitmap} {fd p m n : ℕ} {count pos : UInt32}
  {a : Slot} {T : Set Slot}

/-- A change of the inode table leaves the sectors of used inodes alone. -/
theorem FsOk.not_mem_inodeTableArea (hs : FsOk s) (hm : UsedInode s m)
    (h0 : slotLba s.disk (curInode s m) a ≠ 0) :
    ∀ x ∈ sectorArea (slotLba s.disk (curInode s m) a), x ∉ inodeTableArea s.part := by
  obtain ⟨j, hj, -⟩ := hs.blocks.used m a hm h0
  exact sectorArea_inodeTable hj.le

theorem FsOk.slotLba_eq (hs : FsOk s) (hd : Bytes.EqOutside (inodeTableArea s.part) s.disk d')
    (hm : UsedInode s m) (a : Slot) :
    slotLba d' (curInode s m) a = slotLba s.disk (curInode s m) a :=
  Winx.slotLba_eq hd (fun h0 => hs.not_mem_inodeTableArea (a := .table) hm h0) a

theorem FsOk.fileByte_eq (hs : FsOk s) (hd : Bytes.EqOutside (inodeTableArea s.part) s.disk d')
    (hm : UsedInode s m) {off : ℕ} (h0 : blockLba s.disk (curInode s m) (off / 512) ≠ 0) :
    fileByte d' (curInode s m) off = fileByte s.disk (curInode s m) off := by
  have hblock : blockLba d' (curInode s m) (off / 512) = blockLba s.disk (curInode s m) (off / 512) :=
    hs.slotLba_eq hd hm (.block (off / 512))
  rw [fileByte, fileByte, hblock]
  exact hd _ (hs.not_mem_inodeTableArea (a := .block (off / 512)) hm h0 _
    (mem_sectorArea (Nat.mod_lt off (by omega))))

/-- A state that differs in what no used inode depends on is well formed as well. -/
theorem FsOk.congr {s' : Fs} (hs : FsOk s) (hpart : s'.part = s.part) (hinodes : s'.inodes = s.inodes)
    (hcur : ∀ m, UsedInode s m → curInode s' m = curInode s m)
    (hslot : ∀ m, UsedInode s m → ∀ a,
      slotLba s'.disk (curInode s m) a = slotLba s.disk (curInode s m) a) : FsOk s' := by
  have hused : ∀ m, UsedInode s' m ↔ UsedInode s m := fun m => by
    rw [UsedInode, UsedInode, hpart]
  obtain ⟨hlayout, ⟨hobj, hcache, hinj⟩, ⟨hblocks, hmarked⟩⟩ := hs
  refine ⟨hpart ▸ hlayout, ⟨?_, ?_, ?_⟩, ⟨?_, ?_⟩⟩
  · rwa [hpart, hinodes]
  · simpa only [hpart, hinodes, hused] using hcache
  · rwa [hpart, hinodes]
  · intro m n a c hm hn h0 heq
    rw [hused] at hm hn
    rw [hcur m hm, hslot m hm] at h0 heq
    rw [hcur n hn, hslot n hn] at heq
    exact hblocks m n a c hm hn h0 heq
  · intro m a hm h0
    rw [hused] at hm
    rw [hcur m hm, hslot m hm] at h0 ⊢
    rw [hpart]
    exact hmarked m a hm h0

/-- Inode `m` has the same size, blocks and bytes in both states. -/
structure SameContents (s s' : Fs) (m : ℕ) : Prop where
  size : (curInode s' m).iSize = (curInode s m).iSize
  slots : ∀ a, slotLba s'.disk (curInode s' m) a = slotLba s.disk (curInode s m) a
  bytes : ∀ a, slotLba s.disk (curInode s m) a ≠ 0 →
    ∀ x ∈ sectorArea (slotLba s.disk (curInode s m) a), s'.disk x = s.disk x

/-- From `s` to `s'` the buffer is appended to the file with number `no`, and nothing else changes:
`old` and `new` are its contents, `mapped` and `distinct` its blocks, which were its own or free. -/
structure AppendsTo (s : Fs) (no : ℕ) (buf : Bytes) (count : UInt32) (r : Int) (s' : Fs) : Prop where
  result : r = count.toNat
  size : (curInode s' no).iSize.toNat = (curInode s no).iSize.toNat + count.toNat
  old : ∀ off < (curInode s no).iSize.toNat,
    fileByte s'.disk (curInode s' no) off = fileByte s.disk (curInode s no) off
  new : ∀ j < count.toNat,
    fileByte s'.disk (curInode s' no) ((curInode s no).iSize.toNat + j) = buf j
  mapped : ∀ k ≤ (curInode s' no).iSize.toNat / 512, ∃ j,
    IsBlock s'.part (blockLba s'.disk (curInode s' no) k) j ∧ s'.part.blockBitmap.scanTest j = true
  distinct : ∀ k ≤ (curInode s' no).iSize.toNat / 512, ∀ l ≤ (curInode s' no).iSize.toNat / 512,
    blockLba s'.disk (curInode s' no) k = blockLba s'.disk (curInode s' no) l → k = l
  fresh : ∀ a, slotLba s'.disk (curInode s' no) a = slotLba s.disk (curInode s no) a ∨
    ∃ j, IsBlock s.part (slotLba s'.disk (curInode s' no) a) j ∧
      s.part.blockBitmap.scanTest j = false
  others : ∀ m, UsedInode s m → m ≠ no → SameContents s s' m

section Written

/-- The record of inode `no` is stored under a number that another used inode is loaded from. -/
def Clobbers (s : Fs) (no : ℕ) : Prop :=
  256 ≤ no ∧ UsedInode s (no % 256) ∧ findOpenInode s (UInt32.ofNat (no % 256)) = none

/-- An open inode, or one whose record is another one, is as it was before the record was
written. -/
theorem curInode_writtenState (hi : s.inodes p = some i) (hno : i'.iNo = i.iNo)
    (h : findOpenInode s (UInt32.ofNat m) ≠ none ∨ m ≠ i.iNo.toNat % 256) :
    curInode (writtenState s fd p d b i' pos) m = curInode (s.grow p d b i') m := by
  have hfind : findOpenInode (writtenState s fd p d b i' pos) (UInt32.ofNat m) =
      findOpenInode (s.grow p d b i') (UInt32.ofNat m) := rfl
  unfold curInode
  rw [hfind]
  cases hq : findOpenInode (s.grow p d b i') (UInt32.ofNat m) with
  | some q => rfl
  | none =>
    rw [findOpenInode_grow hi hno] at hq
    have hne := h.resolve_left fun h' => h' hq
    change diskInode (storeRecord d s.part.sb (i'.iNo.toNat % 256) i') s.part.sb m =
      diskInode d s.part.sb m
    exact diskInode_storeRecord_of_ne _ _ _ (by rwa [hno])

/-- An inode whose record was overwritten is a copy of the file. -/
theorem curInode_writtenState_clobbered (hi : s.inodes p = some i) (hno : i'.iNo = i.iNo)
    (h : findOpenInode s (UInt32.ofNat (i.iNo.toNat % 256)) = none) :
    curInode (writtenState s fd p d b i' pos) (i.iNo.toNat % 256) = i'.pureInode := by
  have hfind : findOpenInode (writtenState s fd p d b i' pos)
      (UInt32.ofNat (i.iNo.toNat % 256)) = none := by
    rw [← h, ← findOpenInode_grow (s := s) (p := p) (d := d) (b := b) hi hno]
    rfl
  rw [curInode_of_miss hfind]
  change diskInode (storeRecord d s.part.sb (i'.iNo.toNat % 256) i') s.part.sb _ = _
  rw [hno]
  exact diskInode_storeRecord_self _ _ _ _

variable (hs : FsOk s) (hp : p ∈ s.part.openInodes) (hi : s.inodes p = some i)

include hs hp hi

theorem curInode_written_of_not_clobbers (hno : i'.iNo = i.iNo) (h : ¬ Clobbers s i.iNo.toNat)
    (hm : UsedInode s m) :
    curInode (writtenState s fd p d b i' pos) m = curInode (s.grow p d b i') m := by
  refine curInode_writtenState hi hno ?_
  by_contra hcon
  rw [not_or, not_not, not_not] at hcon
  obtain ⟨hmiss, rfl⟩ := hcon
  refine h ⟨?_, hm, hmiss⟩
  by_contra hlt
  rw [Nat.mod_eq_of_lt (by omega), UInt32.ofNat_toNat, hs.cache.findOpenInode_eq hp hi] at hmiss
  cases hmiss

/-- A write that does not hit the record of another inode keeps the state well formed. -/
theorem Grows.fsOk_written (h : Grows s.part s.part.blockBitmap b s.disk d i i' T)
    (hclobber : ¬ Clobbers s i.iNo.toNat) : FsOk (writtenState s fd p d b i' pos) := by
  have hgrown := h.fsOk hs hp hi
  have hd := eqOutside_storeRecord (d := d) (i := i') hgrown.layout
    (show i'.iNo.toNat % 256 < 4096 by omega)
  exact hgrown.congr rfl rfl
    (fun m hm => curInode_written_of_not_clobbers hs hp hi h.iNo hclobber hm)
    fun m hm a => hgrown.slotLba_eq hd hm a

/-- Writing the inode back does not change the slots of the file. -/
theorem Grows.slotLba_written (h : Grows s.part s.part.blockBitmap b s.disk d i i' T) (a : Slot) :
    slotLba (writtenState s fd p d b i' pos).disk i' a = slotLba d i' a := by
  have hgrown := h.fsOk hs hp hi
  have hused : UsedInode (s.grow p d b i') i.iNo.toNat := hs.cache.used p hp i hi
  have hd := eqOutside_storeRecord (d := d) (i := i') hgrown.layout
    (show i'.iNo.toNat % 256 < 4096 by omega)
  have hslot := hgrown.slotLba_eq hd hused a
  rwa [h.curInode_self hs hp hi] at hslot

/-- A file that was appended to keeps its shape. -/
theorem Appended.fileShape (h : Appended s i buf count d b i') (hfree : FreeOnDisk s.part) :
    FileShape (writtenState s fd p d b i' pos).disk i' := by
  have hblock (k : ℕ) : blockLba (writtenState s fd p d b i' pos).disk i' k = blockLba d i' k :=
    h.grows.slotLba_written hs hp hi (.block k)
  obtain ⟨hsize, hmapped⟩ := h.shape hfree
  refine ⟨hsize, hmapped.imp_right fun hall k hk => ?_⟩
  obtain ⟨hne, hle, htable⟩ := hall k hk
  exact ⟨by rwa [hblock], by rwa [hblock], htable⟩

/-- Appending to a file whose record goes to its own place does what it is to do. -/
theorem Appended.appendsTo (h : Appended s i buf count d b i')
    (hclobber : ¬ Clobbers s i.iNo.toNat) :
    AppendsTo s i.iNo.toNat buf count count.toNat (writtenState s fd p d b i' pos) := by
  have hgrown := h.grows.fsOk hs hp hi
  have hself : curInode (s.grow p d b i') i.iNo.toNat = i' := h.grows.curInode_self hs hp hi
  have hused : UsedInode (s.grow p d b i') i.iNo.toNat := hs.cache.used p hp i hi
  have hcur : curInode s i.iNo.toNat = i := hs.cache.curInode_eq hp hi
  have hd : Bytes.EqOutside (inodeTableArea (s.grow p d b i').part) (s.grow p d b i').disk
      (writtenState s fd p d b i' pos).disk :=
    eqOutside_storeRecord (d := d) (i := i') hgrown.layout
      (show i'.iNo.toNat % 256 < 4096 by omega)
  have hwritten {m : ℕ} (hm : UsedInode s m) :
      curInode (writtenState s fd p d b i' pos) m = curInode (s.grow p d b i') m :=
    curInode_written_of_not_clobbers hs hp hi h.grows.iNo hclobber hm
  have hslot (a : Slot) : slotLba (writtenState s fd p d b i' pos).disk i' a = slotLba d i' a :=
    h.grows.slotLba_written hs hp hi a
  have hblock (k : ℕ) : blockLba (writtenState s fd p d b i' pos).disk i' k = blockLba d i' k :=
    hslot (.block k)
  have hbyte {off : ℕ} (h0 : blockLba d i' (off / 512) ≠ 0) :
      fileByte (writtenState s fd p d b i' pos).disk i' off = fileByte d i' off := by
    have h0' : blockLba d (curInode (s.grow p d b i') i.iNo.toNat) (off / 512) ≠ 0 := by
      rwa [hself]
    have := hgrown.fileByte_eq hd hused h0'
    rwa [hself] at this
  have hsize := h.size
  refine ⟨rfl, ?_, ?_, ?_, ?_, ?_, ?_, fun m hm hne => ?_⟩ <;>
    try simp only [hwritten hused, hself, hcur, hslot, hblock]
  · exact hsize
  · intro off hoff
    rw [hbyte (h.covered _ (by omega)), h.old off hoff]
  · intro j hj
    rw [hbyte (h.covered _ (by omega)), h.new j hj]
  · intro k hk
    obtain ⟨j, hj, hset⟩ := h.grows.isBlock (a := .block k) hs hp hi (h.covered k hk)
    exact ⟨j, (isBlock_setBlockBitmap h.grows.alloc.len).mpr hj, hset⟩
  · intro k hk l hl heq
    exact Slot.block.inj (h.grows.slot_inj (a := .block k) (c := .block l) hs hp hi
      (h.covered k hk) heq)
  · intro a
    exact (h.grows.old_or_fresh a).imp_right And.right
  · have hother := h.grows.curInode_of_ne hs hp hi hm.1 hne
    have hslots (a : Slot) : slotLba (writtenState s fd p d b i' pos).disk (curInode s m) a =
        slotLba s.disk (curInode s m) a := by
      rw [← hother, hgrown.slotLba_eq hd hm a, hother]
      exact h.grows.slotLba_of_ne hs hp hi hm hne a
    refine ⟨?_, fun a => ?_, fun a h0 x hx => ?_⟩
    · rw [hwritten hm, hother]
    · rw [hwritten hm, hother, hslots]
    · have htable := hs.not_mem_inodeTableArea hm h0 x hx
      exact (hd x htable).trans (h.grows.disk x (h.grows.not_mem_sectorArea hs hp hi hm hne h0 x hx))

/-- A record stored in the place of another inode changes the blocks of that inode. -/
theorem Appended.not_others (h : Appended s i buf count d b i') (hclobber : Clobbers s i.iNo.toNat)
    {r : Int} : ¬ AppendsTo s i.iNo.toNat buf count r (writtenState s fd p d b i' pos) := by
  intro happends
  obtain ⟨hlarge, hused, hmiss⟩ := hclobber
  have hslots := (happends.others _ hused (by omega)).slots (.block 0)
  rw [curInode_writtenState_clobbered hi h.grows.iNo hmiss] at hslots
  have h0 : slotLba d i' (.block 0) ≠ 0 := h.covered 0 (Nat.zero_le _)
  have hold : slotLba s.disk (curInode s (i.iNo.toNat % 256)) (.block 0) = slotLba d i' (.block 0) := by
    rw [← hslots, slotLba, slotLba, blockLba_of_lt (by omega), blockLba_of_lt (by omega)]
    rfl
  exact h.grows.slot_ne hs hp hi hused (by omega) (hold ▸ h0) hold.symm

/-- When memory and blocks do not run out and the free blocks are sectors of the disk, `file_write`
appends the buffer and changes nothing else exactly if the slots of the inode it fills are empty
and the record it writes back is not that of another inode. -/
theorem fileWrite_appends_iff (hfd : (s.fileTable fd).fdInode = some p) (hshape : FileShape s.disk i)
    (hfit : i.iSize.toNat + count.toNat < 140 * 512) (hm : ∀ n, s.mallocs n = true)
    (hcnt : blocksFor i count ≤ s.part.blockBitmap.freeCnt) (hfree : FreeOnDisk s.part) :
    Exec.Returns (fileWrite fd buf count) s (AppendsTo s i.iNo.toNat buf count) ↔
      EmptySlots i count ∧ ¬ Clobbers s i.iNo.toNat := by
  constructor
  · intro h
    obtain ⟨r, s', hcall, happends⟩ := Exec.returns_iff.mp h
    have hensures : Exec.Ensures (fileWrite fd buf count) s _ :=
      (fileWrite_spec hs hp hi hfd hshape hfit hm hcnt).mono (fun _ _ => id) fun _ _ => trivial
    obtain ⟨hempty, -, d, b, i', rfl, happended⟩ := hensures.of_ok hcall
    exact ⟨hempty, fun hclobber => happended.not_others hs hp hi hclobber happends⟩
  · rintro ⟨hempty, hclobber⟩
    refine (fileWrite_returns hs hp hi hfd hshape hfit hm hcnt hfree hempty).mono ?_
    rintro r s' ⟨rfl, d, b, i', rfl, happended⟩
    exact happended.appendsTo hs hp hi hclobber

end Written

theorem blocksFor_emptyInode (no : UInt32) : blocksFor (emptyInode no) 3 = 1 := by
  have h0 : (emptyInode no).sector 0 = 0 := sector_emptyInode 0
  have hsize : (emptyInode no).iSize.toNat = 0 := rfl
  simp [writtenCnt, grownCnt, h0, hsize]

theorem emptySlots_emptyInode (no count : UInt32) : EmptySlots (emptyInode no) count :=
  fun k _ _ _ => sector_emptyInode k

/-- Three bytes are appended to an empty file with number 5. -/
theorem fileWrite_appends_five : Exec.Returns (fileWrite 3 Bytes.zero 3) (openFileFs (emptyInode 5))
    (AppendsTo (openFileFs (emptyInode 5)) 5 Bytes.zero 3) := by
  have hcnt : blocksFor (emptyInode 5) 3 ≤ (openFileFs (emptyInode 5)).part.blockBitmap.freeCnt := by
    have := freeCnt_openFileFs (emptyInode 5)
    rw [blocksFor_emptyInode]
    omega
  have hfs := fsOk_openFileFs (smallFile_emptyInode 5 (by decide) (by decide))
  have h : Exec.Returns (fileWrite 3 Bytes.zero 3) (openFileFs (emptyInode 5)) _ ↔ _ :=
    fileWrite_appends_iff hfs (p := 0) (List.mem_cons_self ..) rfl rfl fileShape_emptyInode
      (by decide) (fun _ => rfl) hcnt (freeOnDisk_openFileFs _)
  exact h.mpr ⟨emptySlots_emptyInode 5 3, fun hclobber => absurd hclobber.1 (by decide)⟩

/-- Writing to the empty file with number 257 overwrites the record of inode 1, although the state
is well formed and neither memory nor blocks run out. -/
theorem fileWrite_clobbers_one :
    FsOk (openFileFs (emptyInode 257)) ∧ FileShape Bytes.zero (emptyInode 257) ∧
      (∀ n, (openFileFs (emptyInode 257)).mallocs n = true) ∧
      blocksFor (emptyInode 257) 3 ≤ (openFileFs (emptyInode 257)).part.blockBitmap.freeCnt ∧
      ¬ Exec.Returns (fileWrite 3 Bytes.zero 3) (openFileFs (emptyInode 257))
        (AppendsTo (openFileFs (emptyInode 257)) 257 Bytes.zero 3) := by
  have hsmall : SmallFile (emptyInode 257) := smallFile_emptyInode 257 (by decide) (by decide)
  have hfs := fsOk_openFileFs hsmall
  have hcnt : blocksFor (emptyInode 257) 3 ≤
      (openFileFs (emptyInode 257)).part.blockBitmap.freeCnt := by
    have := freeCnt_openFileFs (emptyInode 257)
    rw [blocksFor_emptyInode]
    omega
  have hclobber : Clobbers (openFileFs (emptyInode 257)) 257 := by
    exact ⟨by decide, (usedInode_openFileFs hsmall).mpr (Or.inr (Or.inl rfl)), rfl⟩
  refine ⟨hfs, fileShape_emptyInode, fun _ => rfl, hcnt, fun h => ?_⟩
  obtain ⟨r, s', hcall, happends⟩ := Exec.returns_iff.mp h
  have hensures : Exec.Ensures (fileWrite 3 Bytes.zero 3) (openFileFs (emptyInode 257)) _ :=
    (fileWrite_spec hfs (p := 0) (List.mem_cons_self ..) rfl rfl fileShape_emptyInode (by decide)
      (fun _ => rfl) hcnt).mono (fun _ _ => id) fun _ _ => trivial
  obtain ⟨-, -, d, b, i', rfl, happended⟩ := hensures.of_ok hcall
  exact happended.not_others hfs (p := 0) (List.mem_cons_self ..) rfl hclobber happends

end Winx
