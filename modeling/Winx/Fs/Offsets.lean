import Winx.Fs.OpenEffect
import Winx.Fs.WriteFailures

/-! # What calls do to sizes and positions

Looking up a path keeps the sizes of open inodes, and so does the part of a write
that maps blocks. A new entry makes a directory larger. The writing loop moves the
position along with the size, and the reading loop stops before the size.
-/

namespace Winx

/-- The inodes that are there keep their sizes. -/
structure SizesKept (s s' : Fs) : Prop where
  next : s.nextInode ≤ s'.nextInode
  sb : s'.part.sb = s.part.sb
  size : ∀ p < s.nextInode, ∀ i', s'.inodes p = some i' → ∃ i, s.inodes p = some i ∧
    i'.iSize = i.iSize

/-- Besides the disk, the bitmaps and the blocks of inodes nothing changes. -/
structure Steady (s s' : Fs) : Prop where
  fileTable : s'.fileTable = s.fileTable
  next : s'.nextInode = s.nextInode
  openInodes : s'.part.openInodes = s.part.openInodes
  sb : s'.part.sb = s.part.sb
  size : ∀ p, (s'.inodes p).map Inode.iSize = (s.inodes p).map Inode.iSize

variable {s s' s'' : Fs} {p fd : ℕ} {i : Inode} {f : ℕ → UInt32}

section Relations

theorem SizesKept.trans (h : SizesKept s s') (h' : SizesKept s' s'') : SizesKept s s'' where
  next := h.next.trans h'.next
  sb := h'.sb.trans h.sb
  size p hp i'' hi'' := by
    obtain ⟨i', hi', heq'⟩ := h'.size p (hp.trans_le h.next) i'' hi''
    obtain ⟨i, hi, heq⟩ := h.size p hp i' hi'
    exact ⟨i, hi, heq'.trans heq⟩

theorem sizesKept_setInode {i' : Inode} (hi : s.inodes p = some i) (hsize : i'.iSize = i.iSize) :
    SizesKept s (s.setInode p (some i')) := by
  refine ⟨le_rfl, rfl, fun q _ j hj => ?_⟩
  rw [Fs.setInode_inodes, Function.update_apply] at hj
  split at hj
  · rename_i hq
    obtain rfl := Option.some.inj hj
    exact ⟨i, hq ▸ hi, hsize⟩
  · exact ⟨j, hj, rfl⟩

/-- Looking up a path keeps the sizes. -/
theorem walkClosed_sizesKept : WalkClosed SizesKept where
  refl _ := ⟨le_rfl, rfl, fun _ _ i' h => ⟨i', h, rfl⟩⟩
  trans := SizesKept.trans
  mallocs _ _ := ⟨le_rfl, rfl, fun _ _ i' h => ⟨i', h, rfl⟩⟩
  openCnts _ _ _ _ hi := sizesKept_setInode hi rfl
  insert s i := by
    refine ⟨Nat.le_succ _, rfl, fun q hq j hj => ⟨j, ?_, rfl⟩⟩
    rw [← hj]
    exact (Function.update_of_ne hq.ne _ _).symm
  remove s p := by
    refine ⟨le_rfl, rfl, fun q _ j hj => ⟨j, ?_, rfl⟩⟩
    rw [Fs.setInode_inodes, Function.update_apply] at hj
    split at hj
    · cases hj
    · exact hj
  bumpDir _ := ⟨le_rfl, rfl, fun _ _ i' h => ⟨i', h, rfl⟩⟩
  dirs _ _ := ⟨le_rfl, rfl, fun _ _ i' h => ⟨i', h, rfl⟩⟩

theorem Steady.refl (s : Fs) : Steady s s := ⟨rfl, rfl, rfl, rfl, fun _ => rfl⟩

theorem Steady.trans (h : Steady s s') (h' : Steady s' s'') : Steady s s'' where
  fileTable := h'.fileTable.trans h.fileTable
  next := h'.next.trans h.next
  openInodes := h'.openInodes.trans h.openInodes
  sb := h'.sb.trans h.sb
  size p := (h'.size p).trans (h.size p)

theorem Steady.inode (h : Steady s s') {i' : Inode} (hi' : s'.inodes p = some i') :
    ∃ i, s.inodes p = some i ∧ i'.iSize = i.iSize := by
  have hsize := h.size p
  rw [hi', Option.map_some] at hsize
  obtain ⟨i, hi, heq⟩ := Option.map_eq_some_iff.mp hsize.symm
  exact ⟨i, hi, heq.symm⟩

theorem Steady.kept (h : Steady s s') : SizesKept s s' :=
  ⟨h.next.ge, h.sb, fun _ _ _ hi' => h.inode hi'⟩

theorem Steady.bind {α β : Type} {m : FsM α} {f : α → FsM β}
    (hm : Exec.Ensures m s fun _ s' => Steady s s')
    (hf : ∀ a s', Steady s s' → Exec.Ensures (f a) s' fun _ s'' => Steady s' s'') :
    Exec.Ensures (m >>= f) s fun _ s' => Steady s s' :=
  Exec.Post.bind hm fun a s' h => (hf a s' h).mono fun _ _ h' => h.trans h'

theorem Steady.of_same {α : Type} {m : FsM α} (h : Exec.Ensures m s fun _ s' => s' = s) :
    Exec.Ensures m s fun _ s' => Steady s s' :=
  h.mono fun _ _ h => h ▸ Steady.refl s

theorem steady_setInode (i' : Inode) (hi : s.inodes p = some i) (hsize : i'.iSize = i.iSize) :
    Steady s (s.setInode p (some i')) := by
  refine ⟨rfl, rfl, rfl, rfl, fun q => ?_⟩
  rw [Fs.setInode_inodes, Function.update_apply]
  split
  · rename_i hq
    rw [hq, hi, Option.map_some, Option.map_some, hsize]
  · rfl

end Relations

section Writing

theorem ideWrite_steady (lba : UInt32) (buf : Bytes) (n : ℕ) :
    Exec.Ensures (ideWrite lba buf n) s fun _ s' => Steady s s' := by
  rw [Exec.Ensures, post_ideWrite]
  exact ⟨fun _ => ⟨rfl, rfl, rfl, rfl, fun _ => rfl⟩, fun _ => trivial⟩

theorem bitmapSync_steady (bitIdx : UInt32) (btmpType : BitmapType) :
    Exec.Ensures (bitmapSync bitIdx btmpType) s fun _ s' => Steady s s' := by
  rw [Exec.Ensures, bitmapSync, Exec.post_bind, Exec.post_get]
  cases btmpType <;> exact ideWrite_steady _ _ _

theorem blockBitmapAlloc_steady : Exec.Ensures blockBitmapAlloc s fun _ s' => Steady s s' := by
  rw [Exec.Ensures, blockBitmapAlloc, Exec.post_bind, Exec.post_get]
  split
  · exact Steady.refl s
  · exact ⟨rfl, rfl, rfl, rfl, fun _ => rfl⟩

theorem inodeBitmapAlloc_steady : Exec.Ensures inodeBitmapAlloc s fun _ s' => Steady s s' := by
  rw [Exec.Ensures, inodeBitmapAlloc, Exec.post_bind, Exec.post_get]
  split
  · exact Steady.refl s
  · exact ⟨rfl, rfl, rfl, rfl, fun _ => rfl⟩

theorem clearBlockBit_steady (bitIdx : UInt32) :
    Exec.Ensures (clearBlockBit bitIdx) s fun _ s' => Steady s s' := by
  simp only [Exec.Ensures, clearBlockBit, Exec.post_bind, Exec.post_get, post_inBounds,
    Exec.post_set, implies_true, and_true]
  exact fun _ => ⟨rfl, rfl, rfl, rfl, fun _ => rfl⟩

theorem clearInodeBit_steady (bitIdx : UInt32) :
    Exec.Ensures (clearInodeBit bitIdx) s fun _ s' => Steady s s' := by
  simp only [Exec.Ensures, clearInodeBit, Exec.post_bind, Exec.post_get, post_inBounds,
    Exec.post_set, implies_true, and_true]
  exact fun _ => ⟨rfl, rfl, rfl, rfl, fun _ => rfl⟩

theorem steady_tick (s : Fs) : Steady s s.tick := ⟨rfl, rfl, rfl, rfl, fun _ => rfl⟩

theorem inodeSync_steady (inode : Inode) :
    Exec.Ensures (inodeSync inode) s fun _ s' => Steady s s' := by
  refine Steady.bind (Steady.of_same (by simp)) fun part s₁ _ => ?_
  refine Steady.bind (Steady.of_same (by simp)) fun inodePos s₂ _ => ?_
  refine Steady.bind (Steady.of_same (by simp)) fun _ s₃ _ => ?_
  refine Steady.bind ?_ fun _ s₄ _ => ?_
  · simp only [Exec.Ensures, sysMallocUnchecked, Exec.post_bind, post_sysMalloc, Exec.post_ite,
      Exec.post_pure, Exec.post_throw, implies_true, and_true]
    exact fun _ => steady_tick s₃
  · refine Steady.bind (Steady.of_same (by simp)) fun inodeBuf s₅ _ => ?_
    exact ideWrite_steady _ _ _

/-- Storing to an inode a copy of it with another block. -/
theorem storeSector_steady {k : ℕ} {lba : UInt32}
    (hi : (s.inodes p).map Inode.iSize = some i.iSize) :
    Exec.Ensures (storeInode p (i.setSector k lba)) s fun _ s' => Steady s s' := by
  obtain ⟨j, hj, heq⟩ := Option.map_eq_some_iff.mp hi
  exact steady_setInode _ hj heq.symm

/-- A directory has got an entry more. -/
def OneMore (s s' : Fs) : Prop :=
  ∃ t, Steady s t ∧ (s' = t ∨ ∃ p i, t.inodes p = some i ∧
    s' = t.setInode p (some { i with iSize := i.iSize + t.part.sb.dirEntrySize }))

theorem Steady.oneMore (h : Steady s s') : OneMore s s' := ⟨s', h, .inl rfl⟩

theorem OneMore.of_steady (h : Steady s s') (h' : OneMore s' s'') : OneMore s s'' := by
  obtain ⟨t, ht, hend⟩ := h'
  exact ⟨t, h.trans ht, hend⟩

theorem growDir_oneMore : Exec.Ensures (growDir p) s fun _ s' => OneMore s s' := by
  simp only [Exec.Ensures, growDir, derefInode, storeInode, Exec.post_bind, Exec.post_get,
    post_deref, Exec.post_modify, implies_true, and_true]
  exact fun i hi => ⟨s, .refl s, .inr ⟨p, i, hi, rfl⟩⟩

theorem writeFirstEntry_oneMore (lba : UInt32) (pde : DirEntry) :
    Exec.Ensures (writeFirstEntry p lba pde) s fun _ s' => OneMore s s' := by
  rw [Exec.Ensures, writeFirstEntry, Exec.post_bind, Exec.post_get]
  refine Exec.Post.bind (ideWrite_steady _ _ _) fun _ s₁ h₁ => ?_
  refine Exec.Post.bind growDir_oneMore fun _ s₂ h₂ => ?_
  exact .of_steady h₁ h₂

theorem extendDir_oneMore (pde : DirEntry) (blockIdx : ℕ) (allBlocks : ℕ → UInt32) :
    Exec.Ensures (extendDir p pde blockIdx allBlocks) s fun _ s' => OneMore s s' := by
  rw [Exec.Ensures, extendDir, Exec.post_bind, Exec.post_get]
  refine Exec.Post.bind blockBitmapAlloc_steady fun block s₁ h₁ => ?_
  cases block with
  | none => exact h₁.oneMore
  | some blockLba =>
    refine Exec.Post.bind (bitmapSync_steady _ _) fun _ s₂ h₂ => ?_
    refine Exec.Post.bind derefInode_same fun dirInode s₃ h => ?_
    obtain ⟨rfl, hi⟩ := h
    have hsize : (s₃.inodes p).map Inode.iSize = some dirInode.iSize := by
      rw [hi, Option.map_some]
    have h₃ := h₁.trans h₂
    split
    · refine Exec.Post.bind (storeSector_steady hsize) fun _ s₄ h₄ => ?_
      exact (writeFirstEntry_oneMore _ _).mono fun _ _ h => .of_steady (h₃.trans h₄) h
    · split
      · refine Exec.Post.bind (storeSector_steady hsize) fun _ s₄ h₄ => ?_
        refine Exec.Post.bind blockBitmapAlloc_steady fun first s₅ h₅ => ?_
        cases first with
        | none =>
          refine Exec.Post.bind (clearBlockBit_steady _) fun _ s₆ h₆ => ?_
          refine Exec.Post.bind (storeSector_steady ?_) fun _ s₇ h₇ => ?_
          · rw [((h₄.trans h₅).trans h₆).size, hsize]
          · exact ((((h₃.trans h₄).trans h₅).trans h₆).trans h₇).oneMore
        | some firstLba =>
          refine Exec.Post.bind (bitmapSync_steady _ _) fun _ s₆ h₆ => ?_
          refine Exec.Post.bind (ideWrite_steady _ _ _) fun _ s₇ h₇ => ?_
          exact (writeFirstEntry_oneMore _ _).mono fun _ _ h =>
            .of_steady ((((h₃.trans h₄).trans h₅).trans h₆).trans h₇) h
      · refine Exec.Post.bind (ideWrite_steady _ _ _) fun _ s₄ h₄ => ?_
        exact (writeFirstEntry_oneMore _ _).mono fun _ _ h => .of_steady (h₃.trans h₄) h

theorem syncBlocks_oneMore (pde : DirEntry) (allBlocks : ℕ → UInt32) (n blockIdx : ℕ) :
    Exec.Ensures (syncBlocks p pde allBlocks n blockIdx) s fun _ s' => OneMore s s' := by
  induction n generalizing blockIdx with
  | zero => exact (Steady.refl s).oneMore
  | succ n ih =>
    rw [Exec.Ensures, syncBlocks, Exec.post_bind, Exec.post_get]
    split
    · exact extendDir_oneMore _ _ _
    · rw [Exec.post_bind, post_ideRead]
      refine ⟨fun _ => ?_, fun _ => trivial⟩
      split
      · refine Exec.Post.bind (ideWrite_steady _ _ _) fun _ s₁ h₁ => ?_
        refine Exec.Post.bind growDir_oneMore fun _ s₂ h₂ => ?_
        exact .of_steady h₁ h₂
      · exact ih _

/-- Writing an entry to a directory makes it larger, and nothing else. -/
theorem syncDirEntry_oneMore (parentDir : DirPtr) (pde : DirEntry) :
    Exec.Ensures (syncDirEntry parentDir pde) s fun _ s' => OneMore s s' := by
  rw [Exec.Ensures, syncDirEntry, Exec.post_bind, Exec.post_get]
  refine Exec.Post.bind (derefDir_same _) fun dir s₁ h₁ => ?_
  subst h₁
  refine Exec.Post.bind derefInode_same fun inode s₂ h₂ => ?_
  obtain ⟨rfl, -⟩ := h₂
  rw [Exec.post_bind, post_assert]
  exact ⟨fun _ => syncBlocks_oneMore _ _ _ _, fun _ => trivial⟩

end Writing

section Mapping

variable {count : UInt32}

theorem mapNewBlocks_steady (n lo : ℕ) (f : ℕ → UInt32) :
    Exec.Ensures (mapNewBlocks p n lo f) s fun _ s' => Steady s s' := by
  induction n generalizing s lo f with
  | zero => exact Steady.refl s
  | succ n ih =>
    rw [mapNewBlocks]
    refine Steady.bind (Steady.of_same (by simp)) fun _ s₁ _ => ?_
    refine Steady.bind blockBitmapAlloc_steady fun block s₂ _ => ?_
    cases block with
    | none => exact Steady.refl s₂
    | some blockLba =>
      have hrest (bitIdx : UInt32) (s₃ : Fs) : Exec.Ensures (do
          bitmapSync bitIdx .blockBitmap
          mapNewBlocks p n (lo + 1) (Function.update f lo blockLba)) s₃ fun _ s' => Steady s₃ s' :=
        Steady.bind (bitmapSync_steady _ _) fun _ s₄ _ => ih _ _
      dsimp only
      split
      · refine Exec.Post.bind derefInode_same fun inode s₃ h => ?_
        obtain ⟨rfl, hi⟩ := h
        refine Steady.bind (Steady.of_same (by simp)) fun _ s₄ h₄ => ?_
        refine Steady.bind (storeSector_steady ?_) fun _ s₅ _ => hrest _ s₅
        rw [h₄.size, hi, Option.map_some]
      · exact hrest _ s₂

theorem mapBlocks_steady (used will : ℕ) :
    Exec.Ensures (mapBlocks p used will) s fun _ s' => Steady s s' := by
  rw [mapBlocks]
  refine Exec.Post.bind derefInode_same fun inode s₁ h => ?_
  obtain ⟨rfl, hi⟩ := h
  split
  · dsimp only
    split
    · exact mapNewBlocks_steady _ _ _
    · trivial
  · split
    · refine Steady.bind blockBitmapAlloc_steady fun block s₂ h₂ => ?_
      cases block with
      | none => exact Steady.refl s₂
      | some blockLba =>
        refine Steady.bind (Steady.of_same (by simp)) fun _ s₃ h₃ => ?_
        refine Steady.bind (storeSector_steady ?_) fun _ s₄ _ => ?_
        · rw [(h₂.trans h₃).size, hi, Option.map_some]
        · refine Steady.bind (mapNewBlocks_steady _ _ _) fun r s₅ _ => ?_
          cases r with
          | none => exact Steady.refl s₅
          | some g => exact Steady.bind (ideWrite_steady _ _ _) fun _ s₆ _ => Steady.refl s₆
    · refine Steady.bind (Steady.of_same (by simp)) fun _ s₂ _ => ?_
      refine Steady.bind (Steady.of_same (by simp)) fun g s₃ _ => ?_
      refine Steady.bind (mapNewBlocks_steady _ _ _) fun r s₄ _ => ?_
      cases r with
      | none => exact Steady.refl s₄
      | some g => exact Steady.bind (ideWrite_steady _ _ _) fun _ s₆ _ => Steady.refl s₆

theorem mapFirstBlock_steady : Exec.Ensures (mapFirstBlock p) s fun _ s' => Steady s s' := by
  rw [mapFirstBlock]
  refine Exec.Post.bind derefInode_same fun inode s₁ h => ?_
  obtain ⟨rfl, hi⟩ := h
  split
  · refine Steady.bind (Steady.of_same (by simp)) fun _ s₂ h₂ => ?_
    refine Steady.bind blockBitmapAlloc_steady fun block s₃ h₃ => ?_
    cases block with
    | none => exact Steady.refl s₃
    | some blockLba =>
      refine Steady.bind (storeSector_steady ?_) fun _ s₄ _ => ?_
      · rw [(h₂.trans h₃).size, hi, Option.map_some]
      · exact Steady.bind (bitmapSync_steady _ _) fun _ s₅ _ => Steady.refl s₅
  · exact Steady.refl s₁

theorem mapForWrite_steady (count : UInt32) :
    Exec.Ensures (mapForWrite p count) s fun _ s' => Steady s s' := by
  rw [mapForWrite]
  refine Steady.bind (Steady.of_same (by simp [derefInode])) fun inode s₁ _ => ?_
  dsimp only
  split
  · exact Steady.refl s₁
  · split
    · refine Steady.of_same ?_
      simp only [Exec.Ensures, Exec.post_map, mapLastBlock, derefInode, Exec.post_bind, Exec.post_get,
        post_deref, Exec.post_ite, Exec.post_pure, post_readTable, implies_true, and_true]
    · exact mapBlocks_steady _ _

/-- Mapping the blocks of a write moves nothing. -/
theorem fileWritePrepare_steady (count : UInt32) :
    Exec.Ensures (fileWritePrepare p count) s fun _ s' => Steady s s' := by
  have htick (s : Fs) : Exec.Ensures sysMalloc s fun _ s' => Steady s s' := by
    rw [Exec.Ensures, post_sysMalloc]
    exact steady_tick s
  rw [fileWritePrepare]
  refine Steady.bind (Steady.of_same (by simp [derefInode])) fun inode s₁ _ => ?_
  split
  · exact Steady.refl s₁
  · refine Steady.bind (htick _) fun ok s₂ _ => ?_
    split
    · refine Steady.bind (htick _) fun ok s₃ _ => ?_
      split
      · refine Steady.bind mapFirstBlock_steady fun mapped s₄ _ => ?_
        split
        · exact mapForWrite_steady _
        · exact Steady.refl s₄
      · exact Steady.refl s₃
    · exact Steady.refl s₂

end Mapping

section WritingLoop

variable {count c c' : UInt32} {d d' buf : Bytes}

/-- The state when `c` more bytes are in the file, with disk `d`. -/
def grownBy (s : Fs) (fd p : ℕ) (i : Inode) (d : Bytes) (c : UInt32) : Fs :=
  ((s.setDisk d).setInode p (some { i with iSize := i.iSize + c })).setFile fd
    { s.fileTable fd with fdPos := (s.fileTable fd).fdPos + c }

theorem grownBy_zero (hi : s.inodes p = some i) : grownBy s fd p i s.disk 0 = s := by
  have hinode : Function.update s.inodes p (some i) = s.inodes := by
    rw [← hi, Function.update_eq_self]
  rw [grownBy, UInt32.add_zero, UInt32.add_zero]
  simp [Fs.setFile, Fs.setInode, Fs.setDisk, hinode]

theorem grownBy_inode : (grownBy s fd p i d c).inodes p =
    some { i with iSize := i.iSize + c } := Function.update_self ..

theorem grownBy_grownBy : grownBy (grownBy s fd p i d c) fd p { i with iSize := i.iSize + c } d' c' =
    grownBy s fd p i d' (c + c') := by
  simp [grownBy, Fs.setFile, Fs.setInode, Fs.setDisk, UInt32.add_assoc]

/-- A turn of the writing loop moves the position along with the size. -/
theorem writeChunk_grown (hi : s.inodes p = some i) (w : WriteLoop) :
    Exec.Ensures (writeChunk fd p f buf w) s fun w' s' => ∃ d c, s' = grownBy s fd p i d c ∧
      w'.bytesWritten = w.bytesWritten + c ∧ i.iSize.toNat + c.toNat ≤ 140 * 512 := by
  have hchunk := toNat_chunkSize i.iSize w.sizeLeft
  have hsec : chunkSize i.iSize.toNat w.sizeLeft.toNat ≤ 512 - i.iSize.toNat % 512 :=
    min_le_right _ _
  simp only [writeChunk, derefInode, storeInode, allBlocksAt, Exec.Ensures, Exec.post_bind,
    Exec.post_get, post_deref, post_inBounds, Exec.post_pure, post_ideRead, post_ideWrite,
    Exec.post_modify, Exec.post_ite, hi, Option.some.injEq, forall_eq', toNat_div_512, implies_true,
    and_true]
  generalize (if w.sizeLeft < 512 - i.iSize % 512 then w.sizeLeft else 512 - i.iSize % 512) = c
    at hchunk ⊢
  exact fun hidx => ⟨fun _ _ _ => ⟨_, c, rfl, rfl, by omega⟩, fun _ _ => ⟨_, c, rfl, rfl, by omega⟩⟩

/-- The writing loop writes what it counts, below 140 blocks. -/
theorem writeLoop_grown (fuel : ℕ) {w : WriteLoop} (hi : s.inodes p = some i) :
    Exec.Ensures (writeLoop fd p f buf count fuel w) s fun w' s' => ∃ d c,
      s' = grownBy s fd p i d c ∧ w'.bytesWritten = w.bytesWritten + c ∧
        (c = 0 ∨ i.iSize.toNat + c.toNat ≤ 140 * 512) ∧ ¬ w'.bytesWritten < count := by
  induction fuel generalizing s i w with
  | zero =>
    rw [writeLoop]
    split
    · trivial
    · rename_i hstop
      exact ⟨s.disk, 0, (grownBy_zero hi).symm, (UInt32.add_zero _).symm, .inl rfl, hstop⟩
  | succ fuel ih =>
    rw [writeLoop]
    split
    · refine Exec.Post.bind (writeChunk_grown hi w) fun w₁ s₁ h₁ => ?_
      obtain ⟨d, c, rfl, hw₁, hmax⟩ := h₁
      refine (ih grownBy_inode).mono fun w₂ s₂ h₂ => ?_
      obtain ⟨d', c', rfl, hw₂, hmax', hstop⟩ := h₂
      have hsize : (i.iSize + c).toNat = i.iSize.toNat + c.toNat := Word.toNat_add (by omega)
      refine ⟨d', c + c', grownBy_grownBy, by rw [hw₂, hw₁, UInt32.add_assoc], .inr ?_, hstop⟩
      rcases hmax' with rfl | hmax'
      · rwa [UInt32.add_zero]
      · rw [hsize] at hmax'
        rw [Word.toNat_add (by omega)]
        omega
    · rename_i hstop
      exact ⟨s.disk, 0, (grownBy_zero hi).symm, (UInt32.add_zero _).symm, .inl rfl, hstop⟩

/-- What `file_write` leaves when it wrote to a file: the position is one less than the size. -/
structure Written (fd : ℕ) (count : UInt32) (s s' : Fs) (p : ℕ) (i i' : Inode) : Prop where
  file : (s.fileTable fd).fdInode = some p
  old : s.inodes p = some i
  new : s'.inodes p = some i'
  size : i.iSize.toNat + count.toNat ≤ i'.iSize.toNat
  fileTable : s'.fileTable =
    Function.update s.fileTable fd { s.fileTable fd with fdPos := i'.iSize - 1 }
  next : s'.nextInode = s.nextInode
  openInodes : s'.part.openInodes = s.part.openInodes
  others : ∀ q, q ≠ p → (s'.inodes q).map Inode.iSize = (s.inodes q).map Inode.iSize

/-- `file_write` writes `count` bytes: it does not refuse them, nor run into a fault. -/
structure WriteGoes (s : Fs) (i : Inode) (count : UInt32) : Prop where
  fits : i.iSize.toNat + count.toNat < 140 * 512
  memory : s.mallocs 0 = true ∧ s.mallocs 1 = true
  blocks : blocksFor i count ≤ s.part.blockBitmap.freeCnt

/-- The blocks of a write whose end does not wrap around are mapped exactly if it goes through. -/
theorem fileWritePrepare_goes (hi : s.inodes p = some i)
    (hfit : i.iSize.toNat + count.toNat < 2 ^ 32) :
    Exec.Ensures (fileWritePrepare p count) s fun r _ => r ≠ none ↔ WriteGoes s i count := by
  have hmax : (512 * 140 : UInt32).toNat = 140 * 512 := rfl
  have hrefused {r : Option (ℕ → UInt32)} (hr : r = none) (hgoes : ¬ WriteGoes s i count) :
      r ≠ none ↔ WriteGoes s i count :=
    ⟨fun h => absurd hr h, fun h => absurd h hgoes⟩
  by_cases hm : s.mallocs 0 = true ∧ s.mallocs 1 = true
  · rcases Nat.lt_trichotomy (i.iSize.toNat + count.toNat) (140 * 512) with hlt | heq | hgt
    · refine (fileWritePrepare_takes hi hlt hm).mono fun r s' h => ?_
      cases r with
      | none => exact hrefused rfl fun hgoes => absurd hgoes.blocks (not_le.mpr h.2)
      | some f =>
        have hcnt : s'.part.blockBitmap.freeCnt + blocksFor i count =
            s.part.blockBitmap.freeCnt := h
        exact ⟨fun _ => ⟨hlt, hm, by omega⟩, fun _ => nofun⟩
    · exact (fileWritePrepare_limit hi heq hm).mono fun r _ h =>
        hrefused h.1 fun hgoes => hgoes.fits.ne heq
    · refine (fileWritePrepare_early hi (.inr ?_)).mono fun r _ h =>
        hrefused h.1 fun hgoes => absurd hgoes.fits (not_lt.mpr hgt.le)
      rw [gt_iff_lt, UInt32.lt_iff_toNat_lt, Word.toNat_add hfit, hmax]
      exact hgt
  · exact (fileWritePrepare_early hi (.inl hm)).mono fun r _ h =>
      hrefused h.1 fun hgoes => hm hgoes.memory

/-- `file_write` refuses and moves nothing, or it leaves the position one before the size. -/
theorem fileWrite_written : Exec.Ensures (fileWrite fd buf count) s fun r s' =>
    (r = -1 ∧ Steady s s' ∧ ∀ p i, (s.fileTable fd).fdInode = some p → s.inodes p = some i →
      ¬ WriteGoes s i count) ∨
    0 ≤ r ∧ ∃ p i i', Written fd count s s' p i i' ∧ WriteGoes s i count := by
  rw [fileWrite, Exec.Ensures, Exec.post_bind, Exec.post_get, Exec.post_bind, post_deref]
  refine ⟨fun p hfile => ?_, fun _ => trivial⟩
  cases hi : s.inodes p with
  | none => simp [fileWritePrepare, derefInode, hi, deref]
  | some i =>
    have hgoes : Exec.Ensures (fileWritePrepare p count) s fun r _ =>
        i.iSize.toNat + count.toNat < 2 ^ 32 → (r ≠ none ↔ WriteGoes s i count) := by
      by_cases hfit : i.iSize.toNat + count.toNat < 2 ^ 32
      · exact (fileWritePrepare_goes hi hfit).mono fun r _ h _ => h
      · exact Exec.ensures_iff.mpr fun _ _ _ h => absurd h hfit
    refine Exec.Post.bind ((fileWritePrepare_steady count).and hgoes) fun r s₁ h₁ => ?_
    obtain ⟨hsteady, hgoes⟩ := h₁
    cases r with
    | none =>
      refine .inl ⟨rfl, hsteady, fun q j hq hj hwrite => ?_⟩
      obtain rfl : p = q := Option.some.inj (hfile.symm.trans hq)
      obtain rfl : i = j := Option.some.inj (hi.symm.trans hj)
      exact (hgoes (hwrite.fits.trans (by decide))).mpr hwrite rfl
    | some f =>
      refine Exec.Post.bind derefInode_same fun j s₂ h₂ => ?_
      obtain ⟨rfl, hj⟩ := h₂
      have hsize : j.iSize = i.iSize := by
        obtain ⟨i₀, hi₀, heq⟩ := hsteady.inode hj
        rw [hi] at hi₀
        rw [heq, Option.some.inj hi₀]
      rw [Exec.post_bind, Exec.post_modify]
      refine Exec.Post.bind (writeLoop_grown (i := j) _ hj) fun w s₃ h₃ => ?_
      obtain ⟨d, c, rfl, hw, hmax, hstop⟩ := h₃
      rw [UInt32.zero_add] at hw
      rw [hw, UInt32.lt_iff_toNat_lt, not_lt] at hstop
      have hfits : c.toNat ≤ 140 * 512 ∧ j.iSize.toNat + c.toNat < 2 ^ 32 := by
        have hlt := j.iSize.toNat_lt
        rcases hmax with rfl | hmax
        · rw [UInt32.toNat_zero]
          omega
        · omega
      refine Exec.Post.bind derefInode_same fun j' s₄ h₄ => ?_
      obtain ⟨rfl, hj'⟩ := h₄
      obtain rfl : _ = j' := Option.some.inj (grownBy_inode.symm.trans hj')
      refine Exec.Post.bind (inodeSync_steady _) fun _ s₅ h₅ => ?_
      obtain ⟨hgrown, hpos⟩ : (j.iSize + c).toNat = j.iSize.toNat + c.toNat ∧
          j.iSize - 1 + c = j.iSize + c - 1 := ⟨Word.toNat_add hfits.2, by grind⟩
      have hnew := h₅.size p
      rw [grownBy_inode, Option.map_some] at hnew
      obtain ⟨i', hi', heq⟩ := Option.map_eq_some_iff.mp hnew
      have heq : i'.iSize = j.iSize + c := heq
      refine .inr ⟨?_, p, i, i', ⟨hfile, hi, hi', ?_, ?_, ?_, ?_, fun q hq => ?_⟩, ?_⟩
      · rw [hw, toI32, if_pos (by omega)]
        omega
      · rw [heq, hgrown, hsize]
        omega
      · rw [h₅.fileTable, heq, ← hpos, ← hsteady.fileTable]
        simp [grownBy]
      · exact h₅.next.trans hsteady.next
      · exact h₅.openInodes.trans hsteady.openInodes
      · rw [h₅.size q, ← hsteady.size q]
        simp [grownBy, hq]
      · refine (hgoes ?_).mp (by simp)
        rw [← hsize]
        omega

end WritingLoop

section ReadingLoop

variable {count size pos : UInt32} {buf : Bytes}

/-- The state when the position is `pos`. -/
def movedTo (s : Fs) (fd : ℕ) (pos : UInt32) : Fs :=
  s.setFile fd { s.fileTable fd with fdPos := pos }

theorem movedTo_self : movedTo s fd (s.fileTable fd).fdPos = s := by
  simp [movedTo, Fs.setFile]

/-- The reading loop moves on by what is left to read. -/
theorem readLoop_moved (fuel : ℕ) {r : ReadLoop}
    (hsum : r.bytesRead.toNat + r.sizeLeft.toNat = size.toNat)
    (hfit : (s.fileTable fd).fdPos.toNat + r.sizeLeft.toNat < 2 ^ 32) :
    Exec.Ensures (readLoop fd f size fuel r) s fun _ s' =>
      ∃ pos, s' = movedTo s fd pos ∧
        pos.toNat = (s.fileTable fd).fdPos.toNat + r.sizeLeft.toNat := by
  have hdone (hstop : ¬ r.bytesRead < size) : ∃ pos, s = movedTo s fd pos ∧
      pos.toNat = (s.fileTable fd).fdPos.toNat + r.sizeLeft.toNat := by
    rw [UInt32.lt_iff_toNat_lt] at hstop
    exact ⟨_, movedTo_self.symm, by omega⟩
  induction fuel generalizing s r with
  | zero =>
    rw [readLoop]
    split
    · trivial
    · rename_i hstop
      exact hdone hstop
  | succ fuel ih =>
    rw [readLoop]
    split
    · have hchunk := toNat_chunkSize (s.fileTable fd).fdPos r.sizeLeft
      have hle : chunkSize (s.fileTable fd).fdPos.toNat r.sizeLeft.toNat ≤ r.sizeLeft.toNat :=
        min_le_left _ _
      simp only [readChunk, allBlocksAt, Exec.post_bind, Exec.post_get, post_inBounds,
        Exec.post_pure, post_ideRead, Exec.post_modify]
      refine ⟨fun _ => ⟨fun _ => ?_, fun _ => trivial⟩, fun _ => trivial⟩
      generalize (if r.sizeLeft < 512 - (s.fileTable fd).fdPos % 512 then r.sizeLeft
        else 512 - (s.fileTable fd).fdPos % 512) = c at hchunk ⊢
      have hpos : ((s.fileTable fd).fdPos + c).toNat = (s.fileTable fd).fdPos.toNat + c.toNat :=
        Word.toNat_add (by omega)
      have hleft : (r.sizeLeft - c).toNat = r.sizeLeft.toNat - c.toNat := Word.toNat_sub (by omega)
      have hread : (r.bytesRead + c).toNat = r.bytesRead.toNat + c.toNat :=
        Word.toNat_add (by have := size.toNat_lt; omega)
      refine (ih (s := movedTo s fd ((s.fileTable fd).fdPos + c)) ?_ ?_ ?_).mono fun r' s' h => ?_
      · rw [hread, hleft]
        omega
      · simp only [movedTo, Fs.setFile_fileTable, Function.update_self]
        rw [hpos, hleft]
        omega
      · intro hstop
        rw [UInt32.lt_iff_toNat_lt, hread] at hstop
        exact ⟨_, movedTo_self.symm, by rw [hleft]; omega⟩
      · obtain ⟨pos, rfl, hend⟩ := h
        refine ⟨pos, by simp [movedTo], ?_⟩
        rw [hend, hleft]
        simp only [movedTo, Fs.setFile_fileTable, Function.update_self]
        rw [hpos]
        omega
    · rename_i hstop
      exact hdone hstop

/-- A clamped read of a count that does not wrap around moves on by it. One that wraps around never
comes back. -/
theorem fileReadClamped_moved :
    Exec.Ensures (fileReadClamped fd i buf size) s fun _ s' => ∃ pos m,
      s' = (movedTo s fd pos).withMallocs m ∧ (pos = (s.fileTable fd).fdPos ∨
        pos.toNat = (s.fileTable fd).fdPos.toNat + size.toNat) := by
  simp only [fileReadClamped, Exec.Ensures, Exec.post_bind, Exec.post_get, post_sysMalloc,
    Exec.post_ite, post_assert, Exec.post_pure, Fs.tick_mallocs, implies_true, and_true]
  refine ⟨fun _ hassert => ?_, fun _ => ⟨_, s.tick.tick.mallocs, by rw [movedTo_self]; rfl, .inl rfl⟩⟩
  refine (readBlocks_state (s := s.tick.tick)).mono fun allBlocks s' h => ?_
  subst h
  intro _
  rcases Nat.lt_or_ge ((s.fileTable fd).fdPos.toNat + size.toNat) (2 ^ 32) with hfit | hwrap
  · refine (readLoop_moved (s := s.tick.tick) (r := ⟨buf, 0, 0, size⟩) _ (Nat.zero_add _) hfit).mono
      fun r s' h => ?_
    obtain ⟨pos, rfl, hpos⟩ := h
    exact ⟨pos, s.tick.tick.mallocs, rfl, .inr hpos⟩
  · have hstart := UInt32.lt_iff_toNat_lt.mp hassert.1
    rw [toNat_div_512] at hstart
    simp only [UInt32.reduceToNat] at hstart
    exact (readLoop_overrun (s := s.tick.tick) (by omega) _ (Nat.zero_le _) (by
      change (s.fileTable fd).fdPos.toNat ≤ _
      omega)).mono fun _ _ => False.elim

/-- `file_read` moves the position within the file. -/
theorem fileRead_moved : Exec.Ensures (fileRead fd buf count) s fun _ s' => ∃ pos m p i,
    s' = (movedTo s fd pos).withMallocs m ∧ (s.fileTable fd).fdInode = some p ∧
      s.inodes p = some i ∧
      ((s.fileTable fd).fdPos.toNat ≤ i.iSize.toNat → pos.toNat ≤ i.iSize.toNat) := by
  rw [fileRead, Exec.Ensures, Exec.post_bind, Exec.post_get, Exec.post_bind, post_deref]
  refine ⟨fun p hfile => ?_, fun _ => trivial⟩
  refine Exec.Post.bind derefInode_same fun i s₁ h => ?_
  obtain ⟨rfl, hi⟩ := h
  dsimp only
  generalize hsize : (if (s₁.fileTable fd).fdPos + count > i.iSize then
    i.iSize - (s₁.fileTable fd).fdPos else count) = size
  refine Exec.post_ite.mpr ⟨fun _ => ?_, fun _ => ?_⟩
  · exact ⟨_, s₁.mallocs, p, i, by rw [movedTo_self]; rfl, hfile, hi, id⟩
  · refine Exec.Ensures.mono fileReadClamped_moved fun r s' h => ?_
    obtain ⟨pos, m, rfl, hpos⟩ := h
    refine ⟨pos, m, p, i, rfl, hfile, hi, fun hin => ?_⟩
    rcases hpos with rfl | hpos
    · exact hin
    · have hlt := pos.toNat_lt
      split at hsize
      · rw [hpos, ← hsize, Word.toNat_sub hin]
        omega
      · rename_i hle
        rw [gt_iff_lt, UInt32.lt_iff_toNat_lt, not_lt, hsize, Word.toNat_add (by omega)] at hle
        omega

end ReadingLoop

end Winx
