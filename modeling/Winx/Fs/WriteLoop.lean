import Winx.Fs.Frame
import Winx.Fs.ReadLoop

/-! # The writing loop

The loop of `file_write` fills the blocks of the file in order. The first turn
keeps what the last sector of the file held before its end, the others start at
a sector boundary. Past the 140 blocks of `all_blocks` the loop faults, so it
never comes back from a count that reaches there.
-/

namespace Winx

variable {s : Fs} {i : Inode} {f : ℕ → UInt32} {buf d d₀ : Bytes} {fd p size total b : ℕ}

/-- Where the byte at an offset of the file lies on the disk. -/
def fileAddr (f : ℕ → UInt32) (off : ℕ) : ℕ := (f (off / 512)).toNat * 512 + off % 512

/-- The disk after `b` bytes of the buffer were written from offset `size` on. -/
structure Filled (f : ℕ → UInt32) (buf : Bytes) (size b : ℕ) (d₀ d : Bytes) : Prop where
  data : ∀ off, size ≤ off → off < size + b → d (fileAddr f off) = buf (off - size)
  kept : ∀ off, size / 512 * 512 ≤ off → off < size → d (fileAddr f off) = d₀ (fileAddr f off)
  outside : Bytes.EqOutside {x | ∃ k, size / 512 ≤ k ∧ k * 512 < size + b ∧ x ∈ sectorArea (f k)} d₀ d

/-- The blocks from the one of `size` up to the one of `stop` are distinct. -/
def Distinct (f : ℕ → UInt32) (size stop : ℕ) : Prop :=
  ∀ k l, size / 512 ≤ k → k ≤ stop / 512 → size / 512 ≤ l → l ≤ stop / 512 → f k = f l → k = l

theorem Filled.start (f : ℕ → UInt32) (buf : Bytes) (size : ℕ) (d : Bytes) :
    Filled f buf size 0 d d :=
  ⟨fun off h h' => absurd h' (by omega), fun _ _ _ => rfl, .refl _ _⟩

theorem mem_sectorArea_fileAddr (f : ℕ → UInt32) (off : ℕ) :
    fileAddr f off ∈ sectorArea (f (off / 512)) := by
  have := Nat.mod_lt off (show 512 > 0 by omega)
  rw [sectorArea, Set.mem_ofPred_eq, fileAddr]
  omega

/-- Filling the sector of `size + b` with `c` bytes behind the `io` that comes before them. -/
theorem Filled.step {io : Bytes} {c : ℕ} (h : Filled f buf size b d₀ d) (hc : 0 < c)
    (hsec : (size + b) % 512 + c ≤ 512) (hf : Distinct f size (size + b))
    (halign : 0 < b → (size + b) % 512 = 0)
    (hio : b = 0 → ∀ x < size % 512, io x = d ((f (size / 512)).toNat * 512 + x)) :
    Filled f buf size (b + c) d₀ (d.splice ((f ((size + b) / 512)).toNat * 512) (1 * 512)
      (io.splice ((size + b) % 512) c (buf.window b))) := by
  have hother : ∀ off, size / 512 ≤ off / 512 → off / 512 < (size + b) / 512 →
      d.splice ((f ((size + b) / 512)).toNat * 512) (1 * 512)
        (io.splice ((size + b) % 512) c (buf.window b)) (fileAddr f off) = d (fileAddr f off) := by
    intro off hle hlt
    refine Bytes.splice_apply_of_not_mem fun hmem => ?_
    have hne : f (off / 512) ≠ f ((size + b) / 512) := fun heq => by
      have := hf _ _ hle hlt.le (by omega) le_rfl heq
      omega
    refine sectorArea_disjoint hne _ (mem_sectorArea_fileAddr f off) ?_
    rw [sectorArea, Set.mem_ofPred_eq]
    omega
  have hsame : ∀ off, off / 512 = (size + b) / 512 →
      d.splice ((f ((size + b) / 512)).toNat * 512) (1 * 512)
        (io.splice ((size + b) % 512) c (buf.window b)) (fileAddr f off) =
      io.splice ((size + b) % 512) c (buf.window b) (off % 512) := by
    intro off heq
    rw [fileAddr, heq, Bytes.splice_apply_of_mem (by omega), Nat.add_sub_cancel_left]
  refine ⟨fun off hle hlt => ?_, fun off hle hlt => ?_, ?_⟩
  · rcases Nat.lt_or_ge off (size + b) with hold | hnew
    · have := halign (by omega)
      rw [hother off (by omega) (by omega), h.data off hle hold]
    · rw [hsame off (by omega), Bytes.splice_apply_of_mem (by omega), Bytes.window_apply]
      exact congrArg buf (by omega)
  · rcases Nat.eq_zero_or_pos b with rfl | hb
    · rw [hsame off (by omega), Bytes.splice_apply_of_not_mem (by omega), hio rfl _ (by omega),
        ← h.kept off hle hlt, fileAddr]
      rw [show off / 512 = size / 512 by omega]
    · have := halign hb
      rw [hother off (by omega) (by omega), h.kept off hle hlt]
  · refine (h.outside.mono ?_).trans (Bytes.eqOutside_splice fun x hx hx' => ?_)
    · rintro x ⟨k, hk, hk', hx⟩
      exact ⟨k, hk, by omega, hx⟩
    · refine ⟨(size + b) / 512, by omega, by omega, ?_⟩
      rw [sectorArea, Set.mem_ofPred_eq]
      omega

/-- The variables of the writing loop after `b` of `total` bytes. -/
def writeVars (total b : ℕ) : WriteLoop :=
  ⟨b, UInt32.ofNat b, UInt32.ofNat (total - b), b == 0⟩

/-- The state of the writing loop after `b` bytes, with disk `d`. -/
def writeState (s : Fs) (fd p : ℕ) (i : Inode) (d : Bytes) (b : ℕ) : Fs :=
  ((s.setDisk d).setInode p (some { i with iSize := i.iSize + UInt32.ofNat b })).setFile fd
    { s.fileTable fd with fdPos := (s.fileTable fd).fdPos + UInt32.ofNat b }

/-- Only the first sector is written from the middle. -/
def Aligned (size total b : ℕ) : Prop := 0 < b → b < total → (size + b) % 512 = 0

/-- What the writing loop keeps: `b` bytes are written. -/
def WriteInv (s : Fs) (fd p : ℕ) (i : Inode) (f : ℕ → UInt32) (buf : Bytes) (total b : ℕ)
    (w : WriteLoop) (s' : Fs) : Prop :=
  b ≤ total ∧ Aligned i.iSize.toNat total b ∧ w = writeVars total b ∧
    ∃ d, s' = writeState s fd p i d b ∧ Filled f buf i.iSize.toNat b s.disk d

/-- A turn of the writing loop writes a chunk, unless the sector lies past the end of the disk. -/
theorem writeChunk_spec {w : WriteLoop} {s' : Fs} (h : WriteInv s fd p i f buf total b w s')
    (hb : b < total) (htotal : i.iSize.toNat + total ≤ 140 * 512)
    (hf : Distinct f i.iSize.toNat (i.iSize.toNat + total)) :
    Exec.Post (writeChunk fd p f buf w) s'
      (WriteInv s fd p i f buf total (b + chunkSize (i.iSize.toNat + b) (total - b)))
      fun _ => maxLba < f ((i.iSize.toNat + b) / 512) := by
  obtain ⟨-, halign, rfl, d, rfl, hfilled⟩ := h
  have hpos : (i.iSize + UInt32.ofNat b).toNat = i.iSize.toNat + b := by
    rw [Word.toNat_add] <;> rw [Word.toNat_ofNat (by omega)]
    omega
  have hleft : (UInt32.ofNat (total - b)).toNat = total - b := Word.toNat_ofNat (by omega)
  have hmod : ((i.iSize + UInt32.ofNat b) % 512).toNat = (i.iSize.toNat + b) % 512 := by
    rw [UInt32.toNat_mod, hpos]; rfl
  have hidx : ((i.iSize + UInt32.ofNat b) / 512).toNat = (i.iSize.toNat + b) / 512 := by
    rw [toNat_div_512, hpos]
  have hchunk := Word.eq_ofNat (toNat_chunkSize (i.iSize + UInt32.ofNat b) (UInt32.ofNat (total - b)))
  rw [hpos, hleft] at hchunk
  have hle : chunkSize (i.iSize.toNat + b) (total - b) ≤ total - b := min_le_left _ _
  have hsec : chunkSize (i.iSize.toNat + b) (total - b) ≤ 512 - (i.iSize.toNat + b) % 512 :=
    min_le_right _ _
  have hc : 0 < chunkSize (i.iSize.toNat + b) (total - b) := chunkSize_pos (Nat.sub_pos_of_lt hb)
  have hnext : Aligned i.iSize.toNat total (b + chunkSize (i.iSize.toNat + b) (total - b)) := by
    intro _ hlt
    have hfull : ¬ total - b < 512 - (i.iSize.toNat + b) % 512 := fun hlt' => by
      rw [chunkSize, min_eq_left hlt'.le] at hlt
      omega
    rw [chunkSize, min_eq_right (not_lt.mp hfull)]
    omega
  generalize chunkSize (i.iSize.toNat + b) (total - b) = c at *
  have htoNat : (UInt32.ofNat c).toNat = c := Word.toNat_ofNat (by omega)
  have hlate : Distinct f i.iSize.toNat (i.iSize.toNat + b) := fun k l hk hk' hl hl' =>
    hf k l hk (by omega) hl (by omega)
  have hdone (io : Bytes) (hio : b = 0 → ∀ x < i.iSize.toNat % 512,
      io x = d ((f (i.iSize.toNat / 512)).toNat * 512 + x)) :
      WriteInv s fd p i f buf total (b + c)
        ⟨b + c, UInt32.ofNat b + UInt32.ofNat c, UInt32.ofNat (total - b) - UInt32.ofNat c, false⟩
        (((writeState s fd p i d b).setDisk (d.splice
          ((f ((i.iSize.toNat + b) / 512)).toNat * 512) (1 * 512)
            (io.splice ((i.iSize.toNat + b) % 512) c (buf.window b)))).setInode p
          (some { i with iSize := i.iSize + UInt32.ofNat b + UInt32.ofNat c }) |>.setFile fd
          { s.fileTable fd with
            fdPos := (s.fileTable fd).fdPos + UInt32.ofNat b + UInt32.ofNat c }) := by
    refine ⟨by omega, hnext, ?_, _, ?_,
      hfilled.step hc (by omega) hlate (fun h0 => halign h0 hb) hio⟩
    · rw [writeVars, Word.ofNat_add, Word.ofNat_sub hle (by omega), Nat.sub_sub,
        beq_eq_false_iff_ne.mpr (by omega : b + c ≠ 0)]
    · rw [UInt32.add_assoc, UInt32.add_assoc, Word.ofNat_add]
      simp [writeState, Fs.setFile, Fs.setInode, Fs.setDisk]
  unfold writeState at hdone ⊢
  unfold writeVars
  simp only [writeChunk, derefInode, storeInode, allBlocksAt, Exec.post_bind,
    Exec.post_get, post_deref, post_inBounds, Exec.post_pure, post_ideRead, post_ideWrite,
    Exec.post_modify, Exec.post_ite, Fs.setFile_inodes, Fs.setInode_inodes,
    Fs.setFile_disk, Fs.setInode_disk, Fs.setDisk_disk, Fs.setFile_fileTable,
    Fs.setInode_fileTable, Fs.setDisk_fileTable,
    Function.update_self, Option.some.injEq, forall_eq', reduceCtorEq, false_imp_iff, and_true,
    hidx, hmod, hchunk, htoNat, Nat.zero_lt_one, UInt32.not_le] at hdone ⊢
  refine ⟨fun _ => ⟨fun h0 => ⟨fun _ => ⟨fun _ => ?_, id⟩, id⟩, fun h0 => ⟨fun _ => ?_, id⟩⟩,
    fun h => absurd (by omega) h⟩
  · refine hdone _ fun hb0 x hx => ?_
    obtain rfl := hb0
    rw [Bytes.splice_apply_of_mem (by omega), Bytes.window_apply, Nat.add_zero, Nat.sub_zero]
  · refine hdone _ fun hb0 => ?_
    rw [hb0] at h0
    exact absurd rfl h0

/-- At the head of the loop. -/
theorem WriteInv.start (hi : s.inodes p = some i) (total : ℕ) :
    WriteInv s fd p i f buf total 0 ⟨0, 0, UInt32.ofNat total, true⟩ s := by
  refine ⟨Nat.zero_le _, fun h => absurd h (lt_irrefl 0), rfl, s.disk, ?_, .start ..⟩
  have hinode : Function.update s.inodes p (some i) = s.inodes := by
    rw [← hi, Function.update_eq_self]
  have hzero : UInt32.ofNat 0 = 0 := rfl
  rw [writeState, hzero, UInt32.add_zero, UInt32.add_zero]
  simp [Fs.setFile, Fs.setInode, Fs.setDisk, hinode]

theorem WriteInv.lt_iff {w : WriteLoop} {s' : Fs} (h : WriteInv s fd p i f buf total b w s')
    (htotal : total < 2 ^ 32) : w.bytesWritten < UInt32.ofNat total ↔ b < total := by
  obtain ⟨hle, -, rfl, -⟩ := h
  rw [writeVars, UInt32.lt_iff_toNat_lt, Word.toNat_ofNat (by omega), Word.toNat_ofNat htotal]

/-- The writing loop writes what is left, unless a sector lies past the end of the disk. -/
theorem writeLoop_spec (htotal : i.iSize.toNat + total ≤ 140 * 512)
    (hf : Distinct f i.iSize.toNat (i.iSize.toNat + total)) (fuel : ℕ) {w : WriteLoop} {s' : Fs}
    (h : WriteInv s fd p i f buf total b w s') (hfuel : total - b ≤ fuel) :
    Exec.Post (writeLoop fd p f buf (UInt32.ofNat total) fuel w) s'
      (WriteInv s fd p i f buf total total)
      fun _ => ∃ off, i.iSize.toNat ≤ off ∧ off < i.iSize.toNat + total ∧ maxLba < f (off / 512) := by
  have hle := h.1
  have hlt := h.lt_iff (by omega)
  induction fuel generalizing b w s' with
  | zero =>
    obtain rfl : b = total := by omega
    rw [writeLoop, if_neg (hlt.not.mpr (lt_irrefl b))]
    exact h
  | succ fuel ih =>
    rw [writeLoop]
    split
    · rename_i hgo
      have hb := hlt.mp hgo
      have hpos : 0 < chunkSize (i.iSize.toNat + b) (total - b) :=
        chunkSize_pos (Nat.sub_pos_of_lt hb)
      refine Exec.post_bind.mpr ((writeChunk_spec h hb htotal hf).mono (fun w' s'' h' => ?_) ?_)
      · exact ih h' (by omega) h'.1 (h'.lt_iff (by omega))
      · exact fun _ hgt => ⟨_, Nat.le_add_right _ _, by omega, hgt⟩
    · rename_i hstop
      obtain rfl : b = total := by
        by_contra hne
        exact hstop (hlt.mpr (by omega))
      exact h

/-- A turn of the writing loop: it starts only while bytes are left. -/
def WriteTurn (fd p : ℕ) (f : ℕ → UInt32) (buf : Bytes) (count : UInt32)
    (x y : WriteLoop × Fs) : Prop :=
  x.1.bytesWritten < count ∧ writeChunk fd p f buf x.1 x.2 = .ok y

/-- The invariant holds after any number of turns. -/
theorem WriteInv.of_turns (htotal : i.iSize.toNat + total ≤ 140 * 512)
    (hf : Distinct f i.iSize.toNat (i.iSize.toNat + total)) {x y : WriteLoop × Fs}
    (h : WriteInv s fd p i f buf total b x.1 x.2)
    (hturns : Relation.ReflTransGen (WriteTurn fd p f buf (UInt32.ofNat total)) x y) :
    ∃ b, WriteInv s fd p i f buf total b y.1 y.2 := by
  induction hturns with
  | refl => exact ⟨b, h⟩
  | tail _ hturn ih =>
    obtain ⟨b', h'⟩ := ih
    obtain ⟨hgo, hcall⟩ := hturn
    have hb := (h'.lt_iff (by omega)).mp hgo
    have hchunk : Exec.Ensures (writeChunk fd p f buf _) _ _ :=
      (writeChunk_spec h' hb htotal hf).mono (fun _ _ => id) fun _ _ => trivial
    exact ⟨_, hchunk.of_ok hcall⟩

/-- The loop takes turns until no bytes are left. -/
theorem writeLoop_turns {count : UInt32} (fuel : ℕ) (w : WriteLoop) :
    Exec.Ensures (writeLoop fd p f buf count fuel w) s fun w' s' =>
      Relation.ReflTransGen (WriteTurn fd p f buf count) (w, s) (w', s') ∧
        ¬ w'.bytesWritten < count := by
  induction fuel generalizing w s with
  | zero =>
    rw [writeLoop]
    split
    · trivial
    · rename_i hstop
      exact ⟨.refl, hstop⟩
  | succ fuel ih =>
    rw [writeLoop]
    split
    · rename_i hgo
      refine Exec.post_bind.mpr (Exec.ensures_iff.mpr fun w' s' hchunk => (ih w').mono ?_)
      rintro w'' s'' ⟨hturns, hstop⟩
      exact ⟨.head ⟨hgo, hchunk⟩ hturns, hstop⟩
    · rename_i hstop
      exact ⟨.refl, hstop⟩

/-- A turn advances the size and the bytes written alike, at most to the end of the sector. -/
theorem writeChunk_advance (hi : s.inodes p = some i) (w : WriteLoop) :
    Exec.Ensures (writeChunk fd p f buf w) s fun w' s' => i.iSize.toNat / 512 < 140 ∧
      ∃ c : UInt32, c.toNat ≤ 512 - i.iSize.toNat % 512 ∧ w'.bytesWritten = w.bytesWritten + c ∧
        s'.inodes p = some { i with iSize := i.iSize + c } := by
  have hchunk := toNat_chunkSize i.iSize w.sizeLeft
  have hsec : chunkSize i.iSize.toNat w.sizeLeft.toNat ≤ 512 - i.iSize.toNat % 512 :=
    min_le_right _ _
  simp only [writeChunk, derefInode, storeInode, allBlocksAt, Exec.post_bind, Exec.post_get,
    post_deref, post_inBounds, Exec.post_pure, post_ideRead, post_ideWrite, Exec.post_modify,
    Exec.post_ite, hi, Option.some.injEq, forall_eq', toNat_div_512, implies_true, and_true]
  generalize (if w.sizeLeft < 512 - i.iSize % 512 then w.sizeLeft else 512 - i.iSize % 512) = c
    at hchunk ⊢
  have hdone (d : Bytes) (file : File) (hidx : i.iSize.toNat / 512 < 140) :
      i.iSize.toNat / 512 < 140 ∧ ∃ c' : UInt32, c'.toNat ≤ 512 - i.iSize.toNat % 512 ∧
        w.bytesWritten + c = w.bytesWritten + c' ∧
        (((s.setDisk d).setInode p (some { i with iSize := i.iSize + c })).setFile fd file).inodes p =
          some { i with iSize := i.iSize + c' } :=
    ⟨hidx, c, by rw [hchunk]; exact hsec, rfl, Function.update_self ..⟩
  exact fun hidx => ⟨fun _ _ _ => hdone _ _ hidx, fun _ _ => hdone _ _ hidx⟩

/-- A count that reaches past the 140 blocks never comes back. -/
theorem writeLoop_overrun {count : UInt32} (hcount : 140 * 512 < count.toNat) (fuel : ℕ)
    {w : WriteLoop} (hi : s.inodes p = some i) (hw : w.bytesWritten.toNat ≤ i.iSize.toNat)
    (hmax : i.iSize.toNat ≤ 140 * 512) :
    Exec.Ensures (writeLoop fd p f buf count fuel w) s fun _ _ => False := by
  have hlt : w.bytesWritten < count := by rw [UInt32.lt_iff_toNat_lt]; omega
  induction fuel generalizing s i w with
  | zero =>
    rw [writeLoop, if_pos hlt]
    trivial
  | succ fuel ih =>
    rw [writeLoop, if_pos hlt]
    refine Exec.post_bind.mpr ((writeChunk_advance hi w).mono ?_)
    rintro w' s' ⟨hidx, c, hc, hw', hi'⟩
    have hsize : (i.iSize + c).toNat = i.iSize.toNat + c.toNat := Word.toNat_add (by omega)
    have hbytes : w'.bytesWritten.toNat = w.bytesWritten.toNat + c.toNat := by
      rw [hw', Word.toNat_add (by omega)]
    refine ih hi' ?_ ?_ ?_
    · rw [hbytes, hsize]
      omega
    · rw [hsize]
      omega
    · rw [UInt32.lt_iff_toNat_lt, hbytes]
      omega

end Winx
