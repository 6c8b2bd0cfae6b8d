import Winx.Fs.Append

/-! # Reading a file

`file_read` clamps the count to what is left of the file in wrapping
arithmetic. A count that wraps around escapes the clamp, and a read that ends
in the last block a file can have trips the assertion on the block number.
-/

namespace Winx

variable {s : Fs} {i : Inode} {buf : Bytes} {fd p : ℕ} {count : UInt32}

/-- The count `file_read` clamps to the file. -/
def clampedCount (fdPos : UInt32) (i : Inode) (count : UInt32) : UInt32 :=
  if fdPos + count > i.iSize then i.iSize - fdPos else count

/-- `file_read` does what it is to do on an open file with inode `i`. -/
def ReadsFile (s : Fs) (fd : ℕ) (i : Inode) (buf : Bytes) (count : UInt32) : Prop :=
  let pos := (s.fileTable fd).fdPos.toNat
  let k := min count.toNat (i.iSize.toNat - pos)
  Exec.Returns (fileRead fd buf count) s fun r s' =>
    s'.disk = s.disk ∧ s'.inodes = s.inodes ∧
      if 0 < count.toNat ∧ pos = i.iSize.toNat then r.1 = -1
      else r = ((k : Int), buf.splice 0 k (Bytes.window (fileByte s.disk i) pos)) ∧
        (s'.fileTable fd).fdPos.toNat = pos + k

theorem post_fileRead {Q : Int × Bytes → Fs → Prop} {E : Fault → Prop}
    (hp : (s.fileTable fd).fdInode = some p) (hi : s.inodes p = some i) :
    Exec.Post (fileRead fd buf count) s Q E ↔
      ((s.fileTable fd).fdPos + count > i.iSize ∧ clampedCount (s.fileTable fd).fdPos i count = 0 →
        Q (-1, buf) s) ∧
      (¬ ((s.fileTable fd).fdPos + count > i.iSize ∧
        clampedCount (s.fileTable fd).fdPos i count = 0) →
        Exec.Post (fileReadClamped fd i buf (clampedCount (s.fileTable fd).fdPos i count)) s Q E) := by
  simp [fileRead, clampedCount, derefInode, hp, hi]

/-- Without a wrap around the count is clamped to what is left. -/
theorem toNat_clampedCount {fdPos : UInt32} (hpos : fdPos.toNat ≤ i.iSize.toNat)
    (hfit : fdPos.toNat + count.toNat < 2 ^ 32) :
    (clampedCount fdPos i count).toNat = min count.toNat (i.iSize.toNat - fdPos.toNat) ∧
      (fdPos + count > i.iSize ∧ clampedCount fdPos i count = 0 ↔
        0 < count.toNat ∧ fdPos.toNat = i.iSize.toNat) := by
  have hgt : fdPos + count > i.iSize ↔ i.iSize.toNat < fdPos.toNat + count.toNat := by
    rw [gt_iff_lt, UInt32.lt_iff_toNat_lt, Word.toNat_add hfit]
  have hclamp : (clampedCount fdPos i count).toNat =
      min count.toNat (i.iSize.toNat - fdPos.toNat) := by
    rw [clampedCount, apply_ite UInt32.toNat, Word.toNat_sub hpos]
    simp only [hgt]
    split <;> omega
  refine ⟨hclamp, ?_⟩
  rw [hgt, ← UInt32.toNat_inj, hclamp, UInt32.toNat_zero]
  omega

section

variable (hp : (s.fileTable fd).fdInode = some p) (hi : s.inodes p = some i)
  (hfile : FileShape s.disk i) (hpos : (s.fileTable fd).fdPos.toNat ≤ i.iSize.toNat)
  (hm : s.mallocs 0 = true ∧ s.mallocs 1 = true)

include hp hi hfile hpos hm

/-- A read that ends before the last block a file can have, or has nothing left to read. -/
theorem readsFile_of_lt (hfit : (s.fileTable fd).fdPos.toNat + count.toNat < 2 ^ 32)
    (hend : (0 < count.toNat ∧ (s.fileTable fd).fdPos.toNat = i.iSize.toNat) ∨
      (s.fileTable fd).fdPos.toNat +
        min count.toNat (i.iSize.toNat - (s.fileTable fd).fdPos.toNat) < 139 * 512) :
    ReadsFile s fd i buf count := by
  obtain ⟨hclamp, hnone⟩ := toNat_clampedCount hpos hfit
  refine (post_fileRead hp hi).mpr ⟨fun h => ?_, fun h => ?_⟩
  · rw [hnone] at h
    exact ⟨rfl, rfl, by rw [if_pos h]⟩
  · rw [hnone] at h
    have hlate := hend.resolve_left h
    rw [← hclamp] at hlate
    have htable : 12 ≤ ((s.fileTable fd).fdPos.toNat +
        (clampedCount (s.fileTable fd).fdPos i count).toNat) / 512 →
        Mapped s.disk i (((s.fileTable fd).fdPos.toNat +
          (clampedCount (s.fileTable fd).fdPos i count).toNat) / 512) := by
      intro h12
      rcases hfile.mapped with ⟨h0, -⟩ | hmapped
      · rw [h0, UInt32.toNat_zero] at hpos hclamp
        omega
      · exact hmapped _ (Nat.div_le_div_right (by omega))
    refine (fileReadClamped_spec rfl hlate hm (fun off _ hoff => hfile.mapped_of_lt (by omega))
      htable).mono ?_
    rintro r s' ⟨hr, hdisk, hinodes, hoff⟩
    rw [hclamp] at hr hoff
    exact ⟨hdisk, hinodes, by rw [if_neg h]; exact ⟨hr, hoff⟩⟩

/-- Any other read runs into a fault. -/
theorem fileRead_fails (h : 2 ^ 32 ≤ (s.fileTable fd).fdPos.toNat + count.toNat ∨
      ¬ (0 < count.toNat ∧ (s.fileTable fd).fdPos.toNat = i.iSize.toNat) ∧
        139 * 512 ≤ (s.fileTable fd).fdPos.toNat +
          min count.toNat (i.iSize.toNat - (s.fileTable fd).fdPos.toNat)) :
    Exec.Ensures (fileRead fd buf count) s fun _ _ => False := by
  have hsize := hfile.size_lt
  rcases Nat.lt_or_ge ((s.fileTable fd).fdPos.toNat + count.toNat) (2 ^ 32) with hfit | hwrap
  · obtain ⟨hclamp, hnone⟩ := toNat_clampedCount hpos hfit
    obtain ⟨hleft, hend⟩ := h.resolve_left (by omega)
    refine (post_fileRead hp hi).mpr ⟨fun h0 => hleft (hnone.mp h0), fun _ => ?_⟩
    exact fileReadClamped_fails (by omega) hm (by omega)
  · have hcount := count.toNat_lt
    have hgt : ¬ (s.fileTable fd).fdPos + count > i.iSize := by
      rw [gt_iff_lt, UInt32.lt_iff_toNat_lt, Word.toNat_add_of_wrap hwrap]
      omega
    have hclamp : clampedCount (s.fileTable fd).fdPos i count = count := if_neg hgt
    refine (post_fileRead hp hi).mpr ⟨fun h0 => hgt h0.1, fun _ => ?_⟩
    rw [hclamp]
    exact fileReadClamped_fails (by omega) hm (by omega)

/-- `file_read` reads right exactly when the end of the request does not wrap around and, unless
there is nothing left to read, the read ends before the last block a file can have. -/
theorem fileRead_iff :
    ReadsFile s fd i buf count ↔
      (s.fileTable fd).fdPos.toNat + count.toNat < 2 ^ 32 ∧
        ((0 < count.toNat ∧ (s.fileTable fd).fdPos.toNat = i.iSize.toNat) ∨
          (s.fileTable fd).fdPos.toNat +
            min count.toNat (i.iSize.toNat - (s.fileTable fd).fdPos.toNat) < 139 * 512) := by
  constructor
  · intro h
    by_contra hcon
    refine Exec.Returns.elim h (fileRead_fails hp hi hfile hpos hm ?_)
    rw [not_and_or, not_lt, not_or, not_lt] at hcon
    exact hcon
  · exact fun ⟨hfit, hend⟩ => readsFile_of_lt hp hi hfile hpos hm hfit hend

end

/-- Two bytes are read from the start of a file of three. -/
theorem fileRead_two : ReadsFile (openFileFs (blockFile 3)) 3 (blockFile 3) Bytes.zero 2 := by
  have hiff : ReadsFile (openFileFs (blockFile 3)) 3 (blockFile 3) Bytes.zero 2 ↔ _ :=
    fileRead_iff (p := 0) rfl rfl (fileShape_blockFile (by decide)) (Nat.zero_le _) ⟨rfl, rfl⟩
  exact hiff.mpr ⟨by decide, Or.inr (by decide)⟩

/-- The largest write to an empty file leaves the descriptor before its last byte. -/
theorem fileWrite_largest (count : UInt32) (hcount : count.toNat = 71679) :
    ∃ s i, fileWrite 3 Bytes.zero count (openFileFs (emptyInode 5)) = .ok ((count.toNat : Int), s) ∧
      s.inodes 0 = some i ∧ (s.fileTable 3).fdInode = some 0 ∧ (∀ n, s.mallocs n = true) ∧
      FileShape s.disk i ∧ i.iSize.toNat = 71679 ∧ (s.fileTable 3).fdPos.toNat = 71678 := by
  have hfs := fsOk_openFileFs (smallFile_emptyInode 5 (by decide) (by decide))
  have hsize : (emptyInode 5).iSize = 0 := rfl
  have hcnt : blocksFor (emptyInode 5) count ≤
      (openFileFs (emptyInode 5)).part.blockBitmap.freeCnt := by
    refine le_trans ?_ (freeCnt_openFileFs (emptyInode 5))
    have h0 : (emptyInode 5).sector 0 = 0 := sector_emptyInode 0
    simp [writtenCnt, grownCnt, h0, hsize, hcount]
  have hwrite : Exec.Returns (fileWrite 3 Bytes.zero count) (openFileFs (emptyInode 5)) _ :=
    fileWrite_returns hfs (p := 0) (List.mem_cons_self ..) rfl rfl fileShape_emptyInode
      (by rw [hsize, hcount, UInt32.toNat_zero]; omega) (fun _ => rfl) hcnt
      (freeOnDisk_openFileFs _) (emptySlots_emptyInode 5 count)
  obtain ⟨r, s, hcall, rfl, d, b, i', rfl, happended⟩ := Exec.returns_iff.mp hwrite
  have hsize' := happended.size
  rw [hsize, hcount, UInt32.toNat_zero, Nat.zero_add] at hsize'
  refine ⟨_, i', hcall, by simp, rfl, fun _ => rfl, ?_, hsize', ?_⟩
  · exact happended.fileShape hfs (p := 0) (List.mem_cons_self ..) rfl (freeOnDisk_openFileFs _)
  · have hlast : (0 - 1 : UInt32).toNat = 4294967295 := rfl
    rw [writtenState_fdPos, hsize, Word.toNat_add_of_wrap (by rw [hlast, hcount]; omega)]
    omega

/-- After a write of 71679 bytes to an empty file the descriptor stands before its last byte, which
cannot be read. -/
theorem fileRead_fails_at_limit : ∃ s i, fileWrite 3 Bytes.zero 71679 (openFileFs (emptyInode 5)) =
      .ok (71679, s) ∧ s.inodes 0 = some i ∧ (s.fileTable 3).fdInode = some 0 ∧
    (s.fileTable 3).fdPos.toNat ≤ i.iSize.toNat ∧ (∀ n, s.mallocs n = true) ∧
    ¬ ReadsFile s 3 i Bytes.zero 1 := by
  obtain ⟨s, i, hcall, hi, hfd, hm, hfile, hsize, hpos⟩ := fileWrite_largest 71679 rfl
  refine ⟨s, i, hcall, hi, hfd, by omega, hm, fun hreads => ?_⟩
  refine Exec.Returns.elim hreads (fileRead_fails hfd hi hfile (by omega) ⟨hm 0, hm 1⟩ (Or.inr ?_))
  have hone : (1 : UInt32).toNat = 1 := rfl
  omega

end Winx
