import Winx.Fs.FileMap

/-! # The reading loop

The reading loop copies the file byte for byte as long as it stays below the
140 blocks of `all_blocks`; past them it faults. Before it `file_read` asserts
that the last block it touches is not the last one a file can have.
-/

namespace Winx

variable {s : Fs} {i : Inode} {allBlocks : ℕ → UInt32} {buf content : Bytes} {fd pos total b : ℕ}

/-- What the loops copy at a time: the rest of the sector, or of the count if that is less. -/
def chunkSize (pos left : ℕ) : ℕ := min left (512 - pos % 512)

theorem toNat_chunkSize (pos left : UInt32) :
    (if left < 512 - pos % 512 then left else 512 - pos % 512).toNat =
      chunkSize pos.toNat left.toNat := by
  have hmod : (pos % 512).toNat = pos.toNat % 512 := by rw [UInt32.toNat_mod]; rfl
  have hleft : (512 - pos % 512).toNat = 512 - pos.toNat % 512 := by
    rw [Word.toNat_sub (by rw [hmod]; exact (Nat.mod_lt _ (by omega)).le), hmod]
    rfl
  unfold chunkSize
  split
  · rename_i h
    rw [UInt32.lt_iff_toNat_lt, hleft] at h
    omega
  · rename_i h
    rw [UInt32.lt_iff_toNat_lt, hleft] at h
    omega

/-- The state when `off` is the position of the descriptor. -/
def seekTo (s : Fs) (fd off : ℕ) : Fs :=
  s.setFile fd { s.fileTable fd with fdPos := UInt32.ofNat off }

/-- The variables of the reading loop after `b` of `total` bytes. -/
def readVars (buf content : Bytes) (pos total b : ℕ) : ReadLoop :=
  ⟨buf.splice 0 b (content.window pos), b, UInt32.ofNat b, UInt32.ofNat (total - b)⟩

/-- A turn of the reading loop copies a chunk. -/
theorem readChunk_eq (hb : b < total) (htotal : pos + total ≤ 140 * 512)
    (hblock : allBlocks ((pos + b) / 512) ≤ maxLba)
    (hcontent : ∀ j, (pos + b) % 512 + j < 512 → content (pos + b + j) =
      s.disk ((allBlocks ((pos + b) / 512)).toNat * 512 + (pos + b) % 512 + j)) :
    readChunk fd allBlocks (readVars buf content pos total b) (seekTo s fd (pos + b)) =
      .ok (readVars buf content pos total (b + chunkSize (pos + b) (total - b)),
        seekTo s fd (pos + (b + chunkSize (pos + b) (total - b)))) := by
  have hpos : (UInt32.ofNat (pos + b)).toNat = pos + b := Word.toNat_ofNat (by omega)
  have hleft : (UInt32.ofNat (total - b)).toNat = total - b := Word.toNat_ofNat (by omega)
  have hmod : (UInt32.ofNat (pos + b) % 512).toNat = (pos + b) % 512 := by
    rw [UInt32.toNat_mod, hpos]; rfl
  have hidx : (UInt32.ofNat (pos + b) / 512).toNat = (pos + b) / 512 := by
    rw [UInt32.toNat_div, hpos]; rfl
  have hchunk := Word.eq_ofNat (toNat_chunkSize (UInt32.ofNat (pos + b)) (UInt32.ofNat (total - b)))
  rw [hpos, hleft] at hchunk
  have hle : chunkSize (pos + b) (total - b) ≤ total - b := min_le_left _ _
  have hsec : chunkSize (pos + b) (total - b) ≤ 512 - (pos + b) % 512 := min_le_right _ _
  generalize chunkSize (pos + b) (total - b) = c at *
  have htoNat : (UInt32.ofNat c).toNat = c := Word.toNat_ofNat (by omega)
  have hbuf : (buf.splice 0 b (content.window pos)).splice b c ((Bytes.zero.splice 0 (1 * 512)
      (s.disk.window ((allBlocks ((pos + b) / 512)).toNat * 512))).window ((pos + b) % 512)) =
        buf.splice 0 (b + c) (content.window pos) := by
    set chunk := (Bytes.zero.splice 0 (1 * 512)
      (s.disk.window ((allBlocks ((pos + b) / 512)).toNat * 512))).window ((pos + b) % 512)
      with hchunk
    have happ : (∀ j < c, chunk j = content.window pos (b + j)) →
        (buf.splice 0 b (content.window pos)).splice (0 + b) c chunk =
          buf.splice 0 (b + c) (content.window pos) := Bytes.splice_append
    rw [Nat.zero_add] at happ
    refine happ fun j hj => ?_
    rw [hchunk]
    rw [Bytes.window_apply, Bytes.splice_apply_of_mem (by omega), Bytes.window_apply,
      Bytes.window_apply, ← Nat.add_assoc, hcontent j (by omega)]
    exact congrArg s.disk (by omega)
  rw [Exec.eq_ok_iff]
  simp only [readChunk, readVars, seekTo, allBlocksAt, Exec.post_bind, Exec.post_get, post_inBounds,
    Exec.post_pure, post_ideRead, Exec.post_modify, Fs.setFile_fileTable, Fs.setFile_disk,
    Function.update_self, hidx, hblock, hmod, hchunk, htoNat, hbuf, Word.ofNat_add]
  refine ⟨fun _ => ⟨fun _ => ⟨?_, ?_⟩, fun h => h ⟨trivial, Nat.zero_lt_one⟩⟩, fun h => h (by omega)⟩
  · rw [Word.ofNat_sub hle (by omega), Nat.sub_sub]
  · rw [Fs.setFile_setFile, Nat.add_assoc]

theorem chunkSize_pos {pos left : ℕ} (h : 0 < left) : 0 < chunkSize pos left := by
  unfold chunkSize
  have := Nat.mod_lt pos (show 512 > 0 by omega)
  omega

/-- The reading loop copies what is left. -/
theorem readLoop_eq (htotal : pos + total ≤ 140 * 512)
    (hblocks : ∀ off, pos ≤ off → off < pos + total → allBlocks (off / 512) ≤ maxLba)
    (hcontent : ∀ off j, pos ≤ off → off < pos + total → off % 512 + j < 512 →
      content (off + j) = s.disk ((allBlocks (off / 512)).toNat * 512 + off % 512 + j))
    (fuel : ℕ) (hb : b ≤ total) (hfuel : total - b ≤ fuel) :
    readLoop fd allBlocks (UInt32.ofNat total) fuel (readVars buf content pos total b)
        (seekTo s fd (pos + b)) =
      .ok (readVars buf content pos total total, seekTo s fd (pos + total)) := by
  have hdone : ∀ b ≤ total,
      ((readVars buf content pos total b).bytesRead < UInt32.ofNat total ↔ b < total) := by
    intro b hb
    rw [readVars, UInt32.lt_iff_toNat_lt, Word.toNat_ofNat (by omega), Word.toNat_ofNat (by omega)]
  induction fuel generalizing b with
  | zero =>
    obtain rfl : b = total := by omega
    rw [readLoop, if_neg ((hdone b le_rfl).not.mpr (lt_irrefl b))]
    rfl
  | succ fuel ih =>
    rw [readLoop]
    split
    · rename_i hlt
      have hlt : b < total := (hdone b hb).mp hlt
      have hchunk : readChunk fd allBlocks (readVars buf content pos total b)
          (seekTo s fd (pos + b)) = _ := readChunk_eq hlt htotal (hblocks (pos + b) (by omega) (by omega))
        fun j hj => hcontent (pos + b) j (by omega) (by omega) hj
      have hpos : 0 < chunkSize (pos + b) (total - b) := chunkSize_pos (Nat.sub_pos_of_lt hlt)
      have hle : chunkSize (pos + b) (total - b) ≤ total - b := min_le_left _ _
      rw [Exec.bind_eq_ok hchunk]
      exact ih (by omega) (by omega)
    · rename_i hlt
      obtain rfl : b = total := by
        by_contra hne
        exact hlt ((hdone b hb).mpr (by omega))
      rfl

/-- The blocks `file_read` collects are those of the file. -/
theorem readBlocks_spec {start stop : ℕ} (hle : start ≤ stop) (hstop : stop < 140)
    (htable : 12 ≤ stop → i.sector 12 ≠ 0 ∧ i.sector 12 ≤ maxLba) :
    Exec.Returns (readBlocks i start stop) s fun allBlocks s' =>
      s' = s ∧ ∀ k, start ≤ k → k ≤ stop → allBlocks k = blockLba s.disk i k := by
  unfold readBlocks
  split
  · rename_i heq
    subst heq
    split
    · rename_i hlt
      refine ⟨rfl, fun k hk hk' => ?_⟩
      obtain rfl := le_antisymm hk hk'
      rw [Function.update_self, blockLba_of_lt hlt]
    · rename_i hge
      obtain ⟨hne, hmax⟩ := htable (by omega)
      refine post_readTable.mpr ⟨fun _ => ⟨rfl, fun k hk hk' => ?_⟩, fun h => h hmax⟩
      beta_reduce
      rw [if_pos (by omega), blockLba_of_le (by omega) (by omega) hne]
  · split
    · rename_i hlt
      refine ⟨rfl, fun k hk hk' => ?_⟩
      beta_reduce
      rw [if_pos ⟨hk, hk'⟩, blockLba_of_lt (by omega)]
    · rename_i hge
      obtain ⟨hne, hmax⟩ := htable (by omega)
      rw [Exec.Returns, Exec.post_bind, post_assert]
      refine ⟨fun _ => post_readTable.mpr ⟨fun _ => ⟨rfl, fun k hk hk' => ?_⟩, fun h => h hmax⟩,
        fun h => h hne⟩
      beta_reduce
      by_cases hk12 : 12 ≤ k
      · rw [if_pos ⟨hk12, by omega⟩, blockLba_of_le hk12 (by omega) hne]
      · rw [if_neg (by omega), if_pos ⟨hk, by omega⟩, blockLba_of_lt (by omega)]

theorem readBlocks_state {start stop : ℕ} :
    Exec.Ensures (readBlocks i start stop) s fun _ s' => s' = s := by
  unfold readBlocks
  split_ifs
  · rfl
  · exact post_readTable.mpr ⟨fun _ => rfl, fun _ => trivial⟩
  · rfl
  · simp only [Exec.post_bind, post_assert, post_readTable]
    exact ⟨fun _ => ⟨fun _ => trivial, fun _ => trivial⟩, fun _ => trivial⟩

/-- A count that reaches past the 140 blocks never comes back. -/
theorem readLoop_overrun {size : UInt32} (hsize : 140 * 512 < size.toNat) (fuel : ℕ)
    {r : ReadLoop} (hpos : r.bytesRead.toNat ≤ (s.fileTable fd).fdPos.toNat)
    (hmax : (s.fileTable fd).fdPos.toNat ≤ 140 * 512) :
    Exec.Ensures (readLoop fd allBlocks size fuel r) s fun _ _ => False := by
  induction fuel generalizing s r with
  | zero =>
    have hlt : r.bytesRead < size := by rw [UInt32.lt_iff_toNat_lt]; omega
    rw [readLoop, if_pos hlt]
    trivial
  | succ fuel ih =>
    have hlt : r.bytesRead < size := by rw [UInt32.lt_iff_toNat_lt]; omega
    rw [readLoop, if_pos hlt]
    have hchunk := toNat_chunkSize (s.fileTable fd).fdPos r.sizeLeft
    have hsec : chunkSize (s.fileTable fd).fdPos.toNat r.sizeLeft.toNat ≤
        512 - (s.fileTable fd).fdPos.toNat % 512 := min_le_right _ _
    have hidx : ((s.fileTable fd).fdPos / 512).toNat = (s.fileTable fd).fdPos.toNat / 512 := by
      rw [UInt32.toNat_div]; rfl
    simp only [readChunk, allBlocksAt, Exec.post_bind, Exec.post_get, post_inBounds, Exec.post_pure,
      post_ideRead, Exec.post_modify, hidx]
    refine ⟨fun hin => ⟨fun _ => ih ?_ ?_, fun _ => trivial⟩, fun _ => trivial⟩
    · simp only [Fs.setFile_fileTable, Function.update_self]
      rw [Word.toNat_add (by omega), Word.toNat_add (by omega), hchunk]
      omega
    · simp only [Fs.setFile_fileTable, Function.update_self]
      rw [Word.toNat_add (by omega), hchunk]
      omega

variable {p : ℕ} {count size : UInt32}

theorem toI32_of_lt {x : UInt32} (h : x.toNat < 2 ^ 31) : toI32 x = x.toNat := if_pos h

theorem seekTo_self (hpos : (s.fileTable fd).fdPos.toNat = pos) : seekTo s fd pos = s := by
  rw [seekTo, ← Word.eq_ofNat hpos]
  simp [Fs.setFile]

/-- A clamped read that ends before the last block a file can have copies the bytes of the file. -/
theorem fileReadClamped_spec (hpos : (s.fileTable fd).fdPos.toNat = pos)
    (hend : pos + size.toNat < 139 * 512) (hm : s.mallocs 0 = true ∧ s.mallocs 1 = true)
    (hmapped : ∀ off, pos ≤ off → off < pos + size.toNat → Mapped s.disk i (off / 512))
    (htable : 12 ≤ (pos + size.toNat) / 512 → Mapped s.disk i ((pos + size.toNat) / 512)) :
    Exec.Returns (fileReadClamped fd i buf size) s fun r s' =>
      r = ((size.toNat : Int), buf.splice 0 size.toNat (Bytes.window (fileByte s.disk i) pos)) ∧
        s'.disk = s.disk ∧ s'.inodes = s.inodes ∧
        (s'.fileTable fd).fdPos.toNat = pos + size.toNat := by
  have hstart : ((s.fileTable fd).fdPos / 512).toNat = pos / 512 := by rw [toNat_div_512, hpos]
  have hstop : (((s.fileTable fd).fdPos + size) / 512).toNat = (pos + size.toNat) / 512 := by
    rw [toNat_div_512, Word.toNat_add (by omega), hpos]
  have hassert : (s.fileTable fd).fdPos / 512 < 139 ∧
      ((s.fileTable fd).fdPos + size) / 512 < 139 := by
    rw [UInt32.lt_iff_toNat_lt, UInt32.lt_iff_toNat_lt, hstart, hstop]
    exact ⟨by simp only [UInt32.reduceToNat]; omega, by simp only [UInt32.reduceToNat]; omega⟩
  simp only [fileReadClamped, Exec.post_bind, Exec.post_get, post_sysMalloc, Exec.post_ite,
    post_assert, hstart, hstop, hassert, Fs.tick_mallocs, hm.1, hm.2, not_true_eq_false,
    false_imp_iff, and_true, forall_const]
  refine (readBlocks_spec (s := s.tick.tick) (Nat.div_le_div_right (by omega)) (by omega)
    fun h => ⟨(htable h).table_ne_zero h, (htable h).table_le h⟩).mono fun allBlocks s' => ?_
  rintro ⟨rfl, hblocks⟩
  have hblock : ∀ off, pos ≤ off → off < pos + size.toNat →
      allBlocks (off / 512) = blockLba s.disk i (off / 512) := fun off h h' =>
    hblocks _ (Nat.div_le_div_right h) (Nat.div_le_div_right (by omega))
  have hloop : readLoop fd allBlocks (UInt32.ofNat size.toNat) size.toNat
      (readVars buf (fileByte s.disk i) pos size.toNat 0) (seekTo s.tick.tick fd (pos + 0)) = _ :=
    readLoop_eq (by omega)
    (fun off h h' => by rw [hblock off h h']; exact (hmapped off h h').le_maxLba)
    (fun off j h h' hj => by rw [hblock off h h']; exact fileByte_add hj)
    size.toNat (Nat.zero_le _) le_rfl
  rw [Nat.add_zero, seekTo_self (s := s.tick.tick) hpos] at hloop
  simp only [readVars, Bytes.splice_zero_len, Nat.sub_zero, UInt32.ofNat_toNat] at hloop
  refine Exec.eq_ok_iff.mp hloop |>.mono ?_
  rintro r s' ⟨rfl, rfl⟩
  refine ⟨?_, rfl, rfl, ?_⟩
  · rw [toI32_of_lt (x := size) (by omega)]
  · simp only [seekTo, Fs.setFile_fileTable, Function.update_self]
    exact Word.toNat_ofNat (by omega)

/-- A clamped read that ends later trips the assertion on the block number, or never ends. -/
theorem fileReadClamped_fails (hpos : (s.fileTable fd).fdPos.toNat ≤ 140 * 512)
    (hm : s.mallocs 0 = true ∧ s.mallocs 1 = true)
    (hend : 139 * 512 ≤ (s.fileTable fd).fdPos.toNat + size.toNat) :
    Exec.Ensures (fileReadClamped fd i buf size) s fun _ _ => False := by
  simp only [fileReadClamped, Exec.post_bind, Exec.post_get, post_sysMalloc, Exec.post_ite,
    post_assert, Fs.tick_mallocs, hm.1, hm.2, not_true_eq_false, false_imp_iff, and_true,
    forall_const, implies_true]
  refine fun hassert => (readBlocks_state (s := s.tick.tick)).mono fun allBlocks s' => ?_
  rintro rfl
  have hwrap : 2 ^ 32 ≤ (s.fileTable fd).fdPos.toNat + size.toNat := by
    by_contra hlt
    have := UInt32.lt_iff_toNat_lt.mp hassert.2
    rw [toNat_div_512, Word.toNat_add (by omega)] at this
    simp only [UInt32.reduceToNat] at this
    omega
  exact (readLoop_overrun (s := s.tick.tick) (by omega) _ (Nat.zero_le _) hpos).mono
    fun _ _ h => h.elim

theorem FileShape.mapped_of_lt {off : ℕ} (h : FileShape s.disk i) (hoff : off < i.iSize.toNat) :
    Mapped s.disk i (off / 512) := by
  rcases h.mapped with ⟨hsize, -⟩ | hmapped
  · rw [hsize] at hoff
    exact absurd hoff (Nat.not_lt_zero _)
  · exact hmapped _ (Nat.div_le_div_right hoff.le)

end Winx
