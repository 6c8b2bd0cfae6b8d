import Winx.Fs.Write

/-! # The layout after formatting

`partition_format` puts the regions of a partition one after the other, and
leaves the bits of the block bitmap clear that stand for free blocks. It clears
one bit more than there are blocks counted in the bitmap, which lies inside of
the partition only where the bitmap turned out a sector smaller than first
computed.
-/

namespace Winx

/-- The super block of a partition on the disk. -/
def diskSuperBlock (disk : Bytes) (startLba : UInt32) : SuperBlock :=
  SuperBlock.ofBytes (disk.window ((startLba.toNat + 1) * 512))

/-- The block bitmap on the disk. -/
def diskBlockBitmap (disk : Bytes) (sb : SuperBlock) : Bitmap :=
  ⟨512 * sb.blockBitmapSects.toNat, disk.window (sb.blockBitmapLba.toNat * 512)⟩

/-- The regions of a partition follow each other and end inside of it. Its block bitmap only has
clear bits for other blocks of the partition than that of the root directory, and neither it nor a
map with more used blocks makes `block_bitmap_alloc` return another block. -/
structure WellFormatted (startLba secCnt : UInt32) (disk : Bytes) (sb : SuperBlock) : Prop where
  blockBitmapLba : sb.blockBitmapLba.toNat = startLba.toNat + 2
  inodeBitmapLba : sb.inodeBitmapLba.toNat = sb.blockBitmapLba.toNat + sb.blockBitmapSects.toNat
  inodeTableLba : sb.inodeTableLba.toNat = sb.inodeBitmapLba.toNat + sb.inodeBitmapSects.toNat
  dataStartLba : sb.dataStartLba.toNat = sb.inodeTableLba.toNat + sb.inodeTableSects.toNat
  data_lt_end : sb.dataStartLba.toNat < startLba.toNat + secCnt.toNat
  clear : ∀ k < 8 * (diskBlockBitmap disk sb).btmpBytesLen,
    (diskBlockBitmap disk sb).scanTest k = false →
      k ≠ 0 ∧ sb.dataStartLba.toNat + k < startLba.toNat + secCnt.toNat
  alloc : ∀ s : Fs, s.part.sb = sb →
    s.part.blockBitmap.btmpBytesLen = (diskBlockBitmap disk sb).btmpBytesLen →
    (∀ k, (diskBlockBitmap disk sb).scanTest k = true → s.part.blockBitmap.scanTest k = true) →
    Exec.Ensures blockBitmapAlloc s fun r _ => ∀ lba, r = some lba →
      sb.dataStartLba.toNat < lba.toNat ∧ lba.toNat < startLba.toNat + secCnt.toNat

section SuperBlock

theorem SuperBlock.ofBytes_congr {b c : Bytes} (h : ∀ j < 52, b j = c j) :
    SuperBlock.ofBytes b = SuperBlock.ofBytes c := by
  have hw (k : ℕ) (hk : k ≤ 48) : b.word k = c.word k :=
    Bytes.word_congr fun j _ => h _ (by omega)
  simp only [SuperBlock.ofBytes, hw 0 (by omega), hw 4 (by omega), hw 8 (by omega),
    hw 12 (by omega), hw 16 (by omega), hw 20 (by omega), hw 24 (by omega), hw 28 (by omega),
    hw 32 (by omega), hw 36 (by omega), hw 40 (by omega), hw 44 (by omega), hw 48 (by omega)]

/-- Reading back the super block. -/
theorem SuperBlock.ofBytes_toBytes (sb : SuperBlock) (pad : ℕ → UInt32) :
    SuperBlock.ofBytes (sb.toBytes pad) = sb := by
  have hw (k : ℕ) : (sb.toBytes pad).word (4 * k) = sb.words pad k := Bytes.word_ofWords _ _
  have h0 := hw 0
  have h1 := hw 1
  have h2 := hw 2
  have h3 := hw 3
  have h4 := hw 4
  have h5 := hw 5
  have h6 := hw 6
  have h7 := hw 7
  have h8 := hw 8
  have h9 := hw 9
  have h10 := hw 10
  have h11 := hw 11
  have h12 := hw 12
  simp only [Nat.reduceMul] at h0 h1 h2 h3 h4 h5 h6 h7 h8 h9 h10 h11 h12
  simp only [SuperBlock.ofBytes, h0, h1, h2, h3, h4, h5, h6, h7, h8, h9, h10, h11, h12,
    SuperBlock.words]

end SuperBlock

section Bits

variable {bitLen : UInt32} {k : ℕ} (len : ℕ)

/-- Masking the bits up to `n` out of a byte leaves none of them. -/
theorem maskedOut_apply {n k : ℕ} (hn : n < 8) (hk : k ≤ n) (b : UInt8) :
    ((List.range (n + 1)).foldl (fun b bitIdx => b &&& ~~~Bitmap.mask bitIdx) b) &&&
      Bitmap.mask k = 0 := by
  have hstep (b c : UInt8) (h : b &&& Bitmap.mask k = 0) : b &&& c &&& Bitmap.mask k = 0 := by
    rw [UInt8.and_assoc, UInt8.and_comm c, ← UInt8.and_assoc, h, UInt8.zero_and]
  induction n generalizing b with
  | zero =>
    obtain rfl : k = 0 := by omega
    simp only [List.range_succ, List.range_zero, List.nil_append, List.foldl_cons, List.foldl_nil]
    rw [UInt8.and_assoc, show ~~~Bitmap.mask 0 &&& Bitmap.mask 0 = 0 by decide, UInt8.and_zero]
  | succ n ih =>
    rw [List.range_succ, List.foldl_append, List.foldl_cons, List.foldl_nil]
    by_cases hkn : k ≤ n
    · exact hstep _ _ (ih (by omega) hkn b)
    · obtain rfl : k = n + 1 := by omega
      rw [UInt8.and_assoc]
      have hmask : ∀ m < 8, ~~~Bitmap.mask m &&& Bitmap.mask m = 0 := by decide
      rw [hmask _ hn, UInt8.and_zero]

/-- The bits of the formatted block bitmap that are set, up to the end of the sector in which the
length ends: the one of the root block, unless it is masked out again, and those past the length save
the next one. -/
theorem scanTest_formatBlockBitmap_iff
    (hlast : k / 8 < bitLen.toNat / 8 + (512 - bitLen.toNat / 8 % 512)) :
    Bitmap.scanTest ⟨len, formatBlockBitmap bitLen⟩ k = true ↔
      bitLen.toNat < k ∨ k = 0 ∧ 8 ≤ bitLen.toNat := by
  refine ⟨fun hset => ?_, ?_⟩
  · by_contra hnot
    rw [not_or] at hnot
    obtain ⟨hle, hroot⟩ := hnot
    have hbyte : (bitLen / 8).toNat = bitLen.toNat / 8 := by rw [UInt32.toNat_div]; rfl
    have hbit : (bitLen % 8).toNat = bitLen.toNat % 8 := by rw [UInt32.toNat_mod]; rfl
    have hmask : Bitmap.mask k = Bitmap.mask (k % 8) := by simp [Bitmap.mask]
    simp only [Bitmap.scanTest, formatBlockBitmap, hbyte, hbit, hmask, bne_iff_ne] at hset
    split at hset
    · exact hset (maskedOut_apply (by omega) (by omega) _)
    · rename_i hne
      rw [Bytes.splice_apply_of_not_mem (by omega)] at hset
      by_cases hfirst : k / 8 = 0
      · rw [hfirst, Bytes.splice_apply_of_mem (by omega)] at hset
        have hone : ∀ m < 8, m ≠ 0 → (1 : UInt8) &&& Bitmap.mask m = 0 := by decide
        exact hset (hone _ (by omega) (by omega))
      · rw [Bytes.splice_apply_of_not_mem (by omega), Bytes.zero_apply, UInt8.zero_and] at hset
        exact hset rfl
  · rintro (hlt | ⟨rfl, hlen⟩)
    · exact scanTest_formatBlockBitmap hlt hlast
    · have hbyte : (bitLen / 8).toNat = bitLen.toNat / 8 := by rw [UInt32.toNat_div]; rfl
      simp only [Bitmap.scanTest, formatBlockBitmap, hbyte, Nat.zero_div]
      rw [if_neg (by omega), Bytes.splice_apply_of_not_mem (by omega),
        Bytes.splice_apply_of_mem (by omega)]
      decide

end Bits

section Format

variable {startLba secCnt : UInt32} {time : ℕ → UInt64} {s : Fs}

/-- What `partition_format` leaves on the disk of the super block and of the block bitmap. -/
theorem partitionFormat_disk (hmin : 867 ≤ secCnt.toNat)
    (hround : secCnt.toNat - 867 + 4096 < 2 ^ 32) (hfit : startLba.toNat + secCnt.toNat < 2 ^ 32) :
    Exec.Ensures (partitionFormat startLba secCnt time) s fun _ s' =>
      0 < (formatSuperBlock startLba secCnt).blockBitmapSects.toNat ∧
      diskSuperBlock s'.disk startLba = formatSuperBlock startLba secCnt ∧
      ∀ i < 512 * (formatSuperBlock startLba secCnt).blockBitmapSects.toNat,
        s'.disk ((formatSuperBlock startLba secCnt).blockBitmapLba.toNat * 512 + i) =
          formatBlockBitmap (blockBitmapSize secCnt).2 i := by
  obtain ⟨h₁, h₂, h₃, h₄, -⟩ := formatSuperBlock_regions startLba hmin hround hfit
  have hsuper : (startLba + 1).toNat = startLba.toNat + 1 :=
    Word.toNat_add (by simp only [UInt32.reduceToNat]; omega)
  simp only [partitionFormat, sysMallocUnchecked, Exec.post_bind, Exec.post_get, post_ideWrite,
    post_sysMalloc, Exec.post_ite, Exec.post_pure, Exec.post_throw]
  refine ⟨fun _ => ⟨fun _ => ⟨fun hbits => ⟨fun _ => ⟨fun _ => ⟨fun _ => ?_, fun _ => trivial⟩,
    fun _ => trivial⟩, fun _ => trivial⟩, fun _ => trivial⟩, fun _ => trivial⟩, fun _ => trivial⟩
  simp only [Fs.setDisk_disk, Fs.tick_disk, hsuper]
  refine ⟨hbits.2, ?_, fun i hi => ?_⟩
  · refine (SuperBlock.ofBytes_congr fun j hj => ?_).trans (SuperBlock.ofBytes_toBytes _ s.junk)
    rw [Bytes.window_apply, Bytes.splice_apply_of_not_mem (by omega),
      Bytes.splice_apply_of_not_mem (by omega), Bytes.splice_apply_of_not_mem (by omega),
      Bytes.splice_apply_of_not_mem (by omega), Bytes.splice_apply_of_mem (by omega),
      Nat.add_sub_cancel_left]
  · rw [Bytes.splice_apply_of_not_mem (by omega), Bytes.splice_apply_of_not_mem (by omega),
      Bytes.splice_apply_of_not_mem (by omega), Bytes.splice_apply_of_mem (by omega),
      Nat.add_sub_cancel_left]

/-- The block that `block_bitmap_alloc` returns is the first free one. -/
theorem blockBitmapAlloc_spec : Exec.Returns blockBitmapAlloc s fun r _ => ∀ lba, r = some lba →
    ∃ k < 8 * s.part.blockBitmap.btmpBytesLen, s.part.blockBitmap.scanTest k = false ∧
      lba = s.part.sb.dataStartLba + UInt32.ofNat k := by
  simp only [blockBitmapAlloc, Exec.post_bind, Exec.post_get]
  cases hscan : s.part.blockBitmap.scan 1 with
  | none => simp
  | some k =>
    obtain ⟨hlt, hclear, -⟩ := Bitmap.scan_one_eq_some_iff.mp hscan
    rintro lba ⟨rfl⟩
    exact ⟨k, hlt, hclear, rfl⟩

/-- `partition_format` returns if the root block is on the disk and there is memory. -/
theorem partitionFormat_returns (startLba secCnt : UInt32) (time : ℕ → UInt64) (s : Fs)
    (hmin : 869 ≤ secCnt.toNat) (hfit : startLba.toNat + secCnt.toNat ≤ maxLba.toNat + 1)
    (hmalloc : s.mallocs 0 = true) :
    ∃ s', partitionFormat startLba secCnt time s = .ok ((), s') := by
  rw [maxLba_toNat] at hfit
  have hmax : secCnt.toNat - 867 + 4096 < 2 ^ 32 := by omega
  obtain ⟨h₁, h₂, h₃, h₄, -⟩ := formatSuperBlock_regions startLba
    (by omega : 867 ≤ secCnt.toNat) hmax (by omega)
  obtain ⟨hlen, hsects⟩ := blockBitmapSize_toNat (by omega : 867 ≤ secCnt.toNat) hmax
  change (formatSuperBlock startLba secCnt).blockBitmapSects.toNat = _ at hsects
  have hsuper : (startLba + 1).toNat = startLba.toNat + 1 :=
    Word.toNat_add (by simp only [UInt32.reduceToNat]; omega)
  have hinode : (formatSuperBlock startLba secCnt).inodeBitmapSects.toNat = 1 :=
    (by decide : (divRoundUp 4096 4096).toNat = 1)
  have htable : (formatSuperBlock startLba secCnt).inodeTableSects.toNat = 864 :=
    (by decide : (divRoundUp (108 * 4096) 512).toNat = 864)
  have hreturns : Exec.Returns (partitionFormat startLba secCnt time) s fun _ _ => True := by
    simp only [partitionFormat, sysMallocUnchecked, Exec.Returns, Exec.post_bind, Exec.post_get,
      post_ideWrite, post_sysMalloc, Exec.post_ite, Exec.post_pure, Exec.post_throw,
      UInt32.le_iff_toNat_le, maxLba_toNat]
    refine ⟨fun _ => ⟨fun _ => ⟨fun _ => ⟨fun _ => ⟨fun _ => ⟨fun _ => trivial, ?_⟩, ?_⟩, ?_⟩, ?_⟩,
      ?_⟩, ?_⟩
    · exact fun h => h ⟨by omega, Nat.one_pos⟩
    · exact fun h => h ⟨by omega, by omega⟩
    · exact fun h => h ⟨by omega, by omega⟩
    · exact fun h => h ⟨by omega, by omega⟩
    · exact fun h => h hmalloc
    · exact fun h => h ⟨by omega, Nat.one_pos⟩
  obtain ⟨_, s', hcall, -⟩ := Exec.returns_iff.mp hreturns
  exact ⟨s', hcall⟩

/-- The bits that are set on the disk after formatting. -/
theorem scanTest_of_partitionFormat {s' : Fs} {k : ℕ} (hmin : 867 ≤ secCnt.toNat)
    (hround : secCnt.toNat - 867 + 4096 < 2 ^ 32) (hfit : startLba.toNat + secCnt.toNat < 2 ^ 32)
    (hcall : partitionFormat startLba secCnt time s = .ok ((), s'))
    (hk : k < 8 * (512 * (formatSuperBlock startLba secCnt).blockBitmapSects.toNat)) :
    (diskBlockBitmap s'.disk (formatSuperBlock startLba secCnt)).scanTest k = true ↔
      (blockBitmapSize secCnt).2.toNat < k ∨ k = 0 ∧ 8 ≤ (blockBitmapSize secCnt).2.toNat := by
  obtain ⟨-, -, hbits⟩ := (partitionFormat_disk hmin hround hfit).of_ok hcall
  obtain ⟨hlen, hsects⟩ := blockBitmapSize_toNat hmin hround
  change (formatSuperBlock startLba secCnt).blockBitmapSects.toNat = _ at hsects
  rw [← scanTest_formatBlockBitmap_iff 0 (by omega)]
  simp only [Bitmap.scanTest, diskBlockBitmap, Bytes.window_apply]
  rw [hbits _ (by omega)]

/-- A formatted partition is well formatted exactly if computing the size of the block bitmap a
second time made it smaller. -/
theorem wellFormatted_iff_of_partitionFormat {s' : Fs}
    (hsize : 867 + (formatSuperBlock startLba secCnt).blockBitmapSects.toNat < secCnt.toNat)
    (hround : secCnt.toNat - 867 + 4096 < 2 ^ 32) (hfit : startLba.toNat + secCnt.toNat < 2 ^ 32)
    (hcall : partitionFormat startLba secCnt time s = .ok ((), s')) :
    WellFormatted startLba secCnt s'.disk (diskSuperBlock s'.disk startLba) ↔
      (secCnt.toNat - 868) % 4096 ≤ (secCnt.toNat - 868) / 4096 := by
  obtain ⟨hpos, hsb, -⟩ := (partitionFormat_disk (by omega) hround hfit).of_ok hcall
  obtain ⟨h₁, h₂, h₃, h₄, -⟩ := formatSuperBlock_regions startLba
    (by omega : 867 ≤ secCnt.toNat) hround hfit
  obtain ⟨hlen, hsects⟩ := blockBitmapSize_toNat (by omega : 867 ≤ secCnt.toNat) hround
  rw [hsb]
  have hinode : (formatSuperBlock startLba secCnt).inodeBitmapSects.toNat = 1 :=
    (by decide : (divRoundUp 4096 4096).toNat = 1)
  have htable : (formatSuperBlock startLba secCnt).inodeTableSects.toNat = 864 :=
    (by decide : (divRoundUp (108 * 4096) 512).toNat = 864)
  -- the first count of sectors for the bitmap
  have hfirst : (secCnt.toNat - 867 + 4095) / 4096 = (secCnt.toNat - 868) / 4096 + 1 := by omega
  change (formatSuperBlock startLba secCnt).blockBitmapSects.toNat = _ at hsects
  have htest (k : ℕ) := scanTest_of_partitionFormat (k := k) (by omega) hround hfit hcall
  generalize (formatSuperBlock startLba secCnt) = sb at *
  generalize (blockBitmapSize secCnt).2.toNat = n at *
  constructor
  · intro h
    by_contra hgt
    -- the bit after the last block is clear
    have hclear := h.clear n (by change n < 8 * (512 * _); omega) (by
      rw [← Bool.not_eq_true, htest n (by omega)]
      omega)
    omega
  · intro hle
    have hsmaller : (secCnt.toNat - 868) / 4096 ≠ 0 := by
      intro hzero
      omega
    have hmany : 8 ≤ n := by omega
    have hclear (k : ℕ) (hk : k < 8 * (512 * sb.blockBitmapSects.toNat))
        (htest' : (diskBlockBitmap s'.disk sb).scanTest k = false) :
        k ≠ 0 ∧ sb.dataStartLba.toNat + k < startLba.toNat + secCnt.toNat := by
      rw [← Bool.not_eq_true, htest k hk] at htest'
      omega
    refine ⟨h₁, h₂, by omega, by omega, by omega, hclear, fun t ht hlen' hset => ?_⟩
    refine blockBitmapAlloc_spec.ensures.mono fun r _ h lba hr => ?_
    obtain ⟨k, hk, hfree, rfl⟩ := h lba hr
    rw [hlen'] at hk
    have hdisk : (diskBlockBitmap s'.disk sb).scanTest k = false := by
      by_contra hne
      rw [hset k (by simpa using hne)] at hfree
      cases hfree
    obtain ⟨hne, hlt⟩ := hclear k hk hdisk
    have hnat : (UInt32.ofNat k).toNat = k := Word.toNat_ofNat (by omega)
    rw [ht, Word.toNat_add (by omega), hnat]
    omega

/-- A partition of 4964 sectors. -/
theorem wellFormatted_iff_of_partitionFormat_4964 : ∃ s',
    partitionFormat 63 4964 (fun _ => 0) (Fs.unmounted Bytes.zero) = .ok ((), s') ∧
    WellFormatted 63 4964 s'.disk (diskSuperBlock s'.disk 63) := by
  obtain ⟨s', hcall⟩ := partitionFormat_returns 63 4964 (fun _ => 0) (Fs.unmounted Bytes.zero)
    (by decide) (by decide) rfl
  exact ⟨s', hcall, (wellFormatted_iff_of_partitionFormat (by decide) (by decide) (by decide)
    hcall).mpr (by decide)⟩

/-- In a partition of 2000 sectors that starts at sector 63, the bit of sector 2063 is clear, which
is the first one after the partition. -/
theorem not_wellFormatted_of_partitionFormat : ∃ s',
    partitionFormat 63 2000 (fun _ => 0) (Fs.unmounted Bytes.zero) = .ok ((), s') ∧
    (diskBlockBitmap s'.disk (diskSuperBlock s'.disk 63)).scanTest 1132 = false ∧
    (diskSuperBlock s'.disk 63).dataStartLba.toNat + 1132 = 63 + 2000 ∧
    ¬ WellFormatted 63 2000 s'.disk (diskSuperBlock s'.disk 63) := by
  obtain ⟨s', hcall⟩ := partitionFormat_returns 63 2000 (fun _ => 0) (Fs.unmounted Bytes.zero)
    (by decide) (by decide) rfl
  obtain ⟨-, hsb, -⟩ := (partitionFormat_disk (by decide) (by decide) (by decide)).of_ok hcall
  have hlba : (formatSuperBlock 63 2000).dataStartLba.toNat + 1132 = 63 + 2000 := by decide
  have hclear : (diskBlockBitmap s'.disk (formatSuperBlock 63 2000)).scanTest 1132 = false := by
    rw [← Bool.not_eq_true, scanTest_of_partitionFormat (by decide) (by decide) (by decide) hcall
      (by decide)]
    decide
  rw [← hsb] at hclear hlba
  refine ⟨s', hcall, hclear, hlba, fun h => ?_⟩
  obtain ⟨-, hlt⟩ := h.clear 1132 (by rw [hsb]; change 1132 < 8 * (512 * _); decide) hclear
  rw [hlba] at hlt
  exact absurd hlt (by decide)

end Format

end Winx
