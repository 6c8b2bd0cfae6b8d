import Winx.Fs.Inode

/-! # Formatting and mounting

`partition_format` lays out an empty file system with a root directory, and
`mount_partition` reads its super block and its bitmaps into memory.
-/

namespace Winx

/-- `DIV_ROUND_UP` -/
def divRoundUp (x step : UInt32) : UInt32 := (x + step - 1) / step

/-- `SUPER_BLOCK_MAGIC` -/
def superBlockMagic : UInt32 := 0x19590318

/-- `FT_UNKNOWN`, `FT_REGULAR` and `FT_DIRECTORY`. The enumeration is stored as an integer, so a
record may hold any value. -/
abbrev FileType := UInt32

def ftUnknown : FileType := 0

def ftRegular : FileType := 1

def ftDirectory : FileType := 2

/-- `sizeof(struct dir_entry)` -/
def sizeofDirEntry : ℕ := 24

/-- `struct dir_entry`, with the string its `filename` holds. -/
structure DirEntry where
  filename : List UInt8
  iNo : UInt32
  fType : FileType

/-- The bytes of a directory entry; the rest of `filename` is zero. -/
def DirEntry.toBytes (e : DirEntry) : Bytes := fun i =>
  if i < 16 then e.filename.getD i 0
  else if i < 20 then Bytes.byteOf e.iNo (i - 16)
  else Bytes.byteOf e.fType (i - 20)

namespace SuperBlock

/-- The words of a super block; `pad` fills the rest of its sector. -/
def words (sb : SuperBlock) (pad : ℕ → UInt32) : ℕ → UInt32
  | 0 => sb.magic
  | 1 => sb.secCnt
  | 2 => sb.inodeCnt
  | 3 => sb.partLbaBase
  | 4 => sb.blockBitmapLba
  | 5 => sb.blockBitmapSects
  | 6 => sb.inodeBitmapLba
  | 7 => sb.inodeBitmapSects
  | 8 => sb.inodeTableLba
  | 9 => sb.inodeTableSects
  | 10 => sb.dataStartLba
  | 11 => sb.rootInodeNo
  | 12 => sb.dirEntrySize
  | k + 13 => pad k

def toBytes (sb : SuperBlock) (pad : ℕ → UInt32) : Bytes := Bytes.ofWords (sb.words pad)

def ofBytes (b : Bytes) : SuperBlock where
  magic := b.word 0
  secCnt := b.word 4
  inodeCnt := b.word 8
  partLbaBase := b.word 12
  blockBitmapLba := b.word 16
  blockBitmapSects := b.word 20
  inodeBitmapLba := b.word 24
  inodeBitmapSects := b.word 28
  inodeTableLba := b.word 32
  inodeTableSects := b.word 36
  dataStartLba := b.word 40
  rootInodeNo := b.word 44
  dirEntrySize := b.word 48

end SuperBlock

/-- The two counts `partition_format` derives from the size of the partition: the sectors of the
block bitmap, and the number of its bits that stand for sectors. -/
def blockBitmapSize (secCnt : UInt32) : UInt32 × UInt32 :=
  let inodeBitmapSects := divRoundUp 4096 4096
  let inodeTableSects := divRoundUp (108 * 4096) 512
  let usedSects := 1 + 1 + inodeBitmapSects + inodeTableSects
  let freeSects := secCnt - usedSects
  let blockBitmapSects := divRoundUp freeSects 4096
  let blockBitmapBitLen := freeSects - blockBitmapSects
  (divRoundUp blockBitmapBitLen 4096, blockBitmapBitLen)

/-- The super block `partition_format` writes. -/
def formatSuperBlock (startLba secCnt : UInt32) : SuperBlock :=
  let blockBitmapSects := (blockBitmapSize secCnt).1
  let inodeBitmapSects := divRoundUp 4096 4096
  let inodeTableSects := divRoundUp (108 * 4096) 512
  let blockBitmapLba := startLba + 2
  let inodeBitmapLba := blockBitmapLba + blockBitmapSects
  let inodeTableLba := inodeBitmapLba + inodeBitmapSects
  { magic := superBlockMagic
    secCnt := secCnt
    inodeCnt := 4096
    partLbaBase := startLba
    blockBitmapLba := blockBitmapLba
    blockBitmapSects := blockBitmapSects
    inodeBitmapLba := inodeBitmapLba
    inodeBitmapSects := inodeBitmapSects
    inodeTableLba := inodeTableLba
    inodeTableSects := inodeTableSects
    dataStartLba := inodeTableLba + inodeTableSects
    rootInodeNo := 0
    dirEntrySize := 24 }

/-- The block bitmap `partition_format` writes: the root block is used, and so are the bits of the
last sector from byte `block_bitmap_last_byte` on, save the lowest ones of that byte. -/
def formatBlockBitmap (bitLen : UInt32) : Bytes :=
  let lastByte := (bitLen / 8).toNat
  let lastBit := (bitLen % 8).toNat
  let lastSize := 512 - lastByte % 512
  let buf := Bytes.zero.splice 0 1 (fun _ => 1)
  let buf := buf.splice lastByte lastSize (fun _ => 0xff)
  fun i =>
    if i = lastByte then
      (List.range (lastBit + 1)).foldl (fun b bitIdx => b &&& ~~~Bitmap.mask bitIdx) (buf i)
    else buf i

/-- The inode of the root directory; `time` is what `get_time` returns. -/
def formatRootInode (sb : SuperBlock) (time : ℕ → UInt64) : Inode where
  iNo := 0
  iSize := sb.dirEntrySize * 2
  userId := 0
  ctime := time 0
  mtime := time 1
  atime := time 2
  privilege := 4
  iOpenCnts := 0
  writeDeny := false
  iSectors := fun k => if k.val = 0 then sb.dataStartLba else 0

/-- The first two entries of a directory: itself and its parent. -/
def dotEntries (self parent : UInt32) : Bytes :=
  (Bytes.zero.splice 0 sizeofDirEntry (DirEntry.toBytes ⟨[46], self, ftDirectory⟩)).splice
    sizeofDirEntry sizeofDirEntry (DirEntry.toBytes ⟨[46, 46], parent, ftDirectory⟩)

/-- `partition_format` -/
def partitionFormat (startLba secCnt : UInt32) (time : ℕ → UInt64) : FsM Unit := do
  let sb := formatSuperBlock startLba secCnt
  let s ← get
  ideWrite (startLba + 1) (sb.toBytes s.junk) 1
  sysMallocUnchecked
  ideWrite sb.blockBitmapLba (formatBlockBitmap (blockBitmapSize secCnt).2)
    sb.blockBitmapSects.toNat
  ideWrite sb.inodeBitmapLba (Bytes.zero.splice 0 1 (fun _ => 1)) sb.inodeBitmapSects.toNat
  ideWrite sb.inodeTableLba
    (Bytes.zero.splice 0 sizeofInode (formatRootInode sb time).toBytes) sb.inodeTableSects.toNat
  ideWrite sb.dataStartLba (dotEntries 0 0) 1

/-- `mount_partition` of the partition it looks for. -/
def mountPartition (startLba secCnt : UInt32) : FsM Unit := do
  sysMallocUnchecked
  sysMallocUnchecked
  let sbBuf ← ideRead (startLba + 1) Bytes.zero 1
  let sb := SuperBlock.ofBytes sbBuf
  let ok ← sysMalloc
  assert (ok = true)
  let blockBits ← ideRead sb.blockBitmapLba Bytes.zero sb.blockBitmapSects.toNat
  let ok ← sysMalloc
  assert (ok = true)
  let inodeBits ← ideRead sb.inodeBitmapLba Bytes.zero sb.inodeBitmapSects.toNat
  modify fun s => s.setPart
    { startLba := startLba
      secCnt := secCnt
      sb := sb
      blockBitmap := ⟨sb.blockBitmapSects.toNat * 512, blockBits⟩
      inodeBitmap := ⟨sb.inodeBitmapSects.toNat * 512, inodeBits⟩
      openInodes := [] }

/-- The partition in memory after it is formatted and mounted. -/
def formattedPartition (startLba secCnt : UInt32) : Partition :=
  let sb := formatSuperBlock startLba secCnt
  { startLba := startLba
    secCnt := secCnt
    sb := sb
    blockBitmap :=
      ⟨sb.blockBitmapSects.toNat * 512, formatBlockBitmap (blockBitmapSize secCnt).2⟩
    inodeBitmap := ⟨sb.inodeBitmapSects.toNat * 512, Bytes.zero.splice 0 1 (fun _ => 1)⟩
    openInodes := [] }

end Winx
