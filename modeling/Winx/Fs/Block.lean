import Winx.Fs.Format

/-! # Allocating and freeing

Inode numbers and blocks are taken from and returned to the two bitmaps of the
partition, whose changed sector is then written to the disk. The blocks of an
inode are its twelve direct ones and, if it has an indirect table, the 128
entries of the table.
-/

namespace Winx

/-- `enum bitmap_type` -/
inductive BitmapType
  | inodeBitmap
  | blockBitmap

/-- `inode_bitmap_alloc` -/
def inodeBitmapAlloc : FsM (Option UInt32) := do
  let s ← get
  match s.part.inodeBitmap.scan 1 with
  | none => pure none
  | some bitIdx =>
    set (s.setPart (s.part.setInodeBitmap (s.part.inodeBitmap.set bitIdx true)))
    pure (some (UInt32.ofNat bitIdx))

/-- `block_bitmap_alloc` -/
def blockBitmapAlloc : FsM (Option UInt32) := do
  let s ← get
  match s.part.blockBitmap.scan 1 with
  | none => pure none
  | some bitIdx =>
    set (s.setPart (s.part.setBlockBitmap (s.part.blockBitmap.set bitIdx true)))
    pure (some (s.part.sb.dataStartLba + UInt32.ofNat bitIdx))

/-- `bitmap_sync` -/
def bitmapSync (bitIdx : UInt32) (btmpType : BitmapType) : FsM Unit := do
  let part := (← get).part
  let offSec := bitIdx / 4096
  let offSize := offSec * 512
  match btmpType with
  | .inodeBitmap =>
    ideWrite (part.sb.inodeBitmapLba + offSec) (part.inodeBitmap.bits.window offSize.toNat) 1
  | .blockBitmap =>
    ideWrite (part.sb.blockBitmapLba + offSec) (part.blockBitmap.bits.window offSize.toNat) 1

/-- `bitmap_set(&part->inode_bitmap, bit_idx, 0)` -/
def clearInodeBit (bitIdx : UInt32) : FsM Unit := do
  let s ← get
  inBounds (bitIdx.toNat < 8 * s.part.inodeBitmap.btmpBytesLen)
  set (s.setPart (s.part.setInodeBitmap (s.part.inodeBitmap.set bitIdx.toNat false)))

/-- `bitmap_set(&part->block_bitmap, bit_idx, 0)` -/
def clearBlockBit (bitIdx : UInt32) : FsM Unit := do
  let s ← get
  inBounds (bitIdx.toNat < 8 * s.part.blockBitmap.btmpBytesLen)
  set (s.setPart (s.part.setBlockBitmap (s.part.blockBitmap.set bitIdx.toNat false)))

/-- Clear the bit of a block and write its sector back. -/
def freeBlock (lba : UInt32) : FsM Unit := do
  let s ← get
  let blockBitmapIdx := lba - s.part.sb.dataStartLba
  clearBlockBit blockBitmapIdx
  bitmapSync blockBitmapIdx .blockBitmap

/-- `ide_read(hd, lba, all_blocks + 12, 1)` -/
def readTable (lba : UInt32) (allBlocks : ℕ → UInt32) : FsM (ℕ → UInt32) := do
  let table ← ideRead lba Bytes.zero 1
  pure fun k => if 12 ≤ k ∧ k < 140 then table.word (4 * (k - 12)) else allBlocks k

/-- `ide_write(hd, lba, all_blocks + 12, 1)` -/
def writeTable (lba : UInt32) (allBlocks : ℕ → UInt32) : FsM Unit :=
  ideWrite lba (Bytes.ofWords fun k => allBlocks (12 + k)) 1

/-- The direct blocks of an inode, over an `all_blocks` that is zero. -/
def directBlocks (inode : Inode) : ℕ → UInt32 := fun k => if k < 12 then inode.sector k else 0

/-- Fill a zeroed `all_blocks` with the blocks of an inode. -/
def loadBlocks (inode : Inode) : FsM (ℕ → UInt32) :=
  if inode.sector 12 ≠ 0 then readTable (inode.sector 12) (directBlocks inode)
  else pure (directBlocks inode)

/-- `inode_delete` -/
def inodeDelete (inodeNo : UInt32) : FsM Unit := do
  if inodeNo ≥ 4096 then pure ()
  else
    let part := (← get).part
    let inodePos ← deref (inodeLocate part inodeNo)
    if inodePos.secLba > part.startLba + part.secCnt then pure ()
    else
      let inodeBuf ← ideRead inodePos.secLba Bytes.zero inodePos.secCnt
      ideWrite inodePos.secLba (inodeBuf.splice inodePos.offSize.toNat sizeofInode Bytes.zero)
        inodePos.secCnt

/-- The loop of `inode_release` that frees `n` entries of `all_blocks`. -/
def releaseBlocks (allBlocks : ℕ → UInt32) : ℕ → ℕ → FsM Unit
  | 0, _ => pure ()
  | n + 1, blockIdx => do
    if allBlocks blockIdx ≠ 0 then freeBlock (allBlocks blockIdx) else pure ()
    releaseBlocks allBlocks n (blockIdx + 1)

/-- `inode_release` -/
def inodeRelease (inodeNo : UInt32) : FsM Unit := do
  let p ← inodeOpen inodeNo
  let inode ← derefInode p
  let allBlocks ← loadBlocks inode
  if inode.sector 12 ≠ 0 then
    freeBlock (inode.sector 12)
    releaseBlocks allBlocks 140 0
  else
    releaseBlocks allBlocks 12 0
  clearInodeBit inodeNo
  bitmapSync inodeNo .inodeBitmap
  sysMallocUnchecked
  inodeDelete inodeNo
  inodeClose p

end Winx
