import Winx.Lib.Word
import Winx.Memory.PageOps

/-! # The pools of frames

`mem_pool_init` divides the memory above the first two megabytes between the
kernel and the processes. It counts pages in variables of 16 bits, so of a memory
with more than 65535 free pages most is left out.
-/

namespace Winx

/-- What `mem_pool_init` stores of a pool: the address and the size of its frames, and the length and
the address of its bitmap. -/
structure PoolInit where
  phyAddrStart : UInt32
  poolSize : UInt32
  btmpBytesLen : UInt32
  bits : UInt32

/-- `kernel_pool`, `user_pool` and the bitmap of `kernel_vaddr`. -/
structure PoolsInit where
  kernelPool : PoolInit
  userPool : PoolInit
  vaddrBytesLen : UInt32
  vaddrBits : UInt32

/-- `MEM_BITMAP_BASE` -/
def memBitmapBase : UInt32 := 0xc009a000

/-- `mem_pool_init` -/
def memPoolInit (allMem : UInt32) : PoolsInit :=
  let pageTableSize : UInt32 := 4096 * 256
  let usedMem := pageTableSize + 0x100000
  let freeMem := allMem - usedMem
  let allFreePages : UInt16 := (freeMem / 4096).toUInt16
  let kernelFreePages := allFreePages / 2
  let userFreePages := allFreePages - kernelFreePages
  let kbmLength := (kernelFreePages / 8).toUInt32
  let ubmLength := (userFreePages / 8).toUInt32
  let kpStart := usedMem
  let upStart := kpStart + kernelFreePages.toUInt32 * 4096
  { kernelPool := ⟨kpStart, kernelFreePages.toUInt32 * 4096, kbmLength, memBitmapBase⟩
    userPool := ⟨upStart, userFreePages.toUInt32 * 4096, ubmLength, memBitmapBase + kbmLength⟩
    vaddrBytesLen := kbmLength
    vaddrBits := memBitmapBase + kbmLength + ubmLength }

/-- The free pages of a memory. -/
def freePages (allMem : UInt32) : ℕ := (allMem.toNat - 0x200000) / 4096

/-- Call `palloc` until it returns `NULL`, at most `n` times. -/
def pallocs (pf : PoolFlags) : ℕ → MemM (List ℕ)
  | 0 => pure []
  | n + 1 => do
    let page ← palloc pf
    match page with
    | none => pure []
    | some frame =>
      let frames ← pallocs pf n
      pure (frame :: frames)

/-- Take all frames of both pools. -/
def pallocAll (n : ℕ) : MemM (List ℕ × List ℕ) := do
  let kernel ← pallocs .pfKernel n
  let user ← pallocs .pfUser n
  pure (kernel, user)

/-- The frames are those of a pool. -/
def PoolInit.Owns (p : PoolInit) (frames : List ℕ) : Prop :=
  frames.Nodup ∧ ∀ f ∈ frames, p.phyAddrStart.toNat ≤ 4096 * f ∧
    4096 * f + 4096 ≤ p.phyAddrStart.toNat + p.poolSize.toNat

/-- The pools share out the free pages, `palloc` hands out nearly all of them, and the bitmaps lie side
by side below the PCB of the first thread. -/
structure PoolsLaidOut (allMem : UInt32) : Prop where
  start : (memPoolInit allMem).kernelPool.phyAddrStart.toNat = 0x200000
  adjacent : (memPoolInit allMem).userPool.phyAddrStart.toNat =
    (memPoolInit allMem).kernelPool.phyAddrStart.toNat +
      (memPoolInit allMem).kernelPool.poolSize.toNat
  inside : (memPoolInit allMem).userPool.phyAddrStart.toNat +
    (memPoolInit allMem).userPool.poolSize.toNat ≤ allMem.toNat
  covers : (memPoolInit allMem).kernelPool.poolSize.toNat +
    (memPoolInit allMem).userPool.poolSize.toNat = 4096 * freePages allMem
  handedOut : ∀ n, freePages allMem ≤ n →
    Exec.Returns (pallocAll n) (Memory.boot allMem.toNat) fun frames m =>
      (memPoolInit allMem).kernelPool.Owns frames.1 ∧ (memPoolInit allMem).userPool.Owns frames.2 ∧
        freePages allMem < frames.1.length + frames.2.length + 16 ∧
          m.nextFrame .pfKernel = none ∧ m.nextFrame .pfUser = none
  kernelBits : (memPoolInit allMem).kernelPool.bits = memBitmapBase
  userBits : (memPoolInit allMem).userPool.bits.toNat =
    (memPoolInit allMem).kernelPool.bits.toNat + (memPoolInit allMem).kernelPool.btmpBytesLen.toNat
  vaddrBits : (memPoolInit allMem).vaddrBits.toNat =
    (memPoolInit allMem).userPool.bits.toNat + (memPoolInit allMem).userPool.btmpBytesLen.toNat
  bitsEnd : (memPoolInit allMem).vaddrBits.toNat + (memPoolInit allMem).vaddrBytesLen.toNat ≤
    0xc009e000

/-- The frames of the kernel and of the processes, as far as they are counted. -/
def kernelPages (allMem : UInt32) : ℕ := freePages allMem % 65536 / 2

def userPages (allMem : UInt32) : ℕ := freePages allMem % 65536 - kernelPages allMem

section Counts

variable {allMem : UInt32}

theorem kernelPages_le : kernelPages allMem ≤ 32767 := by
  unfold kernelPages
  omega

theorem userPages_le : userPages allMem ≤ 32768 := by
  unfold userPages kernelPages
  omega

/-- The page counts of `mem_pool_init`. -/
theorem pageCounts (hmin : 0x200000 ≤ allMem.toNat) :
    ((((allMem - (4096 * 256 + 0x100000)) / 4096).toUInt16 / 2).toNat = kernelPages allMem) ∧
    (((allMem - (4096 * 256 + 0x100000)) / 4096).toUInt16 -
      ((allMem - (4096 * 256 + 0x100000)) / 4096).toUInt16 / 2).toNat = userPages allMem := by
  have hfree : (allMem - (4096 * 256 + 0x100000)).toNat = allMem.toNat - 0x200000 :=
    Word.toNat_sub hmin
  have hpages : ((allMem - (4096 * 256 + 0x100000)) / 4096).toUInt16.toNat =
      freePages allMem % 65536 := by
    rw [UInt32.toNat_toUInt16, UInt32.toNat_div, hfree]
    rfl
  generalize ((allMem - (4096 * 256 + 0x100000)) / 4096).toUInt16 = pages at hpages ⊢
  have hkernel : (pages / 2).toNat = kernelPages allMem := by
    rw [UInt16.toNat_div, hpages]
    rfl
  have hle : (pages / 2).toNat ≤ pages.toNat := by
    rw [hkernel, hpages]
    exact Nat.div_le_self _ _
  refine ⟨hkernel, ?_⟩
  rw [UInt16.toNat_sub_of_le _ _ (UInt16.le_iff_toNat_le.mpr hle), hkernel, hpages]
  rfl

/-- The size of a pool. -/
theorem toNat_poolSize {pages : UInt16} (hle : pages.toNat ≤ 32768) :
    (pages.toUInt32 * 4096).toNat = 4096 * pages.toNat := by
  have h4096 : (4096 : UInt32).toNat = 4096 := rfl
  have hlt : pages.toUInt32.toNat * (4096 : UInt32).toNat < 2 ^ 32 := by
    rw [UInt16.toNat_toUInt32, h4096]
    omega
  rw [Word.toNat_mul hlt, UInt16.toNat_toUInt32, h4096, Nat.mul_comm]

/-- The length of the bitmap of a pool. -/
theorem toNat_bytesLen (pages : UInt16) : (pages / 8).toUInt32.toNat = pages.toNat / 8 := by
  rw [UInt16.toNat_toUInt32, UInt16.toNat_div]
  rfl

/-- The fields of the pools, in numbers. -/
structure PoolCounts (allMem : UInt32) : Prop where
  kernelStart : (memPoolInit allMem).kernelPool.phyAddrStart.toNat = 0x200000
  kernelSize : (memPoolInit allMem).kernelPool.poolSize.toNat = 4096 * kernelPages allMem
  kernelLen : (memPoolInit allMem).kernelPool.btmpBytesLen.toNat = kernelPages allMem / 8
  userStart : (memPoolInit allMem).userPool.phyAddrStart.toNat = 0x200000 + 4096 * kernelPages allMem
  userSize : (memPoolInit allMem).userPool.poolSize.toNat = 4096 * userPages allMem
  userLen : (memPoolInit allMem).userPool.btmpBytesLen.toNat = userPages allMem / 8

theorem poolCounts (hmin : 0x200000 ≤ allMem.toNat) : PoolCounts allMem := by
  obtain ⟨hkernel, huser⟩ := pageCounts hmin
  have hkernelLe : kernelPages allMem ≤ 32767 := kernelPages_le
  have huserLe : userPages allMem ≤ 32768 := userPages_le
  have hsize : (memPoolInit allMem).kernelPool.poolSize.toNat = 4096 * kernelPages allMem := by
    rw [← hkernel]
    exact toNat_poolSize (by omega)
  have hbase : (4096 * 256 + 0x100000 : UInt32).toNat = 0x200000 := rfl
  refine ⟨rfl, hsize, ?_, ?_, ?_, ?_⟩
  · rw [← hkernel]
    exact toNat_bytesLen _
  · rw [← hsize]
    exact Word.toNat_add (by rw [hbase]; change _ + (memPoolInit allMem).kernelPool.poolSize.toNat < _; omega)
  · rw [← huser]
    exact toNat_poolSize (by omega)
  · rw [← huser]
    exact toNat_bytesLen _

/-- The pools that the machine starts with. -/
theorem boot_pools (hmin : 0x200000 ≤ allMem.toNat) :
    (Memory.boot allMem.toNat).kernelPool = ⟨⟨kernelPages allMem / 8, Bytes.zero⟩, 512⟩ ∧
    (Memory.boot allMem.toNat).userPool =
      ⟨⟨userPages allMem / 8, Bytes.zero⟩, 512 + kernelPages allMem⟩ := by
  have hlt := allMem.toNat_lt
  have hfree : (allMem.toNat + 2 ^ 32 - 0x200000) % 2 ^ 32 = allMem.toNat - 0x200000 := by omega
  have hpages : (allMem.toNat + 2 ^ 32 - 0x200000) % 2 ^ 32 / 4096 % 2 ^ 16 =
      freePages allMem % 65536 := by
    rw [hfree]
    rfl
  simp only [Memory.boot, hpages]
  exact ⟨rfl, rfl⟩

end Counts

section Palloc

variable {m : Memory} {i n : ℕ}

/-- `palloc` hands out the frames of a pool in their order, until all bits are set. -/
theorem pallocs_spec (pf : PoolFlags) (n : ℕ) : ∀ {m : Memory} {i : ℕ},
    i ≤ 8 * (m.pool pf).poolBitmap.btmpBytesLen →
    (∀ j < 8 * (m.pool pf).poolBitmap.btmpBytesLen,
      (m.pool pf).poolBitmap.scanTest j = decide (j < i)) →
    Exec.Returns (pallocs pf n) m fun frames m' =>
      (8 * (m.pool pf).poolBitmap.btmpBytesLen ≤ i + n →
        frames = List.range' ((m.pool pf).phyAddrStart + i)
          (8 * (m.pool pf).poolBitmap.btmpBytesLen - i) ∧ m'.nextFrame pf = none) ∧
      ∀ pf', pf' ≠ pf → m'.pool pf' = m.pool pf' := by
  induction n with
  | zero =>
    intro m i hle hbits
    refine ⟨fun hall => ?_, fun _ _ => rfl⟩
    obtain rfl : i = 8 * (m.pool pf).poolBitmap.btmpBytesLen := by omega
    rw [Nat.sub_self]
    refine ⟨rfl, ?_⟩
    rw [Memory.nextFrame, Option.map_eq_none_iff, Bitmap.scan_one_eq_none_iff]
    intro j hj
    rw [hbits j hj, decide_eq_true hj]
  | succ n ih =>
    intro m i hle hbits
    rw [Exec.Returns, pallocs, Exec.post_bind, post_palloc]
    cases hnext : m.nextFrame pf with
    | none =>
      refine ⟨fun _ => ?_, fun pf' _ => by rw [Memory.takeFrame_eq_self hnext]⟩
      have hscan := Option.map_eq_none_iff.mp hnext
      rw [Bitmap.scan_one_eq_none_iff] at hscan
      obtain rfl : i = 8 * (m.pool pf).poolBitmap.btmpBytesLen := by
        by_contra hne
        have hlt : i < 8 * (m.pool pf).poolBitmap.btmpBytesLen := by omega
        have hset := hscan i hlt
        rw [hbits i hlt, decide_eq_true_iff] at hset
        omega
      rw [Nat.sub_self, Memory.takeFrame_eq_self hnext]
      exact ⟨rfl, hnext⟩
    | some frame =>
      obtain ⟨bitIdx, hscan, hframe⟩ := Option.map_eq_some_iff.mp hnext
      obtain ⟨hlt, hclear, hbelow⟩ := Bitmap.scan_one_eq_some_iff.mp hscan
      -- the first clear bit is the one after those taken so far
      obtain rfl : bitIdx = i := by
        rw [hbits bitIdx hlt, decide_eq_false_iff_not] at hclear
        by_contra hne
        have hset := hbelow i (by omega)
        rw [hbits i (by omega), decide_eq_true_iff] at hset
        omega
      have htake : m.takeFrame pf =
          m.setPoolBitmap pf ((m.pool pf).poolBitmap.set bitIdx true) := by
        rw [Memory.takeFrame, hscan]
      have hbits' : ∀ j < 8 * ((m.takeFrame pf).pool pf).poolBitmap.btmpBytesLen,
          ((m.takeFrame pf).pool pf).poolBitmap.scanTest j = decide (j < bitIdx + 1) := by
        intro j hj
        rw [Memory.takeFrame_len] at hj
        rw [htake, Memory.setPoolBitmap_poolBitmap, if_pos rfl, Bitmap.scanTest_set]
        split
        · rename_i heq
          rw [heq, decide_eq_true (Nat.lt_succ_self _)]
        · rename_i hne
          rw [hbits j hj]
          exact decide_eq_decide.mpr (by omega)
      have hle' : bitIdx + 1 ≤ 8 * ((m.takeFrame pf).pool pf).poolBitmap.btmpBytesLen := by
        rw [Memory.takeFrame_len]
        omega
      refine Exec.Returns.bind (ih hle' hbits') fun frames m' hm' => ?_
      rw [Memory.takeFrame_len, Memory.takeFrame_start] at hm'
      refine ⟨fun hall => ?_, fun pf' hne => ?_⟩
      · obtain ⟨rfl, hnone⟩ := hm'.1 (by omega)
        refine ⟨?_, hnone⟩
        rw [← hframe, show 8 * (m.pool pf).poolBitmap.btmpBytesLen - bitIdx =
          8 * (m.pool pf).poolBitmap.btmpBytesLen - (bitIdx + 1) + 1 by omega, List.range'_succ]
        rfl
      · rw [hm'.2 pf' hne, htake]
        cases pf <;> cases pf' <;> first | rfl | exact absurd rfl hne

end Palloc

section Layout

variable {allMem : UInt32}

/-- The frames `start .. start + cnt - 1` are those of a pool that is large enough. -/
theorem owns_range' {p : PoolInit} {start cnt : ℕ} (hstart : p.phyAddrStart.toNat = 4096 * start)
    (hsize : 4096 * cnt ≤ p.poolSize.toNat) : p.Owns (List.range' start cnt) := by
  refine ⟨List.nodup_range', fun f hf => ?_⟩
  obtain ⟨hlo, hhi⟩ := List.mem_range'_1.mp hf
  omega

/-- `palloc` hands out the frames that the bitmaps have bits for. -/
theorem pallocAll_spec {m : Memory} {k u start start' n : ℕ}
    (hkernel : m.kernelPool = ⟨⟨k, Bytes.zero⟩, start⟩) (huser : m.userPool = ⟨⟨u, Bytes.zero⟩, start'⟩)
    (hk : 8 * k ≤ n) (hu : 8 * u ≤ n) :
    Exec.Returns (pallocAll n) m fun frames m' =>
      frames = (List.range' start (8 * k), List.range' start' (8 * u)) ∧
      m'.nextFrame .pfKernel = none ∧ m'.nextFrame .pfUser = none := by
  have hpool : m.pool .pfKernel = ⟨⟨k, Bytes.zero⟩, start⟩ := hkernel
  have hpool' : m.pool .pfUser = ⟨⟨u, Bytes.zero⟩, start'⟩ := huser
  have hzero (len j : ℕ) : (Bitmap.mk len Bytes.zero).scanTest j = decide (j < 0) := by
    rw [decide_eq_false (Nat.not_lt_zero j), Bitmap.scanTest]
    simp [Bytes.zero]
  have hfirst := pallocs_spec .pfKernel n (m := m) (i := 0) (Nat.zero_le _)
    (fun j _ => by
      rw [hpool]
      exact hzero k j)
  refine Exec.Returns.bind hfirst fun kernel m₁ hm₁ => ?_
  obtain ⟨hframes, hother⟩ := hm₁
  rw [hpool] at hframes
  obtain ⟨rfl, hnone⟩ := hframes (by rw [Nat.zero_add]; exact hk)
  have hpool₁ : m₁.pool .pfUser = ⟨⟨u, Bytes.zero⟩, start'⟩ := (hother .pfUser (by simp)).trans hpool'
  have hclear : ∀ j < 8 * (m₁.pool .pfUser).poolBitmap.btmpBytesLen,
      (m₁.pool .pfUser).poolBitmap.scanTest j = decide (j < 0) := by
    intro j _
    rw [hpool₁]
    exact hzero u j
  have hsecond := pallocs_spec .pfUser n (Nat.zero_le _) hclear
  refine Exec.Returns.bind hsecond fun user m₂ hm₂ => ?_
  obtain ⟨hframes', hother'⟩ := hm₂
  rw [hpool₁] at hframes'
  obtain ⟨rfl, hnone'⟩ := hframes' (by rw [Nat.zero_add]; exact hu)
  refine ⟨rfl, ?_, hnone'⟩
  rw [Memory.nextFrame, hother' .pfKernel (by simp)]
  exact hnone

/-- The pools share out the free pages exactly of a memory of less than 258 megabytes. -/
theorem poolsLaidOut_iff (hmin : 0x200000 + 4096 ≤ allMem.toNat) :
    PoolsLaidOut allMem ↔ allMem.toNat < 0x10200000 := by
  have hmin' : 0x200000 ≤ allMem.toNat := by omega
  obtain ⟨hkStart, hkSize, hkLen, huStart, huSize, huLen⟩ := poolCounts hmin'
  have hsum : kernelPages allMem + userPages allMem = freePages allMem % 65536 := by
    unfold userPages kernelPages
    omega
  have hiff : freePages allMem < 65536 ↔ allMem.toNat < 0x10200000 := by
    unfold freePages
    omega
  rw [← hiff]
  constructor
  · intro h
    have hcovers := h.covers
    omega
  · intro hlt
    rw [Nat.mod_eq_of_lt hlt] at hsum
    have hkernelLe : kernelPages allMem ≤ 32767 := kernelPages_le
    have huserLe : userPages allMem ≤ 32768 := userPages_le
    have hbase : memBitmapBase.toNat = 0xc009a000 := rfl
    have huBits : (memPoolInit allMem).userPool.bits.toNat =
        memBitmapBase.toNat + (memPoolInit allMem).kernelPool.btmpBytesLen.toNat :=
      Word.toNat_add (by change _ + (memPoolInit allMem).kernelPool.btmpBytesLen.toNat < _; omega)
    have hvBits : (memPoolInit allMem).vaddrBits.toNat =
        (memPoolInit allMem).userPool.bits.toNat + (memPoolInit allMem).userPool.btmpBytesLen.toNat :=
      Word.toNat_add (by
        change (memPoolInit allMem).userPool.bits.toNat +
          (memPoolInit allMem).userPool.btmpBytesLen.toNat < _
        omega)
    have hvLen : (memPoolInit allMem).vaddrBytesLen = (memPoolInit allMem).kernelPool.btmpBytesLen := rfl
    refine ⟨hkStart, by omega, ?_, by omega, fun n hn => ?_, rfl, huBits, hvBits, ?_⟩
    · unfold freePages at hsum
      omega
    · obtain ⟨hkernel, huser⟩ := boot_pools hmin'
      refine (pallocAll_spec hkernel huser (by omega) (by omega)).mono fun frames m hm => ?_
      obtain ⟨rfl, hnone, hnone'⟩ := hm
      refine ⟨owns_range' (by omega) (by omega), owns_range' (by omega) (by omega), ?_, hnone, hnone'⟩
      simp only [List.length_range']
      omega
    · rw [hvLen]
      omega

/-- A machine with 32 megabytes. -/
theorem poolsLaidOut_iff_32 : (32 * 0x100000 : UInt32).toNat < 0x10200000 ∧
    PoolsLaidOut (32 * 0x100000) :=
  ⟨by decide, (poolsLaidOut_iff (by decide)).mpr (by decide)⟩

/-- With 258 megabytes the count of free pages wraps around to zero: both pools are empty. -/
theorem not_poolsLaidOut : ¬ ∀ allMem : UInt32, 0x200000 + 4096 ≤ allMem.toNat →
    PoolsLaidOut allMem := by
  intro hall
  have hcovers := (hall 0x10200000 (by decide)).covers
  exact absurd hcovers (by decide)

end Layout

end Winx
