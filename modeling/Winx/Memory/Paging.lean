import Winx.Kernel.Bitmap
import Winx.Kernel.Fault

/-! # Paging

The frames of the machine, two-level page tables in them, and the code that
allocates, maps and frees pages. Frames and pages go by their numbers, words by
their number in the address space; every access of the code goes through the
active page directory, whose last entry is the directory itself. What the code
sees of the translation lookaside buffer is not part of this state.
-/

namespace Winx

/-- `enum pool_flags` -/
inductive PoolFlags
  | pfKernel
  | pfUser
  deriving DecidableEq, Repr

/-- `struct pool` -/
structure Pool where
  poolBitmap : Bitmap
  phyAddrStart : ℕ

/-- `struct virtual_addr`. The bits of a process are in the kernel pages from `bits` on. -/
structure VirtualAddr where
  vaddrBitmap : Bitmap
  bits : ℕ
  vaddrStart : ℕ

/-- `struct task_struct`, as far as memory management uses it. `pgdir` is the page of the page
directory, 0 for a kernel thread. -/
structure MemTask where
  pgdir : ℕ
  userprogVaddr : VirtualAddr

/-- The memory of the machine, the active page directory and what the kernel knows of them. A thread
is named by the page of its PCB. -/
structure Memory where
  phys : ℕ → ℕ → UInt32
  cr3 : ℕ
  kernelPool : Pool
  userPool : Pool
  kernelVaddr : VirtualAddr
  task : ℕ → Option MemTask
  cur : ℕ

/-- Code on memory. -/
abbrev MemM (α : Type) := Exec Memory Fault α

/-- A page-table entry that maps a frame: `page_phyaddr | PG_US_U | PG_RW_W | PG_P_1`. -/
def entry (frame : ℕ) : UInt32 := UInt32.ofNat (4096 * frame) ||| 4 ||| 2 ||| 1

/-- `entry & PG_P_1` -/
def entryPresent (e : UInt32) : Bool := e &&& 1 != 0

/-- The number of the frame in an entry: `entry & 0xfffff000`. -/
def entryFrame (e : UInt32) : ℕ := e.toNat / 4096

/-- The page of `pte_ptr` for the first page: `0xffc00000`. -/
def pteBase : ℕ := 0xffc00

/-- The number of the word that `pde_ptr` points to. -/
def pdePtr (vaddr : ℕ) : ℕ := 0xfffff * 1024 + vaddr / 1024

/-- The number of the word that `pte_ptr` points to. -/
def ptePtr (vaddr : ℕ) : ℕ := pteBase * 1024 + vaddr

/-- The frame of the page directory that the loader made. -/
def bootDir : ℕ := 0x100

/-- The first page of the kernel, `0xc0000000`. -/
def kernelBase : ℕ := 0xc0000

/-- `K_HEAP_START` -/
def kHeapStart : ℕ := 0xc0100

/-- `USER_VADDR_START` -/
def userVaddrStart : ℕ := 0x8048

/-- `(0xc0000000 - USER_VADDR_START) / PG_SIZE / 8` -/
def userBitmapLen : ℕ := (kernelBase - userVaddrStart) / 8

/-- `DIV_ROUND_UP((0xc0000000 - USER_VADDR_START) / PG_SIZE / 8, PG_SIZE)` -/
def bitmapPgCnt : ℕ := (userBitmapLen + 4096 - 1) / 4096

namespace Memory

variable (m : Memory)

/-- Change the words of one frame. -/
@[simps -fullyApplied] def setFrame (frame : ℕ) (words : ℕ → UInt32) : Memory :=
  { m with phys := Function.update m.phys frame words }

/-- Change one word of a frame. -/
def setWord (frame i : ℕ) (w : UInt32) : Memory :=
  m.setFrame frame (Function.update (m.phys frame) i w)

/-- Change the active page directory. -/
@[simps -fullyApplied] def setCr3 (frame : ℕ) : Memory := { m with cr3 := frame }

/-- Change the map of virtual pages of the kernel. -/
@[simps -fullyApplied] def setKernelBitmap (b : Bitmap) : Memory :=
  { m with kernelVaddr := { m.kernelVaddr with vaddrBitmap := b } }

/-- Change a thread. -/
@[simps -fullyApplied] def setTask (p : ℕ) (t : Option MemTask) : Memory :=
  { m with task := Function.update m.task p t }

/-- Change the running thread. -/
@[simps -fullyApplied] def setCur (p : ℕ) : Memory := { m with cur := p }

/-- The pool that frames are taken from. -/
def pool : PoolFlags → Pool
  | .pfKernel => m.kernelPool
  | .pfUser => m.userPool

/-- Change the map of frames of a pool. -/
def setPoolBitmap (pf : PoolFlags) (b : Bitmap) : Memory :=
  match pf with
  | .pfKernel => { m with kernelPool := { m.kernelPool with poolBitmap := b } }
  | .pfUser => { m with userPool := { m.userPool with poolBitmap := b } }

/-- The frame that a page directory maps a page to. -/
def walk (dir vaddr : ℕ) : Option ℕ :=
  let pde := m.phys dir (vaddr / 1024)
  if entryPresent pde then
    let pte := m.phys (entryFrame pde) (vaddr % 1024)
    if entryPresent pte then some (entryFrame pte) else none
  else none

end Memory

/-- `t->userprog_vaddr.vaddr_bitmap = b` -/
@[simps -fullyApplied] def MemTask.setBitmap (t : MemTask) (b : Bitmap) : MemTask :=
  { t with userprogVaddr := { t.userprogVaddr with vaddrBitmap := b } }

/-- The frame of a page, by the active page directory. Without one there is a page fault. -/
def translate (vaddr : ℕ) : MemM ℕ := do
  let m ← get
  deref (m.walk m.cr3 vaddr)

/-- Load a word. -/
def load (addr : ℕ) : MemM UInt32 := do
  let frame ← translate (addr / 1024)
  let m ← get
  pure (m.phys frame (addr % 1024))

/-- Store a word. -/
def store (addr : ℕ) (w : UInt32) : MemM Unit := do
  let frame ← translate (addr / 1024)
  modify fun m => m.setWord frame (addr % 1024) w

/-- `memset(vaddr, 0, PG_SIZE)` -/
def clearPage (vaddr : ℕ) : MemM Unit := do
  let frame ← translate vaddr
  modify fun m => m.setFrame frame fun _ => 0

/-- `memset(vaddr, 0, cnt * PG_SIZE)` -/
def clearPages (vaddr : ℕ) : ℕ → MemM Unit
  | 0 => pure ()
  | cnt + 1 => do
    clearPages vaddr cnt
    clearPage (vaddr + cnt)

/-- `memcpy(dst, src, PG_SIZE)` -/
def copyPage (dst src : ℕ) : MemM Unit := do
  let srcFrame ← translate src
  let dstFrame ← translate dst
  modify fun m => m.setFrame dstFrame (m.phys srcFrame)

/-- The PCB of `running_thread`. -/
def curTask : MemM MemTask := do
  let m ← get
  deref (m.task m.cur)

/-- Store to the PCB of a thread. -/
def storeTask (p : ℕ) (t : MemTask) : MemM Unit := modify fun m => m.setTask p (some t)

/-- `vaddr_get` -/
def vaddrGet (pf : PoolFlags) (pgCnt : ℕ) : MemM (Option ℕ) := do
  let m ← get
  match pf with
  | .pfKernel =>
    match m.kernelVaddr.vaddrBitmap.scan pgCnt with
    | none => pure none
    | some bitIdxStart =>
      set (m.setKernelBitmap (m.kernelVaddr.vaddrBitmap.setRun bitIdxStart true pgCnt))
      pure (some (m.kernelVaddr.vaddrStart + bitIdxStart))
  | .pfUser =>
    let cur ← curTask
    match cur.userprogVaddr.vaddrBitmap.scan pgCnt with
    | none => pure none
    | some bitIdxStart =>
      storeTask m.cur (cur.setBitmap (cur.userprogVaddr.vaddrBitmap.setRun bitIdxStart true pgCnt))
      assert (cur.userprogVaddr.vaddrStart + bitIdxStart < kernelBase - 1)
      pure (some (cur.userprogVaddr.vaddrStart + bitIdxStart))

/-- `palloc` -/
def palloc (pf : PoolFlags) : MemM (Option ℕ) := do
  let m ← get
  match (m.pool pf).poolBitmap.scan 1 with
  | none => pure none
  | some bitIdx =>
    set (m.setPoolBitmap pf ((m.pool pf).poolBitmap.set bitIdx true))
    pure (some ((m.pool pf).phyAddrStart + bitIdx))

/-- `page_table_add`. The page table may come from `palloc` as `NULL`, which is frame 0. -/
def pageTableAdd (vaddr pagePhyaddr : ℕ) : MemM Unit := do
  let pde ← load (pdePtr vaddr)
  if entryPresent pde then
    let pte ← load (ptePtr vaddr)
    assert (¬ entryPresent pte)
    store (ptePtr vaddr) (entry pagePhyaddr)
  else
    let pdePhyaddr ← palloc .pfKernel
    store (pdePtr vaddr) (entry (pdePhyaddr.getD 0))
    clearPage (ptePtr vaddr / 1024)
    let pte ← load (ptePtr vaddr)
    assert (¬ entryPresent pte)
    store (ptePtr vaddr) (entry pagePhyaddr)

/-- The loop of `malloc_page`. -/
def mapPages (pf : PoolFlags) : ℕ → ℕ → MemM Bool
  | _, 0 => pure true
  | vaddr, cnt + 1 => do
    let pagePhyaddr ← palloc pf
    match pagePhyaddr with
    | none => pure false
    | some frame =>
      pageTableAdd vaddr frame
      mapPages pf (vaddr + 1) cnt

/-- `malloc_page` -/
def mallocPage (pf : PoolFlags) (pgCnt : ℕ) : MemM (Option ℕ) := do
  assert (0 < pgCnt ∧ pgCnt < 3840)
  let vaddrStart ← vaddrGet pf pgCnt
  match vaddrStart with
  | none => pure none
  | some vaddr =>
    let mapped ← mapPages pf vaddr pgCnt
    if mapped then pure (some vaddr) else pure none

/-- `get_kernel_pages` -/
def getKernelPages (pgCnt : ℕ) : MemM (Option ℕ) := do
  let vaddr ← mallocPage .pfKernel pgCnt
  match vaddr with
  | none => pure none
  | some v =>
    clearPages v pgCnt
    pure (some v)

/-- `get_a_page`. A page outside of the range of the bitmap sets a bit outside of it. -/
def getAPage (pf : PoolFlags) (vaddr : ℕ) : MemM (Option ℕ) := do
  let m ← get
  let cur ← curTask
  if cur.pgdir ≠ 0 ∧ pf = .pfUser then
    let va := cur.userprogVaddr
    inBounds (va.vaddrStart ≤ vaddr ∧ vaddr - va.vaddrStart < 8 * va.vaddrBitmap.btmpBytesLen)
    storeTask m.cur (cur.setBitmap (va.vaddrBitmap.set (vaddr - va.vaddrStart) true))
  else if cur.pgdir = 0 ∧ pf = .pfKernel then
    let va := m.kernelVaddr
    inBounds (va.vaddrStart ≤ vaddr ∧ vaddr - va.vaddrStart < 8 * va.vaddrBitmap.btmpBytesLen)
    assert (0 < vaddr - va.vaddrStart)
    set (m.setKernelBitmap (va.vaddrBitmap.set (vaddr - va.vaddrStart) true))
  else throw .assertFailed
  let pagePhyaddr ← palloc pf
  match pagePhyaddr with
  | none => pure none
  | some frame =>
    pageTableAdd vaddr frame
    pure (some vaddr)

/-- `get_a_page_without_opvaddrbitmap` -/
def getAPageWithoutOpvaddrbitmap (pf : PoolFlags) (vaddr : ℕ) : MemM (Option ℕ) := do
  let pagePhyaddr ← palloc pf
  match pagePhyaddr with
  | none => pure none
  | some frame =>
    pageTableAdd vaddr frame
    pure (some vaddr)

/-- `pfree` and `free_a_phy_page`, which are the same. A frame of no pool clears a bit outside of
the bitmap. -/
def pfree (frame : ℕ) : MemM Unit := do
  let m ← get
  let pf := if m.userPool.phyAddrStart ≤ frame then .pfUser else .pfKernel
  let pool := m.pool pf
  inBounds (pool.phyAddrStart ≤ frame ∧
    frame - pool.phyAddrStart < 8 * pool.poolBitmap.btmpBytesLen)
  set (m.setPoolBitmap pf (pool.poolBitmap.set (frame - pool.phyAddrStart) false))

/-- `addr_v2p` of the start of a page. The entry need not be present. -/
def addrV2p (vaddr : ℕ) : MemM ℕ := do
  let pte ← load (ptePtr vaddr)
  pure (entryFrame pte)

/-- `page_table_pte_remove` -/
def pageTablePteRemove (vaddr : ℕ) : MemM Unit := do
  let pte ← load (ptePtr vaddr)
  store (ptePtr vaddr) (pte &&& ~~~1)

/-- `vaddr_remove` -/
def vaddrRemove (pf : PoolFlags) (vaddr pgCnt : ℕ) : MemM Unit := do
  let m ← get
  match pf with
  | .pfKernel =>
    let va := m.kernelVaddr
    inBounds (va.vaddrStart ≤ vaddr ∧
      vaddr - va.vaddrStart + pgCnt ≤ 8 * va.vaddrBitmap.btmpBytesLen)
    set (m.setKernelBitmap (va.vaddrBitmap.setRun (vaddr - va.vaddrStart) false pgCnt))
  | .pfUser =>
    let cur ← curTask
    let va := cur.userprogVaddr
    inBounds (va.vaddrStart ≤ vaddr ∧
      vaddr - va.vaddrStart + pgCnt ≤ 8 * va.vaddrBitmap.btmpBytesLen)
    storeTask m.cur (cur.setBitmap (va.vaddrBitmap.setRun (vaddr - va.vaddrStart) false pgCnt))

/-- The loops of `mfree_page`. `isUser` says which of them runs. -/
def unmapPages (isUser : Bool) (vaddr : ℕ) : ℕ → MemM Unit
  | 0 => pure ()
  | cnt + 1 => do
    unmapPages isUser vaddr cnt
    let frame ← addrV2p (vaddr + cnt)
    let m ← get
    assert (if isUser then m.userPool.phyAddrStart ≤ frame
      else m.kernelPool.phyAddrStart ≤ frame ∧ frame < m.userPool.phyAddrStart)
    pfree frame
    pageTablePteRemove (vaddr + cnt)

/-- `mfree_page` -/
def mfreePage (pf : PoolFlags) (vaddr pgCnt : ℕ) : MemM Unit := do
  assert (1 ≤ pgCnt)
  let frame ← addrV2p vaddr
  assert (0x102 ≤ frame)
  let m ← get
  unmapPages (m.userPool.phyAddrStart ≤ frame) vaddr pgCnt
  vaddrRemove pf vaddr pgCnt

/-- `create_page_dir`. The entries of the kernel are copied through the last entry of the active
directory. -/
def createPageDir : MemM (Option ℕ) := do
  let pageDirVaddr ← getKernelPages 1
  match pageDirVaddr with
  | none => pure none
  | some pageDir =>
    let srcFrame ← translate 0xfffff
    let dstFrame ← translate pageDir
    modify fun m => m.setFrame dstFrame fun i =>
      if 768 ≤ i ∧ i < 1023 then m.phys srcFrame i else m.phys dstFrame i
    let newPageDirPhyAddr ← addrV2p pageDir
    store (pageDir * 1024 + 1023) (entry newPageDirPhyAddr)
    pure (some pageDir)

/-- `page_dir_activate` -/
def pageDirActivate (t : MemTask) : MemM Unit := do
  if t.pgdir = 0 then modify fun m => m.setCr3 bootDir
  else
    let pagedirPhyAddr ← addrV2p t.pgdir
    modify fun m => m.setCr3 pagedirPhyAddr

/-- `create_user_vaddr_bitmap`, which does not check what it got. -/
def createUserVaddrBitmap : MemM VirtualAddr := do
  let bits ← getKernelPages bitmapPgCnt
  let bits ← deref bits
  pure ⟨⟨userBitmapLen, Bytes.zero⟩, bits, userVaddrStart⟩

/-- `process_execute`, as far as it asks for memory. Without a page for the PCB it stores to address
0. -/
def processExecute : MemM Unit := do
  let thread ← getKernelPages 1
  let thread ← deref thread
  let va ← createUserVaddrBitmap
  let pgdir ← createPageDir
  storeTask thread ⟨pgdir.getD 0, va⟩

/-- A switch to another thread: `process_activate` in `schedule`. -/
def switchTo (p : ℕ) : MemM Unit := do
  let m ← get
  let t ← deref (m.task p)
  modify fun m => m.setCur p
  pageDirActivate t

/-- The memory of a machine after the loader and `mem_pool_init`, with `all_mem` bytes. The thread
of the kernel runs on the directory of the loader. -/
def Memory.boot (allMem : ℕ) : Memory :=
  let usedMem := 0x200000
  let freeMem := (allMem + 2 ^ 32 - usedMem) % 2 ^ 32
  let allFreePages := freeMem / 4096 % 2 ^ 16
  let kernelFreePages := allFreePages / 2
  let userFreePages := allFreePages - kernelFreePages
  let kbmLength := kernelFreePages / 8
  let ubmLength := userFreePages / 8
  { phys := fun frame i =>
      if frame = bootDir then
        if i = 0 then entry 0x101
        else if i = 1023 then entry bootDir
        else if 768 ≤ i then entry (0x101 + (i - 768))
        else 0
      else if frame = 0x101 ∧ i < 256 then entry i
      else 0
    cr3 := bootDir
    kernelPool := ⟨⟨kbmLength, Bytes.zero⟩, usedMem / 4096⟩
    userPool := ⟨⟨ubmLength, Bytes.zero⟩, usedMem / 4096 + kernelFreePages⟩
    kernelVaddr := ⟨⟨kbmLength, Bytes.zero⟩, 0xc009a + (kbmLength + ubmLength) / 4096, kHeapStart⟩
    task := fun p => if p = 0xc009e then some ⟨0, ⟨⟨0, Bytes.zero⟩, 0, 0⟩⟩ else none
    cur := 0xc009e }

end Winx
