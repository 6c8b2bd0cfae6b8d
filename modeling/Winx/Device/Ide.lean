import Winx.Fs.State
import Winx.Lib.Word

/-! # Transfers from and to a disk

`ide_read` and `ide_write` split a transfer into commands of at most 256 sectors.
The sector count of a command is a register of eight bits, in which 0 stands for
256, and the loops that move the data read the count in the same way. So all
sectors are transferred, in order, and each to its place in the buffer.
-/

namespace Winx

namespace Ide

/-- A command of a disk controller: its code, whether it goes to the second disk, and the sectors it
asks for. -/
structure Command where
  code : UInt8
  second : Bool
  lba : ℕ
  secCnt : ℕ
  deriving DecidableEq, Repr

/-- A channel: its registers, the sectors its last command has still to transfer, the commands it was
given, and the sectors that were moved with their places in memory. `status n` is what the status
register will show when it is read the `n`-th time from now. -/
structure Channel where
  sectCnt : UInt8
  lbaL : UInt8
  lbaM : UInt8
  lbaH : UInt8
  dev : UInt8
  pending : List ℕ
  commands : List Command
  moved : List (ℕ × UInt32)
  status : ℕ → UInt8

/-- Code that uses a channel. -/
abbrev IdeM (α : Type) := Exec Channel Fault α

/-- `BIT_DEV_MBS`, `BIT_DEV_LBA` and `BIT_DEV_DEV` -/
def bitDevMbs : UInt32 := 0xa0

def bitDevLba : UInt32 := 0x40

def bitDevDev : UInt32 := 0x10

/-- `BIT_STAT_BSY` and `BIT_STAT_DRQ` -/
def bitStatBsy : UInt8 := 0x80

def bitStatDrq : UInt8 := 0x8

/-- `CMD_READ_SECTOR` and `CMD_WRITE_SECTOR` -/
def cmdReadSector : UInt8 := 0x20

def cmdWriteSector : UInt8 := 0x30

/-- The number of sectors that a byte stands for. -/
def sectors (secCnt : UInt8) : ℕ := if secCnt = 0 then 256 else secCnt.toNat

/-- `select_disk` -/
def selectDisk (devNo : UInt8) : IdeM Unit :=
  modify fun c =>
    { c with dev := (bitDevMbs ||| bitDevLba ||| if devNo = 1 then bitDevDev else 0).toUInt8 }

/-- `select_sector` -/
def selectSector (devNo : UInt8) (lba : UInt32) (secCnt : UInt8) : IdeM Unit := do
  assert (lba ≤ maxLba)
  modify fun c =>
    { c with
      sectCnt := secCnt
      lbaL := lba.toUInt8
      lbaM := (lba >>> 8).toUInt8
      lbaH := (lba >>> 16).toUInt8
      dev := (bitDevMbs ||| bitDevLba ||| (if devNo = 1 then bitDevDev else 0) |||
        (lba >>> 24)).toUInt8 }

/-- The command that the registers spell out. -/
def Channel.command (c : Channel) (code : UInt8) : Command where
  code := code
  second := c.dev &&& 0x10 != 0
  lba := c.lbaL.toNat + 256 * c.lbaM.toNat + 65536 * c.lbaH.toNat + 16777216 * (c.dev &&& 0xf).toNat
  secCnt := sectors c.sectCnt

/-- `cmd_out`: the controller takes the command. -/
def cmdOut (code : UInt8) : IdeM Unit :=
  modify fun c =>
    { c with
      pending := List.range' (c.command code).lba (c.command code).secCnt
      commands := c.commands ++ [c.command code] }

/-- A read of the status register. -/
def inbStatus : IdeM UInt8 := do
  let c ← get
  set { c with status := fun n => c.status (n + 1) }
  pure (c.status 0)

/-- The loop of `busy_wait`, whose condition `time_limit -= 10 >= 0` takes 1 from the limit. -/
def busyWaitLoop : ℕ → IdeM Bool
  | 0 => pure false
  | timeLimit + 1 =>
    if timeLimit = 0 then pure false
    else do
      let status ← inbStatus
      if status &&& bitStatBsy = 0 then
        let status ← inbStatus
        pure (status &&& bitStatDrq ≠ 0)
      else busyWaitLoop timeLimit

/-- `busy_wait` -/
def busyWait : IdeM Bool := busyWaitLoop (30 * 1000)

/-- `read_from_sector` and `write2sector`: the words of as many sectors as the byte stands for go
between the controller and the memory from `buf` on. -/
def moveSectors (buf : UInt32) (secCnt : UInt8) : IdeM Unit := do
  let sizeInByte := if secCnt = 0 then 256 * 512 else secCnt.toNat * 512
  let n := sizeInByte / 2 * 2 / 512
  let c ← get
  inBounds (n ≤ c.pending.length)
  set { c with
    pending := c.pending.drop n
    moved := c.moved ++ (c.pending.take n).zipIdx.map fun x : ℕ × ℕ => (x.1, buf + UInt32.ofNat (512 * x.2)) }

/-- The loop of `ide_read` and of `ide_write`. -/
def transferLoop (code devNo : UInt8) (lba buf secCnt : UInt32) : ℕ → UInt32 → IdeM Unit
  | 0, _ => throw .diverged
  | fuel + 1, secsDone =>
    if secsDone < secCnt then do
      let secsOp := if secsDone + 256 ≤ secCnt then 256 else secCnt - secsDone
      selectSector devNo (lba + secsDone) secsOp.toUInt8
      cmdOut code
      let ok ← busyWait
      assert (ok = true)
      moveSectors (buf + secsDone * 512) secsOp.toUInt8
      transferLoop code devNo lba buf secCnt fuel (secsDone + secsOp)
    else pure ()

/-- What `ide_read` and `ide_write` do, apart from the direction. -/
def transfer (code devNo : UInt8) (lba buf secCnt : UInt32) : IdeM Unit := do
  assert (lba ≤ maxLba)
  assert (0 < secCnt)
  selectDisk devNo
  transferLoop code devNo lba buf secCnt (secCnt.toNat + 1) 0

/-- `ide_read` -/
def ideRead (devNo : UInt8) (lba buf secCnt : UInt32) : IdeM Unit :=
  transfer cmdReadSector devNo lba buf secCnt

/-- `ide_write` -/
def ideWrite (devNo : UInt8) (lba buf secCnt : UInt32) : IdeM Unit :=
  transfer cmdWriteSector devNo lba buf secCnt

/-- The sectors of a transfer and their places in the buffer. -/
def sectorMoves (lba : ℕ) (buf : UInt32) (cnt : ℕ) : List (ℕ × UInt32) :=
  (List.range cnt).map fun i => (lba + i, buf + UInt32.ofNat (512 * i))

/-- From channel `c` to channel `c'` the sectors of a transfer were moved, once and in order, by
commands for these sectors of the disk, each for at most 256. -/
structure Transferred (c c' : Channel) (code devNo : UInt8) (lba : ℕ) (buf : UInt32) (cnt : ℕ) :
    Prop where
  moved : c'.moved = c.moved ++ sectorMoves lba buf cnt
  commands : ∃ l, c'.commands = c.commands ++ l ∧
    l.flatMap (fun cmd => List.range' cmd.lba cmd.secCnt) = List.range' lba cnt ∧
    ∀ cmd ∈ l, cmd.code = code ∧ cmd.second = (devNo == 1) ∧ cmd.secCnt ≤ 256

/-- The controller always has data and is never busy. -/
def Ready (c : Channel) : Prop :=
  ∀ n, c.status n &&& bitStatBsy = 0 ∧ c.status n &&& bitStatDrq ≠ 0

variable {c : Channel} {code devNo : UInt8} {lba buf secCnt : UInt32} {n : ℕ}

section Turn

/-- The registers spell out the number of a sector. -/
theorem lba_spec (h : lba ≤ maxLba) :
    (lba.toUInt8.toNat + 256 * (lba >>> 8).toUInt8.toNat + 65536 * (lba >>> 16).toUInt8.toNat) =
      lba.toNat := by
  have hlt : lba.toNat ≤ 163839 := UInt32.le_iff_toNat_le.mp h
  simp only [UInt32.toNat_toUInt8, UInt32.toNat_shiftRight, UInt32.reduceToNat, Nat.reduceMod,
    Nat.shiftRight_eq_div_pow, Nat.reducePow]
  omega

/-- The register of the device holds no bits of the sector. -/
theorem dev_spec (h : lba ≤ maxLba) : (bitDevMbs ||| bitDevLba ||| (if devNo = 1 then bitDevDev else 0) |||
    (lba >>> 24)).toUInt8 = if devNo = 1 then 0xf0 else 0xe0 := by
  have hlt : lba.toNat ≤ 163839 := UInt32.le_iff_toNat_le.mp h
  have hzero : lba >>> 24 = 0 := by
    apply UInt32.toNat_inj.mp
    simp only [UInt32.toNat_shiftRight, UInt32.reduceToNat, Nat.reduceMod, Nat.shiftRight_eq_div_pow,
      Nat.reducePow]
    omega
  rw [hzero]
  split
  · decide
  · decide

/-- A count of at most 256 sectors as a byte. -/
theorem sectors_toUInt8 (h0 : 0 < n) (h : n ≤ 256) : sectors (UInt32.ofNat n).toUInt8 = n := by
  have hnat : (UInt32.ofNat n).toUInt8.toNat = n % 256 := by
    rw [UInt32.toNat_toUInt8, Word.toNat_ofNat (by omega)]
  unfold sectors
  split
  · rename_i hz
    have hz : n % 256 = 0 := hnat ▸ congrArg UInt8.toNat hz
    omega
  · rename_i hz
    have hz : n % 256 ≠ 0 := fun hmod => hz (UInt8.toNat_inj.mp (hnat.trans hmod))
    omega

/-- The sectors of a command with their places. -/
theorem zipIdx_range' (first : ℕ) :
    (List.range' first n).zipIdx.map (fun x : ℕ × ℕ => (x.1, buf + UInt32.ofNat (512 * x.2))) =
      sectorMoves first buf n := by
  apply List.ext_getElem
  · simp [sectorMoves]
  · intro i h1 h2
    simp [sectorMoves]

/-- Moving the sectors of a command. -/
theorem post_moveSectors {Q : Unit → Channel → Prop} {E : Fault → Prop} {first : ℕ}
    (hpending : c.pending = List.range' first n) (h0 : 0 < n) (h : n ≤ 256) :
    Exec.Post (moveSectors buf (UInt32.ofNat n).toUInt8) c Q E ↔
      Q () { c with pending := [], moved := c.moved ++ sectorMoves first buf n } := by
  have hsize : (if (UInt32.ofNat n).toUInt8 = 0 then 256 * 512
      else (UInt32.ofNat n).toUInt8.toNat * 512) / 2 * 2 / 512 = n := by
    have hcnt := sectors_toUInt8 h0 h
    unfold sectors at hcnt
    split at hcnt
    · rw [if_pos ‹_›]
      omega
    · rw [if_neg ‹_›]
      omega
  have hlen : c.pending.length = n := by rw [hpending, List.length_range']
  have hmoves : (c.pending.take n).zipIdx.map
      (fun x : ℕ × ℕ => (x.1, buf + UInt32.ofNat (512 * x.2))) = sectorMoves first buf n := by
    rw [List.take_of_length_le hlen.le, hpending, zipIdx_range']
  simp only [moveSectors, hsize, Exec.post_bind, Exec.post_get, post_inBounds, Exec.post_set, hlen,
    le_refl, true_implies, not_true_eq_false, false_implies, and_true, hmoves,
    List.drop_of_length_le hlen.le]

/-- Waiting reads the status register, and fails only if the controller is busy or has no data. -/
theorem busyWaitLoop_spec (timeLimit : ℕ) :
    Exec.Returns (busyWaitLoop timeLimit) c fun ok c' =>
      (∃ k, c' = { c with status := fun n => c.status (n + k) }) ∧
        (Ready c → 1 < timeLimit → ok = true) := by
  induction timeLimit generalizing c with
  | zero => exact ⟨⟨0, rfl⟩, fun _ h => absurd h (by omega)⟩
  | succ timeLimit ih =>
    rw [busyWaitLoop]
    simp only [Exec.post_ite]
    constructor
    · rintro rfl
      exact ⟨⟨0, rfl⟩, fun _ h => absurd h (by omega)⟩
    · intro hlimit
      simp only [inbStatus, Exec.post_bind, Exec.post_get, Exec.post_set, Exec.post_pure,
        Exec.post_ite]
      constructor
      · intro _
        refine ⟨⟨2, rfl⟩, fun hready _ => ?_⟩
        exact decide_eq_true (hready 1).2
      · intro hbusy
        apply (ih (c := { c with status := fun n => c.status (n + 1) })).mono
        rintro ok c' ⟨⟨k, rfl⟩, hok⟩
        refine ⟨⟨k + 1, ?_⟩, fun hready _ => absurd (hready 0).1 hbusy⟩
        simp only [Nat.add_assoc]

end Turn

section Loop

theorem sectorMoves_add (first m n : ℕ) (buf : UInt32) :
    sectorMoves first buf (m + n) =
      sectorMoves first buf m ++ sectorMoves (first + m) (buf + UInt32.ofNat (512 * m)) n := by
  unfold sectorMoves
  rw [List.range_add, List.map_append, List.map_map]
  congr 1
  apply List.map_congr_left
  intro i _
  simp only [Function.comp_apply, Nat.mul_add, ← Word.ofNat_add, Nat.add_assoc, UInt32.add_assoc]

/-- The command that the registers spell out after `select_sector`. -/
theorem command_selectSector {first : UInt32} {c' : Channel} (hfirst : first ≤ maxLba) (h0 : 0 < n)
    (h : n ≤ 256)
    (hregs : c' = { c with
      sectCnt := (UInt32.ofNat n).toUInt8
      lbaL := first.toUInt8
      lbaM := (first >>> 8).toUInt8
      lbaH := (first >>> 16).toUInt8
      dev := (bitDevMbs ||| bitDevLba ||| (if devNo = 1 then bitDevDev else 0) |||
        (first >>> 24)).toUInt8 }) :
    c'.command code = ⟨code, devNo == 1, first.toNat, n⟩ := by
  have hlba := lba_spec hfirst
  subst hregs
  unfold Channel.command
  simp only [dev_spec hfirst, sectors_toUInt8 h0 h]
  by_cases hdev : devNo = 1
  · rw [if_pos hdev, hlba, hdev]
    rfl
  · rw [if_neg hdev, hlba, beq_false_of_ne hdev]
    rfl

/-- A command more. -/
theorem Transferred.add {c₀ c' : Channel} {first m n : ℕ} (h : Transferred c₀ c code devNo first buf m)
    (hn : n ≤ 256)
    (hmoved : c'.moved = c.moved ++ sectorMoves (first + m) (buf + UInt32.ofNat (512 * m)) n)
    (hcommands : c'.commands = c.commands ++ [⟨code, devNo == 1, first + m, n⟩]) :
    Transferred c₀ c' code devNo first buf (m + n) := by
  obtain ⟨l, hl, hsectors, hcmds⟩ := h.commands
  constructor
  · rw [hmoved, h.moved, sectorMoves_add, List.append_assoc]
  · refine ⟨l ++ [⟨code, devNo == 1, first + m, n⟩], ?_, ?_, ?_⟩
    · rw [hcommands, hl, List.append_assoc]
    · rw [List.flatMap_append, hsectors, List.flatMap_singleton, List.range'_append_1]
    · intro cmd hcmd
      rcases List.mem_append.mp hcmd with hcmd | hcmd
      · exact hcmds cmd hcmd
      · obtain rfl := List.mem_singleton.mp hcmd
        exact ⟨rfl, rfl, hn⟩

/-- The loop transfers the sectors that are left. -/
theorem transferLoop_spec {c₀ : Channel} {fuel : ℕ} {secsDone : UInt32}
    (hend : lba.toNat + secCnt.toNat ≤ maxLba.toNat + 1) (hdone : secsDone ≤ secCnt)
    (hfuel : secCnt.toNat - secsDone.toNat < fuel)
    (h : Transferred c₀ c code devNo lba.toNat buf secsDone.toNat) (hready : Ready c₀ → Ready c) :
    Exec.Post (transferLoop code devNo lba buf secCnt fuel secsDone) c
      (fun _ c' => Transferred c₀ c' code devNo lba.toNat buf secCnt.toNat)
      fun e => e = .assertFailed ∧ ¬ Ready c₀ := by
  induction fuel generalizing c secsDone with
  | zero => omega
  | succ fuel ih =>
    have hend' : lba.toNat + secCnt.toNat ≤ 163840 := hend
    have hle : secsDone.toNat ≤ secCnt.toNat := UInt32.le_iff_toNat_le.mp hdone
    rw [transferLoop]
    rw [Exec.post_ite]
    constructor
    · intro hlt
      have hlt : secsDone.toNat < secCnt.toNat := UInt32.lt_iff_toNat_lt.mp hlt
      -- the sectors of this turn
      obtain ⟨n, h0, hn, hsum, hop⟩ : ∃ n, 0 < n ∧ n ≤ 256 ∧ secsDone.toNat + n ≤ secCnt.toNat ∧
          (if secsDone + 256 ≤ secCnt then 256 else secCnt - secsDone) = UInt32.ofNat n := by
        have h256 : (secsDone + 256).toNat = secsDone.toNat + 256 := Word.toNat_add (by
          change secsDone.toNat + 256 < 2 ^ 32
          omega)
        split
        · rename_i hfull
          have hfull := UInt32.le_iff_toNat_le.mp hfull
          exact ⟨256, by omega, le_refl _, by omega, rfl⟩
        · rename_i hpart
          have hpart := mt UInt32.le_iff_toNat_le.mpr hpart
          exact ⟨secCnt.toNat - secsDone.toNat, by omega, by omega, by omega,
            Word.eq_ofNat (Word.toNat_sub hle)⟩
      have hfirst : (lba + secsDone).toNat = lba.toNat + secsDone.toNat := Word.toNat_add (by omega)
      have hmax : lba + secsDone ≤ maxLba := by
        apply UInt32.le_iff_toNat_le.mpr
        change (lba + secsDone).toNat ≤ 163839
        omega
      have hplace : buf + secsDone * 512 = buf + UInt32.ofNat (512 * secsDone.toNat) := by
        congr 1
        apply Word.eq_ofNat
        rw [Word.toNat_mul (by change secsDone.toNat * 512 < 2 ^ 32; omega)]
        exact Nat.mul_comm _ _
      have hnext : (secsDone + UInt32.ofNat n).toNat = secsDone.toNat + n := by
        have hnat : (UInt32.ofNat n).toNat = n := Word.toNat_ofNat (by omega)
        rw [Word.toNat_add, hnat]
        omega
      simp only [hop, hplace]
      rw [selectSector, Exec.post_bind, Exec.post_bind, post_assert]
      refine ⟨fun _ => ?_, fun hnot => absurd hmax hnot⟩
      rw [Exec.post_modify, Exec.post_bind, cmdOut, Exec.post_modify]
      rw [command_selectSector hmax h0 hn rfl]
      apply (busyWaitLoop_spec _).bind
      rintro ok c' ⟨⟨k, rfl⟩, hok⟩
      rw [Exec.post_bind, post_assert]
      constructor
      · intro _
        rw [Exec.post_bind, post_moveSectors rfl h0 hn]
        apply ih
        · apply UInt32.le_iff_toNat_le.mpr
          omega
        · omega
        · rw [hnext]
          refine h.add hn ?_ ?_
          · rw [hfirst]
          · rw [hfirst]
        · intro hr i
          exact hready hr (i + k)
      · intro hnot
        refine ⟨rfl, fun hr => hnot (hok ?_ (by decide))⟩
        exact hready hr
    · intro hnot
      have hnot := mt UInt32.lt_iff_toNat_lt.mpr hnot
      rw [Exec.post_pure, show secCnt.toNat = secsDone.toNat by omega]
      exact h

end Loop

/-- What both calls do. -/
theorem transfer_spec (h0 : 0 < secCnt) (hend : lba.toNat + secCnt.toNat - 1 ≤ maxLba.toNat) :
    Exec.Post (transfer code devNo lba buf secCnt) c
      (fun _ c' => Transferred c c' code devNo lba.toNat buf secCnt.toNat)
      fun e => e = .assertFailed ∧ ¬ Ready c := by
  have hpos : 0 < secCnt.toNat := UInt32.lt_iff_toNat_lt.mp h0
  have hlba : lba ≤ maxLba := UInt32.le_iff_toNat_le.mpr (by omega)
  rw [transfer, Exec.post_bind, post_assert]
  refine ⟨fun _ => ?_, fun hnot => absurd hlba hnot⟩
  rw [Exec.post_bind, post_assert]
  refine ⟨fun _ => ?_, fun hnot => absurd h0 hnot⟩
  rw [selectDisk, Exec.post_bind, Exec.post_modify]
  apply transferLoop_spec
  · omega
  · exact UInt32.le_iff_toNat_le.mpr (Nat.zero_le _)
  · omega
  · exact ⟨(List.append_nil _).symm, [], (List.append_nil _).symm, rfl, by simp⟩
  · exact id

/-- Transfers are split exactly: whatever the sector count, `ide_read` and `ide_write` command and
move each sector of the transfer once, in order, each to or from its place in the buffer, and return
unless the controller stays busy or has no data. -/
theorem transfer_exact (c : Channel) (devNo : UInt8) (lba buf secCnt : UInt32) (h0 : 0 < secCnt)
    (hend : lba.toNat + secCnt.toNat - 1 ≤ maxLba.toNat) :
    (Exec.Post (ideRead devNo lba buf secCnt) c
      (fun _ c' => Transferred c c' cmdReadSector devNo lba.toNat buf secCnt.toNat)
      fun e => e = .assertFailed ∧ ¬ Ready c) ∧
    Exec.Post (ideWrite devNo lba buf secCnt) c
      (fun _ c' => Transferred c c' cmdWriteSector devNo lba.toNat buf secCnt.toNat)
      fun e => e = .assertFailed ∧ ¬ Ready c :=
  ⟨transfer_spec h0 hend, transfer_spec h0 hend⟩

/-- A channel whose controller is ready. -/
def idleChannel : Channel where
  sectCnt := 0
  lbaL := 0
  lbaM := 0
  lbaH := 0
  dev := 0
  pending := []
  commands := []
  moved := []
  status := fun _ => 0x48

theorem transfer_exact_300 :
    (Exec.Post (ideRead 1 2048 0xc0100000 300) idleChannel
      (fun _ c' => Transferred idleChannel c' cmdReadSector 1 2048 0xc0100000 300)
      fun e => e = .assertFailed ∧ ¬ Ready idleChannel) ∧
    Exec.Post (ideWrite 1 2048 0xc0100000 300) idleChannel
      (fun _ c' => Transferred idleChannel c' cmdWriteSector 1 2048 0xc0100000 300)
      fun e => e = .assertFailed ∧ ¬ Ready idleChannel :=
  transfer_exact idleChannel 1 2048 0xc0100000 300 (by decide) (by decide)

end Ide

end Winx
