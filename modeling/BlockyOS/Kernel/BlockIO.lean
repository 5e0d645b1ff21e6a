import BlockyOS.Foundation.Runs
import BlockyOS.Kernel.Controllers

/-!
# Block I/O through a raw handle

`ReadRawHandleBlocks` and `WriteRawHandleBlocks` of `IO.c` with the staging
buffers of `MassStorageRead` and `MassStorageWrite` under them.
-/

namespace BlockyOS.Kernel

open BlockyOS.Foundation
open BlockyOS.HostTool (Fault)

/-- A raw handle (`renv_t`). -/
structure RawHandle where
  device : Device
  queue : Nat
  realBlockSize : Nat
  calcBlocks : Nat
  partitionBase : Nat
  realBlockSize_pos : 0 < realBlockSize
  realBlockSize_lt : realBlockSize < 2 ^ 32
  calcBlocks_pos : 0 < calcBlocks
  calcBlocks_lt : calcBlocks < 2 ^ 32

/-- `memcpy(dst, src, n)`, both buffers holding `n` bytes at least. -/
def memcpy (dst src : Bytes) (n : Nat) : Bytes := src.take n ++ dst.drop n

/-- The `__rounddown` macro, a 64-bit word by a 32-bit one. -/
def rounddown (a i : Nat) : Nat := u64sub a (u32 (i + 1)) / i * i

/-! ## Staging -/

def massStorageRead (S : Storage) (dev : Device) (medium : Medium) (queue offset bytes : Nat)
    (data : Bytes) (ready : Bool) : Except Fault (Medium × Bytes) :=
  let temp := zeros (roundup bytes dev.logicalBlockSize)
  (S.serve medium temp (getMassStorageData dev queue offset bytes ready)).map fun r =>
    (r.1, memcpy data r.2 bytes)

/-- The staging buffer is never filled from `data`; it is copied back into it. -/
def massStorageWrite (S : Storage) (dev : Device) (medium : Medium) (queue offset bytes : Nat)
    (data : Bytes) (ready : Bool) : Except Fault (Medium × Bytes) :=
  let temp := zeros (roundup bytes dev.logicalBlockSize)
  (S.serve medium temp (storeMassStorageData dev queue offset bytes ready)).map fun r =>
    (r.1, memcpy data r.2 bytes)

/-! ## Blocks of a handle -/

namespace RawHandle

/-- `RealBlockSize * CalcBlocks`, a product of two 32-bit fields. -/
def blockBytes (re : RawHandle) : Nat := u32 (re.realBlockSize * re.calcBlocks)

def offset (re : RawHandle) (P : Nat) : Nat :=
  u64 (re.partitionBase * re.realBlockSize +
    u64sub P re.partitionBase * re.realBlockSize * re.calcBlocks)

/-- The number of bytes a transfer of `blocks` blocks asks the device for. -/
def transferBytes (re : RawHandle) (blocks : Nat) : Nat :=
  roundup (u64 (re.blockBytes * blocks)) re.realBlockSize

/-- The size of the buffer allocated for `blocks` blocks. -/
def bufferBytes (re : RawHandle) (blocks : Nat) : Nat :=
  u64 (re.calcBlocks * roundup (u64 (re.realBlockSize * blocks)) re.realBlockSize)

end RawHandle

def readRawHandleBlocks (S : Storage) (re : RawHandle) (medium : Medium) (P blocks : Nat)
    (ready : Bool) : Except Fault (Option Bytes × Medium) :=
  if re.blockBytes = 0 then .error .divByZero
  else
    let P := rounddown P re.blockBytes
    if P < re.partitionBase then .ok (none, medium)
    else
      let out := zeros (re.bufferBytes blocks)
      (massStorageRead S re.device medium re.queue (re.offset P) (re.transferBytes blocks) out
        ready).map fun r => (some r.2, r.1)

/-- The result, the medium and the caller's buffer after the call. -/
def writeRawHandleBlocks (S : Storage) (re : RawHandle) (medium : Medium) (P blocks : Nat)
    (data : Bytes) (ready : Bool) : Except Fault (Bool × Medium × Bytes) :=
  if P % re.realBlockSize ≠ 0 then .ok (false, medium, data)
  else
    let input := zeros (re.bufferBytes blocks)
    let data := memcpy data input
      (u64 (blocks * re.realBlockSize * re.calcBlocks))
    (massStorageWrite S re.device medium re.queue (re.offset P) (re.transferBytes blocks) input
      ready).map fun r => (true, r.1, data)

/-- A request to write `blocks` blocks of the caller's data. -/
structure WriteRequest (re : RawHandle) where
  position : Nat
  blocks : Nat
  data : Bytes
  position_lt : position < 2 ^ 64
  base_le : re.partitionBase ≤ position
  blocks_pos : 0 < blocks
  length_data : data.length = blocks * re.realBlockSize * re.calcBlocks
  length_lt : data.length < 2 ^ 63

/-- The byte lies in the blocks that the request names. -/
def WriteRequest.Covers {re : RawHandle} (req : WriteRequest re) (a : Nat) : Prop :=
  let first := re.partitionBase * re.realBlockSize +
    (req.position - re.partitionBase) * re.realBlockSize * re.calcBlocks
  first ≤ a ∧ a < first + req.data.length

/--
A write returns; and one that reports success is read back, leaves the caller's
buffer alone and changes no byte outside its blocks.
-/
def RoundTrips (S : Storage) (re : RawHandle) (medium : Medium) (req : WriteRequest re)
    (ready ready' : Bool) : Prop :=
  ∃ done, writeRawHandleBlocks S re medium req.position req.blocks req.data ready = .ok done ∧
    (done.1 = true →
      (∃ medium', readRawHandleBlocks S re done.2.1 req.position req.blocks ready' =
        .ok (some req.data, medium')) ∧
      done.2.2 = req.data ∧ ∀ a, ¬ req.Covers a → done.2.1 a = medium a)

/-! ## Sizes -/

section Sizes

variable {re : RawHandle} (req : WriteRequest re)

theorem WriteRequest.bufferBytes_eq : re.bufferBytes req.blocks = req.data.length := by
  have hlen := req.length_data
  have hlt := req.length_lt
  have hcalc := re.calcBlocks_pos
  have hreal := re.realBlockSize_lt
  have hle : re.realBlockSize * req.blocks ≤ req.data.length := by
    rw [hlen, Nat.mul_comm re.realBlockSize]
    exact Nat.le_mul_of_pos_right _ hcalc
  have hround : roundup (u64 (re.realBlockSize * req.blocks)) re.realBlockSize =
      re.realBlockSize * req.blocks := by
    rw [u64_of_lt (by omega)]
    exact roundup_of_dvd (by omega) re.realBlockSize_pos (Nat.dvd_mul_right _ _)
  have htotal : re.calcBlocks * (re.realBlockSize * req.blocks) = req.data.length := by
    rw [hlen]
    ring
  rw [RawHandle.bufferBytes, hround, htotal, u64_of_lt (by omega)]

theorem WriteRequest.transferBytes_spec :
    re.transferBytes req.blocks ≤ req.data.length ∧
      re.transferBytes req.blocks < 2 ^ 63 := by
  have hlen := req.length_data
  have hlt := req.length_lt
  have hpos := re.realBlockSize_pos
  have hreal := re.realBlockSize_lt
  have hwhole : re.realBlockSize * re.calcBlocks * req.blocks = req.data.length := by
    rw [hlen]
    ring
  have hmul : re.blockBytes * req.blocks ≤ req.data.length := by
    rw [← hwhole]
    exact Nat.mul_le_mul_right _ (u32_le _)
  suffices hle : re.transferBytes req.blocks ≤ req.data.length from ⟨hle, by omega⟩
  rw [RawHandle.transferBytes, u64_of_lt (by omega)]
  by_cases hfit : re.realBlockSize * re.calcBlocks < 2 ^ 32
  · have hdvd : re.realBlockSize ∣ re.blockBytes * req.blocks := by
      rw [RawHandle.blockBytes, u32_of_lt hfit, Nat.mul_assoc]
      exact Nat.dvd_mul_right _ _
    rw [roundup_of_dvd (by omega) hpos hdvd]
    exact hmul
  · -- A product cut to 32 bits lost enough to pay for the rounding.
    have hround := roundup_lt (a := re.blockBytes * req.blocks) (by omega) hpos
    have hcut : re.blockBytes + 2 ^ 32 ≤ re.realBlockSize * re.calcBlocks := by
      have hmod := Nat.mod_lt (re.realBlockSize * re.calcBlocks) (Nat.two_pow_pos 32)
      rw [RawHandle.blockBytes, u32]
      omega
    have hsplit : (re.blockBytes + 2 ^ 32) * req.blocks ≤ req.data.length := by
      rw [← hwhole]
      exact Nat.mul_le_mul_right _ hcut
    have hblocks := Nat.mul_le_mul_left (2 ^ 32) (Nat.succ_le_of_lt req.blocks_pos)
    rw [Nat.add_mul] at hsplit
    omega

end Sizes

/-! ## What the two calls do -/

theorem memcpy_zeros (dst : Bytes) : memcpy dst (zeros dst.length) dst.length =
    zeros dst.length := by
  rw [memcpy, take_zeros, Nat.min_self, List.drop_length, List.append_nil]

theorem memcpy_eq_zeros_iff {src : Bytes} {n m : Nat} (hn : n ≤ m) :
    memcpy (zeros m) src n = zeros m ↔ src.take n = zeros n := by
  have hsplit : zeros m = zeros n ++ (zeros m).drop n := by
    have htake := List.take_append_drop n (zeros m)
    rw [take_zeros, Nat.min_eq_left hn] at htake
    exact htake.symm
  rw [memcpy]
  constructor
  · intro heq
    exact List.append_cancel_right (heq.trans hsplit)
  · intro heq
    rw [heq]
    exact hsplit.symm

def writeCommand {re : RawHandle} (req : WriteRequest re) (ready : Bool) : Option Command :=
  storeMassStorageData re.device re.queue (re.offset req.position)
    (re.transferBytes req.blocks) ready

def readCommand {re : RawHandle} (req : WriteRequest re) (ready : Bool) : Option Command :=
  getMassStorageData re.device re.queue
    (re.offset (rounddown req.position re.blockBytes)) (re.transferBytes req.blocks) ready

def staging {re : RawHandle} (req : WriteRequest re) : Bytes :=
  zeros (roundup (re.transferBytes req.blocks) re.device.logicalBlockSize)

section Calls

variable {S : Storage} {re : RawHandle} (req : WriteRequest re) (medium : Medium) (ready : Bool)

theorem writeRawHandleBlocks_of_misaligned (h : req.position % re.realBlockSize ≠ 0) :
    writeRawHandleBlocks S re medium req.position req.blocks req.data ready =
      .ok (false, medium, req.data) := by
  rw [writeRawHandleBlocks, if_pos h]

theorem writeRawHandleBlocks_of_aligned (h : req.position % re.realBlockSize = 0) :
    writeRawHandleBlocks S re medium req.position req.blocks req.data ready =
      (S.serve medium (staging req) (writeCommand req ready)).map fun r =>
        (true, r.1, zeros req.data.length) := by
  have hlt := req.length_lt
  have hcopied : u64 (req.blocks * re.realBlockSize * re.calcBlocks) = req.data.length := by
    rw [← req.length_data, u64_of_lt (by omega)]
  have hmemcpy := memcpy_zeros req.data
  rw [writeRawHandleBlocks, if_neg (not_not_intro h), req.bufferBytes_eq, hcopied]
  simp only [hmemcpy, massStorageWrite]
  rw [staging, writeCommand]
  cases S.serve medium _ _ <;> rfl

theorem readRawHandleBlocks_eq_data_iff {data : Bytes} :
    (∃ medium', readRawHandleBlocks S re medium req.position req.blocks ready =
      .ok (some data, medium')) ↔
        re.blockBytes ≠ 0 ∧ re.partitionBase ≤ rounddown req.position re.blockBytes ∧
          ∃ final back, S.serve medium (staging req) (readCommand req ready) = .ok (final, back) ∧
            memcpy (zeros req.data.length) back (re.transferBytes req.blocks) = data := by
  by_cases hzero : re.blockBytes = 0
  · rw [readRawHandleBlocks, if_pos hzero]
    simp [hzero]
  · rw [readRawHandleBlocks, if_neg hzero]
    by_cases hbase : rounddown req.position re.blockBytes < re.partitionBase
    · simp [hbase]
    · have hstage : S.serve medium (zeros (roundup (re.transferBytes req.blocks)
            re.device.logicalBlockSize)) (getMassStorageData re.device re.queue
              (re.offset (rounddown req.position re.blockBytes)) (re.transferBytes req.blocks)
              ready) = S.serve medium (staging req) (readCommand req ready) := rfl
      simp only [if_neg hbase, req.bufferBytes_eq, massStorageRead, hstage]
      cases S.serve medium (staging req) (readCommand req ready) with
      | error e =>
          refine iff_of_false ?_ ?_
          · rintro ⟨medium', heq⟩
            cases heq
          · rintro ⟨-, -, final, back, heq, -⟩
            cases heq
      | ok served =>
          constructor
          · rintro ⟨medium', heq⟩
            exact ⟨hzero, by omega, served.1, served.2, rfl,
              Option.some.inj (Prod.mk.inj (Except.ok.inj heq)).1⟩
          · rintro ⟨-, -, final, back, heq, hback⟩
            obtain rfl := Except.ok.inj heq
            exact ⟨final, congrArg (fun data => Except.ok (some data, final)) hback⟩

end Calls

/-! ## When a write is read back -/

/--
The data are zeros, the position does not round to below the partition, and the
device, given the two commands with cleared buffers, keeps the medium outside the
blocks and brings zeros back.
-/
structure ZerosOnZeros (S : Storage) (re : RawHandle) (medium : Medium) (req : WriteRequest re)
    (ready ready' : Bool) : Prop where
  data : req.data = zeros req.data.length
  blockBytes : re.blockBytes ≠ 0
  base : re.partitionBase ≤ rounddown req.position re.blockBytes
  served : ∃ after stored, S.serve medium (staging req) (writeCommand req ready) =
      .ok (after, stored) ∧
    (∀ a, ¬ req.Covers a → after a = medium a) ∧
    ∃ final back, S.serve after (staging req) (readCommand req ready') = .ok (final, back) ∧
      back.take (re.transferBytes req.blocks) = zeros (re.transferBytes req.blocks)

/--
On every device, a write is refused for its alignment, or it hands over zeros for
zeros: in no other case is it true to its report.
-/
theorem roundTrips_iff (S : Storage) (re : RawHandle) (medium : Medium) (req : WriteRequest re)
    (ready ready' : Bool) :
    RoundTrips S re medium req ready ready' ↔
      req.position % re.realBlockSize ≠ 0 ∨ ZerosOnZeros S re medium req ready ready' := by
  by_cases halign : req.position % re.realBlockSize = 0
  case neg =>
    refine iff_of_true ⟨_, writeRawHandleBlocks_of_misaligned req medium ready halign, ?_⟩
      (.inl halign)
    intro hok
    cases hok
  have hback : ∀ back : Bytes, memcpy (zeros req.data.length) back
      (re.transferBytes req.blocks) = zeros req.data.length ↔
        back.take (re.transferBytes req.blocks) = zeros (re.transferBytes req.blocks) :=
    fun back => memcpy_eq_zeros_iff req.transferBytes_spec.1
  rw [RoundTrips, writeRawHandleBlocks_of_aligned req medium ready halign]
  constructor
  · rintro ⟨done, hwrite, hdone⟩
    obtain ⟨⟨after, stored⟩, hserve, rfl⟩ := map_ok hwrite
    obtain ⟨hread, hdata, hkeep⟩ := hdone rfl
    obtain ⟨hzero, hbase, final, back, hserve', heq⟩ :=
      (readRawHandleBlocks_eq_data_iff req after ready').mp hread
    refine .inr ⟨hdata.symm, hzero, hbase, after, stored, hserve, hkeep, final, back, hserve', ?_⟩
    exact (hback back).mp (heq.trans hdata.symm)
  · rintro (hmis | ⟨hdata, hzero, hbase, after, stored, hserve, hkeep, final, back, hserve', heq⟩)
    · exact absurd halign hmis
    · rw [hserve]
      refine ⟨_, rfl, fun _ => ⟨?_, hdata.symm, hkeep⟩⟩
      exact (readRawHandleBlocks_eq_data_iff req after ready').mpr
        ⟨hzero, hbase, final, back, hserve', ((hback back).mpr heq).trans hdata.symm⟩

/-! ## One sector -/

/-- A device of 512-byte sectors that moves the sectors of its command. -/
def sampleStorage : Storage where
  run c medium buffer :=
    let first := c.lba * 512
    let n := c.sectors * 512
    if buffer.length < n then .error .outOfBounds
    else if c.op.isWrite then
      .ok (fun a => if first ≤ a ∧ a < first + n then buffer.getD (a - first) 0 else medium a,
        buffer)
    else .ok (medium, buffer.mapIdx fun i b => if i < n then medium (first + i) else b)
  length_run := by
    intro c medium buffer medium' buffer' h
    simp only at h
    split_ifs at h
    · cases h
      rfl
    · cases h
      rw [List.length_mapIdx]

def sampleDevice : Device where
  controller := .ahci 0 1
  sectorSize := 512
  logicalBlockSize := 512
  sectorSize_pos := by decide
  logicalBlockSize_pos := by decide
  logicalBlockSize_lt := by decide
  logicalBlockSize_eq _ _ := rfl

def sampleHandle : RawHandle where
  device := sampleDevice
  queue := 0
  realBlockSize := 512
  calcBlocks := 1
  partitionBase := 2048
  realBlockSize_pos := by decide
  realBlockSize_lt := by decide
  calcBlocks_pos := by decide
  calcBlocks_lt := by decide

/-- One sector of ones at block 4096. -/
def sampleRequest : WriteRequest sampleHandle where
  position := 4096
  blocks := 1
  data := List.replicate 512 1
  position_lt := by decide
  base_le := by decide
  blocks_pos := by decide
  length_data := by rw [List.length_replicate]; rfl
  length_lt := by rw [List.length_replicate]; decide

/-- The write reports success, stores nothing and clears the caller's buffer. -/
theorem not_roundTrips_sampleRequest :
    (∃ done, writeRawHandleBlocks sampleStorage sampleHandle (fun _ => 0) 4096 1
      sampleRequest.data true = .ok done ∧ done.1 = true ∧ done.2.2 = zeros 512) ∧
    ¬ RoundTrips sampleStorage sampleHandle (fun _ => 0) sampleRequest true true := by
  have heval : ((sampleStorage.serve (fun _ => 0) (staging sampleRequest)
      (writeCommand sampleRequest true)).map fun _ => ()).toOption = some () := by
    decide +kernel
  obtain ⟨r, hserve, -⟩ := ok_of_eval heval
  have hwrite := @writeRawHandleBlocks_of_aligned sampleStorage _ sampleRequest (fun _ => 0) true
    (by decide)
  rw [hserve] at hwrite
  have hlength : sampleRequest.data.length = 512 := List.length_replicate
  rw [hlength] at hwrite
  refine ⟨⟨_, hwrite, rfl, rfl⟩, fun htrips => ?_⟩
  obtain ⟨done, hdone, htrue⟩ := htrips
  obtain rfl := Except.ok.inj (hwrite.symm.trans hdone)
  have hdata : List.replicate 512 (0 : UInt8) = List.replicate 512 1 := (htrue rfl).2.1
  obtain ⟨-, hnone | hbyte⟩ := List.replicate_inj.mp hdata
  · exact absurd hnone (by decide)
  · exact absurd hbyte (by decide)

end BlockyOS.Kernel
