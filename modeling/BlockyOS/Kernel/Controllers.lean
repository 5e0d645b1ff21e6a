import BlockyOS.Foundation.Bytes
import BlockyOS.HostTool.Raw
import BlockyOS.Kernel.AHCITransfers

/-!
# Mass-storage controllers

The commands that `NVMe.h`, `AHCI.h` and `ATAPI.h` encode for a transfer, the
dispatch of `IO.c` that picks the controller, and the devices that are given them.
-/

namespace BlockyOS.Kernel

open BlockyOS.Foundation
open BlockyOS.HostTool (Fault)

/-! ## Commands and devices -/

inductive Opcode where
  | nvmeIOWrite
  | nvmeIORead
  | readDmaExt
  | writeDmaExt
  | atapiRead12
  | atapiWrite12
  deriving DecidableEq, Repr

def Opcode.isWrite : Opcode → Bool
  | .nvmeIOWrite | .writeDmaExt | .atapiWrite12 => true
  | .nvmeIORead | .readDmaExt | .atapiRead12 => false

inductive DataPointer where
  /-- `PhysicalRegion0`, the start of the buffer; no second region and no length. -/
  | region
  /-- The entries of an AHCI command table. -/
  | table (entries : List AHCI.RegionEntry)
  /-- The words go through the data register, or a table of the bus master. -/
  | port
  deriving DecidableEq, Repr

/-- A command as it reaches the device, `count` in the command's own field. -/
structure Command where
  op : Opcode
  lba : Nat
  count : Nat
  data : DataPointer
  deriving DecidableEq, Repr

/--
The number of sectors a command moves: NVMe counts from zero, and the extended
ATA commands take a count of zero for 65536.
-/
def Command.sectors (c : Command) : Nat :=
  match c.op with
  | .nvmeIOWrite | .nvmeIORead => c.count + 1
  | .readDmaExt | .writeDmaExt => if c.count = 0 then 2 ^ 16 else c.count
  | .atapiRead12 | .atapiWrite12 => c.count

/-- What is stored at each byte of a medium. -/
abbrev Medium := Nat → UInt8

/--
A storage device: what a command leaves of the medium and of the buffer that its data
pointer names; a fault where it reaches beyond the buffer.
-/
structure Storage where
  run : Command → Medium → Bytes → Except Fault (Medium × Bytes)
  length_run : ∀ {c medium buffer medium' buffer'},
    run c medium buffer = .ok (medium', buffer') → buffer'.length = buffer.length

/-- Without a command the device is not asked for anything. -/
def Storage.serve (S : Storage) (medium : Medium) (buffer : Bytes) :
    Option Command → Except Fault (Medium × Bytes)
  | none => .ok (medium, buffer)
  | some c => S.run c medium buffer

/-! ## What the drivers encode -/

/-- The number of sectors that `bytes` bytes touch. -/
def sectorCount (sectorSize bytes : Nat) : Nat :=
  bytes / sectorSize + if bytes % sectorSize ≠ 0 then 1 else 0

/--
The body `NVMeIOReadBytes` and `NVMeIOWriteBytes` share.  `ready` says whether
the page walk over the buffer ends at a leaf.
-/
def nvmeTransfer (op : Opcode) (nSubmissions sectorSize queue position bytes : Nat)
    (ready : Bool) : Option Command :=
  if queue = 0 then none
  else if nSubmissions ≤ queue then none
  else if !ready then none
  else some ⟨op, position / sectorSize, sectorCount sectorSize bytes % 2 ^ 16, .region⟩

def nvmeIOReadBytes (nSubmissions sectorSize queue position bytes : Nat) (ready : Bool) :
    Option Command :=
  nvmeTransfer .nvmeIORead nSubmissions sectorSize queue position bytes ready

/-- The write queues `NVMeIORead` as well. -/
def nvmeIOWriteBytes (nSubmissions sectorSize queue position bytes : Nat) (ready : Bool) :
    Option Command :=
  nvmeTransfer .nvmeIORead nSubmissions sectorSize queue position bytes ready

/--
The body `AHCIReadBytes` and `AHCIWriteBytes` share.  `ready` says whether the
search for a command slot yields one; the entries are those of a buffer at zero.
-/
def ahciTransfer (op : Opcode) (numberOfPorts : Nat) (ports : BitVec 32)
    (sectorSize device position bytes : Nat) (ready : Bool) : Option Command :=
  if numberOfPorts < device then none
  else if !(ports.getLsbD device) then none
  else if !ready then none
  else
    some ⟨op, position / sectorSize % 2 ^ 48, sectorCount sectorSize bytes % 2 ^ 16,
      .table (AHCI.entries ⟨numberOfPorts, 0, ports, id, id⟩ 0 bytes)⟩

def ahciReadBytes (numberOfPorts : Nat) (ports : BitVec 32)
    (sectorSize device position bytes : Nat) (ready : Bool) : Option Command :=
  ahciTransfer .readDmaExt numberOfPorts ports sectorSize device position bytes ready

/-- The write marks its header as one, and sends `READ_DMA_EXT` as well. -/
def ahciWriteBytes (numberOfPorts : Nat) (ports : BitVec 32)
    (sectorSize device position bytes : Nat) (ready : Bool) : Option Command :=
  ahciTransfer .readDmaExt numberOfPorts ports sectorSize device position bytes ready

/-- The two channel bits of a queue word (`ATAPIQueue`). -/
structure AtapiQueue where
  secondary : Bool
  primary : Bool

def AtapiQueue.ofNat (queue : Nat) : AtapiQueue := ⟨queue.testBit 0, queue.testBit 1⟩

/--
The channel `ATAPIReadRaw` and `ATAPIWriteRaw` send a packet to: `select` is the
sum of the channel bits, so channel 0 would need its own bit to be clear.
-/
def atapiSelected (queue : Nat) : Bool :=
  let q := AtapiQueue.ofNat queue
  let select := q.primary.toNat + q.secondary.toNat
  (select = 0 && q.primary) || (select = 1 && q.secondary)

/-- Position and length are cut to 32 bits; `ready` says that no status reads as an error. -/
def atapiReadRaw (sectorSize queue position bytes : Nat) (ready : Bool) : Option Command :=
  if atapiSelected queue && ready then
    some ⟨.atapiRead12, u32 position / sectorSize, sectorCount sectorSize (u32 bytes), .port⟩
  else none

def atapiWriteRaw (sectorSize queue position bytes : Nat) (ready : Bool) : Option Command :=
  if atapiSelected queue && ready then
    some ⟨.atapiWrite12, u32 position / sectorSize, u32 bytes / sectorSize, .port⟩
  else none

/-! ## Dispatch -/

inductive Controller where
  | ahci (numberOfPorts : Nat) (ports : BitVec 32)
  | nvme (nSubmissions : Nat)
  | ide
  | other
  deriving DecidableEq, Repr

/--
A device behind a handle.  `logicalBlockSize` is what
`GetMassStorageLogicalBlockSize` yields; for an IDE handle it ends without a
value, so that nothing is known of it.
-/
structure Device where
  controller : Controller
  sectorSize : Nat
  logicalBlockSize : Nat
  sectorSize_pos : 0 < sectorSize
  logicalBlockSize_pos : 0 < logicalBlockSize
  logicalBlockSize_lt : logicalBlockSize < 2 ^ 32
  logicalBlockSize_eq :
    controller ≠ .ide → controller ≠ .other → logicalBlockSize = sectorSize

def getMassStorageData (dev : Device) (queue position bytes : Nat) (ready : Bool) :
    Option Command :=
  match dev.controller with
  | .ahci numberOfPorts ports =>
      ahciReadBytes numberOfPorts ports dev.sectorSize (u32 queue) position bytes ready
  | .nvme nSubmissions =>
      nvmeIOReadBytes nSubmissions dev.sectorSize (u32 (queue >>> 32)) position bytes ready
  | .ide => atapiReadRaw dev.sectorSize queue position bytes ready
  | .other => none

def storeMassStorageData (dev : Device) (queue position bytes : Nat) (ready : Bool) :
    Option Command :=
  match dev.controller with
  | .ahci numberOfPorts ports =>
      ahciWriteBytes numberOfPorts ports dev.sectorSize (u32 queue) position bytes ready
  | .nvme nSubmissions =>
      nvmeIOWriteBytes nSubmissions dev.sectorSize (u32 (queue >>> 32)) position bytes ready
  | .ide => atapiWriteRaw dev.sectorSize queue position bytes ready
  | .other => none

end BlockyOS.Kernel
