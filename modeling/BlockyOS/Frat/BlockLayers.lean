import BlockyOS.HostTool.Raw
import BlockyOS.Kernel.BlockIO
import Mathlib.Data.Nat.ModEq
import Mathlib.Data.Nat.Prime.Basic
import Mathlib.Data.Set.Basic

/-!
# The three block layers

The host tool, the UEFI loader and the kernel each turn a block position and a
length into a range of bytes of the disk.  They divide a block into sectors by
three formulas: the tool and the loader count the sectors of a block, and the
mount of the kernel takes its bytes for sectors.
-/

namespace BlockyOS.Frat

open BlockyOS.Foundation
open BlockyOS.HostTool (Fault safediv seekable sectorsPerBlock)
open BlockyOS.Kernel (RawHandle rounddown roundup)

/-- A range of the disk that a layer asks for. -/
structure Transfer where
  first : Nat
  bytes : Nat
  deriving DecidableEq, Repr

/-- The bytes a call touches, none where it gives up before it asks. -/
def touched (t : Option Transfer) : Set Nat :=
  {a | ∃ r ∈ t, r.first ≤ a ∧ a < r.first + r.bytes}

/-! ## The host tool -/

/-- What `readblocks` and `writeblocks` of the tool ask of the image. -/
def hostTransfer (re : HostTool.RawEnv) (pos bytes : Nat) : Option Transfer :=
  if pos < re.partition then none
  else if seekable (re.offset pos) then some ⟨re.offset pos, re.span bytes⟩
  else none

theorem readblocks_eq (re : HostTool.RawEnv) (img : Image) (pos bytes : Nat) :
    HostTool.readblocks re img pos bytes =
      (hostTransfer re pos bytes).bind fun t => img.read t.first t.bytes := by
  rw [HostTool.readblocks, hostTransfer]
  split
  · rfl
  · split <;> rfl

theorem writeblocks_eq (re : HostTool.RawEnv) (img : Image) (data : Bytes) (pos bytes : Nat) :
    HostTool.writeblocks re img data pos bytes =
      (hostTransfer re pos bytes).elim img fun t =>
        img.write t.first (padTo t.bytes (data.take bytes)) := by
  rw [HostTool.writeblocks, hostTransfer]
  split
  · rfl
  · split <;> rfl

/-! ## The UEFI loader -/

structure BlockIo where
  /-- Both protocols answer, and the medium is present. -/
  mediaPresent : Bool
  logicalPartition : Bool
  blockSize : Nat
  /-- The partition table behind the handle lists one of the two identifiers. -/
  listsPartition : Bool
  deriving DecidableEq, Repr

/-- The search of `FindDiskHandleByGUID`. -/
def findDiskHandleByGUID (handles : List BlockIo) : Option BlockIo :=
  handles.find? fun h => h.mediaPresent && !h.logicalPartition && h.listsPartition

namespace Uefi

structure RawEnv where
  isPart : Bool
  calcBlock : Nat
  confBlock : Nat
  realBlock : Nat
  partition : Nat
  deriving DecidableEq, Repr

def startup (handles : List BlockIo) (partition configuredBlockSize : Nat) : Option RawEnv :=
  (findDiskHandleByGUID handles).map fun handle =>
    let calcBlock := safediv (u32 (configuredBlockSize + handle.blockSize + 2 ^ 32 - 1))
      handle.blockSize
    { isPart := handle.logicalPartition
      calcBlock := if calcBlock = 0 then 1 else calcBlock
      confBlock := configuredBlockSize
      realBlock := handle.blockSize
      partition }

def setblocksize (re : RawEnv) (new : Nat) : RawEnv :=
  { re with
    confBlock := new
    calcBlock := safediv (u32 (new + re.realBlock + 2 ^ 32 - 1)) re.realBlock }

namespace RawEnv

def blockBytes (re : RawEnv) : Nat := u32 (re.realBlock * re.calcBlock)

def nBlocks (re : RawEnv) (bytes : Nat) : Nat :=
  u64 (safediv (u64 (bytes + re.blockBytes + 2 ^ 64 - 1)) re.blockBytes * re.calcBlock)

def allocSize (re : RawEnv) (bytes : Nat) : Nat := u64 (re.nBlocks bytes * re.realBlock)

def lba (re : RawEnv) (pos : Nat) : Nat :=
  let partitionOffset := (pos - re.partition) * re.calcBlock
  u64 (if re.isPart then partitionOffset else re.partition + partitionOffset)

end RawEnv

/-- What `readblocks` of the loader asks of the firmware. -/
def readTransfer (re : RawEnv) (pos bytes : Nat) : Option Transfer :=
  if pos < re.partition then none
  else if re.allocSize bytes = 0 then none
  else some ⟨re.lba pos * re.realBlock, re.allocSize bytes⟩

/-- What `writeblocks` of the loader asks of the firmware. -/
def writeTransfer (re : RawEnv) (pos bytes : Nat) : Option Transfer :=
  if pos < re.partition then none
  else if re.nBlocks bytes = 0 then none
  else some ⟨re.lba pos * re.realBlock, re.allocSize bytes⟩

end Uefi

/-! ## The kernel -/

/-- The block size and the base that `fmount` leaves in the handle. -/
def fmount (re : RawHandle) (base confBlockSize : Nat) (hpos : 0 < confBlockSize)
    (hlt : confBlockSize < 2 ^ 32) : RawHandle :=
  { re with
    partitionBase := base
    calcBlocks := confBlockSize
    calcBlocks_pos := hpos
    calcBlocks_lt := hlt }

/-- The `ReBlocks` macro on a 64-bit size. -/
def reBlocks (re : RawHandle) (size : Nat) : Except Fault Nat :=
  if re.blockBytes = 0 then .error .divByZero
  else .ok (u64 (size / re.calcBlocks + if size % re.blockBytes ≠ 0 then 1 else 0))

/-- What `ReadRawHandleBlocks` asks of the device. -/
def readTransfer (re : RawHandle) (P blocks : Nat) : Except Fault (Option Transfer) :=
  if re.blockBytes = 0 then .error .divByZero
  else
    let P := rounddown P re.blockBytes
    if P < re.partitionBase then .ok none
    else .ok (some ⟨re.offset P, re.transferBytes blocks⟩)

/-- What `WriteRawHandleBlocks` asks of the device, without the rounding of the position. -/
def writeTransfer (re : RawHandle) (P blocks : Nat) : Option Transfer :=
  if P % re.realBlockSize ≠ 0 then none
  else some ⟨re.offset P, re.transferBytes blocks⟩

/-! ## A request -/

/-- A disk with 512-byte sectors, as the firmware lists it and as the kernel opened it. -/
structure Disk where
  handles : List BlockIo
  raw : RawHandle
  blockSize : ∀ h ∈ handles, h.blockSize = 512
  realBlockSize : raw.realBlockSize = 512
  found : (findDiskHandleByGUID handles).isSome

/-- A block position and a length, in a partition with a block size. -/
structure Request where
  base : Nat
  conf : Nat
  pos : Nat
  length : Nat
  conf_pos : 0 < conf
  conf_lt : conf < 2 ^ 32
  base_le : base ≤ pos
  pos_lt : pos < 2 ^ 64
  length_lt : length < 2 ^ 64

/-- The kernel's handle after the mount of the request's partition. -/
def Disk.mounted (disk : Disk) (req : Request) : RawHandle :=
  fmount disk.raw req.base req.conf req.conf_pos req.conf_lt

/-- All calls of the three layers touch the same bytes. -/
def SameBytes (disk : Disk) (req : Request) : Prop :=
  ∃ loader blocks read,
    Uefi.startup disk.handles req.base req.conf = some loader ∧
      reBlocks (disk.mounted req) req.length = .ok blocks ∧
      readTransfer (disk.mounted req) req.pos blocks = .ok read ∧
      let host := touched (hostTransfer (HostTool.startup req.base req.conf) req.pos req.length)
      host = touched (Uefi.readTransfer loader req.pos req.length) ∧
        host = touched (Uefi.writeTransfer loader req.pos req.length) ∧
        host = touched read ∧
        host = touched (writeTransfer (disk.mounted req) req.pos blocks)

/-! ## Ranges -/

@[simp] theorem touched_none : touched none = ∅ := by
  ext a
  simp [touched]

@[simp] theorem mem_touched_some {t : Transfer} {a : Nat} :
    a ∈ touched (some t) ↔ t.first ≤ a ∧ a < t.first + t.bytes := by
  simp [touched]

theorem touched_some_eq_empty_iff {t : Transfer} : touched (some t) = ∅ ↔ t.bytes = 0 := by
  rw [Set.eq_empty_iff_forall_notMem]
  constructor
  · intro h
    have := h t.first
    rw [mem_touched_some] at this
    omega
  · intro hbytes a
    rw [mem_touched_some]
    omega

theorem first_eq_of_touched_eq {t t' : Transfer} (ht : t.bytes ≠ 0) (ht' : t'.bytes ≠ 0)
    (h : touched (some t) = touched (some t')) : t.first = t'.first := by
  have hleft : t.first ∈ touched (some t') := by
    rw [← h, mem_touched_some]
    omega
  have hright : t'.first ∈ touched (some t) := by
    rw [h, mem_touched_some]
    omega
  rw [mem_touched_some] at hleft hright
  omega

/-! ## The loader -/

/-- The sectors of one block by the formula of the loader, which wraps at 32 bits. -/
def loaderSectors (conf : Nat) : Nat := max 1 (u32 (conf + 511) / 512)

theorem loaderSectors_pos (conf : Nat) : 0 < loaderSectors conf := by
  unfold loaderSectors
  omega

theorem loaderSectors_lt (conf : Nat) : loaderSectors conf < 2 ^ 23 := by
  have := u32_lt (conf + 511)
  unfold loaderSectors
  omega

theorem loaderSectors_eq {conf : Nat} (h : conf ≤ 2 ^ 32 - 512) :
    loaderSectors conf = sectorsPerBlock conf := by
  rw [loaderSectors, HostTool.sectorsPerBlock_eq, u32_of_lt (by omega)]

theorem findDiskHandleByGUID_spec {handles : List BlockIo} {h : BlockIo}
    (hfound : findDiskHandleByGUID handles = some h) :
    h ∈ handles ∧ h.logicalPartition = false := by
  have hcond := List.find?_some hfound
  refine ⟨List.mem_of_find?_eq_some hfound, ?_⟩
  simp only [Bool.and_eq_true, Bool.not_eq_true'] at hcond
  exact hcond.1.2

/-- The environment of the loader: its handle is never a partition of the firmware. -/
def loaderEnv (base conf : Nat) : Uefi.RawEnv :=
  ⟨false, loaderSectors conf, conf, 512, base⟩

@[simp] theorem loaderEnv_isPart (base conf : Nat) : (loaderEnv base conf).isPart = false := rfl

@[simp] theorem loaderEnv_calcBlock (base conf : Nat) :
    (loaderEnv base conf).calcBlock = loaderSectors conf := rfl

@[simp] theorem loaderEnv_realBlock (base conf : Nat) :
    (loaderEnv base conf).realBlock = 512 := rfl

@[simp] theorem loaderEnv_partition (base conf : Nat) :
    (loaderEnv base conf).partition = base := rfl

theorem setblocksize_loaderEnv {base conf conf' : Nat} (hpos : 0 < conf)
    (hfit : conf ≤ 2 ^ 32 - 512) :
    Uefi.setblocksize (loaderEnv base conf') conf = loaderEnv base conf := by
  have hround : u32 (conf + 512 + 2 ^ 32 - 1) = conf + 511 := by
    unfold u32
    omega
  have hcalc : (conf + 511) / 512 = loaderSectors conf := by
    rw [loaderSectors, u32_of_lt (by omega)]
    omega
  rw [Uefi.setblocksize, loaderEnv_realBlock, hround,
    HostTool.safediv_of_ne_zero (by decide), hcalc]
  rfl

theorem Disk.startup_eq (disk : Disk) (base conf : Nat) :
    Uefi.startup disk.handles base conf = some (loaderEnv base conf) := by
  obtain ⟨handle, hfound⟩ := Option.isSome_iff_exists.mp disk.found
  obtain ⟨hmem, hpart⟩ := findDiskHandleByGUID_spec hfound
  have hsize := disk.blockSize handle hmem
  have hround : u32 (conf + 512 + 2 ^ 32 - 1) = u32 (conf + 511) := by
    unfold u32
    omega
  have hcalc : (if u32 (conf + 511) / 512 = 0 then 1 else u32 (conf + 511) / 512) =
      loaderSectors conf := by
    unfold loaderSectors
    split <;> omega
  rw [Uefi.startup, hfound, Option.map_some]
  simp only [hpart, hsize, hround, HostTool.safediv_of_ne_zero (show 512 ≠ 0 by decide), hcalc]
  rfl

/--
The size of a transfer wraps to nothing only where the rounding up of the length
leaves 64 bits.
-/
theorem roundedBytes_eq_zero_iff {c bytes : Nat} (hc : 0 < c) (hblock : 512 * c < 2 ^ 32)
    (hbytes : bytes < 2 ^ 64) :
    u64 (u64 (safediv (u64 (bytes + 512 * c + 2 ^ 64 - 1)) (512 * c) * c) * 512) = 0 ↔
      bytes = 0 ∨ 2 ^ 64 < bytes + 512 * c := by
  rw [HostTool.safediv_of_ne_zero (by omega)]
  by_cases hfit : bytes + 512 * c ≤ 2 ^ 64
  · have hsum : u64 (bytes + 512 * c + 2 ^ 64 - 1) = bytes + 512 * c - 1 := by
      unfold u64
      omega
    have hround := Nat.div_mul_le_self (bytes + 512 * c - 1) (512 * c)
    have hscale : (bytes + 512 * c - 1) / (512 * c) * c * 512 =
        (bytes + 512 * c - 1) / (512 * c) * (512 * c) := by ring
    have hcount : u64 ((bytes + 512 * c - 1) / (512 * c) * c) =
        (bytes + 512 * c - 1) / (512 * c) * c := u64_of_lt (by omega)
    have hzero : (bytes + 512 * c - 1) / (512 * c) * (512 * c) = 0 ↔ bytes = 0 := by
      rw [Nat.mul_eq_zero, Nat.div_eq_zero_iff]
      omega
    rw [hsum, hcount, hscale, u64_of_lt (by omega), hzero]
    omega
  · have hsum : u64 (bytes + 512 * c + 2 ^ 64 - 1) = bytes + 512 * c - 1 - 2 ^ 64 := by
      unfold u64
      omega
    have hnone : (bytes + 512 * c - 1 - 2 ^ 64) / (512 * c) = 0 :=
      Nat.div_eq_of_lt (by omega)
    rw [hsum, hnone, Nat.zero_mul]
    exact iff_of_true rfl (by omega)

theorem allocSize_loaderEnv (base conf bytes : Nat) :
    (loaderEnv base conf).allocSize bytes =
      u64 (u64 (safediv (u64 (bytes + 512 * loaderSectors conf + 2 ^ 64 - 1))
        (512 * loaderSectors conf) * loaderSectors conf) * 512) := by
  have hblock : (loaderEnv base conf).blockBytes = 512 * loaderSectors conf := by
    have := loaderSectors_lt conf
    exact u32_of_lt (by rw [loaderEnv_realBlock, loaderEnv_calcBlock]; omega)
  rw [Uefi.RawEnv.allocSize, Uefi.RawEnv.nBlocks, hblock]
  rfl

def loaderTransfer (base conf pos bytes : Nat) : Transfer :=
  ⟨(loaderEnv base conf).lba pos * 512, (loaderEnv base conf).allocSize bytes⟩

theorem touched_loader_read {base conf pos bytes : Nat} (hbase : base ≤ pos) :
    touched (Uefi.readTransfer (loaderEnv base conf) pos bytes) =
      touched (some (loaderTransfer base conf pos bytes)) := by
  rw [Uefi.readTransfer, if_neg (by rw [loaderEnv_partition]; omega)]
  by_cases hzero : (loaderEnv base conf).allocSize bytes = 0
  · rw [if_pos hzero, touched_none]
    exact (touched_some_eq_empty_iff.mpr hzero).symm
  · rw [if_neg hzero]
    rfl

theorem touched_loader_write {base conf pos bytes : Nat} (hbase : base ≤ pos) :
    touched (Uefi.writeTransfer (loaderEnv base conf) pos bytes) =
      touched (some (loaderTransfer base conf pos bytes)) := by
  rw [Uefi.writeTransfer, if_neg (by rw [loaderEnv_partition]; omega)]
  by_cases hzero : (loaderEnv base conf).nBlocks bytes = 0
  · have hsize : (loaderEnv base conf).allocSize bytes = 0 := by
      rw [Uefi.RawEnv.allocSize, hzero, Nat.zero_mul]
      rfl
    rw [if_pos hzero, touched_none]
    exact (touched_some_eq_empty_iff.mpr hsize).symm
  · rw [if_neg hzero]
    rfl

theorem touched_loaderTransfer_eq_empty_iff {base conf pos bytes : Nat}
    (hbytes : bytes < 2 ^ 64) :
    touched (some (loaderTransfer base conf pos bytes)) = ∅ ↔
      bytes = 0 ∨ 2 ^ 64 < bytes + 512 * loaderSectors conf := by
  have hlt := loaderSectors_lt conf
  rw [touched_some_eq_empty_iff, loaderTransfer, allocSize_loaderEnv]
  exact roundedBytes_eq_zero_iff (loaderSectors_pos conf) (by omega) hbytes

/-! ## The host tool beside the loader -/

theorem span_startup_eq {conf : Nat} (h : conf ≤ 2 ^ 32 - 512) (base bytes : Nat) :
    (HostTool.startup base conf).span bytes = (loaderEnv base conf).allocSize bytes := by
  have hlt := loaderSectors_lt conf
  have hblock : (HostTool.startup base conf).blockBytes = 512 * loaderSectors conf := by
    rw [loaderSectors_eq h] at hlt ⊢
    exact u32_of_lt (by rw [HostTool.startup_realBlock, HostTool.startup_calcBlock]; omega)
  rw [allocSize_loaderEnv, HostTool.RawEnv.span, HostTool.RawEnv.nBlocks, hblock,
    loaderSectors_eq h, HostTool.startup_calcBlock, HostTool.startup_realBlock]

theorem safediv_zero (a : Nat) : safediv a 0 = 1 := if_neg (not_not_intro rfl)

theorem span_startup_ne_zero {conf : Nat} (h : 2 ^ 32 - 512 < conf) (hlt : conf < 2 ^ 32)
    (base bytes : Nat) : (HostTool.startup base conf).span bytes ≠ 0 := by
  have hsectors : sectorsPerBlock conf = 2 ^ 23 := by
    rw [HostTool.sectorsPerBlock_eq]
    omega
  have hblock : (HostTool.startup base conf).blockBytes = 0 := by
    rw [HostTool.RawEnv.blockBytes, HostTool.startup_realBlock, HostTool.startup_calcBlock,
      hsectors]
    decide
  rw [HostTool.RawEnv.span, HostTool.RawEnv.nBlocks, hblock, HostTool.startup_realBlock,
    HostTool.startup_calcBlock, hsectors, safediv_zero]
  decide

theorem touched_hostTransfer_eq_empty_iff {base conf pos bytes : Nat} (hconf : conf < 2 ^ 32)
    (hbase : base ≤ pos) (hbytes : bytes < 2 ^ 64) :
    touched (hostTransfer (HostTool.startup base conf) pos bytes) = ∅ ↔
      2 ^ 63 ≤ (HostTool.startup base conf).offset pos ∨
        conf ≤ 2 ^ 32 - 512 ∧
          (bytes = 0 ∨ 2 ^ 64 < bytes + 512 * loaderSectors conf) := by
  rw [hostTransfer, if_neg (by rw [HostTool.startup_partition]; omega)]
  by_cases hseek : seekable ((HostTool.startup base conf).offset pos) = true
  · have hoff : (HostTool.startup base conf).offset pos < 2 ^ 63 := of_decide_eq_true hseek
    rw [if_pos hseek, touched_some_eq_empty_iff]
    by_cases hsmall : conf ≤ 2 ^ 32 - 512
    · have hlt := loaderSectors_lt conf
      rw [span_startup_eq hsmall, allocSize_loaderEnv,
        roundedBytes_eq_zero_iff (loaderSectors_pos conf) (by omega) hbytes]
      omega
    · refine iff_of_false (span_startup_ne_zero (by omega) hconf base bytes) ?_
      omega
  · have hoff : ¬ (HostTool.startup base conf).offset pos < 2 ^ 63 := fun h =>
      hseek (decide_eq_true h)
    rw [if_neg hseek, touched_none]
    exact iff_of_true rfl (.inl (by omega))

/-! ## The kernel's positions -/

section Kernel

variable (disk : Disk) (req : Request)

@[simp] theorem Disk.mounted_partitionBase : (disk.mounted req).partitionBase = req.base := rfl

@[simp] theorem Disk.mounted_calcBlocks : (disk.mounted req).calcBlocks = req.conf := rfl

@[simp] theorem Disk.mounted_realBlockSize : (disk.mounted req).realBlockSize = 512 :=
  disk.realBlockSize

def Request.kernelBlock : Nat := u32 (512 * req.conf)

@[simp] theorem Disk.mounted_blockBytes : (disk.mounted req).blockBytes = req.kernelBlock := by
  rw [RawHandle.blockBytes, disk.mounted_realBlockSize, disk.mounted_calcBlocks]
  rfl

theorem Request.dvd_kernelBlock : 512 ∣ req.kernelBlock :=
  (Nat.dvd_mod_iff (by decide)).mpr (Nat.dvd_mul_right 512 req.conf)

theorem Request.kernelBlock_eq_zero_iff : req.kernelBlock = 0 ↔ 2 ^ 23 ∣ req.conf := by
  unfold Request.kernelBlock u32
  omega

def Request.kernelBlocks : Nat :=
  u64 (req.length / req.conf + if req.length % req.kernelBlock ≠ 0 then 1 else 0)

theorem Disk.transferBytes_eq (blocks : Nat) :
    (disk.mounted req).transferBytes blocks = u64 (req.kernelBlock * blocks) := by
  have hlt := u64_lt (req.kernelBlock * blocks)
  have hdvd : 512 ∣ u64 (req.kernelBlock * blocks) :=
    (Nat.dvd_mod_iff (by decide)).mpr (Dvd.dvd.mul_right req.dvd_kernelBlock blocks)
  rw [RawHandle.transferBytes, disk.mounted_blockBytes, disk.mounted_realBlockSize]
  obtain ⟨k, hk⟩ := hdvd
  rw [hk] at hlt ⊢
  unfold roundup u64
  omega

theorem rounddown_shortfall {P i : Nat} (hP : P < 2 ^ 64) (hi : 0 < i) (hlt : i + 1 < 2 ^ 32) :
    ∃ δ, i < δ ∧ δ ≤ 2 * i ∧ rounddown P i + δ ≡ P [MOD 2 ^ 64] := by
  obtain ⟨q, hq⟩ : ∃ q, q = u64sub P (u32 (i + 1)) := ⟨_, rfl⟩
  have hsplit := Nat.div_add_mod q i
  have hrem := Nat.mod_lt q hi
  have hround : rounddown P i = i * (q / i) := by
    rw [rounddown, ← hq, Nat.mul_comm]
  have hword : q + (i + 1) ≡ P [MOD 2 ^ 64] := by
    rw [hq, u64sub, u32_of_lt hlt]
    unfold u64 Nat.ModEq
    omega
  refine ⟨q % i + (i + 1), by omega, by omega, ?_⟩
  rw [hround, ← Nat.add_assoc, hsplit]
  exact hword

theorem not_dvd_shift {δ conf : Nat} (hpos : 0 < δ) (hlt : δ < 2 ^ 33)
    (hconf : ¬ 2 ^ 23 ∣ conf) : ¬ 2 ^ 64 ∣ δ * 512 * conf := by
  intro hdvd
  have hscale : δ * 512 * conf = 2 ^ 9 * (δ * conf) := by ring
  have hprod : 2 ^ 55 ∣ δ * conf := by
    rw [hscale, show 2 ^ 64 = 2 ^ 9 * 2 ^ 55 by decide] at hdvd
    exact Nat.dvd_of_mul_dvd_mul_left (by decide) hdvd
  obtain ⟨k, l, hk, hl, hkl⟩ := Nat.dvd_mul.mp hprod
  obtain ⟨i, -, rfl⟩ := (Nat.dvd_prime_pow Nat.prime_two).mp (Dvd.intro l hkl)
  obtain ⟨j, -, rfl⟩ := (Nat.dvd_prime_pow Nat.prime_two).mp (Dvd.intro_left _ hkl)
  have hsum : i + j = 55 := by
    rw [← Nat.pow_add] at hkl
    exact Nat.pow_right_injective (by decide) hkl
  have hi : i < 33 := by
    have := Nat.le_of_dvd hpos hk
    exact (Nat.pow_lt_pow_iff_right (by decide)).mp (this.trans_lt hlt)
  exact hconf ((Nat.pow_dvd_pow 2 (by omega)).trans hl)

theorem Disk.offset_rounddown_ne (hconf : ¬ 2 ^ 23 ∣ req.conf)
    (hbase : req.base ≤ rounddown req.pos req.kernelBlock) :
    (disk.mounted req).offset (rounddown req.pos req.kernelBlock) ≠
      (disk.mounted req).offset req.pos := by
  intro heq
  have hzero : req.kernelBlock ≠ 0 := fun h => hconf (req.kernelBlock_eq_zero_iff.mp h)
  have hkb : req.kernelBlock + 1 < 2 ^ 32 := by
    have hlt : req.kernelBlock < 2 ^ 32 := u32_lt _
    have hdvd := req.dvd_kernelBlock
    omega
  obtain ⟨δ, hlow, hhigh, hδ⟩ := rounddown_shortfall req.pos_lt (by omega) hkb
  generalize rounddown req.pos req.kernelBlock = P at *
  have hle := req.base_le
  have hlt := req.pos_lt
  have hread : u64sub P req.base ≡ P - req.base [MOD 2 ^ 64] := by
    unfold u64sub u64 Nat.ModEq
    omega
  have hwrite : u64sub req.pos req.base = req.pos - req.base := u64sub_of_le hlt hle
  have hmod : req.base * 512 + (P - req.base) * 512 * req.conf ≡
      req.base * 512 + (req.pos - req.base) * 512 * req.conf [MOD 2 ^ 64] := by
    rw [RawHandle.offset, RawHandle.offset, disk.mounted_partitionBase,
      disk.mounted_realBlockSize, disk.mounted_calcBlocks, hwrite] at heq
    exact (((hread.symm.mul_right 512).mul_right req.conf).add_left _).trans heq
  have hshift : (P - req.base) * 512 * req.conf + δ * 512 * req.conf ≡
      (req.pos - req.base) * 512 * req.conf [MOD 2 ^ 64] := by
    have hsum : P - req.base + δ ≡ req.pos - req.base [MOD 2 ^ 64] := by
      unfold Nat.ModEq at hδ ⊢
      omega
    have := (hsum.mul_right 512).mul_right req.conf
    rwa [Nat.add_mul, Nat.add_mul] at this
  have hclose := hshift.trans (Nat.ModEq.add_left_cancel' _ hmod).symm
  have hnone : δ * 512 * req.conf ≡ 0 [MOD 2 ^ 64] :=
    Nat.ModEq.add_left_cancel' _ (hclose.trans (by rw [Nat.add_zero]))
  exact not_dvd_shift (by omega) (by omega) hconf ((Nat.modEq_zero_iff_dvd).mp hnone)

end Kernel

/-! ## When the layers agree -/

/--
The kernel's block is not empty, and no call touches a byte: the tool because the
position is past what it can seek to or the length rounds to nothing, the loader
because the length does, the kernel because its block count wraps to nothing or
because it refuses both calls.
-/
structure NothingTouched (req : Request) : Prop where
  blockBytes : ¬ 2 ^ 23 ∣ req.conf
  host : 2 ^ 63 ≤ (HostTool.startup req.base req.conf).offset req.pos ∨
    req.conf ≤ 2 ^ 32 - 512
  length : req.length = 0 ∨ 2 ^ 64 < req.length + 512 * loaderSectors req.conf
  kernel : u64 (req.kernelBlock * req.kernelBlocks) = 0 ∨
    req.pos % 512 ≠ 0 ∧ rounddown req.pos req.kernelBlock < req.base

section Agreement

variable (disk : Disk) (req : Request)

theorem reBlocks_mounted {blocks : Nat} :
    reBlocks (disk.mounted req) req.length = .ok blocks ↔
      ¬ 2 ^ 23 ∣ req.conf ∧ req.kernelBlocks = blocks := by
  rw [reBlocks, disk.mounted_blockBytes, disk.mounted_calcBlocks,
    ← req.kernelBlock_eq_zero_iff]
  by_cases hzero : req.kernelBlock = 0
  · simp [hzero]
  · simp [hzero, Request.kernelBlocks]

theorem kernel_touched_eq_iff {read : Option Transfer} {blocks : Nat}
    (hconf : ¬ 2 ^ 23 ∣ req.conf)
    (hread : readTransfer (disk.mounted req) req.pos blocks = .ok read) :
    touched read = touched (writeTransfer (disk.mounted req) req.pos blocks) ↔
      touched read = ∅ ∧ touched (writeTransfer (disk.mounted req) req.pos blocks) = ∅ := by
  refine ⟨fun heq => ?_, fun h => h.1.trans h.2.symm⟩
  have hblock : req.kernelBlock ≠ 0 := fun h => hconf (req.kernelBlock_eq_zero_iff.mp h)
  rw [readTransfer, disk.mounted_blockBytes, if_neg hblock] at hread
  rw [writeTransfer] at heq ⊢
  simp only [] at hread
  split at hread
  · cases hread
    rw [touched_none] at heq ⊢
    exact ⟨rfl, heq.symm⟩
  · cases hread
    split at heq
    case isTrue hpos =>
      rw [if_pos hpos]
      exact ⟨heq.trans touched_none, touched_none⟩
    case isFalse hbase hpos =>
      have hempty : (disk.mounted req).transferBytes blocks = 0 := by
        by_contra hsize
        have hfirst := first_eq_of_touched_eq hsize hsize heq
        exact disk.offset_rounddown_ne req hconf (by
          rw [disk.mounted_partitionBase] at hbase
          omega) hfirst
      rw [if_neg hpos]
      exact ⟨touched_some_eq_empty_iff.mpr hempty, touched_some_eq_empty_iff.mpr hempty⟩

theorem kernel_touched_eq_empty_iff {read : Option Transfer} {blocks : Nat}
    (hconf : ¬ 2 ^ 23 ∣ req.conf)
    (hread : readTransfer (disk.mounted req) req.pos blocks = .ok read) :
    touched read = ∅ ∧ touched (writeTransfer (disk.mounted req) req.pos blocks) = ∅ ↔
      u64 (req.kernelBlock * blocks) = 0 ∨
        req.pos % 512 ≠ 0 ∧ rounddown req.pos req.kernelBlock < req.base := by
  have hblock : req.kernelBlock ≠ 0 := fun h => hconf (req.kernelBlock_eq_zero_iff.mp h)
  rw [readTransfer, disk.mounted_blockBytes, if_neg hblock, disk.mounted_partitionBase] at hread
  rw [writeTransfer, disk.mounted_realBlockSize]
  simp only [] at hread
  split at hread
  case isTrue hbase =>
    cases hread
    by_cases hpos : req.pos % 512 = 0
    · rw [if_neg (not_not_intro hpos), touched_some_eq_empty_iff, disk.transferBytes_eq]
      simp [hpos]
    · simp [hpos, hbase]
  case isFalse hbase =>
    cases hread
    by_cases hpos : req.pos % 512 = 0
    · rw [if_neg (not_not_intro hpos), touched_some_eq_empty_iff, touched_some_eq_empty_iff,
        disk.transferBytes_eq]
      simp [hpos]
    · rw [if_pos hpos, touched_some_eq_empty_iff, disk.transferBytes_eq]
      simp [hbase]

theorem exists_readTransfer (blocks : Nat) (hconf : ¬ 2 ^ 23 ∣ req.conf) :
    ∃ read, readTransfer (disk.mounted req) req.pos blocks = .ok read := by
  have hblock : req.kernelBlock ≠ 0 := fun h => hconf (req.kernelBlock_eq_zero_iff.mp h)
  rw [readTransfer, disk.mounted_blockBytes, if_neg hblock]
  simp only []
  split
  · exact ⟨_, rfl⟩
  · exact ⟨_, rfl⟩

end Agreement

/-- The three layers touch the same bytes exactly where none of them touches any. -/
theorem sameBytes_iff (disk : Disk) (req : Request) :
    SameBytes disk req ↔ NothingTouched req := by
  have hhost := touched_hostTransfer_eq_empty_iff req.conf_lt req.base_le req.length_lt
  have hloader := @touched_loaderTransfer_eq_empty_iff req.base req.conf req.pos req.length
    req.length_lt
  constructor
  · rintro ⟨loader, blocks, read, hstart, hblocks, hread, huefi, -, hsame, hwrite⟩
    obtain ⟨hconf, rfl⟩ := (reBlocks_mounted disk req).mp hblocks
    rw [disk.startup_eq] at hstart
    cases hstart
    rw [touched_loader_read req.base_le] at huefi
    -- the kernel's own two calls already leave nothing to touch
    have hkernel := (kernel_touched_eq_iff disk req hconf hread).mp (hsame.symm.trans hwrite)
    have hnone := hsame.trans hkernel.1
    refine ⟨hconf, ?_, hloader.mp (huefi.symm.trans hnone),
      (kernel_touched_eq_empty_iff disk req hconf hread).mp hkernel⟩
    exact (hhost.mp hnone).imp_right And.left
  · rintro ⟨hconf, hpos, hlength, hkernel⟩
    obtain ⟨read, hread⟩ := exists_readTransfer disk req req.kernelBlocks hconf
    obtain ⟨hreadNone, hwriteNone⟩ :=
      (kernel_touched_eq_empty_iff disk req hconf hread).mpr hkernel
    have hhostNone := hhost.mpr (hpos.imp_right fun h => ⟨h, hlength⟩)
    have hloaderNone := hloader.mpr hlength
    refine ⟨_, _, read, disk.startup_eq _ _, (reBlocks_mounted disk req).mpr ⟨hconf, rfl⟩,
      hread, ?_, ?_, hhostNone.trans hreadNone.symm, hhostNone.trans hwriteNone.symm⟩
    · rw [touched_loader_read req.base_le, hhostNone, hloaderNone]
    · rw [touched_loader_write req.base_le, hhostNone, hloaderNone]

/-! ## One sector at the start of a partition -/

/-- One whole disk with the partition, and the kernel's handle of an NVMe drive. -/
def sampleDisk : Disk where
  handles := [⟨true, false, 512, true⟩]
  raw := Kernel.sampleHandle
  blockSize h hmem := by
    rw [List.mem_singleton.mp hmem]
  realBlockSize := rfl
  found := rfl

theorem sector_lt : 40 < 2 ^ 64 := by decide

theorem sectorSize_pos : 0 < 512 := by decide

theorem sectorSize_lt : 512 < 2 ^ 32 := by decide

theorem requestLength_lt : 512 < 2 ^ 64 := by decide

/-- The first block of a partition at sector 40, with blocks of one sector. -/
def sampleRequest : Request where
  base := 40
  conf := 512
  pos := 40
  length := 512
  conf_pos := sectorSize_pos
  conf_lt := sectorSize_lt
  base_le := Nat.le_refl 40
  pos_lt := sector_lt
  length_lt := requestLength_lt

/-- The tool asks for sector 40, the kernel for an address past every disk. -/
theorem not_sameBytes_sample : ¬ SameBytes sampleDisk sampleRequest := by
  rintro ⟨loader, blocks, read, -, hblocks, hread, -, -, hsame, -⟩
  obtain ⟨-, rfl⟩ := (reBlocks_mounted sampleDisk sampleRequest).mp hblocks
  have htool : hostTransfer (HostTool.startup sampleRequest.base sampleRequest.conf)
      sampleRequest.pos sampleRequest.length = some ⟨40 * 512, 512⟩ := by
    decide
  have hkernel : readTransfer (sampleDisk.mounted sampleRequest) 40
      sampleRequest.kernelBlocks = .ok (some ⟨18446744004979609600, 2 ^ 19⟩) := by
    rfl
  obtain rfl : some ⟨18446744004979609600, 2 ^ 19⟩ = read :=
    Except.ok.inj (hkernel.symm.trans hread)
  have hmem : 40 * 512 ∈ touched (some ⟨40 * 512, 512⟩) := by
    rw [mem_touched_some]
    decide
  rw [← htool, hsame, mem_touched_some] at hmem
  exact absurd hmem (by decide)

end BlockyOS.Frat
