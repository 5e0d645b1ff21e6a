import BlockyOS.Foundation.Image
import BlockyOS.Foundation.Words

/-!
# The raw block layer of the host tool

`readblocks` and `writeblocks` move whole blocks between buffers and the disk
image.  A position counts blocks of `RealBlock * CalcBlock` bytes from the
partition base, and the base itself counts 512-byte sectors.
-/

namespace BlockyOS.HostTool

open BlockyOS.Foundation

/--
How a call goes wrong instead of returning; a `trap` is raised by the processor,
and `noValue` is the use of a value that a function ended without.
-/
inductive Fault where
  | nullDeref
  | outOfBounds
  | divByZero
  | hang
  | trap
  | noValue
  deriving DecidableEq, Repr

/-- The `__safediv` macro. -/
def safediv (a b : Nat) : Nat := if b ≠ 0 then a / b else 1

theorem safediv_of_ne_zero {b : Nat} (h : b ≠ 0) (a : Nat) : safediv a b = a / b :=
  if_pos h

def defaultRawDiskSize : Nat := 512

structure RawEnv where
  partition : Nat
  calcBlock : Nat
  confBlock : Nat
  realBlock : Nat
  deriving DecidableEq, Repr

def setblocksize (re : RawEnv) (new : Nat) : RawEnv :=
  { re with
    confBlock := new
    calcBlock := safediv (u32 (new + re.realBlock - 1)) re.realBlock }

def startup (partitionBase configuredBlockSize : Nat) : RawEnv :=
  let calcBlock := configuredBlockSize / defaultRawDiskSize +
    if configuredBlockSize % defaultRawDiskSize ≠ 0 then 1 else 0
  { partition := partitionBase
    calcBlock := if calcBlock = 0 then 1 else calcBlock
    confBlock := configuredBlockSize
    realBlock := defaultRawDiskSize }

namespace RawEnv

/-- `RealBlock * CalcBlock`, a product of two 32-bit fields. -/
def blockBytes (re : RawEnv) : Nat := u32 (re.realBlock * re.calcBlock)

def nBlocks (re : RawEnv) (bytes : Nat) : Nat :=
  u64 (safediv (u64 (bytes + re.blockBytes + 2 ^ 64 - 1)) re.blockBytes * re.calcBlock)

/-- The number of bytes a transfer of `bytes` bytes touches. -/
def span (re : RawEnv) (bytes : Nat) : Nat := u64 (re.nBlocks bytes * re.realBlock)

/-- The file offset of block `pos`. -/
def offset (re : RawEnv) (pos : Nat) : Nat :=
  u64 (re.partition * re.realBlock +
    (pos - re.partition) * re.realBlock * re.calcBlock)

end RawEnv

/-- `fseek` takes a signed offset and refuses a negative one. -/
def seekable (off : Nat) : Bool := off < 2 ^ 63

def readblocks (re : RawEnv) (img : Image) (pos bytes : Nat) : Option Bytes :=
  if pos < re.partition then none
  else if seekable (re.offset pos) then img.read (re.offset pos) (re.span bytes)
  else none

def writeblocks (re : RawEnv) (img : Image) (data : Bytes) (pos bytes : Nat) : Image :=
  if pos < re.partition then img
  else if seekable (re.offset pos) then
    img.write (re.offset pos) (padTo (re.span bytes) (data.take bytes))
  else img

/-! ## One block -/

def sectorsPerBlock (confBlockSize : Nat) : Nat := (startup 0 confBlockSize).calcBlock

/-- The bytes one block occupies on the disk. -/
def blockSpan (confBlockSize : Nat) : Nat := 512 * sectorsPerBlock confBlockSize

@[simp] theorem startup_partition (base conf : Nat) :
    (startup base conf).partition = base := rfl

@[simp] theorem startup_realBlock (base conf : Nat) :
    (startup base conf).realBlock = 512 := rfl

@[simp] theorem startup_calcBlock (base conf : Nat) :
    (startup base conf).calcBlock = sectorsPerBlock conf := rfl

theorem sectorsPerBlock_eq (conf : Nat) :
    sectorsPerBlock conf = max 1 ((conf + 511) / 512) := by
  simp only [sectorsPerBlock, startup, defaultRawDiskSize]
  by_cases hrem : conf % 512 = 0
  · simp only [hrem, ne_eq, not_true_eq_false, if_false]
    split <;> omega
  · simp only [hrem, ne_eq, not_false_eq_true, if_true]
    split <;> omega

theorem sectorsPerBlock_pos (conf : Nat) : 0 < sectorsPerBlock conf := by
  rw [sectorsPerBlock_eq]
  omega

theorem sectorsPerBlock_le {conf : Nat} (h : conf < 2 ^ 32) :
    sectorsPerBlock conf ≤ 2 ^ 23 := by
  rw [sectorsPerBlock_eq]
  omega

theorem blockSpan_pos (conf : Nat) : 0 < blockSpan conf := by
  have := sectorsPerBlock_pos conf
  unfold blockSpan
  omega

theorem le_blockSpan (conf : Nat) : conf ≤ blockSpan conf := by
  rw [blockSpan, sectorsPerBlock_eq]
  omega

theorem blockSpan_le {conf : Nat} (h : conf < 2 ^ 32) : blockSpan conf ≤ 2 ^ 32 := by
  have := sectorsPerBlock_le h
  unfold blockSpan
  omega

theorem span_one {base conf bytes : Nat} (hconf : conf < 2 ^ 32)
    (hpos : 0 < bytes) (hle : bytes ≤ blockSpan conf) :
    (startup base conf).span bytes = blockSpan conf := by
  have hspan := blockSpan_pos conf
  have hcap := blockSpan_le hconf
  have hcalc := sectorsPerBlock_le hconf
  simp only [RawEnv.span, RawEnv.nBlocks, RawEnv.blockBytes, startup_realBlock,
    startup_calcBlock]
  change u64 (u64 (safediv (u64 (bytes + u32 (blockSpan conf) + 2 ^ 64 - 1))
    (u32 (blockSpan conf)) * sectorsPerBlock conf) * 512) = blockSpan conf
  have hquot : safediv (u64 (bytes + u32 (blockSpan conf) + 2 ^ 64 - 1))
      (u32 (blockSpan conf)) = 1 := by
    -- a block of 2^32 bytes wraps to 0, where the macro answers 1 as well
    rcases Nat.lt_or_eq_of_le hcap with hlt | heq
    · rw [u32_of_lt hlt, safediv_of_ne_zero (by omega)]
      have : u64 (bytes + blockSpan conf + 2 ^ 64 - 1) = bytes + blockSpan conf - 1 := by
        unfold u64
        omega
      rw [this]
      exact (Nat.div_eq_iff (by omega)).mpr (by omega)
    · rw [heq]
      rfl
  have hcount : u64 (sectorsPerBlock conf) = sectorsPerBlock conf :=
    u64_of_lt (by omega)
  rw [hquot, Nat.one_mul, hcount, Nat.mul_comm]
  exact u64_of_lt (Nat.lt_of_le_of_lt hcap (by decide))

theorem offset_startup {base conf pos : Nat}
    (hfit : base * 512 + (pos - base) * blockSpan conf < 2 ^ 64) :
    (startup base conf).offset pos = base * 512 + (pos - base) * blockSpan conf := by
  rw [RawEnv.offset, startup_partition, startup_realBlock, startup_calcBlock, Nat.mul_assoc]
  exact u64_of_lt hfit

theorem readblocks_startup {base conf pos bytes : Nat} (img : Image) (hpos : base ≤ pos)
    (hfit : base * 512 + (pos - base) * blockSpan conf < 2 ^ 63) :
    readblocks (startup base conf) img pos bytes =
      img.read (base * 512 + (pos - base) * blockSpan conf)
        ((startup base conf).span bytes) := by
  have hseek : seekable (base * 512 + (pos - base) * blockSpan conf) = true :=
    decide_eq_true hfit
  rw [readblocks, offset_startup (by omega), if_neg (by rw [startup_partition]; omega),
    if_pos hseek]

theorem writeblocks_startup {base conf pos bytes : Nat} (img : Image) (data : Bytes)
    (hpos : base ≤ pos) (hfit : base * 512 + (pos - base) * blockSpan conf < 2 ^ 63) :
    writeblocks (startup base conf) img data pos bytes =
      img.write (base * 512 + (pos - base) * blockSpan conf)
        (padTo ((startup base conf).span bytes) (data.take bytes)) := by
  have hseek : seekable (base * 512 + (pos - base) * blockSpan conf) = true :=
    decide_eq_true hfit
  rw [writeblocks, offset_startup (by omega), if_neg (by rw [startup_partition]; omega),
    if_pos hseek]

theorem span_startup {base conf bytes : Nat} (hspan : blockSpan conf < 2 ^ 32)
    (hbytes : bytes < 2 ^ 63) :
    (startup base conf).span bytes =
      (bytes + blockSpan conf - 1) / blockSpan conf * blockSpan conf := by
  have hpos := blockSpan_pos conf
  have hblock : (startup base conf).blockBytes = blockSpan conf :=
    u32_of_lt hspan
  have hquot : u64 (bytes + blockSpan conf + 2 ^ 64 - 1) = bytes + blockSpan conf - 1 := by
    unfold u64
    omega
  have hround := Nat.div_mul_le_self (bytes + blockSpan conf - 1) (blockSpan conf)
  have hsplit : (bytes + blockSpan conf - 1) / blockSpan conf * sectorsPerBlock conf * 512 =
      (bytes + blockSpan conf - 1) / blockSpan conf * blockSpan conf := by
    rw [blockSpan, Nat.mul_assoc, Nat.mul_comm (sectorsPerBlock conf)]
  have hblocks : u64 ((bytes + blockSpan conf - 1) / blockSpan conf * sectorsPerBlock conf) =
      (bytes + blockSpan conf - 1) / blockSpan conf * sectorsPerBlock conf :=
    u64_of_lt (by omega)
  rw [RawEnv.span, RawEnv.nBlocks, hblock, hquot, safediv_of_ne_zero (by omega),
    startup_calcBlock, startup_realBlock, hblocks, hsplit]
  exact u64_of_lt (by omega)

theorem le_span_startup {base conf bytes : Nat} (hspan : blockSpan conf < 2 ^ 32)
    (hbytes : bytes < 2 ^ 63) : bytes ≤ (startup base conf).span bytes := by
  have hpos := blockSpan_pos conf
  rw [span_startup hspan hbytes]
  have hlt := Nat.lt_div_mul_add (a := bytes + blockSpan conf - 1) hpos
  omega

theorem span_startup_mono {base conf bytes bytes' : Nat} (hspan : blockSpan conf < 2 ^ 32)
    (hbytes : bytes' < 2 ^ 63) (hle : bytes ≤ bytes') :
    (startup base conf).span bytes ≤ (startup base conf).span bytes' := by
  rw [span_startup hspan (by omega), span_startup hspan hbytes]
  exact Nat.mul_le_mul_right _ (Nat.div_le_div_right (by omega))

theorem setblocksize_startup {base conf conf' : Nat} (hconf : 0 < conf)
    (hfit : conf + 511 < 2 ^ 32) :
    setblocksize (startup base conf') conf = startup base conf := by
  have hcalc : safediv (u32 (conf + 512 - 1)) 512 = sectorsPerBlock conf := by
    rw [safediv_of_ne_zero (by decide), u32_of_lt (by omega), sectorsPerBlock_eq]
    omega
  rw [setblocksize, startup_realBlock, hcalc]
  rfl

end BlockyOS.HostTool
