import BlockyOS.Foundation.Records
import BlockyOS.HostTool.Raw

/-!
# FRAT records on the disk

The packed records of `frat.h` and `raw.h` and the macros that place the parts
of a formatted partition.
-/

namespace BlockyOS.HostTool

open BlockyOS.Foundation

/-! ## File codes and map entries -/

/-- A 112-bit file code as a map entry stores it; all zero marks a free entry. -/
structure Fcode where
  low : BitVec 64
  high : BitVec 48
  deriving DecidableEq, Repr

def Fcode.zero : Fcode := ⟨0, 0⟩

def fsFile : BitVec 16 := 0x0000
def fsDirectory : BitVec 16 := 0x0001
def fsReadonly : BitVec 16 := 0x0002
def fsMetadataCluster : BitVec 16 := 0x0004
def fsProxy : BitVec 16 := 0x0008
def fsExtensionAllocatedCluster : BitVec 16 := 0x0010

def flagcheck (v f : BitVec 16) : Bool := v &&& f == f

def flagunset (v f : BitVec 16) : BitVec 16 := v &&& ~~~f

theorem flagcheck_or_self (v f : BitVec 16) : flagcheck (v ||| f) f = true := by
  simp only [flagcheck, beq_iff_eq]
  ext i
  simp
  intro hf
  exact .inr hf

theorem flagcheck_or_of_disjoint {v g f : BitVec 16} (h : g &&& f = 0) :
    flagcheck (v ||| g) f = flagcheck v f := by
  have hdistrib : (v ||| g) &&& f = v &&& f := by
    calc
      (v ||| g) &&& f = (v &&& f) ||| (g &&& f) := by
        ext i
        simp [Bool.and_or_distrib_right]
      _ = v &&& f := by simp [h]
  rw [flagcheck, flagcheck, hdistrib]

theorem flagcheck_flagunset {v f : BitVec 16} (h : f ≠ 0) :
    flagcheck (flagunset v f) f = false := by
  have hzero : flagunset v f &&& f = 0 := by
    ext i
    simp [flagunset]
  rw [flagcheck, hzero]
  simpa using h.symm

theorem flagcheck_flagunset_of_disjoint {v g f : BitVec 16} (h : g &&& f = 0) :
    flagcheck (flagunset v g) f = flagcheck v f := by
  have hkeep : flagunset v g &&& f = v &&& f := by
    ext i hi
    have hbit := congrArg (fun b : BitVec 16 => b[i]) h
    simp only [BitVec.getElem_and, BitVec.ofNat_eq_ofNat, BitVec.getElem_zero] at hbit
    simp only [flagunset, BitVec.getElem_and, BitVec.getElem_not]
    cases hv : v[i] <;> cases hg : g[i] <;> cases hf : f[i] <;> simp_all
  rw [flagcheck, flagcheck, hkeep]

/-- A cluster-map entry (`fsblock`, 20 bytes packed). -/
structure FsBlock where
  fcode : Fcode
  attributes : BitVec 16
  index : BitVec 32
  deriving DecidableEq, Repr

def FsBlock.zero : FsBlock := ⟨Fcode.zero, 0, 0⟩

def FsBlock.isFree (fb : FsBlock) : Bool := fb.fcode = Fcode.zero

def FsBlock.encode (fb : FsBlock) : Bytes :=
  leBytes 8 fb.fcode.low.toNat ++ (leBytes 6 fb.fcode.high.toNat ++
    (leBytes 2 fb.attributes.toNat ++ (leBytes 4 fb.index.toNat ++ [])))

def FsBlock.decode (bytes : Bytes) : FsBlock where
  fcode := ⟨BitVec.ofNat 64 (fieldNat bytes 0 8), BitVec.ofNat 48 (fieldNat bytes 8 6)⟩
  attributes := BitVec.ofNat 16 (fieldNat bytes 14 2)
  index := BitVec.ofNat 32 (fieldNat bytes 16 4)

@[simp] theorem FsBlock.length_encode (fb : FsBlock) : fb.encode.length = 20 := by
  simp [FsBlock.encode]

theorem toNat_ofNat_of_lt {w n : Nat} (h : n < 2 ^ w) : (BitVec.ofNat w n).toNat = n := by
  rw [BitVec.toNat_ofNat, Nat.mod_eq_of_lt h]

theorem ofNat_fieldNat_append {w : Nat} (before after : Bytes) (v : BitVec w)
    {off width : Nat} (hoff : before.length = off) (hw : 8 * width = w) :
    BitVec.ofNat w (fieldNat (before ++ (leBytes width v.toNat ++ after)) off width) = v := by
  subst hoff hw
  rw [fieldNat_append]
  have hbound : v.toNat < 256 ^ width := by
    have hlt := v.isLt
    rwa [Nat.pow_mul] at hlt
  rw [Nat.mod_eq_of_lt hbound, BitVec.ofNat_toNat, BitVec.setWidth_eq]

theorem FsBlock.decode_encode_append (fb : FsBlock) (rest : Bytes) :
    FsBlock.decode (fb.encode ++ rest) = fb := by
  obtain ⟨⟨low, high⟩, attributes, index⟩ := fb
  have hlow := @ofNat_fieldNat_append _ [] (leBytes 6 high.toNat ++
    (leBytes 2 attributes.toNat ++ (leBytes 4 index.toNat ++ rest))) low 0 8 rfl rfl
  have hhigh := @ofNat_fieldNat_append _ (leBytes 8 low.toNat)
      (leBytes 2 attributes.toNat ++ (leBytes 4 index.toNat ++ rest)) high 8 6 (by simp) rfl
  have hattr := @ofNat_fieldNat_append _ (leBytes 8 low.toNat ++ leBytes 6 high.toNat)
      (leBytes 4 index.toNat ++ rest) attributes 14 2 (by simp) rfl
  have hindex := @ofNat_fieldNat_append _ (leBytes 8 low.toNat ++ leBytes 6 high.toNat ++ leBytes
      2 attributes.toNat) rest index 16 4 (by simp) rfl
  simp only [List.append_assoc, List.nil_append] at hlow hhigh hattr hindex
  simp only [FsBlock.decode, FsBlock.encode, List.append_assoc, List.nil_append,
    hlow, hhigh, hattr, hindex]

def fsBlockCodec : Codec FsBlock where
  width := 20
  encode := FsBlock.encode
  decode := FsBlock.decode
  length_encode := FsBlock.length_encode
  decode_encode fb := by simpa using FsBlock.decode_encode_append fb []

/-- A directory record (`diritem`, 28 bytes packed). -/
structure DirItem where
  f : FsBlock
  local' : BitVec 64
  deriving DecidableEq, Repr

def DirItem.encode (item : DirItem) : Bytes :=
  item.f.encode ++ (leBytes 8 item.local'.toNat ++ [])

def DirItem.decode (bytes : Bytes) : DirItem where
  f := FsBlock.decode bytes
  local' := BitVec.ofNat 64 (fieldNat bytes 20 8)

def dirItemCodec : Codec DirItem where
  width := 28
  encode := DirItem.encode
  decode := DirItem.decode
  length_encode item := by simp [DirItem.encode]
  decode_encode item := by
    have hlocal := @ofNat_fieldNat_append _ item.f.encode [] item.local' 20 8 (by simp) rfl
    rw [DirItem.decode, DirItem.encode, FsBlock.decode_encode_append, hlocal]

/-! ## The root block -/

def fratSig : Bytes :=
  [0x46, 0x52, 0x41, 0x54, 0x5F, 0x46, 0x49, 0x4C,
   0x45, 0x53, 0x59, 0x53, 0x54, 0x45, 0x4D, 0x00]

def fratBlockSig : Bytes := [0x46, 0x52, 0x41, 0x54, 0x52, 0x4F, 0x4F, 0x54]

/--
The root block (`fsroot`, 60 bytes).  Nothing reads the version and extension
fields after formatting, so their 32 bytes are kept as they lie on the disk.
-/
structure FsRoot where
  signature : Bytes
  confLogSectors : BitVec 32
  confBlockSize : BitVec 32
  confClusterSize : BitVec 32
  versionAndExtension : Bytes
  length_signature : signature.length = 16
  length_versionAndExtension : versionAndExtension.length = 32
  deriving DecidableEq

def sizeofFsRoot : Nat := 60

def FsRoot.encode (fr : FsRoot) : Bytes :=
  fr.signature ++ (leBytes 4 fr.confLogSectors.toNat ++
    (leBytes 4 fr.confBlockSize.toNat ++ (leBytes 4 fr.confClusterSize.toNat ++
      fr.versionAndExtension)))

def FsRoot.decode (bytes : Bytes) : FsRoot where
  signature := field bytes 0 16
  confLogSectors := BitVec.ofNat 32 (fieldNat bytes 16 4)
  confBlockSize := BitVec.ofNat 32 (fieldNat bytes 20 4)
  confClusterSize := BitVec.ofNat 32 (fieldNat bytes 24 4)
  versionAndExtension := field bytes 28 32
  length_signature := length_field _ _ _
  length_versionAndExtension := length_field _ _ _

@[simp] theorem FsRoot.length_encode (fr : FsRoot) : fr.encode.length = 60 := by
  simp [FsRoot.encode, fr.length_signature, fr.length_versionAndExtension]

theorem field_append_left {bytes : Bytes} {width : Nat} (after : Bytes)
    (h : bytes.length = width) : field (bytes ++ after) 0 width = bytes := by
  subst h
  rw [field_eq_slice (by simp), slice_append_left _ _ (by simp), slice_full]

theorem field_append_right {before bytes : Bytes} {off width : Nat} (after : Bytes)
    (hoff : before.length = off) (h : bytes.length = width) :
    field (before ++ (bytes ++ after)) off width = bytes := by
  subst hoff
  have hright := slice_append_right before (bytes ++ after) 0 width
  rw [Nat.add_zero] at hright
  rw [field, hright]
  exact field_append_left after h

theorem FsRoot.decode_encode_append (fr : FsRoot) (rest : Bytes) :
    FsRoot.decode (fr.encode ++ rest) = fr := by
  obtain ⟨signature, logs, block, cluster, tail, hsig, htail⟩ := fr
  have hsignature := field_append_left (leBytes 4 logs.toNat ++
    (leBytes 4 block.toNat ++ (leBytes 4 cluster.toNat ++ (tail ++ rest)))) hsig
  have hlogs := @ofNat_fieldNat_append _ signature (leBytes 4 block.toNat ++
    (leBytes 4 cluster.toNat ++ (tail ++ rest))) logs 16 4 hsig rfl
  have hblock := @ofNat_fieldNat_append _ (signature ++ leBytes 4 logs.toNat)
      (leBytes 4 cluster.toNat ++ (tail ++ rest)) block 20 4 (by simp [hsig]) rfl
  have hcluster := @ofNat_fieldNat_append _ (signature ++ leBytes 4 logs.toNat ++ leBytes 4
      block.toNat) (tail ++ rest) cluster 24 4 (by simp [hsig]) rfl
  have hversion := @field_append_right (signature ++ leBytes 4 logs.toNat ++ leBytes 4
      block.toNat ++
      leBytes 4 cluster.toNat) _ 28 32 rest (by simp [hsig]) htail
  simp only [List.append_assoc] at hsignature hlogs hblock hcluster hversion
  simp only [FsRoot.decode, FsRoot.encode, List.append_assoc, hsignature, hlogs,
    hblock, hcluster, hversion]

/-! ## The partition table -/

/-- The fields of the GPT header the tool reads (`miniGPT`, 92 bytes packed). -/
structure MiniGPT where
  sig : Bytes
  partEntryLoc : Nat
  nPartEntries : Nat
  deriving DecidableEq

def gptSig : Bytes := [0x45, 0x46, 0x49, 0x20, 0x50, 0x41, 0x52, 0x54]

def gptLBA : Nat := 1

def sizeofMiniGPT : Nat := 92

def MiniGPT.decode (bytes : Bytes) : MiniGPT where
  sig := field bytes 0 8
  partEntryLoc := fieldNat bytes 72 8
  nPartEntries := fieldNat bytes 80 4

/-- A partition entry (`GPTentry`, 128 bytes packed) without its GUIDs. -/
structure GPTentry where
  sLBA : Nat
  eLBA : Nat
  name : Bytes
  deriving DecidableEq

def sizeofGPTentry : Nat := 128

def gptNameSize : Nat := 72

def gptNameLen : Nat := 36

def GPTentry.decode (bytes : Bytes) : GPTentry where
  sLBA := fieldNat bytes 32 8
  eLBA := fieldNat bytes 40 8
  name := field bytes 56 72

/-- The entry array as `readblocks` returns it. -/
def gptEntries (bytes : Bytes) (count : Nat) : List GPTentry :=
  (List.range count).map fun i =>
    GPTentry.decode (slice bytes (sizeofGPTentry * i) sizeofGPTentry)

structure PartDim where
  base : Nat
  high : Nat
  deriving DecidableEq, Repr

/-! ## Placement -/

def fratRootOffset : Nat := 0

def logBlockOffset : Nat := fratRootOffset + 1

/-- Computed in 32 bits, as `nLogSectors` is. -/
def clusterMapOffset (nLogSectors : Nat) : Nat := u32 (logBlockOffset + nLogSectors + 1)

def dataFirstOffset (nLogSectors nClusterSectors : Nat) : Nat :=
  u64 (clusterMapOffset nLogSectors + nClusterSectors + 1)

def sizeofFsBlock : Nat := 20

/-- The `CLUSTERMAPSECTORS_CALC` macro. -/
def clusterMapSectorsCalc (partFirst partLast nLogSectors confSectorSize : Nat) : Nat :=
  safediv
    (u64 (u64 (u64sub partLast (partFirst + nLogSectors) * sizeofFsBlock) +
      u32 (confSectorSize + 2 ^ 32 - 1)))
    confSectorSize

theorem clusterMapSectorsCalc_eq {base high logs conf : Nat}
    (hhigh : high < 2 ^ 64) (hconf : 0 < conf) (hconf' : conf < 2 ^ 32)
    (hlogs : base + logs ≤ high)
    (hfit : (high - base - logs) * 20 + conf < 2 ^ 64) :
    clusterMapSectorsCalc base high logs conf =
      ((high - base - logs) * 20 + (conf - 1)) / conf := by
  have hsub : u64sub high (base + logs) = high - base - logs := by
    rw [u64sub_of_le hhigh hlogs]
    omega
  have hdec : u32 (conf + 2 ^ 32 - 1) = conf - 1 := by
    unfold u32
    omega
  have hbytes : u64 ((high - base - logs) * sizeofFsBlock) = (high - base - logs) * 20 :=
    u64_of_lt (by unfold sizeofFsBlock; omega)
  rw [clusterMapSectorsCalc, hsub, hdec, hbytes, u64_of_lt (by omega),
    safediv_of_ne_zero (by omega)]

end BlockyOS.HostTool
