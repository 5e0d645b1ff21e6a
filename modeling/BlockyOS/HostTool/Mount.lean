import BlockyOS.HostTool.FileIO

/-!
# Formatting, mounting and flushing

`formatpart` writes an empty file system into a named partition, `fmount` builds
the in-memory root from the first partition that carries the signature, and
`fuloadroot` writes the root back.
-/

namespace BlockyOS.HostTool

open BlockyOS.Foundation

def tableEnv : RawEnv := startup 0 512

def checkdisk (img : Image) : Except Fault Bool :=
  match readblocks tableEnv img gptLBA sizeofMiniGPT with
  | none => .error .nullDeref
  | some block => .ok ((MiniGPT.decode block).sig = gptSig)

/-- The GPT header and its entries, as `loadpart` and `fmount` read them. -/
def readTable (img : Image) : Except Fault (List GPTentry) :=
  match readblocks tableEnv img gptLBA sizeofMiniGPT with
  | none => .error .nullDeref
  | some block =>
      let gpt := MiniGPT.decode block
      match readblocks tableEnv img gpt.partEntryLoc
          (gpt.nPartEntries * sizeofGPTentry) with
      | some ge => .ok (gptEntries ge gpt.nPartEntries)
      | none =>
          -- the failed read matters only once an entry is looked at
          if gpt.nPartEntries = 0 then .ok [] else .error .nullDeref

def loadpart (img : Image) (name : Bytes) : Except Fault PartDim :=
  match checkdisk img with
  | .error e => .error e
  | .ok false => .ok ⟨0, 0⟩
  | .ok true =>
      match readTable img with
      | .error e => .error e
      | .ok ge =>
          match ge.find? fun e => e.name = name with
          | some e => .ok ⟨e.sLBA, e.eLBA⟩
          | none => .ok ⟨0, 0⟩

/-! ## Formatting -/

/-- `MAKEVERSION` and the disabled extension, as they lie in the root block. -/
def versionAndExtension (verMAJOR verMINOR : Nat) : Bytes :=
  leBytes 4 verMAJOR ++ (leBytes 4 verMINOR ++ (zeros 4 ++
    (leBytes 4 (2 ^ 32 - 1) ++ (zeros 8 ++ leBytes 8 (2 ^ 64 - 1)))))

theorem length_versionAndExtension (verMAJOR verMINOR : Nat) :
    (versionAndExtension verMAJOR verMINOR).length = 32 := by
  simp [versionAndExtension]

/-- The root block `formatpart` writes. -/
def formattedRoot (part : PartDim) (confBlockSize confLogSectors verMAJOR verMINOR : Nat) :
    FsRoot where
  signature := fratSig
  confLogSectors := BitVec.ofNat 32 confLogSectors
  confBlockSize := BitVec.ofNat 32 confBlockSize
  confClusterSize := BitVec.ofNat 32
    (clusterMapSectorsCalc part.base part.high confLogSectors confBlockSize)
  versionAndExtension := versionAndExtension verMAJOR verMINOR
  length_signature := rfl
  length_versionAndExtension := length_versionAndExtension _ _

/-- `part.base + (CLUSTERMAPOFFSET(confLogSectors) * confBlockSize)`. -/
def clusterMapPos (base nLogSectors confBlockSize : Nat) : Nat :=
  u64 (base + u32 (clusterMapOffset nLogSectors * confBlockSize))

theorem clusterMapPos_eq {base logs conf : Nat} (hconf : 0 < conf)
    (hmap : (logs + 2) * conf < 2 ^ 32) (hbase : base < 2 ^ 63) :
    clusterMapPos base logs conf = base + (logs + 2) * conf := by
  have hle := Nat.le_mul_of_pos_right (logs + 2) hconf
  have hlogs : clusterMapOffset logs = logs + 2 := by
    rw [clusterMapOffset, logBlockOffset, fratRootOffset, u32_of_lt (by omega)]
    omega
  rw [clusterMapPos, hlogs, u32_of_lt hmap]
  exact u64_of_lt (by omega)

/--
Formatting the partition `part`.  The root block is built inside a buffer of
`confLogSectors * confBlockSize` bytes, which must hold an `fsroot`.
-/
def formatpartAt (img : Image) (part : PartDim)
    (confBlockSize confLogSectors verMAJOR verMINOR : Nat) : Except Fault Image :=
  let re := startup part.base confBlockSize
  let mapBytes := u64 (clusterMapSectorsCalc part.base part.high confLogSectors
    confBlockSize * confBlockSize)
  let logBytes := u32 (confBlockSize * confLogSectors)
  if confLogSectors * confBlockSize < sizeofFsRoot then .error .outOfBounds
  else
    let img := writeblocks re img
      (formattedRoot part confBlockSize confLogSectors verMAJOR verMINOR).encode
      (u64 (part.base + fratRootOffset)) sizeofFsRoot
    let img := writeblocks re img (zeros logBytes) (u64 (part.base + logBlockOffset)) logBytes
    .ok (writeblocks re img (zeros mapBytes)
      (clusterMapPos part.base confLogSectors confBlockSize) mapBytes)

def formatpart (img : Image) (name : Bytes)
    (confBlockSize confLogSectors verMAJOR verMINOR : Nat) : Except Fault Image :=
  match loadpart img name with
  | .error e => .error e
  | .ok part =>
      if part.high = 0 then .ok img
      else formatpartAt img part confBlockSize confLogSectors verMAJOR verMINOR

/-! ## Mounting -/

def queryfs (img : Image) (partbase : Nat) : Except Fault Bool :=
  match readblocks tableEnv img (u64 (partbase + fratRootOffset)) sizeofFsRoot with
  | none => .error .nullDeref
  | some fr => .ok ((FsRoot.decode fr).signature = fratSig)

def queryparttablefs (img : Image) : List GPTentry → Except Fault PartDim
  | [] => .ok ⟨0, 0⟩
  | e :: ge =>
      match queryfs img e.sLBA with
      | .error err => .error err
      | .ok true => .ok ⟨e.sLBA, e.eLBA⟩
      | .ok false => queryparttablefs img ge

/-- The root with the given map buffer, which holds at least `confClusterSize` bytes. -/
def mountedRoot (base : Nat) (root : FsRoot) (map : Bytes) : ConfFsroot where
  loc := base
  root := root
  lastClusterAlloc := 0
  nLogSectors := root.confLogSectors.toNat
  nClusterSectors := safediv root.confClusterSize.toNat root.confBlockSize.toNat
  clusterSize := root.confClusterSize.toNat
  nClusterItems := safediv root.confClusterSize.toNat sizeofFsBlock
  clusterMap := fsBlockCodec.getAll map (safediv root.confClusterSize.toNat sizeofFsBlock)
  slack := field map
    (sizeofFsBlock * (root.confClusterSize.toNat / sizeofFsBlock))
    (root.confClusterSize.toNat % sizeofFsBlock)
  length_clusterMap := fsBlockCodec.length_getAll _ _
  size_clusterMap := by
    rw [safediv_of_ne_zero (by decide), length_field]
    exact (Nat.div_add_mod _ _).symm
  size_lt := root.confClusterSize.isLt

/-- What `fmount` returns: no root, a root whose map could not be read, or a root. -/
inductive Mounted where
  | null
  | unmapped (base : Nat) (root : FsRoot)
  | mounted (fr : ConfFsroot)

def fmount (img : Image) : Except Fault Mounted :=
  match checkdisk img with
  | .error e => .error e
  | .ok false => .ok .null
  | .ok true =>
      match readTable img with
      | .error e => .error e
      | .ok ge =>
          match queryparttablefs img ge with
          | .error e => .error e
          | .ok part =>
              if part.high = 0 then .ok .null
              else
                let re := { tableEnv with partition := part.base }
                match readblocks re img (u64 (part.base + fratRootOffset)) sizeofFsRoot with
                | none => .error .nullDeref
                | some block =>
                    let root := FsRoot.decode block
                    let re := setblocksize re root.confBlockSize.toNat
                    match readblocks re img
                        (clusterMapPos part.base root.confLogSectors.toNat
                          root.confBlockSize.toNat)
                        root.confClusterSize.toNat with
                    | none => .ok (.unmapped part.base root)
                    | some map => .ok (.mounted (mountedRoot part.base root map))

/-! ## Flushing -/

def mapBytes (fr : ConfFsroot) : Bytes := fsBlockCodec.encodeAll fr.clusterMap ++ fr.slack

def fuloadroot (v : Volume) : Volume :=
  let re := rootEnv v.root
  let img := writeblocks re v.image v.root.root.encode v.root.loc sizeofFsRoot
  { v with
    image := writeblocks re img (mapBytes v.root)
      (clusterMapPos v.root.loc v.root.nLogSectors v.root.blkSize) v.root.clusterSize }

@[simp] theorem fuloadroot_root (v : Volume) : (fuloadroot v).root = v.root := rfl

@[simp] theorem fuloadroot_ticks (v : Volume) : (fuloadroot v).ticks = v.ticks := rfl

end BlockyOS.HostTool
