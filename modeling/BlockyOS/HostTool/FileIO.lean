import BlockyOS.HostTool.ClusterMap

/-!
# File input and output

The block functions `__faddr`, `__fread1` and `__fpush1`, and the loops of
`_fwrite` and `_fread` over them.
-/

namespace BlockyOS.HostTool

open BlockyOS.Foundation

/-- A mounted root, the image it lives on, and the clock readings taken so far. -/
structure Volume where
  root : ConfFsroot
  image : Image
  ticks : Nat

/-- `startup(root->path, root->loc, root->root->confBlockSize)`. -/
def rootEnv (fr : ConfFsroot) : RawEnv := startup fr.loc fr.blkSize

def Volume.readAt (v : Volume) (fb bytes : Nat) : Option Bytes :=
  readblocks (rootEnv v.root) v.image (getloc v.root fb) bytes

def Volume.writeAt (v : Volume) (fb : Nat) (data : Bytes) (bytes : Nat) : Volume :=
  { v with image := writeblocks (rootEnv v.root) v.image data (getloc v.root fb) bytes }

@[simp] theorem Volume.writeAt_root (v : Volume) (fb : Nat) (data : Bytes) (bytes : Nat) :
    (v.writeAt fb data bytes).root = v.root := rfl

@[simp] theorem Volume.writeAt_ticks (v : Volume) (fb : Nat) (data : Bytes) (bytes : Nat) :
    (v.writeAt fb data bytes).ticks = v.ticks := rfl

/-! ## Blocks of a file -/

/-- The entry `__faddr` writes into a fresh slot for the file of `family`. -/
def extensionEntry (fr : ConfFsroot) (family : Nat) : FsBlock where
  fcode := (fr.block family).fcode
  attributes := flagunset (fr.block family).attributes fsMetadataCluster
  index := BitVec.ofNat 32 (countFcode fr (fr.block family).fcode)

def faddr (v : Volume) (family : Nat) : Volume × Option Nat :=
  match allocatecluster v.root with
  | (fr, none) => ({ v with root := fr }, none)
  | (fr, some fb) =>
      let v := { v with root := fr.setBlock fb (extensionEntry fr family) }
      (v.writeAt fb (zeros v.root.blkSize) v.root.blkSize, some fb)

/--
The loop over extension clusters in `__fread1` and `__fpush1`: the first pass
looks the same index up again, and the index is one past the entry at the end.
-/
def skipExtension (fr : ConfFsroot) (c : Fcode) : Nat → Option Nat → Nat → Option Nat × Nat
  | 0, fb, index => (fb, index)
  | _, none, index => (none, index)
  | fuel + 1, some fb, index =>
      if flagcheck (fr.block fb).attributes fsExtensionAllocatedCluster then
        skipExtension fr c fuel (ffindhi fr c index) (u64 (index + 1))
      else (some fb, index)

def fread1 (v : Volume) (fb index : Nat) : Option Bytes × Nat :=
  if index ≠ (v.root.block fb).index.toNat then
    match skipExtension v.root (v.root.block fb).fcode (v.root.nClusterItems + 2)
        (ffindhi v.root (v.root.block fb).fcode index) index with
    | (none, index) => (none, index)
    | (some fb', index) => (v.readAt fb' v.root.blkSize, index)
  else (v.readAt fb v.root.blkSize, index)

def fpush1 (v : Volume) (fb i : Nat) (buffer : Bytes) : Volume × Nat :=
  if i ≠ (v.root.block fb).index.toNat then
    match skipExtension v.root (v.root.block fb).fcode (v.root.nClusterItems + 2)
        (ffindhi v.root (v.root.block fb).fcode i) i with
    | (some fb', i) => (v.writeAt fb' buffer v.root.blkSize, i)
    | (none, i) =>
        match faddr v fb with
        | (v, some fb') => (v.writeAt fb' buffer v.root.blkSize, i)
        | (v, none) => (v, i)
  else if flagcheck (v.root.block fb).attributes fsMetadataCluster then (v, i)
  else (v.writeAt fb buffer v.root.blkSize, i)

/-! ## Metadata -/

def sizeofMetaFsBlock : Nat := 512

/-- Offsets of the time fields and the name in `meta_fsblock`. -/
def metaAccessTime : Nat := 40
def metaWriteTime : Nat := 48
def metaAccessDate : Nat := 56
def metaWriteDate : Nat := 64
def metaName : Nat := 72

def freadinfo (v : Volume) (fb : Nat) : Option Bytes := v.readAt fb sizeofMetaFsBlock

def Tm.seconds (t : Tm) : Nat := t.hour * 3600 + t.min * 60 + t.sec

def stampAccess (t : Tm) (finfo : Bytes) : Bytes :=
  splice (splice finfo metaAccessTime (leBytes 8 t.seconds)) metaAccessDate
    (leBytes 8 t.yday)

def stampWrite (t : Tm) (finfo : Bytes) : Bytes :=
  splice (splice finfo metaWriteTime (leBytes 8 t.seconds)) metaWriteDate
    (leBytes 8 t.yday)

def fupdatetstamp (E : Host) (v : Volume) (file : Nat) (wt : Bool) : Except Fault Volume :=
  match freadinfo v file with
  | none => .error .nullDeref
  | some finfo =>
      let t := E.localtime v.ticks
      let finfo := if wt then stampWrite t finfo else finfo
      .ok { v.writeAt file (stampAccess t finfo) sizeofMetaFsBlock with
        ticks := v.ticks + 1 }

/-! ## Handles -/

structure FHandle where
  file : Nat
  progress : Nat
  path : Path
  deriving DecidableEq

/-- The `while` loop of `__fsize`, from index `cc` on. -/
def fsizeFrom (fr : ConfFsroot) (c : Fcode) : Nat → Nat → Nat
  | 0, _ => 0
  | fuel + 1, cc =>
      match ffindhi fr c cc with
      | none => 0
      | some tmp =>
          (if flagcheck (fr.block tmp).attributes fsMetadataCluster then 0
            else fr.blkSize) + fsizeFrom fr c fuel (cc + 1)

def fsize (fr : ConfFsroot) (file : Nat) : Nat :=
  u64 (fsizeFrom fr (fr.block file).fcode (fr.nClusterItems + 1) 0)

def fseek (fr : ConfFsroot) (handle : FHandle) (progress : Nat) : FHandle :=
  { handle with
    progress :=
      if progress > 2 ^ 64 - 1 - fr.blkSize then 2 ^ 64 - 1
      else fr.blkSize + progress }

/-- One pass of the loop in `_fwrite`: put `src` at `blkOffset` of block `blkIndex`. -/
def fwriteBlock (v : Volume) (file blkIndex blkOffset : Nat) (src : Bytes) : Volume :=
  if src.length < v.root.blkSize then
    match fread1 v file blkIndex with
    | (blk, blkIndex) =>
        (fpush1 v file blkIndex
          (splice (blk.getD (zeros v.root.blkSize)) blkOffset src)).1
  else (fpush1 v file blkIndex src).1

def fwriteLoop (file : Nat) (data : Bytes) :
    Nat → Volume → Nat → Nat → Nat → Volume × Nat × Nat
  | 0, v, pos, left, _ => (v, pos, left)
  | fuel + 1, v, pos, left, written =>
      if left = 0 then (v, pos, left)
      else
        let blkSize := v.root.blkSize
        let chunk := min (blkSize - pos % blkSize) left
        fwriteLoop file data fuel
          (fwriteBlock v file (pos / blkSize) (pos % blkSize) (slice data written chunk))
          (u64 (pos + chunk)) (left - chunk) (written + chunk)

def fwrite (E : Host) (v : Volume) (handle : FHandle) (nbytes : Nat)
    (data : Option Bytes) : Except Fault (Nat × FHandle × Volume) :=
  match data with
  | none => .ok (0, handle, v)
  | some data =>
      if nbytes = 0 then .ok (0, handle, v)
      else
        match fupdatetstamp E v handle.file true with
        | .error e => .error e
        | .ok v =>
            match ffindh v.root (v.root.block handle.file).fcode with
            | none => .error .nullDeref
            | some fb =>
                if flagcheck (v.root.block fb).attributes fsReadonly then
                  .ok (0, handle, v)
                else if v.root.blkSize = 0 then .error .divByZero
                else if data.length < nbytes then .error .outOfBounds
                else
                  match fwriteLoop handle.file data nbytes v handle.progress nbytes 0 with
                  | (v, pos, left) =>
                      .ok (nbytes - left, { handle with progress := pos }, v)

/-- Collects `left` bytes from `pos` on, stopping at the first missing block. -/
def freadLoop (v : Volume) (file : Nat) : Nat → Nat → Nat → Bytes → Bytes × Nat × Nat
  | 0, pos, left, out => (out, pos, left)
  | fuel + 1, pos, left, out =>
      if left = 0 then (out, pos, left)
      else
        let blkSize := v.root.blkSize
        let blkIndex := pos / blkSize
        let blkOffset := pos % blkSize
        match (fread1 v file blkIndex).1 with
        | none => (out, pos, left)
        | some blk =>
            let chunk := min (blkSize - blkOffset) left
            freadLoop v file fuel (u64 (pos + chunk)) (left - chunk)
              (out ++ slice blk blkOffset chunk)

/-- The count, the buffer stored through `dataout` if any, and the new state. -/
def fread (E : Host) (v : Volume) (handle : FHandle) (nbytes : Nat) :
    Except Fault (Nat × Option Bytes × FHandle × Volume) :=
  if u64 (u64sub handle.progress v.root.blkSize + nbytes) > fsize v.root handle.file then
    .ok (0, none, handle, v)
  else
    match fupdatetstamp E v handle.file false with
    | .error e => .error e
    | .ok v =>
        if nbytes ≠ 0 ∧ v.root.blkSize = 0 then .error .divByZero
        else
          match freadLoop v handle.file nbytes handle.progress nbytes [] with
          | (out, pos, left) =>
              .ok (nbytes - left, some (padTo nbytes out),
                { handle with progress := pos }, v)

/-! ## Seeking -/

theorem fseek_progress {fr : ConfFsroot} {p : Nat} (handle : FHandle)
    (h : fr.blkSize + p < 2 ^ 64) : (fseek fr handle p).progress = fr.blkSize + p :=
  if_neg (by omega)

theorem u64sub_fseek {fr : ConfFsroot} {p : Nat} (handle : FHandle)
    (h : fr.blkSize + p < 2 ^ 64) :
    u64sub (fseek fr handle p).progress fr.blkSize = p := by
  rw [fseek_progress handle h, u64sub_of_le h (Nat.le_add_right _ _)]
  omega

theorem fread_past_size {E : Host} {v : Volume} {handle : FHandle} {p n : Nat}
    (hfit : v.root.blkSize + p + n < 2 ^ 64) (hsize : fsize v.root handle.file < p + n) :
    fread E v (fseek v.root handle p) n = .ok (0, none, fseek v.root handle p, v) := by
  rw [fread, u64sub_fseek handle (by omega), u64_of_lt (by omega)]
  exact if_pos hsize

end BlockyOS.HostTool
