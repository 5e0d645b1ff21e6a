import BlockyOS.HostTool.FileLoops
import BlockyOS.Kernel.FileCode

/-!
# The three FRAT drivers

The file input and output of the host tool, of the kernel and of the UEFI
loader over one store of data blocks.  The three copies of `frat.c` share their
text; a `Driver` lists what each of them does in its own way.
-/

namespace BlockyOS.Frat

open BlockyOS.Foundation
open BlockyOS.HostTool (Fault Fcode FsBlock ConfFsroot FHandle HasEntry flagcheck
  fsMetadataCluster fsReadonly fsExtensionAllocatedCluster allocatecluster extensionEntry
  countFcode sampleRoot)

/-! ## The store -/

/-- A mounted root and the data blocks, each under the number of its map slot. -/
structure Store where
  root : ConfFsroot
  blocks : Nat → Bytes

namespace Store

def blkSize (s : Store) : Nat := s.root.blkSize

/-- The code `{fb->fcodelow, fb->fcodehigh}` of an entry. -/
def fcode (s : Store) (fb : Nat) : Fcode := (s.root.block fb).fcode

def write (s : Store) (fb : Nat) (buffer : Bytes) : Store :=
  { s with blocks := Function.update s.blocks fb buffer }

@[simp] theorem write_root (s : Store) (fb : Nat) (buffer : Bytes) :
    (s.write fb buffer).root = s.root := rfl

end Store

/-! ## What the copies do in their own way -/

/--
`find` is `__ffindhi` at a code read from an entry, `guardsWalk` whether the
loop of `__fread1` over extension clusters stops at `NULL`, `sizeStart` the
first index `__fsize` looks up, `rejected` what a rejected request of a given
length returns, and `emptyAlloc` whether zero bytes can be allocated.
-/
structure Driver where
  find : ConfFsroot → Fcode → Nat → Option Nat
  guardsWalk : Bool
  sizeStart : Nat
  rejected : Nat → Nat
  emptyAlloc : Bool

/-- `calloc(1, 0)` of the tool's C library may return a block or `NULL`. -/
def hostTool (emptyAlloc : Bool) : Driver where
  find := HostTool.ffindhi
  guardsWalk := true
  sizeStart := 0
  rejected := fun _ => 0
  emptyAlloc := emptyAlloc

/-- `mcalloc(1, 0)` is `mmalloc(0)`, which is `NULL`. -/
def kernel (shifted : BitVec 32) : Driver where
  find := fun fr c index => Kernel.ffindhi shifted fr (c.low, c.high.setWidth 64) index
  guardsWalk := false
  sizeStart := 0
  rejected := fun _ => 0
  emptyAlloc := false

/-- The loader's `__ffindhi`, whose mask keeps the low 48 bits. -/
def loaderFfindhi (fr : ConfFsroot) (hash : BitVec 64 × BitVec 64) (index : Nat) :
    Option Nat :=
  let hash := Kernel.maskHash Kernel.toolHashMask hash
  fr.clusterMap.findIdx? fun fb =>
    fb.fcode.low = hash.1 ∧ fb.fcode.high.setWidth 64 = hash.2 ∧ fb.index.toNat = index

/-- `__calloc(1, 0)` returns `NULL`; a rejected request returns its own length. -/
def loader : Driver where
  find := fun fr c index => loaderFfindhi fr (c.low, c.high.setWidth 64) index
  guardsWalk := false
  sizeStart := 1
  rejected := id
  emptyAlloc := false

/-! ## Blocks of a file -/

def faddr (s : Store) (family : Nat) : Store × Option Nat :=
  match allocatecluster s.root with
  | (fr, none) => ({ s with root := fr }, none)
  | (fr, some fb) =>
      let s := { s with root := fr.setBlock fb (extensionEntry fr family) }
      (s.write fb (zeros s.blkSize), some fb)

/--
The loop over extension clusters.  The first pass looks the same index up
again; at the end the index is one past that of the entry found.
-/
def skipExtension (d : Driver) (fr : ConfFsroot) (c : Fcode) :
    Nat → Option Nat → Nat → Option Nat × Nat
  | 0, fb, index => (fb, index)
  | _, none, index => (none, index)
  | fuel + 1, some fb, index =>
      if flagcheck (fr.block fb).attributes fsExtensionAllocatedCluster then
        skipExtension d fr c fuel (d.find fr c index) (u64 (index + 1))
      else (some fb, index)

/-- The loop with one pass for each entry, one repeated and one that finds nothing. -/
def walk (d : Driver) (s : Store) (file fb index : Nat) : Option Nat × Nat :=
  skipExtension d s.root (s.fcode file) (s.root.nClusterItems + 2) (some fb) index

/-- The block, or none for `NULL`, and the index as the function leaves it. -/
def fread1 (d : Driver) (s : Store) (fb index : Nat) : Except Fault (Option Bytes × Nat) :=
  if index ≠ (s.root.block fb).index.toNat then
    match d.find s.root (s.fcode fb) index with
    | none => .ok (none, index)
    | some found =>
        match walk d s fb found index with
        | (some fb', index) => .ok (some (s.blocks fb'), index)
        | (none, index) => if d.guardsWalk then .ok (none, index) else .error .nullDeref
  else .ok (some (s.blocks fb), index)

def fpushNew (s : Store) (fb : Nat) (buffer : Bytes) : Store :=
  match faddr s fb with
  | (s, some fb') => s.write fb' buffer
  | (s, none) => s

def fpush1 (d : Driver) (s : Store) (fb i : Nat) (buffer : Bytes) : Store :=
  if i ≠ (s.root.block fb).index.toNat then
    match d.find s.root (s.fcode fb) i with
    | none => fpushNew s fb buffer
    | some found =>
        match walk d s fb found i with
        | (some fb', _) => s.write fb' buffer
        | (none, _) => fpushNew s fb buffer
  else if flagcheck (s.root.block fb).attributes fsMetadataCluster then s
  else s.write fb buffer

/-! ## Files -/

/-- The `while` loop of `__fsize`, from index `cc` on. -/
def fsizeFrom (d : Driver) (fr : ConfFsroot) (c : Fcode) : Nat → Nat → Nat
  | 0, _ => 0
  | fuel + 1, cc =>
      match d.find fr c cc with
      | none => 0
      | some tmp =>
          (if flagcheck (fr.block tmp).attributes fsMetadataCluster then 0
            else fr.blkSize) + fsizeFrom d fr c fuel (cc + 1)

def fsize (d : Driver) (s : Store) (file : Nat) : Nat :=
  u64 (fsizeFrom d s.root (s.fcode file) (s.root.nClusterItems + 1) d.sizeStart)

/-- One pass of the loop in `_fwrite`: put `src` at `blkOffset` of block `blkIndex`. -/
def fwriteBlock (d : Driver) (s : Store) (file blkIndex blkOffset : Nat) (src : Bytes) :
    Except Fault Store :=
  if src.length < s.blkSize then
    match fread1 d s file blkIndex with
    | .error e => .error e
    | .ok (blk, blkIndex) =>
        .ok (fpush1 d s file blkIndex (splice (blk.getD (zeros s.blkSize)) blkOffset src))
  else .ok (fpush1 d s file blkIndex src)

def fwriteLoop (d : Driver) (file : Nat) (data : Bytes) :
    Nat → Store → Nat → Nat → Nat → Except Fault (Store × Nat × Nat)
  | 0, s, pos, left, _ => .ok (s, pos, left)
  | fuel + 1, s, pos, left, written =>
      if left = 0 then .ok (s, pos, left)
      else
        let chunk := min (s.blkSize - pos % s.blkSize) left
        match fwriteBlock d s file (pos / s.blkSize) (pos % s.blkSize)
            (slice data written chunk) with
        | .error e => .error e
        | .ok s =>
            fwriteLoop d file data fuel s (u64 (pos + chunk)) (left - chunk)
              (written + chunk)

/--
`_fwrite` for a handle that is not `NULL`; `data` is the buffer behind the
pointer, or none for `NULL`.  The time fields that `__fupdatetstamp` writes are
no part of the store.
-/
def fwrite (d : Driver) (s : Store) (handle : FHandle) (nbytes : Nat)
    (data : Option Bytes) : Except Fault (Nat × FHandle × Store) :=
  match data with
  | none => .ok (d.rejected nbytes, handle, s)
  | some data =>
      if nbytes = 0 then .ok (d.rejected nbytes, handle, s)
      else
        match d.find s.root (s.fcode handle.file) 0 with
        | none => .error .nullDeref
        | some fb =>
            if flagcheck (s.root.block fb).attributes fsReadonly then .ok (0, handle, s)
            else if s.blkSize = 0 then .error .divByZero
            else if data.length < nbytes then .error .outOfBounds
            else
              match fwriteLoop d handle.file data nbytes s handle.progress nbytes 0 with
              | .error e => .error e
              | .ok (s, pos, left) =>
                  .ok (nbytes - left, { handle with progress := pos }, s)

/-- Collects `left` bytes from `pos` on, stopping at the first missing block. -/
def freadLoop (d : Driver) (s : Store) (file : Nat) :
    Nat → Nat → Nat → Bytes → Except Fault (Bytes × Nat × Nat)
  | 0, pos, left, out => .ok (out, pos, left)
  | fuel + 1, pos, left, out =>
      if left = 0 then .ok (out, pos, left)
      else
        match fread1 d s file (pos / s.blkSize) with
        | .error e => .error e
        | .ok (none, _) => .ok (out, pos, left)
        | .ok (some blk, _) =>
            let chunk := min (s.blkSize - pos % s.blkSize) left
            freadLoop d s file fuel (u64 (pos + chunk)) (left - chunk)
              (out ++ slice blk (pos % s.blkSize) chunk)

/-- `(progress - confBlockSize) + nbytes`, which `_fread` compares with the size. -/
def requested (s : Store) (handle : FHandle) (nbytes : Nat) : Nat :=
  u64 (u64sub handle.progress s.blkSize + nbytes)

/--
The count, the buffer stored through `dataout` if any, and the handle.  An
allocation of at least one byte succeeds.
-/
def fread (d : Driver) (s : Store) (handle : FHandle) (nbytes : Nat) :
    Except Fault (Nat × Option Bytes × FHandle) :=
  if fsize d s handle.file < requested s handle nbytes then
    .ok (d.rejected nbytes, none, handle)
  else if nbytes = 0 ∧ d.emptyAlloc = false then .ok (0, none, handle)
  else if nbytes ≠ 0 ∧ s.blkSize = 0 then .error .divByZero
  else
    match freadLoop d s handle.file nbytes handle.progress nbytes [] with
    | .error e => .error e
    | .ok (out, pos, left) =>
        .ok (nbytes - left, some (padTo nbytes out), { handle with progress := pos })

end BlockyOS.Frat
