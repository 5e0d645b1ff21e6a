import BlockyOS.Frat.BlockLayers
import BlockyOS.Frat.Drivers
import BlockyOS.HostTool.Mount

/-!
# The file system of the UEFI loader

The loader mounts a disk by itself, and its file system socket opens files on it,
reads them and flushes the root when a file is closed.  Files are opened without
the flag that creates them, as the loader of executables does it.
-/

namespace BlockyOS.Frat.Uefi

open BlockyOS.Foundation
open BlockyOS.HostTool (Fault Fcode ConfFsroot FHandle Volume Mounted Path Host Tm MiniGPT
  GPTentry PartDim FsRoot flagcheck fsDirectory fsExtensionAllocatedCluster getfcode getloc
  clusterMapPos mountedRoot mapBytes fseek stampAccess stampWrite gptLBA gptSig gptEntries fratSig
  fratRootOffset sizeofMiniGPT sizeofGPTentry sizeofFsRoot sizeofMetaFsBlock)

/-- The disk, and what `GetTime` answers each time; the day of the month is in `yday`. -/
structure Machine where
  disk : Disk
  getTime : Nat → Option Tm

/-! ## Blocks -/

def readblocks (re : Option RawEnv) (img : Image) (pos bytes : Nat) : Option Bytes :=
  re.bind fun re => (readTransfer re pos bytes).bind fun t => img.read t.first t.bytes

def writeblocks (re : Option RawEnv) (img : Image) (data : Bytes) (pos bytes : Nat) : Image :=
  match re.bind fun re => writeTransfer re pos bytes with
  | none => img
  | some t =>
      if t.first + t.bytes ≤ img.size then img.write t.first (padTo t.bytes (data.take bytes))
      else img

/-! ## Mounting -/

def tableEnv (M : Machine) : Option RawEnv := startup M.disk.handles 0 512

def checkdisk (M : Machine) (img : Image) : Except Fault Bool :=
  match readblocks (tableEnv M) img gptLBA sizeofMiniGPT with
  | none => .error .nullDeref
  | some block => .ok ((MiniGPT.decode block).sig = gptSig)

def readTable (M : Machine) (img : Image) : Except Fault (List GPTentry) :=
  match readblocks (tableEnv M) img gptLBA sizeofMiniGPT with
  | none => .error .nullDeref
  | some block =>
      let gpt := MiniGPT.decode block
      match readblocks (tableEnv M) img gpt.partEntryLoc (gpt.nPartEntries * sizeofGPTentry) with
      | some ge => .ok (gptEntries ge gpt.nPartEntries)
      | none => if gpt.nPartEntries = 0 then .ok [] else .error .nullDeref

def queryfs (M : Machine) (img : Image) (partbase : Nat) : Except Fault Bool :=
  match readblocks (tableEnv M) img (u64 (partbase + fratRootOffset)) sizeofFsRoot with
  | none => .error .nullDeref
  | some fr => .ok ((FsRoot.decode fr).signature = fratSig)

def queryparttablefs (M : Machine) (img : Image) : List GPTentry → Except Fault PartDim
  | [] => .ok ⟨0, 0⟩
  | e :: ge =>
      match queryfs M img e.sLBA with
      | .error err => .error err
      | .ok true => .ok ⟨e.sLBA, e.eLBA⟩
      | .ok false => queryparttablefs M img ge

/-- `re->Partition = partition.base` -/
def partitionEnv (M : Machine) (base : Nat) : Option RawEnv :=
  (tableEnv M).map fun re => { re with partition := base }

def fmount (M : Machine) (img : Image) : Except Fault Mounted :=
  match checkdisk M img with
  | .error e => .error e
  | .ok false => .ok .null
  | .ok true =>
      match readTable M img with
      | .error e => .error e
      | .ok ge =>
          match queryparttablefs M img ge with
          | .error e => .error e
          | .ok part =>
              if part.high = 0 then .ok .null
              else
                match readblocks (partitionEnv M part.base) img
                    (u64 (part.base + fratRootOffset)) sizeofFsRoot with
                | none => .error .nullDeref
                | some block =>
                    let root := FsRoot.decode block
                    let re := (partitionEnv M part.base).map fun re =>
                      setblocksize re root.confBlockSize.toNat
                    match readblocks re img
                        (clusterMapPos part.base root.confLogSectors.toNat
                          root.confBlockSize.toNat)
                        root.confClusterSize.toNat with
                    | none => .ok (.unmapped part.base root)
                    | some map => .ok (.mounted (mountedRoot part.base root map))

/-! ## Files -/

/-- `startup(root->GUID, root->altGUID, root->loc, root->root->confBlockSize)`. -/
def rootEnv (M : Machine) (fr : ConfFsroot) : Option RawEnv :=
  startup M.disk.handles fr.loc fr.blkSize

def readAt (M : Machine) (v : Volume) (fb bytes : Nat) : Option Bytes :=
  readblocks (rootEnv M v.root) v.image (getloc v.root fb) bytes

def writeAt (M : Machine) (v : Volume) (fb : Nat) (data : Bytes) (bytes : Nat) : Volume :=
  { v with image := writeblocks (rootEnv M v.root) v.image data (getloc v.root fb) bytes }

/-- The block, or none for `NULL`, and the index as the function leaves it. -/
def fread1 (M : Machine) (v : Volume) (fb index : Nat) : Except Fault (Option Bytes × Nat) :=
  if index ≠ (v.root.block fb).index.toNat then
    match loader.find v.root (v.root.block fb).fcode index with
    | none => .ok (none, index)
    | some found =>
        match skipExtension loader v.root (v.root.block fb).fcode (v.root.nClusterItems + 2)
            (some found) index with
        | (none, _) => .error .nullDeref
        | (some found, index) => .ok (readAt M v found v.root.blkSize, index)
  else .ok (readAt M v fb v.root.blkSize, index)

def fsize (fr : ConfFsroot) (file : Nat) : Nat :=
  u64 (fsizeFrom loader fr (fr.block file).fcode (fr.nClusterItems + 1) loader.sizeStart)

def fupdatetstamp (M : Machine) (v : Volume) (file : Nat) (wt : Bool) : Except Fault Volume :=
  match M.getTime v.ticks with
  | none => .ok { v with ticks := v.ticks + 1 }
  | some t =>
      match readAt M v file sizeofMetaFsBlock with
      | none => .error .nullDeref
      | some finfo =>
          let finfo := if wt then stampWrite t finfo else finfo
          .ok { writeAt M v file (stampAccess t finfo) sizeofMetaFsBlock with
            ticks := v.ticks + 1 }

/-- Collects `left` bytes from `pos` on, stopping at the first missing block. -/
def freadLoop (M : Machine) (v : Volume) (file : Nat) :
    Nat → Nat → Nat → Bytes → Except Fault (Bytes × Nat × Nat)
  | 0, pos, left, out => .ok (out, pos, left)
  | fuel + 1, pos, left, out =>
      if left = 0 then .ok (out, pos, left)
      else if v.root.blkSize = 0 then .error .divByZero
      else
        match fread1 M v file (pos / v.root.blkSize) with
        | .error e => .error e
        | .ok (none, _) => .ok (out, pos, left)
        | .ok (some blk, _) =>
            let offset := pos % v.root.blkSize
            let chunk := min (v.root.blkSize - offset) left
            freadLoop M v file fuel (u64 (pos + chunk)) (left - chunk)
              (out ++ slice blk offset chunk)

/-- The count, the buffer stored through `dataout` if any, the handle and the volume. -/
def fread (M : Machine) (v : Volume) (h : FHandle) (nbytes : Nat) :
    Except Fault (Nat × Option Bytes × FHandle × Volume) :=
  if fsize v.root h.file < u64 (u64sub h.progress v.root.blkSize + nbytes) then
    .ok (nbytes, none, h, v)
  else
    match fupdatetstamp M v h.file false with
    | .error e => .error e
    | .ok v =>
        -- `__calloc(1, 0)` is `NULL`
        if nbytes = 0 then .ok (0, none, h, v)
        else
          match freadLoop M v h.file nbytes h.progress nbytes [] with
          | .error e => .error e
          | .ok (out, pos, left) =>
              .ok (nbytes - left, some (padTo nbytes out), { h with progress := pos }, v)

def fuloadh (M : Machine) (v : Volume) : Volume :=
  let re := rootEnv M v.root
  let img := writeblocks re v.image v.root.root.encode v.root.loc sizeofFsRoot
  { v with
    image := writeblocks re img (mapBytes v.root)
      (clusterMapPos v.root.loc v.root.nLogSectors v.root.blkSize) v.root.clusterSize }

/-! ## The socket -/

inductive Request where
  | openChild (path : Path)
  | size (socket : Nat)
  | read (socket pos bytes : Nat)
  | close (socket : Nat)

inductive Answer where
  | noFile
  | directory
  | opened (socket : Nat)
  | size (bytes : Nat)
  | data (data : Option Bytes) (bytes : Nat)
  | closed
  deriving DecidableEq, Repr

/-- The mounted root, and the sockets that were opened; none for one that is closed. -/
structure Sockets where
  vol : Volume
  files : List (Option FHandle)

def Sockets.onFile (s : Sockets) (socket : Nat)
    (call : FHandle → Except Fault (Sockets × Answer)) : Except Fault (Sockets × Answer) :=
  match s.files[socket]? with
  | some (some h) => call h
  | _ => .error .nullDeref

/-- `__fhandle_sckread` -/
def Sockets.sckread (M : Machine) (s : Sockets) (socket pos bytes : Nat) (h : FHandle) :
    Except Fault (Sockets × Answer) :=
  (fread M s.vol (fseek s.vol.root h pos) bytes).map fun (got, data, h, vol) =>
    (⟨vol, s.files.set socket (some h)⟩, .data (if got = bytes then data else none) got)

/-- `__froot_sckOPENchild`, without the listing that opening a directory makes. -/
def Sockets.sckOpenChild (E : Host) (s : Sockets) (path : Path) : Sockets × Answer :=
  match loader.find s.vol.root (getfcode E path) 0 with
  | none => (s, .noFile)
  | some fb =>
      if flagcheck (s.vol.root.block fb).attributes fsDirectory then (s, .directory)
      else (⟨s.vol, s.files ++ [some ⟨fb, s.vol.root.blkSize, path⟩]⟩, .opened s.files.length)

def Sockets.step (E : Host) (M : Machine) (s : Sockets) :
    Request → Except Fault (Sockets × Answer)
  | .openChild path => .ok (s.sckOpenChild E path)
  | .size socket => s.onFile socket fun h => .ok (s, .size (fsize s.vol.root h.file))
  | .read socket pos bytes => s.onFile socket (s.sckread M socket pos bytes)
  | .close socket =>
      s.onFile socket fun _ => .ok (⟨fuloadh M s.vol, s.files.set socket none⟩, .closed)

end BlockyOS.Frat.Uefi
