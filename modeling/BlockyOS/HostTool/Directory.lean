import BlockyOS.HostTool.Mount
import Mathlib.Data.List.TakeWhile

/-!
# Directories, creation and listing

Directory handles keep the directory's blocks as one buffer of 28-byte records.
Creation allocates an entry, opens (and creates) the parent directory, records
the new entry there and writes the metadata block.
-/

namespace BlockyOS.HostTool

open BlockyOS.Foundation

/-- A directory handle; `dirarray` is `none` while the pointer is NULL. -/
structure DirHandle where
  file : Nat
  path : Path
  loadedblocks : Nat
  dirarray : Option Bytes

/-! ## Loading and flushing -/

/-- The scan that ends loading: some record of the first block has `local == 0`. -/
def hasEndMarker (dirarray : Bytes) (blkSize : Nat) : Bool :=
  (List.range (safediv blkSize dirItemCodec.width)).any fun cc =>
    (dirItemCodec.get dirarray cc).local' = 0

/-- The loop of `__fdirrefresh`; `loaded` is the buffer read so far. -/
def fdirrefreshLoop (E : Host) (v : Volume) (path : Path) :
    Nat → Nat → Bytes → Except Fault (Nat × Bytes)
  | 0, _, _ => .error .hang
  | fuel + 1, blockprogress, loaded =>
      match ffindi E v.root path (blockprogress + 1) with
      | none => .ok (blockprogress, loaded)
      | some fb =>
          match v.readAt fb v.root.blkSize with
          | none => .error .nullDeref
          | some temp =>
              let loaded := loaded ++ temp.take v.root.blkSize
              if hasEndMarker loaded v.root.blkSize then .ok (blockprogress + 1, loaded)
              else fdirrefreshLoop E v path fuel (blockprogress + 1) loaded

def fdirrefresh (E : Host) (v : Volume) (handle : DirHandle) : Except Fault DirHandle :=
  match fdirrefreshLoop E v handle.path (v.root.nClusterItems + 1) 0 [] with
  | .error e => .error e
  | .ok (loadedblocks, loaded) =>
      .ok { handle with
        loadedblocks := loadedblocks
        dirarray := if loadedblocks = 0 then handle.dirarray else some loaded }

/-- The `do` loop of `fuloaddir`: write the buffer back block by block. -/
def flushEntries (file : Nat) (dirarray : Option Bytes) :
    Nat → Nat → Volume → Except Fault Volume
  | 0, _, _ => .error .hang
  | fuel + 1, entry, v =>
      match ffindhi v.root (v.root.block file).fcode (entry + 1) with
      | none => .ok v
      | some f =>
          match dirarray with
          | none =>
              -- `writeblocks` ignores a NULL buffer; an offset from NULL it does not
              if v.root.blkSize * entry = 0 then
                flushEntries file dirarray fuel (entry + 1) v
              else .error .nullDeref
          | some buffer =>
              if buffer.length < v.root.blkSize * entry + v.root.blkSize then
                .error .outOfBounds
              else
                flushEntries file dirarray fuel (entry + 1)
                  (v.writeAt f (slice buffer (v.root.blkSize * entry) v.root.blkSize)
                    v.root.blkSize)

def fuloaddir (v : Volume) (handle : DirHandle) : Except Fault Volume :=
  flushEntries handle.file handle.dirarray (v.root.nClusterItems + 1) 0 (fuloadroot v)

/-! ## Adding a record -/

inductive Scan where
  | placed (dirarray : Bytes)
  | missed (dirarray : Bytes)

/--
The inner `do` loop of `__fdiradd` from record `cc` on.  The loop goes on while
the record just passed has a nonzero `local`, which the pass incremented.
Nothing stops it at the end of the buffer.
-/
def scanRecords (fb : FsBlock) : Nat → Nat → Bytes → Except Fault Scan
  | 0, _, _ => .error .hang
  | fuel + 1, cc, dirarray =>
      if ¬ dirItemCodec.Inside dirarray cc then .error .outOfBounds
      else
        let item := dirItemCodec.get dirarray cc
        if item.f.fcode = Fcode.zero then
          .ok (.placed (dirItemCodec.put dirarray cc ⟨fb, 0⟩))
        else if item.f.fcode = fb.fcode then
          .ok (.placed (dirItemCodec.put dirarray cc
            { item with f := { item.f with attributes := fb.attributes } }))
        else
          let dirarray := dirItemCodec.put dirarray cc { item with local' := item.local' + 1 }
          if item.local' + 1 = 0 then .ok (.missed dirarray)
          else scanRecords fb fuel (cc + 1) dirarray

/-- The outer loop of `__fdiradd`: refresh, scan, and extend the directory. -/
def fdiraddLoop (E : Host) (fb : Nat) :
    Nat → Volume → DirHandle → Except Fault (Volume × DirHandle)
  | 0, _, _ => .error .hang
  | fuel + 1, v, dir =>
      match fdirrefresh E v dir with
      | .error e => .error e
      | .ok dir =>
          match dir.dirarray with
          | none => fdiraddLoop E fb fuel (faddr v dir.file).1 dir
          | some dirarray =>
              match scanRecords (v.root.block fb) (dirarray.length + 1) 0 dirarray with
              | .error e => .error e
              | .ok (.placed dirarray) => .ok (v, { dir with dirarray := some dirarray })
              | .ok (.missed dirarray) =>
                  fdiraddLoop E fb fuel (faddr v dir.file).1
                    { dir with dirarray := some dirarray }

/--
A pass that adds nothing either extends the directory or meets a full map.  Two
such passes for each map entry cannot happen before the loop repeats a state.
-/
def fdiraddFuel (v : Volume) : Nat := 2 * v.root.nClusterItems + 3

def fdiradd (E : Host) (v : Volume) (dir : DirHandle) (fb : Nat) :
    Except Fault (Volume × DirHandle) :=
  fdiraddLoop E fb (fdiraddFuel v) v dir

/-! ## Metadata of a new item -/

def isascii (c : UInt8) : Bool := c < 0x80

/--
The path in memory when the scan of `__finit` comes to index 36: all characters behind it are
overwritten with `0`, and then the terminator is too.
-/
def scanStart (path : Bytes) : Bytes :=
  if path.length ≤ gptNameLen then path ++ [0]
  else path.take (gptNameLen + 1) ++ List.replicate (path.length - gptNameLen) 0x30

/--
The backwards scan from index `i` down to 1: it clears bytes outside ASCII and stops at a
separator.
-/
def finitScan : Nat → Bytes → Option Nat × Bytes
  | 0, path => (none, path)
  | i + 1, path =>
      match path[i + 1]? with
      | none => finitScan i path
      | some c =>
          if isSep c then (some (i + 1), path)
          else if isascii c then finitScan i path
          else finitScan i (path.set (i + 1) 0)

def cstr (bytes : Bytes) : Bytes := bytes.takeWhile (· ≠ 0)

/-- What `name` points to: the path from the last separator of the scan on. -/
def nameSpan (path : Bytes) : Bytes :=
  match finitScan (min path.length gptNameLen) (scanStart path) with
  | (some i, path) => path.drop i
  | (none, path) => path

/-- The name `__finit` stores: from the last separator on, the separator included. -/
def storedName (path : Bytes) : Bytes := cstr (nameSpan path)

/-- `metadata->f`, the copy of the entry in the metadata block. -/
def metaEntry (fb : FsBlock) : FsBlock where
  fcode := if flagcheck fb.attributes fsProxy then Fcode.zero else fb.fcode
  attributes := flagunset fb.attributes fsMetadataCluster
  index := 0

def metaBlock (fb : FsBlock) (t : Tm) (name : Bytes) : Bytes :=
  fratBlockSig ++ (zeros 8 ++ ((metaEntry fb).encode ++ (zeros 4 ++
    (leBytes 8 t.seconds ++ (zeros 8 ++ (leBytes 8 t.yday ++ (zeros 8 ++
      padTo 440 name)))))))

/-- `__finit`.  A name without a terminator is read past the end of the path. -/
def finit (E : Host) (v : Volume) (fb : Nat) (path : Bytes) : Except Fault Volume :=
  if v.root.blkSize < sizeofMetaFsBlock then .error .outOfBounds
  else if 0 ∉ nameSpan path then .error .outOfBounds
  else
    .ok { v.writeAt fb (metaBlock (v.root.block fb) (E.localtime v.ticks) (storedName path))
        sizeofMetaFsBlock with
      ticks := v.ticks + 1 }

/-! ## Creation -/

/-- The index of the last separator, not counting one at index 0. -/
def lastSep (chars : Bytes) : Nat → Option Nat
  | 0 => none
  | cc + 1 =>
      match chars[cc + 1]? with
      | some c => if isSep c then some (cc + 1) else lastSep chars cc
      | none => lastSep chars cc

def Path.take (path : Path) (n : Nat) : Path :=
  ⟨path.chars.take n, fun h => path.terminated (List.mem_of_mem_take h)⟩

/--
The path `__fgetparent` opens.  Its loop over trailing separators starts at the
terminator and so never runs.
-/
def parentPath (path : Path) : Option Path :=
  (lastSep path.chars path.chars.length).map path.take

/-- The attribute bits `__fcreate` sets in a fresh slot. -/
def createAttributes (attributes : BitVec 16) (flags : List Char) : BitVec 16 :=
  (if strcheck flags 'P' then attributes ||| fsProxy
    else
      let a := if strcheck flags 'd' then attributes ||| fsDirectory else attributes
      let a := if strcheck flags 'f' && !flagcheck a fsDirectory then a ||| fsFile else a
      if strcheck flags 'r' then a ||| fsReadonly else a) ||| fsMetadataCluster

/-- `strcheck(flags, 'F')` lets `__fcreate` replace a live item. -/
def fcreateClear (E : Host) (fr : ConfFsroot) (path : Path) (flags : List Char) :
    Option ConfFsroot :=
  match ffind E fr path with
  | none => some fr
  | some fb => if strcheck flags 'F' then some (clearBlock fr fb) else none

/-- The entry `__fcreate` writes into the slot it allocated. -/
def createdEntry (E : Host) (fr : ConfFsroot) (fb : Nat) (path : Path) (flags : List Char) :
    FsBlock where
  fcode := getfcode E path
  attributes := createAttributes (fr.block fb).attributes flags
  index := 0

/--
The part of `__fcreate` after the parent directory was opened: record the entry
in the directory, flush it, and write the metadata block.
-/
def fcreateFinish (E : Host) (v : Volume) (fb : Nat) (path : Path)
    (dhandle : Option DirHandle) : Except Fault Volume :=
  let name := 0x5C :: path.chars
  match dhandle with
  | none => finit E v fb name
  | some dir =>
      let c := (v.root.block dir.file).fcode
      let c' := (v.root.block fb).fcode
      if c.low ≠ c'.low ∧ c.high ≠ c'.high then
        match fdiradd E v dir fb with
        | .error e => .error e
        | .ok (v, dir) =>
            match fuloaddir v dir with
            | .error e => .error e
            | .ok v => finit E v fb name
      else finit E v fb name

/-- The end of `floadhdir`: load the directory, or give up on another kind of item. -/
def openDir (E : Host) (v : Volume) (path : Path) (file : Nat) :
    Except Fault (Volume × Option DirHandle) :=
  if flagcheck (v.root.block file).attributes fsDirectory then
    match fdirrefresh E v ⟨file, path, 0, none⟩ with
    | .error e => .error e
    | .ok dir => .ok (v, some dir)
  else .ok (v, none)

mutual

/-- `__fcreate`; the fuel bounds the depth of parents created on the way. -/
def fcreateFuel (E : Host) : Nat → Volume → Path → List Char → Except Fault Volume
  | 0, _, _, _ => .error .hang
  | fuel + 1, v, path, flags =>
      match fcreateClear E v.root path flags with
      | none => .ok v
      | some fr =>
          match allocatecluster fr with
          | (fr, none) => .ok { v with root := fr }
          | (fr, some fb) =>
              let v := { v with root := fr.setBlock fb (createdEntry E fr fb path flags) }
              match parentPath path with
              | none => fcreateFinish E v fb path none
              | some parent =>
                  match floadhdirFuel E fuel v parent ['d', 'c'] with
                  | .error e => .error e
                  | .ok (v, dhandle) => fcreateFinish E v fb path dhandle

def floadhdirFuel (E : Host) :
    Nat → Volume → Path → List Char → Except Fault (Volume × Option DirHandle)
  | 0, _, _, _ => .error .hang
  | fuel + 1, v, path, args =>
      match ffind E v.root path with
      | some file => openDir E v path file
      | none =>
          if strcheck args 'c' then
            match fcreateFuel E fuel v path args with
            | .error e => .error e
            | .ok v =>
                match ffind E v.root path with
                | none => .ok (v, none)
                | some file => openDir E v path file
          else .error .nullDeref

end

def createFuel (path : Path) : Nat := 2 * path.chars.length + 2

def fcreate (E : Host) (v : Volume) (path : Path) (flags : List Char) :
    Except Fault Volume :=
  fcreateFuel E (createFuel path) v path flags

def floadhdir (E : Host) (v : Volume) (path : Path) (args : List Char) :
    Except Fault (Volume × Option DirHandle) :=
  floadhdirFuel E (createFuel path + 1) v path args

def fgetparent (E : Host) (v : Volume) (path : Path) :
    Except Fault (Volume × Option DirHandle) :=
  match parentPath path with
  | none => .ok (v, none)
  | some parent => floadhdir E v parent ['d', 'c']

def floadh (E : Host) (v : Volume) (path : Path) (args : List Char) :
    Except Fault (Volume × Option FHandle) :=
  match if strcheck args 'c' then fcreate E v path args else .ok v with
  | .error e => .error e
  | .ok v =>
      .ok (v, (ffind E v.root path).map fun fb => ⟨fb, v.root.blkSize, path⟩)

/-- `fuloadh` flushes the root. -/
def fuloadh (v : Volume) : Volume := fuloadroot v

/-! ## Listing -/

/-- An `unhandle`; either pointer may be NULL. -/
inductive UnHandle where
  | dir (dhandle : Option DirHandle)
  | file (fhandle : Option FHandle)

theorem zero_notMem_cstr (bytes : Bytes) : 0 ∉ cstr bytes := by
  intro h
  have := List.mem_takeWhile_imp h
  simp at this

/-- The path `__fdirlist` rebuilds for a child from its stored name. -/
def childPath (dir : Path) (name : Bytes) : Path where
  chars := dir.chars ++ pathSep ::
    cstr (if name.head? = some pathSep then name.tail else name)
  terminated h := by
    rcases List.mem_append.mp h with hdir | hrest
    · exact dir.terminated hdir
    · rcases List.mem_cons.mp hrest with hsep | hname
      · exact absurd hsep (by decide)
      · exact zero_notMem_cstr _ hname

/-- `finfo->name`, which must be terminated inside the buffer that was read. -/
def infoName (finfo : Bytes) : Except Fault Bytes :=
  if 0 ∈ finfo.drop metaName then .ok (cstr (finfo.drop metaName))
  else .error .outOfBounds

/-- The handle `__fdirlist` opens for the live child in slot `fb`. -/
def openChild (E : Host) (v : Volume) (dir : DirHandle) (fb : Nat) :
    Except Fault UnHandle :=
  match freadinfo v fb with
  | none => .error .nullDeref
  | some finfo =>
      match infoName finfo with
      | .error e => .error e
      | .ok name =>
          let temp := childPath dir.path name
          if flagcheck (v.root.block fb).attributes fsDirectory then
            match floadhdir E v temp [] with
            | .error e => .error e
            | .ok (_, dhandle) => .ok (.dir dhandle)
          else
            match floadh E v temp ['f'] with
            | .error e => .error e
            | .ok (_, fhandle) => .ok (.file fhandle)

def liveChild (fr : ConfFsroot) (c : Fcode) : Option Nat :=
  match ffindh fr c with
  | some fb =>
      if (fr.block fb).fcode.low ≠ 0 ∧ (fr.block fb).fcode.high ≠ 0 then some fb else none
  | none => none

/-- The handle, the moved index, and what the call returns. -/
def fdirlist (E : Host) (v : Volume) (dir : DirHandle) (index : Nat) :
    Except Fault (DirHandle × Nat × Option UnHandle) :=
  match fdirrefresh E v dir with
  | .error e => .error e
  | .ok dir =>
      if safediv (u64 (index * dirItemCodec.width)) v.root.blkSize < dir.loadedblocks then
        match dir.dirarray with
        | none => .error .nullDeref
        | some dirarray =>
            -- the code of a record lies in its first 16 bytes
            if dirarray.length < dirItemCodec.width * index + 16 then .error .outOfBounds
            else
              match liveChild v.root (dirItemCodec.get dirarray index).f.fcode with
              | some fb =>
                  match openChild E v dir fb with
                  | .error e => .error e
                  | .ok child => .ok (dir, index + 1, some child)
              | none =>
                  -- the record is cleared in memory only
                  .ok ({ dir with
                      dirarray := some
                        (splice dirarray (dirItemCodec.width * index) (zeros 14)) },
                    index + 1, none)
      else .ok (dir, index, none)

end BlockyOS.HostTool
