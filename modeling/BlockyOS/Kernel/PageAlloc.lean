import BlockyOS.Foundation.Runs
import BlockyOS.Kernel.AllocTable
import BlockyOS.Kernel.Processor

/-!
# Allocating and freeing pages

`AllocatePages` and `FreePages` of `palloc.c`, with the table they keep and the
page tables they write.
-/

namespace BlockyOS.Kernel

open BlockyOS.Foundation
open BlockyOS.HostTool (Fault)

/-! ## The allocation table -/

def pageSize3 : Nat := 1024 * 1024 * 1024

def patUsedRegion : Nat := 0x4

def invalidSubDescriptorIndex : Nat := 2 ^ 32 - 1

/-- The bits of an `AllocationTableUpdateBitMask`. -/
def atuAllocationType : BitVec 64 := 0x01
def atuValid : BitVec 64 := 0x02
def atuNoPages : BitVec 64 := 0x04
def atuCoordBaseIndex : BitVec 64 := 0x08
def atuSubDescriptor : BitVec 64 := 0x0F

/-- The variable arguments; those whose bit is not in the mask are not passed. -/
structure UpdateArgs where
  allocationType : Nat
  valid : Bool
  noPages : Nat
  coordBaseIndex : PageCoordinate

namespace AllocState

/-- The `QueryPhysicalAddress` macro. -/
def covers (s : AllocState) (adr : Nat) : Bool := adr / pageSize < s.memoryMaxPages

/-- `Descriptors + PhysicalDescriptorIndexes[Adr / PAGE_SIZE]` -/
def descriptorIndex (s : AllocState) (adr : Nat) : Nat := s.table.indexes (adr / pageSize)

/-- The `GetDescriptor` macro takes a descriptor at address zero for none. -/
def getDescriptor (s : AllocState) (adr : Nat) : Option MemoryRangeDescriptor :=
  if adr < s.memoryMaxPages * pageSize ∧
      s.descriptorsAt + s.descriptorIndex adr * sizeofMemoryRangeDescriptor ≠ 0 then
    some (s.table.descriptors (s.descriptorIndex adr))
  else none

/--
The walk of `GetSubDescriptor` along a list, with the distance from the start of
the range.  An entry longer than the distance is subtracted from it, and the
next entry, which is shorter than the wrapped rest, ends the walk.
-/
def subDescriptorFrom (s : AllocState) : Nat → Nat → Nat → Option Nat
  | 0, _, _ => none
  | fuel + 1, slot, copyAdr =>
      if copyAdr = 0 then some slot
      else if (s.table.subDescriptors slot).endOfList then none
      else
        let bytes := (s.table.subDescriptors slot).noPages * pageSize
        subDescriptorFrom s fuel (slot + 1)
          (if copyAdr < bytes then u64sub copyAdr bytes else 0)

/-- The `GetSubDescriptor` macro: the index of the entry found, if any. -/
def getSubDescriptor (s : AllocState) (adr : Nat) : Option Nat :=
  let r := s.table.descriptors (s.descriptorIndex adr)
  if adr < s.memoryMaxPages * pageSize ∧
      r.subDescriptorIndex ≠ invalidSubDescriptorIndex then
    s.subDescriptorFrom 3 r.subDescriptorIndex (u64sub adr r.physical)
  else none

/-- `VirtualAddressAToU64(InitVirtualAddress(PC))`: bit 56 is the sign. -/
def virtualAddress (c : PageCoordinate) : Nat :=
  let va := c.l1 * 2 ^ 12 + c.l2 * 2 ^ 21 + c.l3 * 2 ^ 30 + c.l4 * 2 ^ 39 + c.l5 * 2 ^ 48
  if va < 2 ^ 56 then va else va + (2 ^ 64 - 2 ^ 57)

/-- `MapVirtual`, zero standing for `NULL`. -/
def mapVirtual (s : AllocState) (physical : Nat) : Nat :=
  if s.covers physical then
    match s.getSubDescriptor physical with
    | some slot => virtualAddress (s.table.subDescriptors slot).coordBaseIndex
    | none => 0
  else 0

def setSubDescriptor (s : AllocState) (slot : Nat) (d : MemoryRangeSubDescriptor) :
    AllocState :=
  { s with
    table := { s.table with subDescriptors := Function.update s.table.subDescriptors slot d } }

def listLength (s : AllocState) : Nat → Nat → Except Fault Nat
  | 0, _ => .error .hang
  | fuel + 1, slot =>
      if (s.table.subDescriptors slot).endOfList then .ok 0
      else (listLength s fuel (slot + 1)).map (· + 1)

def shiftPages (s : AllocState) (slot count delta : Nat) : AllocState :=
  { s with
    table :=
      { s.table with
        subDescriptors := fun i =>
          let d := s.table.subDescriptors i
          if slot < i ∧ i ≤ slot + count then
            { d with noPages := (d.noPages + delta) % 2 ^ 14 }
          else d } }

/-! ### Updates -/

/--
An update whose argument has eight bits.  It is passed as an `int`, and the compiler
puts a trap where `va_arg` is to read it as anything smaller.
-/
def updateByte (s : AllocState) (adr : Nat) : Except Fault (Option AllocState) :=
  match s.getSubDescriptor adr with
  | none => .ok none
  | some _ => .error .trap

/-- `ATUSubDescriptorAllocationType` -/
def updateAllocationType (s : AllocState) (adr _type : Nat) :
    Except Fault (Option AllocState) :=
  s.updateByte adr

/-- `ATUSubDescriptorValid` -/
def updateValid (s : AllocState) (adr : Nat) (_valid : Bool) :
    Except Fault (Option AllocState) :=
  s.updateByte adr

/-- `ATUSubDescriptorNoPages` -/
def updateNoPages (s : AllocState) (fuel adr newNoPages : Nat) :
    Except Fault (Option AllocState) :=
  match s.getSubDescriptor adr with
  | none => .ok none
  | some slot =>
      let d := s.table.subDescriptors slot
      let delta := u64sub newNoPages d.noPages
      let s := s.setSubDescriptor slot { d with noPages := newNoPages % 2 ^ 14 }
      match s.listLength fuel (slot + 1) with
      | .error e => .error e
      | .ok count => .ok (some (s.shiftPages slot count delta))

/-- `ATUSubDescriptorCoordBaseIndex` -/
def updateCoordBaseIndex (s : AllocState) (adr : Nat) (c : PageCoordinate) :
    Option AllocState :=
  (s.getSubDescriptor adr).map fun slot =>
    s.setSubDescriptor slot { s.table.subDescriptors slot with coordBaseIndex := c }

/-- One of the four parts: it is left out once `out` is false. -/
def updatePart (mask bit : BitVec 64) (update : AllocState → Except Fault (Option AllocState)) :
    Bool × AllocState → Except Fault (Bool × AllocState)
  | (out, s) =>
      if out && mask &&& bit == bit then
        match update s with
        | .error e => .error e
        | .ok none => .ok (false, s)
        | .ok (some s) => .ok (true, s)
      else .ok (out, s)

/-- `UpdateAllocationTableByPhysical`: its result, and the state behind it. -/
def updateAllocationTableByPhysical (s : AllocState) (fuel : Nat) (mask : BitVec 64) (adr : Nat)
    (a : UpdateArgs) : Except Fault (Bool × AllocState) :=
  if !s.covers adr || (s.getDescriptor adr).isNone then .ok (false, s)
  else do
    let r ← updatePart mask atuAllocationType
      (fun s => s.updateAllocationType adr a.allocationType) (true, s)
    let r ← updatePart mask atuValid (fun s => s.updateValid adr a.valid) r
    let r ← updatePart mask atuNoPages (fun s => s.updateNoPages fuel adr a.noPages) r
    updatePart mask atuCoordBaseIndex
      (fun s => .ok (s.updateCoordBaseIndex adr a.coordBaseIndex)) r

/-- The update that `AllocatePages` makes. -/
def markUsed (s : AllocState) (fuel adr noPages : Nat) (c : PageCoordinate) :
    Except Fault AllocState :=
  (s.updateAllocationTableByPhysical fuel atuSubDescriptor adr
    ⟨patUsedRegion, true, noPages, c⟩).map Prod.snd

/-- The update that `FreePages` makes, with the one argument `~PATUsedRegion`. -/
def markUnused (s : AllocState) (fuel adr : Nat) : Except Fault AllocState :=
  (s.updateAllocationTableByPhysical fuel atuAllocationType adr
    ⟨0xFF - patUsedRegion, false, 0, initPageCoordinate false 0⟩).map Prod.snd

/-! The first part of a mask that has its bit decides: it traps, or leaves the rest out. -/

theorem updatePart_of_mem {mask bit : BitVec 64} (h : (mask &&& bit == bit) = true)
    (update : AllocState → Except Fault (Option AllocState)) (s : AllocState) :
    updatePart mask bit update (true, s) =
      match update s with
      | .error e => .error e
      | .ok none => .ok (false, s)
      | .ok (some s) => .ok (true, s) := by
  rw [updatePart, h]
  rfl

def traps (s : AllocState) (adr : Nat) : Bool :=
  s.covers adr && (s.getDescriptor adr).isSome && (s.getSubDescriptor adr).isSome

theorem updateAllocationTableByPhysical_of_type {mask : BitVec 64}
    (hmask : (mask &&& atuAllocationType == atuAllocationType) = true) (s : AllocState)
    (fuel adr : Nat) (a : UpdateArgs) : s.updateAllocationTableByPhysical fuel mask adr a =
      if s.traps adr then .error .trap else .ok (false, s) := by
  rw [updateAllocationTableByPhysical, traps]
  cases s.covers adr with
  | false => rfl
  | true =>
      cases s.getDescriptor adr with
      | none => rfl
      | some r =>
          rw [updatePart_of_mem hmask, updateAllocationType, updateByte]
          cases s.getSubDescriptor adr <;> rfl

theorem markUsed_eq (s : AllocState) (fuel adr noPages : Nat) (c : PageCoordinate) :
    s.markUsed fuel adr noPages c = if s.traps adr then .error .trap else .ok s := by
  rw [markUsed, updateAllocationTableByPhysical_of_type (by decide)]
  split <;> rfl

theorem markUnused_eq (s : AllocState) (fuel adr : Nat) :
    s.markUnused fuel adr = if s.traps adr then .error .trap else .ok s := by
  rw [markUnused, updateAllocationTableByPhysical_of_type (by decide)]
  split <;> rfl

/-! ### Free memory -/

/-- The entry of a list that fits `noPages` best, by the loop of `QueryFreeMemory`. -/
def bestFit (s : AllocState) (noPages : Nat) :
    Nat → Nat → Option Nat → Except Fault (Option Nat)
  | 0, _, _ => .error .hang
  | fuel + 1, slot, lowest =>
      let d := s.table.subDescriptors slot
      let size (i : Nat) := (s.table.subDescriptors i).noPages
      if d.endOfList then .ok lowest
      else if d.valid then bestFit s noPages fuel (slot + 1) lowest
      else
        match lowest with
        | none =>
            bestFit s noPages fuel (slot + 1) (if noPages ≤ d.noPages then some slot else none)
        | some low =>
            if size low = noPages then .ok lowest
            else
              bestFit s noPages fuel (slot + 1)
                (if noPages ≤ d.noPages ∧ d.noPages - noPages < size low - noPages then
                  some slot
                else lowest)

def pagesBefore (s : AllocState) (first slot : Nat) : Nat :=
  ((List.range (slot - first)).map fun j => (s.table.subDescriptors (first + j)).noPages).sum

/-- `QueryFreeMemory` without an input address, over the ranges from one on. -/
def queryFreeMemoryFrom (s : AllocState) (fuel noPages : Nat) : List Nat → Except Fault Nat
  | [] => .ok 0
  | cc :: rest =>
      let r := s.table.descriptors cc
      if r.subDescriptorIndex = invalidSubDescriptorIndex then
        queryFreeMemoryFrom s fuel noPages rest
      else
        match s.bestFit noPages fuel r.subDescriptorIndex none with
        | .error e => .error e
        | .ok none => queryFreeMemoryFrom s fuel noPages rest
        | .ok (some slot) =>
            .ok (u64 (r.physical + s.pagesBefore r.subDescriptorIndex slot * pageSize))

def queryFreeMemory (s : AllocState) (fuel noPages : Nat) : Except Fault Nat :=
  if s.covers 0 then s.queryFreeMemoryFrom fuel noPages (List.range s.totalDescriptors)
  else .ok 0

end AllocState

/-! ## Page coordinates -/

namespace PageCoordinate

def enabled (level5 : Bool) (nBytes : Nat) : PageCoordinate where
  l1 := 0
  l2 := 0
  l3 := 0
  l4 := 0
  l5 := 0
  enableL1 := if pageSize3 ≤ nBytes then false else true
  enableL2 := if pageSize2 ≤ nBytes then false else true
  enableL3 := true
  enableL4 := true
  enableL5 := level5

/-- An index of nine bits moved on by one, or back. -/
def next (index : Nat) : Nat := (index + 1) % 512

def prev (index : Nat) : Nat := (index + 511) % 512

/-! The top of the loop of `AllocatePages`: the index of the level of the pages, and carries. -/

def step (nBytes : Nat) (c : PageCoordinate) : PageCoordinate :=
  if pageSize3 ≤ nBytes then { c with l3 := next c.l3 }
  else if pageSize2 ≤ nBytes then { c with l2 := next c.l2 }
  else { c with l1 := next c.l1 }

def carryL2 (c : PageCoordinate) : PageCoordinate :=
  if c.l1 = 0 then { c with l2 := next c.l2 } else c

def carryL3 (c : PageCoordinate) : PageCoordinate :=
  if c.l2 = 0 ∧ c.l1 = 0 then { c with l3 := next c.l3 } else c

def carryL4 (c : PageCoordinate) : PageCoordinate :=
  if c.l3 = 0 ∧ c.l2 = 0 ∧ c.l1 = 0 then { c with l4 := next c.l4 } else c

def carryL5 (level5 : Bool) (c : PageCoordinate) : PageCoordinate :=
  if level5 ∧ c.l4 = 0 ∧ c.l3 = 0 ∧ c.l2 = 0 ∧ c.l1 = 0 then { c with l5 := next c.l5 }
  else c

def advance (level5 : Bool) (nBytes : Nat) (c : PageCoordinate) : PageCoordinate :=
  carryL5 level5 (carryL4 (carryL3 (carryL2 (step nBytes c))))

end PageCoordinate

/-! ## The machine -/

/--
What does not change: the paging mode and the stored table, the byte that
`MapPhysical` finds on its stack, what clearing a page of memory makes of an
allocation table that may lie there, and a bound on the loops.
-/
structure PagingEnv where
  shift : FieldShift
  level5 : Bool
  stack : Bool
  storedPageTable : Nat
  clearTable : Nat → AllocState → AllocState
  fuel : Nat

/-- The allocation state and the words of memory that hold page tables. -/
structure PagingState where
  alloc : AllocState
  word : Nat → Nat

/-- The frames that an entry written by `AllocatePages` maps. -/
structure Frames where
  address : Nat
  size : Nat
  deriving DecidableEq, Repr

namespace PagingState

def tables (E : PagingEnv) (s : PagingState) : PageTables :=
  ⟨E.level5, E.storedPageTable, s.alloc.mapVirtual, s.word⟩

def processor (E : PagingEnv) (s : PagingState) : PageTables :=
  ⟨E.level5, E.storedPageTable, id, s.word⟩

def mapPhysical (E : PagingEnv) (s : PagingState) (virt : Nat) : Nat :=
  (s.tables E).mapPhysicalFrom E.shift E.stack virt

def setWord (s : PagingState) (a e : Nat) : PagingState :=
  { s with word := fun b => if b = a then e else s.word b }

def setRun (s : PagingState) (a count : Nat) (e : Nat → Nat) : PagingState :=
  { s with
    word := fun b =>
      if a ≤ b ∧ b < a + 8 * count ∧ (b - a) % 8 = 0 then e ((b - a) / 8) else s.word b }

/-- `Present || PageInMemory`; the second bit lies elsewhere in an entry for a page. -/
def taken (e memoryBit : Nat) : Bool := present e || bits e memoryBit 1 = 1

def touchableFrom (s : PagingState) (table memoryBit : Nat) : Nat → Nat → Bool
  | 0, _ => true
  | count + 1, cc =>
      !taken (s.word (table + 8 * cc)) memoryBit &&
        touchableFrom s table memoryBit count (cc + 1)

/-- `Touchable`: the entries are looked at from the first of the table on. -/
def touchable (s : PagingState) (table index memoryBit : Nat) : Bool :=
  s.touchableFrom table memoryBit (512 - index) 0

structure Filled where
  virt : Nat
  frames : List Frames
  bytes : Nat
  state : PagingState

inductive Turn where
  | again (c : PageCoordinate) (s : PagingState)
  | done (filled : Filled)

def runFrames (kind : PageKind) (count : Nat) (e : Nat → Nat) : List Frames :=
  (List.range count).map fun cc => ⟨entryFrame kind (e cc), kind.size⟩

def fillTable (E : PagingEnv) (s : PagingState) (flags entry : Nat) (c back : PageCoordinate) :
    Except Fault Turn :=
  if !taken (s.word entry) 6 then
    match s.alloc.queryFreeMemory E.fuel 1 with
    | .error e => .error e
    | .ok physical =>
        let s := s.setWord entry (tableEntry flags physical)
        match s.alloc.markUsed E.fuel (physical % 2 ^ 40) pageSize c with
        | .error e => .error e
        | .ok alloc => .ok (.again back { s with alloc := alloc })
  else .ok (.again c s)

/--
The cases of the two middle levels, whose pages have `kind`: pages where the
request takes at least one, otherwise one table.  `BASE` is the
argument `Base`, since nothing ever switches the input address on.
-/
def fillDirectory (E : PagingEnv) (s : PagingState) (kind : PageKind)
    (base nBytes flags key entry index : Nat) (c back : PageCoordinate) : Except Fault Turn :=
  if s.touchable entry index 6 then
    let nPages := if kind.size ≤ nBytes then u32 (nBytes / pageSize) else 1
    match s.alloc.markUsed E.fuel base nPages c with
    | .error e => .error e
    | .ok alloc =>
        let s := { s with alloc := alloc }
        let pages := fun cc => pageEntry kind flags key (runAddress kind base cc)
        let table := tableEntry flags base
        let filled :=
          if kind.size ≤ nBytes then
            (s.setRun (entry + 8 * index) (512 - index) pages, runFrames kind (512 - index) pages)
          else (s.setWord entry table, [⟨entryFrame .page4KB table, pageSize⟩])
        if nBytes < pageSize2 then .ok (.again back filled.1)
        else .ok (.done ⟨AllocState.virtualAddress c, filled.2, roundup nBytes kind.size, filled.1⟩)
  else .ok (.again c s)

def fillPageTable (E : PagingEnv) (s : PagingState) (base nBytes flags key table : Nat)
    (c : PageCoordinate) : Except Fault Turn :=
  if pageSize ≤ nBytes ∧ s.touchable table c.l1 9 then
    match s.alloc.markUsed E.fuel base (u32 (nBytes / pageSize)) c with
    | .error e => .error e
    | .ok alloc =>
        let s := { s with alloc := alloc }
        let pages := fun cc => pageEntry .page4KB flags key (runAddress .page4KB base cc)
        .ok (.done ⟨AllocState.virtualAddress c, runFrames .page4KB (512 - c.l1) pages,
          roundup nBytes pageSize, s.setRun (table + 8 * c.l1) (512 - c.l1) pages⟩)
  else .ok (.again c s)

def turn (E : PagingEnv) (s : PagingState) (base nBytes flags key : Nat) (c : PageCoordinate) :
    Except Fault Turn :=
  match (s.tables E).walkPageTree E.shift 5 c with
  | (5, pt) =>
      if E.level5 then s.fillTable E flags pt c { c with l5 := PageCoordinate.prev c.l5 }
      else .ok (.again c s)
  | (4, pt) => s.fillTable E flags pt c { c with l4 := PageCoordinate.prev c.l4 }
  | (3, pt) =>
      s.fillDirectory E .page1GB base nBytes flags key pt c.l3 c
        { c with l3 := PageCoordinate.prev c.l3 }
  | (2, pt) =>
      s.fillDirectory E .page2MB base nBytes flags key pt c.l2 c
        { c with l2 := PageCoordinate.prev c.l2 }
  | (1, pt) => s.fillPageTable E base nBytes flags key pt c
  | _ => .ok (.again c s)

def allocateFrom (E : PagingEnv) (base nBytes flags key : Nat) :
    Nat → PageCoordinate → PagingState → Except Fault Filled
  | 0, _, _ => .error .hang
  | fuel + 1, c, s =>
      match s.turn E base nBytes flags key (c.advance E.level5 nBytes) with
      | .error e => .error e
      | .ok (.again c s) => allocateFrom E base nBytes flags key fuel c s
      | .ok (.done filled) => .ok filled

/-- `memset` with zero, page by page; each page is where the processor finds it then. -/
def clearPages (E : PagingEnv) : Nat → Nat → PagingState → Except Fault PagingState
  | 0, _, s => .ok s
  | count + 1, virt, s =>
      match (s.processor E).pageFrame virt with
      | none => .error .trap
      | some frame =>
          clearPages E count (u64 (virt + pageSize))
            { s.setRun frame 512 fun _ => 0 with alloc := E.clearTable frame s.alloc }

/-- `AllocatePages`: the address returned and the frames mapped. -/
def allocatePages (E : PagingEnv) (s : PagingState) (base nBytes flags key : Nat) :
    Except Fault (Nat × List Frames × PagingState) := do
  let filled ← allocateFrom E base nBytes flags key E.fuel (.enabled E.level5 nBytes) s
  let s ← clearPages E (filled.bytes / pageSize) filled.virt filled.state
  .ok (filled.virt, filled.frames, s)

theorem allocatePages_ok_iff {E : PagingEnv} {s s' : PagingState}
    {base nBytes flags key virt : Nat} {frames : List Frames} :
    s.allocatePages E base nBytes flags key = .ok (virt, frames, s') ↔
      ∃ bytes s₁, allocateFrom E base nBytes flags key E.fuel (.enabled E.level5 nBytes) s =
          .ok ⟨virt, frames, bytes, s₁⟩ ∧
        clearPages E (bytes / pageSize) virt s₁ = .ok s' := by
  rw [allocatePages]
  constructor
  · intro h
    obtain ⟨filled, hfilled, hrest⟩ := bind_ok h
    obtain ⟨s₂, hclear, hlast⟩ := bind_ok hrest
    cases hlast
    exact ⟨filled.bytes, filled.state, hfilled, hclear⟩
  · rintro ⟨bytes, s₁, hfilled, hclear⟩
    rw [hfilled, ok_bind, hclear, ok_bind]

/-! ## Freeing -/

/-- The `__rounddown` macro, which takes one more than the unit off first. -/
def rounddown (a i : Nat) : Nat := u64 (u64sub a (i + 1) / i * i)

def totalMappedMemory (E : PagingEnv) (s : PagingState) (virt : Nat) : Nat :=
  if virt = 0 then 0
  else
    let physical := s.mapPhysical E virt
    if s.alloc.covers physical then
      match s.alloc.getSubDescriptor physical with
      | some slot => (s.alloc.table.subDescriptors slot).noPages * pageSize
      | none => 0
    else 0

/-- `PageInMemory` and `Present` of an entry for a page cleared. -/
def clearEntry (e : Nat) : Nat := e - bits e 9 1 * 2 ^ 9 - bits e 0 1

/-- The loop of `FreePages`; at a level without pages it stays where it is. -/
def clearEntries (E : PagingEnv) : Nat → Nat → Nat → PagingState → Except Fault PagingState
  | 0, _, _, _ => .error .hang
  | fuel + 1, total, virt, s =>
      if total = 0 then .ok s
      else
        let clear (size pt : Nat) :=
          clearEntries E fuel (total - size) (u64 (virt + size))
            (s.setWord pt (clearEntry (s.word pt)))
        match (s.tables E).walkPageTreeByVirtual E.shift virt with
        | (3, pt) => clear pageSize3 pt
        | (2, pt) => clear pageSize2 pt
        | (1, pt) => clear pageSize pt
        | _ => .error .hang

def freePages (E : PagingEnv) (s : PagingState) (virt : Nat) : Except Fault PagingState :=
  if virt = 0 then .ok s
  else
    let physical := s.mapPhysical E (rounddown virt pageSize)
    if s.alloc.covers physical then
      match s.alloc.markUnused E.fuel physical with
      | .error e => .error e
      | .ok alloc =>
          let s := { s with alloc := alloc }
          clearEntries E E.fuel (s.totalMappedMemory E virt) virt s
    else .ok s

end PagingState

end BlockyOS.Kernel
