import BlockyOS.HostTool.Raw
import BlockyOS.Kernel.Macros
import BlockyOS.Kernel.PageWalk

/-!
# The allocation table

The ranges of physical memory that `palloc.c` keeps, and
`InitialiseAllocationState`, which builds them from the memory map of the
firmware.
-/

namespace BlockyOS.Kernel

open BlockyOS.Foundation
open BlockyOS.HostTool (Fault)

/-! ## Data -/

def pageSize : Nat := 4 * 1024

def pageSize2 : Nat := 2 * 1024 * 1024

/-- The fields of an `EFI_MEMORY_DESCRIPTOR` that are read. -/
structure EfiDescriptor where
  type : Nat
  physicalStart : Nat
  numberOfPages : Nat
  efiAttribute : Nat
  deriving DecidableEq, Repr

namespace EfiDescriptor

/-- `D->PhysicalStart + (D->NumberOfPages * PAGE_SIZE)` -/
def stop (d : EfiDescriptor) : Nat := u64 (d.physicalStart + u64 (d.numberOfPages * pageSize))

def subRun (d : EfiDescriptor) : Nat :=
  if pageSize2 / pageSize < d.numberOfPages then
    u64 (d.numberOfPages * pageSize) / pageSize2
  else d.numberOfPages

end EfiDescriptor

structure MemoryRangeDescriptor where
  physical : Nat
  subDescriptorIndex : Nat
  pageLimit : Nat
  efiMemoryType : Nat
  deriving DecidableEq, Repr

def sizeofMemoryRangeDescriptor : Nat := 24

structure MemoryRangeSubDescriptor where
  endOfList : Bool
  valid : Bool
  noPages : Nat
  coordBaseIndex : PageCoordinate
  allocationType : Nat
  deriving DecidableEq, Repr

def sizeofMemoryRangeSubDescriptor : Nat := 24

/-- The three arrays of the table, as they lie in memory. -/
structure AllocTable where
  descriptors : Nat → MemoryRangeDescriptor
  indexes : Nat → Nat
  subDescriptors : Nat → MemoryRangeSubDescriptor

/-- The state (`InternalAllocationState`), its arrays beside their addresses. -/
structure AllocState where
  table : AllocTable
  descriptorsAt : Nat
  indexesAt : Nat
  subDescriptorsAt : Nat
  totalDescriptors : Nat
  totalSubDescriptors : Nat
  memoryMaxPages : Nat

/-- The types of memory of `TypeMask0` to `TypeMask3`. -/
def typeMask (c : Fin 4) : List Nat :=
  match c with
  -- EfiRuntimeServicesCode, EfiRuntimeServicesData, EfiACPIReclaimMemory, EfiACPIMemoryNVS
  | 0 => [5, 6, 9, 10]
  -- EfiConventionalMemory, EfiBootServicesCode, EfiBootServicesData, EfiLoaderCode
  | 1 => [7, 3, 4, 1]
  -- EfiLoaderData
  | 2 => [2]
  -- EfiReservedMemoryType, EfiMemoryMappedIOPortSpace, EfiMemoryMappedIO
  | 3 => [0, 12, 11]

/-- A test of an array `p` of words for a word `l`, given a size `n`. -/
abbrev MemberTest : Type := List Nat → Nat → Nat → Except Fault Bool

/--
`memcheckl`.  The size is taken for one in bytes, and the loop looks at the word
behind the last one again and again.
-/
def memcheckl : MemberTest := fun p l n =>
  let n := n / 4
  if n = 0 then .ok false
  else
    match p[n]? with
    | none => .error .outOfBounds
    | some w => if w = l then .ok true else .error .hang

def classify (member : MemberTest) (type : Nat) :
    List (Fin 4) → Except Fault (Option (Fin 4))
  | [] => .ok none
  | c :: cs =>
      match member (typeMask c) type (typeMask c).length with
      | .error e => .error e
      | .ok true => .ok (some c)
      | .ok false => classify member type cs

def typeClasses : List (Fin 4) := [0, 1, 2, 3]

/-! ## The sizing pass -/

/-- `-1`, the value of a tracker that has seen no range yet. -/
def noRange : Nat := 2 ^ 64 - 1

structure Sizing where
  contiguous : Fin 4 → Nat
  descriptorAllocation : Nat
  subDescriptorAllocation : Nat

def Sizing.initial : Sizing := ⟨fun _ => noRange, 0, 0⟩

/-- One typed descriptor in the first pass; all four branches move `TypeContiguous0` on. -/
def Sizing.add (s : Sizing) (c : Fin 4) (d : EfiDescriptor) : Sizing :=
  if s.contiguous c = noRange then
    { s with contiguous := Function.update s.contiguous c d.stop }
  else if s.contiguous c ≠ d.physicalStart then
    { contiguous := Function.update s.contiguous 0 d.stop
      descriptorAllocation := u64 (s.descriptorAllocation + sizeofMemoryRangeDescriptor)
      subDescriptorAllocation := u64 (s.subDescriptorAllocation + d.subRun) }
  else s

def sizingPass (member : MemberTest) : List EfiDescriptor → Sizing → Except Fault Sizing
  | [], s => .ok s
  | d :: map, s =>
      match classify member d.type typeClasses with
      | .error e => .error e
      | .ok none => sizingPass member map s
      | .ok (some c) => sizingPass member map (s.add c d)

def physToIndexAllocation (totalMemory : Nat) : Nat := u64 (totalMemory / pageSize * 2)

/-- `TotalRequiredMemory`, in pages. -/
def Sizing.requiredPages (s : Sizing) (totalMemory : Nat) : Nat :=
  roundup (u64 (s.subDescriptorAllocation + physToIndexAllocation totalMemory +
    s.descriptorAllocation + 8)) pageSize / pageSize

/-! ## The candidate pool -/

/-- `EFI_MEMORY_WB | EFI_MEMORY_XP` -/
def attributeMask : Nat := 0x8 ||| 0x4000

/-- `nGB(4)`: the product of `int`s wraps. -/
def fourGB : Nat := u32 (4 * 1024 * 1024 * 1024)

structure Extent where
  remaining : Nat
  elapsed : Nat
  entries : Nat

/-- The inner loop of `QueryCandidatePool`. -/
def candidateExtent : List EfiDescriptor → Nat → Extent → Extent
  | [], _, x => x
  | d :: map, address, x =>
      if d.physicalStart / pageSize ≠ address then x
      else if fourGB ≤ d.physicalStart then x
      else
        let x := { x with elapsed := u64 (x.elapsed + d.numberOfPages) }
        -- EfiLoaderCode, EfiBootServicesCode, EfiBootServicesData, EfiConventionalMemory
        if d.type ∈ [1, 3, 4, 7] ∧ attributeMask &&& d.efiAttribute ≠ d.efiAttribute then
          if x.remaining < d.numberOfPages then { x with remaining := 0 }
          else
            candidateExtent map (u64 (d.physicalStart / pageSize + d.numberOfPages))
              { x with remaining := x.remaining - d.numberOfPages, entries := x.entries + 1 }
        else x

structure Candidate where
  index : Option Nat
  entries : Nat
  elapsed : Nat

def candidateLoop (member : MemberTest) (required : Nat) :
    List EfiDescriptor → Nat → Candidate → Except Fault Candidate
  | [], _, candidate => .ok candidate
  | d :: map, cc, candidate =>
      match member (typeMask 1) (typeMask 1).length d.type with
      | .error e => .error e
      | .ok false => candidateLoop member required map (cc + 1) candidate
      | .ok true =>
          let x := candidateExtent (d :: map) (d.physicalStart / pageSize) ⟨required, 0, 0⟩
          if x.remaining ≠ 0 ∨
              u64sub candidate.elapsed required < u64sub x.elapsed required then
            candidateLoop member required map (cc + 1) candidate
          else candidateLoop member required map (cc + 1) ⟨some cc, x.entries, x.elapsed⟩

/-- `QueryCandidatePool`: the index of the first descriptor of the pool, and `TotalPages`. -/
def queryCandidatePool (member : MemberTest) (map : List EfiDescriptor) (required : Nat) :
    Except Fault (Option (Nat × Nat)) :=
  match candidateLoop member required (map.take (u32 map.length)) 0
      ⟨none, noRange, noRange⟩ with
  | .error e => .error e
  | .ok candidate =>
      match candidate.index with
      | none => .ok none
      | some cc =>
          if candidate.entries ≠ noRange ∧ candidate.elapsed ≠ noRange then
            .ok (some (cc, u32 candidate.elapsed))
          else .ok none

/-- A field of `size` bytes of which the first `cut` are cleared. -/
def clearFront (size cut value : Nat) : Nat :=
  value / 256 ^ min size cut * 256 ^ min size cut

/-- What `memset` to zero leaves of a descriptor whose first `cut` bytes it covers. -/
def EfiDescriptor.cleared (cut : Nat) (d : EfiDescriptor) : EfiDescriptor where
  type := clearFront 4 cut d.type
  physicalStart := clearFront 8 (cut - 8) d.physicalStart
  numberOfPages := clearFront 8 (cut - 24) d.numberOfPages
  efiAttribute := clearFront 8 (cut - 32) d.efiAttribute

/-- The memory map after `memset(D, 0, TotalPages * PAGE_SIZE)` from an entry on. -/
def clearMap (structSize index totalPages : Nat) (map : List EfiDescriptor) :
    List EfiDescriptor :=
  map.mapIdx fun cc d =>
    if cc < index then d
    else d.cleared (u32 (totalPages * pageSize) - (cc - index) * structSize)

/-! ## The filling pass -/

inductive TableWrite where
  | descriptor (index : Nat)
  | subDescriptors (first run : Nat)
  | pages (first count : Nat)
  deriving DecidableEq, Repr

structure Filling where
  contiguous : Fin 4 → Nat
  arrayCtr : Nat
  currentSubDescriptor : Nat
  table : AllocTable
  writes : List TableWrite

def Filling.initial (table : AllocTable) : Filling := ⟨fun _ => noRange, 0, 0, table, []⟩

/-- A descriptor of its own for a range, and the pages of the range. -/
def Filling.place (f : Filling) (c : Fin 4) (d : EfiDescriptor) : Filling where
  contiguous := Function.update f.contiguous c d.stop
  arrayCtr := f.arrayCtr
  currentSubDescriptor := u32 (f.currentSubDescriptor + d.subRun)
  table :=
    { f.table with
      descriptors := Function.update f.table.descriptors f.arrayCtr
        ⟨d.physicalStart, f.currentSubDescriptor, u32 d.numberOfPages, d.type % 2 ^ 16⟩
      indexes := fun page =>
        if d.physicalStart / pageSize ≤ page ∧
            page < d.physicalStart / pageSize + d.numberOfPages then f.arrayCtr % 2 ^ 16
        else f.table.indexes page }
  writes := f.writes ++
    [.descriptor f.arrayCtr, .subDescriptors f.currentSubDescriptor d.subRun,
      .pages (d.physicalStart / pageSize) d.numberOfPages]

/-- A range merged into the descriptor at the counter; its pages are not entered. -/
def Filling.merge (f : Filling) (d : EfiDescriptor) : Filling :=
  let r := f.table.descriptors f.arrayCtr
  { f with
    table :=
      { f.table with
        descriptors := Function.update f.table.descriptors f.arrayCtr
          { r with pageLimit := u32 (r.pageLimit + d.numberOfPages) } }
    writes := f.writes ++ [.descriptor f.arrayCtr] }

def Filling.add (f : Filling) (c : Fin 4) (d : EfiDescriptor) : Filling :=
  if f.contiguous c = noRange then f.place c d
  else if f.contiguous c ≠ d.physicalStart then
    { f with arrayCtr := f.arrayCtr + 1 }.place c d
  else f.merge d

def fillingPass (member : MemberTest) : List EfiDescriptor → Filling → Except Fault Filling
  | [], f => .ok f
  | d :: map, f =>
      match classify member d.type typeClasses with
      | .error e => .error e
      | .ok none => fillingPass member map f
      | .ok (some c) => fillingPass member map (f.add c d)

/-! ## Initialisation -/

structure Initialised where
  state : AllocState
  poolStart : Nat
  poolPages : Nat
  writes : List TableWrite

/--
The first call of `InitialiseAllocationState`.  The addresses are read from the
candidate's descriptor after `memset` went over it.  The table is taken to lie
apart from the memory map, and holds what its memory held.
-/
def initialiseAllocationState (member : MemberTest) (structSize : Nat)
    (map : List EfiDescriptor) (totalMemory : Nat) (memory : AllocTable) :
    Except Fault Initialised :=
  match sizingPass member map .initial with
  | .error e => .error e
  | .ok sizes =>
      match queryCandidatePool member map (sizes.requiredPages totalMemory) with
      | .error e => .error e
      | .ok none => .error .nullDeref
      | .ok (some (index, totalPages)) =>
          let cleared := clearMap structSize index totalPages map
          match map[index]?, cleared[index]? with
          | some pool, some d =>
              match fillingPass member cleared (.initial memory) with
              | .error e => .error e
              | .ok f =>
                  .ok
                    { state :=
                        { table := f.table
                          descriptorsAt := d.physicalStart
                          indexesAt := u64 (d.physicalStart + sizes.descriptorAllocation)
                          subDescriptorsAt := u64 (d.physicalStart +
                            sizes.descriptorAllocation + sizes.subDescriptorAllocation)
                          totalDescriptors :=
                            sizes.descriptorAllocation / sizeofMemoryRangeDescriptor
                          totalSubDescriptors :=
                            sizes.subDescriptorAllocation / sizeofMemoryRangeSubDescriptor
                          memoryMaxPages := totalMemory / pageSize }
                      poolStart := pool.physicalStart
                      poolPages := totalPages
                      writes := f.writes }
          | _, _ => .error .outOfBounds

end BlockyOS.Kernel
