import BlockyOS.Foundation.Chains
import BlockyOS.HostTool.Raw
import BlockyOS.Kernel.Macros

/-!
# The kernel heap

`mmalloc.c`: pools of pages, each with its data at the front and an array of
descriptors that grows down from the end.
-/

namespace BlockyOS.Kernel

open BlockyOS.Foundation
open BlockyOS.HostTool (Fault)

/-! ## Pools and descriptors -/

def blockSize : Nat := 4096

def dBlocks : Nat := 32 * 1024

def dPools : Nat := 32

def allocAlign : Nat := 8

def defaultFixMemFrequency : Nat := 32

def memdescUsed : BitVec 32 := 0x1

def memdescNofree : BitVec 32 := 0x2

def sizeofMemdesc : Nat := 32

/--
A descriptor (`memdesc_t`).  Its address is told by its slot, counted from the
end of the pool: slots keep their place when the array grows, and `next` is the
slot of the descriptor it points at.
-/
structure MemDesc where
  ptr : Nat
  nbytes : Nat
  flags : BitVec 32
  next : Option Nat
  deriving DecidableEq, Repr

/-- A pool (`mempool_t`), its descriptors in the order of their slots. -/
structure MemPool where
  base : Nat
  nblocks : Nat
  descs : List MemDesc
  deriving DecidableEq, Repr

namespace MemPool

def nDescriptors (mp : MemPool) : Nat := mp.descs.length

/-- `nblocks * BLOCKSIZE`. -/
def bytes (mp : MemPool) : Nat := u64 (mp.nblocks * blockSize)

def desc (mp : MemPool) (slot : Nat) : MemDesc := mp.descs.getD slot ⟨0, 0, 0, none⟩

def ptr (mp : MemPool) (slot : Nat) : Nat := (mp.desc slot).ptr

def nbytes (mp : MemPool) (slot : Nat) : Nat := (mp.desc slot).nbytes

def next (mp : MemPool) (slot : Nat) : Option Nat := (mp.desc slot).next

def setDesc (mp : MemPool) (slot : Nat) (d : MemDesc) : MemPool :=
  { mp with descs := mp.descs.set slot d }

/-- `md[slot]` is not marked as in use. -/
def unused (mp : MemPool) (slot : Nat) : Bool := !flagCheck (mp.desc slot).flags memdescUsed

/-- `__set(md->flags, memdesc_e__used)`. -/
def setUsed (mp : MemPool) (slot : Nat) : MemPool :=
  mp.setDesc slot
    { mp.desc slot with flags := flagSet (mp.desc slot).flags memdescUsed }

/-- The first unused descriptor of exactly `nbytes`, from the oldest on. -/
def querydescu (mp : MemPool) (nbytes : Nat) : Option Nat :=
  (List.range mp.nDescriptors).find? fun slot =>
    mp.unused slot && mp.nbytes slot == nbytes

/-- One pass of the inner loop of `fixmdarray`: is `slot'` a nearer successor of `slot`? -/
def nearer (mp : MemPool) (slot : Nat) (best : Option Nat × Nat) (slot' : Nat) :
    Option Nat × Nat :=
  let next := u64 (mp.ptr slot + mp.nbytes slot)
  if mp.ptr slot' = mp.ptr slot ∨ mp.ptr slot' < mp.ptr slot then best
  else if mp.ptr slot' < next ∨ best.2 < mp.ptr slot' - next then best
  else (some slot', mp.ptr slot' - next)

def closest (mp : MemPool) (slot : Nat) : Option Nat :=
  ((List.range mp.nDescriptors).foldl (mp.nearer slot) (none, 2 ^ 64 - 1)).1

/--
Every descriptor but the newest is linked to the closest one behind it.  At a
descriptor of zero bytes `ndescs--` moves the pointer to the counter instead of
the counter, and what follows is read through it.
-/
def fixmdarray (mp : MemPool) : Except Fault MemPool :=
  if (List.range (mp.nDescriptors - 1)).any fun slot => mp.nbytes slot == 0 then
    .error .outOfBounds
  else
    .ok { mp with
      descs := mp.descs.mapIdx fun slot d =>
        if slot + 1 < mp.nDescriptors then { d with next := mp.closest slot } else d }

/-- The size that `fragmemory` cuts to: zero is not rounded. -/
def fragSize (nbytes : Nat) : Nat := if nbytes ≠ 0 then roundup nbytes allocAlign else 0

def canFragment (mp : MemPool) (target nbytes : Nat) : Bool :=
  fragSize nbytes < mp.nbytes target

/--
Cuts `nbytes` off the front of `target`; the rest gets a new descriptor.
`table + (*ndescs) - 1` is the oldest descriptor of the array.
-/
def fragmemory (mp : MemPool) (target nbytes : Nat) : Except Fault MemPool :=
  if mp.canFragment target nbytes then
    let rest : MemDesc :=
      ⟨u64 (mp.ptr target + fragSize nbytes), mp.nbytes target - fragSize nbytes, 0,
        mp.next target⟩
    let front : MemDesc :=
      { mp.desc target with nbytes := fragSize nbytes, next := some 0 }
    fixmdarray { mp with descs := mp.descs.set target front ++ [rest] }
  else .ok mp

/-- The recursion along `next`; a chain with more links than descriptors never ends. -/
def chaintip (mp : MemPool) : Nat → Nat → Except Fault Nat
  | 0, _ => .error .hang
  | fuel + 1, slot =>
      match mp.next slot with
      | none => .ok slot
      | some slot' => chaintip mp fuel slot'

def paddedSize (mp : MemPool) (slot : Nat) : Nat :=
  mp.nbytes slot +
    match mp.next slot with
    | none => 0
    | some slot' => u64sub (mp.ptr slot') (u64 (mp.ptr slot + mp.nbytes slot))

def memusedsize (mp : MemPool) : Nat :=
  u64 ((List.range mp.nDescriptors).map mp.paddedSize).sum

/-- The comparison of `allocatedesc`, which counts one descriptor. -/
def admits (mp : MemPool) (nbytes : Nat) : Bool :=
  u64 (mp.memusedsize + nbytes + sizeofMemdesc) ≤ mp.bytes

def placeAfter (mp : MemPool) : Option Nat → Nat
  | none => roundup mp.base allocAlign
  | some tip =>
      roundup
        (if mp.base ≤ mp.ptr tip ∧ mp.ptr tip < mp.base + mp.bytes then
          u64 (mp.ptr tip + mp.nbytes tip)
        else mp.base) allocAlign

/--
A new descriptor in front of the array, linked behind the tip of the chain.  An
empty array has no tip: the one read there lies past the pool, on a page that is
still zero.
-/
def allocatedesc (mp : MemPool) (nbytes : Nat) : Except Fault (Option MemPool) :=
  let nbytes := roundup nbytes allocAlign
  if mp.admits nbytes then
    let fresh (ptr : Nat) : MemDesc := ⟨ptr, nbytes, 0, none⟩
    if mp.nDescriptors = 0 then
      .ok (some { mp with descs := [fresh (mp.placeAfter none)] })
    else
      match mp.chaintip mp.nDescriptors (mp.nDescriptors - 1) with
      | .error e => .error e
      | .ok tip =>
          .ok (some { mp with
            descs := mp.descs.set tip { mp.desc tip with next := some mp.nDescriptors } ++
              [fresh (mp.placeAfter (some tip))] })
  else .ok none

/-- `metbytes`: the sizes of the chain subtracted from zero, while the flags match. -/
def metbytes (mp : MemPool) (targetflags : BitVec 32) :
    Nat → Nat → Nat → Except Fault Nat
  | 0, _, _ => .error .hang
  | fuel + 1, slot, met =>
      match mp.next slot with
      | none => .ok (u64sub met (mp.nbytes slot))
      | some slot' =>
          if flagCheck (mp.desc slot').flags targetflags then
            metbytes mp targetflags fuel slot' (u64sub met (mp.nbytes slot))
          else .ok (u64sub met (mp.nbytes slot))

/--
As `mmalloc` calls it: the flags it passes are held by no descriptor whose flags
are those of a `memdesc_e`, so that the loop behind the sum does not start.
-/
def fusememory (mp : MemPool) (chainstart targetbytes : Nat) (targetflags : BitVec 32) :
    Except Fault MemPool :=
  match mp.metbytes targetflags (mp.nDescriptors + 1) chainstart 0 with
  | .error e => .error e
  | .ok met =>
      if met < targetbytes then .ok mp
      else if (mp.next chainstart).isSome ∧
          flagCheck (mp.desc chainstart).flags targetflags then
        .error .outOfBounds
      else fixmdarray mp

end MemPool

/-! ## The allocator -/

/--
What the allocator takes from outside: the pages of a pool, whether `memmove_s`
gets the pages for its copy, and the comparison of a size with the floating-point
`fragMul` of a request, which is larger than the request.
-/
structure HeapEnv where
  allocatePages : Nat → Option Nat
  temporary : Nat → Bool
  overFragMul : Nat → Nat → Bool
  lt_of_over : ∀ {size nbytes}, overFragMul size nbytes = true → nbytes < size

/-- The state of the allocator, and the addresses given to `FreePages` so far. -/
structure Heap where
  pools : List MemPool
  totalNAllocations : Nat
  freedPages : List Nat

namespace Heap

def initial : Heap := ⟨[], 0, []⟩

/--
The array of pools is grown by `ReallocatePages`, which ends without the value
that becomes `astate->pools`.
-/
def allocatepool (E : HeapEnv) (h : Heap) (nblocks : Nat) : Except Fault Heap :=
  let nblocks := roundup (u64 (nblocks * 2)) allocAlign
  if h.pools = [] then
    match E.allocatePages (u64 (nblocks * blockSize)) with
    | none => .error .nullDeref
    | some base => .ok { h with pools := [⟨base, nblocks, []⟩] }
  else .error .noValue

/-- `while(npools--){allocatepool(nblocks);}` -/
def allocatepools (E : HeapEnv) (nblocks : Nat) : Nat → Heap → Except Fault Heap
  | 0, h => .ok h
  | npools + 1, h =>
      match allocatepool E h nblocks with
      | .error e => .error e
      | .ok h => allocatepools E nblocks npools h

def initastate (E : HeapEnv) (h : Heap) (nblocks npools : Nat) : Except Fault Heap :=
  if h.pools = [] then allocatepools E nblocks npools { h with totalNAllocations := 0 }
  else .ok h

/-- What one pool gives for a request: a block or none, and whether it was newly counted. -/
structure Attempt where
  block : Option Nat
  pool : MemPool
  counted : Bool

/-- The loop of `mmalloc` over the descriptors of one pool. -/
def scanPool (E : HeapEnv) (nbytes : Nat) : List Nat → MemPool → Except Fault Attempt
  | [], mp => .ok ⟨none, mp, false⟩
  | slot :: slots, mp =>
      if mp.unused slot then
        if E.overFragMul (mp.nbytes slot) nbytes then
          match mp.fragmemory slot nbytes with
          | .error e => .error e
          | .ok mp' =>
              .ok ⟨some (mp'.ptr slot), mp'.setUsed slot, mp.canFragment slot nbytes⟩
        else if nbytes ≤ mp.nbytes slot then
          .ok ⟨some (mp.ptr slot), mp.setUsed slot, false⟩
        else
          match mp.fusememory slot nbytes (~~~memdescUsed) with
          | .error e => .error e
          | .ok mp' => scanPool E nbytes slots mp'
      else scanPool E nbytes slots mp

/-- One pass of the loop of `mmalloc` over the pools, after the periodic repair. -/
def tryPool (E : HeapEnv) (nbytes : Nat) (mp : MemPool) : Except Fault Attempt :=
  match mp.querydescu nbytes with
  | some slot => .ok ⟨some (mp.ptr slot), mp.setUsed slot, false⟩
  | none =>
      match scanPool E nbytes (List.range mp.nDescriptors) mp with
      | .error e => .error e
      | .ok ⟨some block, mp, counted⟩ => .ok ⟨some block, mp, counted⟩
      | .ok ⟨none, mp, _⟩ =>
          match mp.allocatedesc nbytes with
          | .error e => .error e
          | .ok none => .ok ⟨none, mp, false⟩
          | .ok (some mp') =>
              .ok ⟨some (mp'.ptr mp.nDescriptors), mp'.setUsed mp.nDescriptors, true⟩

def repair (total : Nat) (mp : MemPool) : Except Fault MemPool :=
  if total % defaultFixMemFrequency = 0 then mp.fixmdarray else .ok mp

def tryPools (E : HeapEnv) (nbytes total : Nat) :
    List MemPool → Except Fault (Option Nat × List MemPool × Nat)
  | [] => .ok (none, [], total)
  | mp :: pools =>
      match repair total mp with
      | .error e => .error e
      | .ok mp =>
          match tryPool E nbytes mp with
          | .error e => .error e
          | .ok ⟨some block, mp, counted⟩ =>
              .ok (some block, mp :: pools, if counted then u64 (total + 1) else total)
          | .ok ⟨none, mp, _⟩ =>
              match tryPools E nbytes total pools with
              | .error e => .error e
              | .ok (block, pools, total) => .ok (block, mp :: pools, total)

/-- `mmalloc` with a bound on its recursion, which comes behind an added pool. -/
def mmallocPasses (E : HeapEnv) : Nat → Heap → Nat → Except Fault (Option Nat × Heap)
  | 0, _, _ => .error .hang
  | passes + 1, h, nbytes =>
      if nbytes = 0 then .ok (none, h)
      else
        let nbytes := roundup nbytes allocAlign
        match initastate E h (min dBlocks (roundup nbytes allocAlign)) dPools with
        | .error e => .error e
        | .ok h =>
            match tryPools E nbytes h.totalNAllocations h.pools with
            | .error e => .error e
            | .ok (some block, pools, total) =>
                .ok (some block, { h with pools := pools, totalNAllocations := total })
            | .ok (none, pools, total) =>
                match allocatepool E { h with pools := pools, totalNAllocations := total }
                    (roundup nbytes (dBlocks * blockSize) / blockSize) with
                | .error e => .error e
                | .ok h => mmallocPasses E passes h nbytes

def mmalloc (E : HeapEnv) (h : Heap) (nbytes : Nat) : Except Fault (Option Nat × Heap) :=
  mmallocPasses E 3 h nbytes

/-- `mmalloczero(nItems * itemSize)`; the contents of blocks are not modelled. -/
def mcalloc (E : HeapEnv) (h : Heap) (nItems itemSize : Nat) :
    Except Fault (Option Nat × Heap) :=
  mmalloc E h (u64 (nItems * itemSize))

/-- The condition under which `mfree` clears the used flag of a descriptor. -/
def freesDesc (ptr : Nat) (d : MemDesc) : Bool :=
  d.ptr ≤ ptr && ptr < u64 (d.ptr + d.nbytes) && !flagCheck d.flags memdescNofree &&
    flagCheck d.flags memdescUsed

def freeDescs (ptr : Nat) : List MemDesc → Option (List MemDesc)
  | [] => none
  | d :: descs =>
      if freesDesc ptr d then
        some ({ d with flags := flagUnset d.flags memdescUsed } :: descs)
      else (freeDescs ptr descs).map (d :: ·)

/-- `mfree` returns at the first descriptor that it frees in any pool. -/
def freePools (ptr : Nat) : List MemPool → Option (List MemPool)
  | [] => none
  | mp :: pools =>
      match freeDescs ptr mp.descs with
      | some descs => some ({ mp with descs := descs } :: pools)
      | none => (freePools ptr pools).map (mp :: ·)

/-- `inPool` holds what the last pool of the loop left there. -/
def inLastPool (h : Heap) (ptr : Nat) : Bool :=
  match h.pools.getLast? with
  | none => false
  | some mp => mp.base ≤ ptr && ptr < mp.base + mp.bytes

def mfree (E : HeapEnv) (h : Heap) (ptr : Nat) : Except Fault Heap :=
  if ptr = 0 then .ok h
  else if h.pools = [] then
    match initastate E h dBlocks dPools with
    | .error e => .error e
    | .ok h => .ok { h with freedPages := ptr :: h.freedPages }
  else
    match freePools ptr h.pools with
    | some pools => .ok { h with pools := pools }
    | none =>
        .ok { h with
          freedPages := if h.inLastPool ptr then h.freedPages else ptr :: h.freedPages }

/-- The size of the first descriptor of a pool that reaches to `ptr`, its end included. -/
def sizeIn (ptr : Nat) (mp : MemPool) : Nat :=
  match mp.descs.find? fun d => d.ptr ≤ ptr && ptr ≤ u64 (d.ptr + d.nbytes) with
  | none => 0
  | some d => d.nbytes

/-- `originalsize` of `mrealloc`: the first pool with a size that is not zero. -/
def originalSize (h : Heap) (ptr : Nat) : Nat :=
  ((h.pools.map (sizeIn ptr)).find? fun size => size ≠ 0).getD 0

def mrealloc (E : HeapEnv) (h : Heap) (ptr new : Nat) : Except Fault (Option Nat × Heap) :=
  if ptr = 0 then mmalloc E h new
  else if new = 0 then
    match mfree E h ptr with
    | .error e => .error e
    | .ok h => .ok (none, h)
  else if h.originalSize ptr = 0 then .ok (none, h)
  else
    match mmalloc E h new with
    | .error e => .error e
    | .ok (none, h) => .ok (none, h)
    | .ok (some out, h) =>
        match mfree E h ptr with
        | .error e => .error e
        | .ok h => .ok (some out, h)

end Heap

end BlockyOS.Kernel
