import BlockyOS.Kernel.DescriptorRepair
import BlockyOS.Kernel.HeapContents

/-!
# Whose block a pointer is

`descinfo`, `mclone` and `mrealloc` take a pointer for the block of the first
descriptor that reaches it, the end of the descriptor included.  Where blocks
touch, that may be the block in front.
-/

namespace BlockyOS.Kernel

open BlockyOS.Foundation
open BlockyOS.HostTool (Fault)

/-! ## The search -/

def reaches (ptr : Nat) (d : MemDesc) : Bool := d.ptr ≤ ptr && ptr ≤ u64 (d.ptr + d.nbytes)

/-- The fields of `ml_t` that `descinfo` sets. -/
structure DescInfo where
  pool : Nat
  free : Bool
  mdesc : MemDesc
  deriving DecidableEq

namespace Heap

/-- The loops of `descinfo`, from pool `cc` on. -/
def descinfoFrom (ptr : Nat) : Nat → List MemPool → DescInfo
  | _, [] => ⟨0, false, ⟨0, 0, 0, none⟩⟩
  | cc, mp :: pools =>
      match mp.descs.find? (reaches ptr) with
      | some d => ⟨cc, !flagCheck d.flags memdescUsed, d⟩
      | none => descinfoFrom ptr (cc + 1) pools

/-- `descinfo`; without pools it makes the first ones. -/
def descinfo (E : HeapEnv) (h : Heap) (ptr : Nat) : Except Fault (DescInfo × Heap) :=
  if h.pools = [] then
    (initastate E h dBlocks dPools).map fun h => (⟨0, false, ⟨0, 0, 0, none⟩⟩, h)
  else .ok (descinfoFrom ptr 0 h.pools, h)

theorem find?_none_of_any {p : MemDesc → Bool} {mp : MemPool} (h : mp.descs.any p = false) :
    mp.descs.find? p = none :=
  List.find?_eq_none.mpr fun d hd => List.any_eq_false.mp h d hd

theorem descinfoFrom_first {ptr cc : Nat} {pools : List MemPool} {pool slot : Nat}
    {mp : MemPool} {d : MemDesc} (h : FirstIn (reaches ptr) pools pool slot mp d) :
    descinfoFrom ptr cc pools = ⟨cc + pool, !flagCheck d.flags memdescUsed, d⟩ := by
  obtain ⟨hpool, hslot⟩ := h
  induction pools generalizing cc pool with
  | nil => cases hpool.get
  | cons other pools ih =>
      rw [descinfoFrom]
      rcases firstAt_cons_iff.mp hpool with ⟨rfl, rfl, -⟩ | ⟨k, rfl, hany, hpool⟩
      · rw [hslot.find?]
        rfl
      · rw [find?_none_of_any hany]
        simp only
        rw [ih hpool, Nat.add_assoc, Nat.add_comm 1 k]

theorem descinfoFrom_none {ptr cc : Nat} {pools : List MemPool}
    (h : ∀ mp ∈ pools, ∀ d ∈ mp.descs, reaches ptr d = false) :
    descinfoFrom ptr cc pools = ⟨0, false, ⟨0, 0, 0, none⟩⟩ := by
  induction pools generalizing cc with
  | nil => rfl
  | cons mp pools ih =>
      have hnone : mp.descs.find? (reaches ptr) = none :=
        List.find?_eq_none.mpr fun d hd => by simp [h mp List.mem_cons_self d hd]
      rw [descinfoFrom, hnone]
      exact ih fun other hother => h other (List.mem_cons_of_mem mp hother)

theorem sizeIn_eq (ptr : Nat) (mp : MemPool) :
    sizeIn ptr mp =
      match mp.descs.find? (reaches ptr) with
      | none => 0
      | some d => d.nbytes := rfl

theorem originalSize_first {h : Heap} {ptr pool slot : Nat} {mp : MemPool} {d : MemDesc}
    (hfirst : FirstIn (reaches ptr) h.pools pool slot mp d) (hsize : d.nbytes ≠ 0) :
    h.originalSize ptr = d.nbytes := by
  obtain ⟨hpool, hslot⟩ := hfirst
  have hmem := hpool.mem
  rw [originalSize]
  generalize h.pools = pools at hpool hmem
  induction pools generalizing pool with
  | nil => cases hpool.get
  | cons other pools ih =>
      rcases firstAt_cons_iff.mp hpool with ⟨-, rfl, -⟩ | ⟨k, -, hany, hpool⟩
      · have hown : sizeIn ptr mp = d.nbytes := by rw [sizeIn_eq, hslot.find?]
        rw [List.map_cons, List.find?_cons_of_pos (by simpa [hown] using hsize), hown]
        rfl
      · have hzero : sizeIn ptr other = 0 := by rw [sizeIn_eq, find?_none_of_any hany]
        rw [List.map_cons, List.find?_cons_of_neg (by simp [hzero])]
        exact ih hpool hpool.mem

/-! ## What the lookups should do -/

/-- No two descriptors share a byte. -/
def Disjoint (h : Heap) : Prop :=
  ∀ {pool slot pool' slot' d d'}, cell h.pools pool slot = some d →
    cell h.pools pool' slot' = some d' → ¬ (pool = pool' ∧ slot = slot') →
      d.ptr + d.nbytes ≤ d'.ptr ∨ d'.ptr + d'.nbytes ≤ d.ptr

/--
For a pointer to the start of the block with a descriptor `d`: `descinfo` tells the
descriptor and its pool, `mclone` gives a block of its size with its bytes, and
`mrealloc` a block with as many of its bytes as fit, or `NULL` and leaves it.
-/
structure FindsOwner (sse : Bool) (E : HeapEnv) (h : Heap) (pool slot : Nat) (d : MemDesc)
    (n : Nat) : Prop where
  info : h.descinfo E d.ptr = .ok (⟨pool, !flagCheck d.flags memdescUsed, d⟩, h)
  clone : ∀ bytes, ∃ out s', HeapMem.mclone sse E ⟨h, bytes⟩ d.ptr = .ok (some out, s') ∧
    h.mmalloc E d.nbytes = .ok (some out, s'.heap) ∧
    ∀ i < d.nbytes, s'.bytes (out + i) = bytes (d.ptr + i)
  realloc : ∀ bytes,
    (∃ out s', HeapMem.mrealloc sse E ⟨h, bytes⟩ d.ptr n = .ok (some out, s') ∧
      ∀ i < min d.nbytes n, s'.bytes (out + i) = bytes (d.ptr + i)) ∨
    ∃ s' d', HeapMem.mrealloc sse E ⟨h, bytes⟩ d.ptr n = .ok (none, s') ∧
      cell s'.heap.pools pool slot = some d' ∧ d'.unlinked = d.unlinked ∧
      ∀ i < d.nbytes, s'.bytes (d.ptr + i) = bytes (d.ptr + i)

/-! ## What they do -/

/-- Ranges of the same length that share no byte. -/
def Apart (a b len : Nat) : Prop := a + len ≤ b ∨ b + len ≤ a

/-- Whatever the memory holds, `memcpy` brings the bytes over. -/
def Copies (sse : Bool) (dst src len : Nat) : Prop :=
  ∀ bytes : Contents, ∀ i < len, Contents.memcpy sse bytes dst src len (dst + i) = bytes (src + i)

theorem copyRun_get (bytes : Contents) {dst src len i : Nat} (hi : i < len) :
    copyRun bytes dst src len (dst + i) = bytes (src + i) := by
  rw [copyRun, if_pos (by omega), Nat.add_sub_cancel_left]

theorem copies_of_le (sse : Bool) {dst src len : Nat} (h : dst ≤ src ∨ src + len ≤ dst) :
    Copies sse dst src len := by
  intro bytes i hi
  rw [memcpy_eq sse bytes h]
  exact copyRun_get bytes hi

theorem copies_cleared_iff (sse : Bool) {dst src len : Nat} :
    (∀ bytes : Contents, ∀ i < len,
      Contents.memcpy sse (memset bytes dst 0 len) dst src len (dst + i) = bytes (src + i)) ↔
      Apart dst src len := by
  constructor
  · intro h
    by_contra hmeet
    rw [Apart, not_or, Nat.not_le, Nat.not_le] at hmeet
    -- a byte of both ranges is cleared, and nothing else is set
    let a := max dst src
    have hcleared : memset (fun b => if b = a then 1 else 0) dst 0 len = fun _ => 0 := by
      funext b
      rw [memset]
      split
      · rfl
      · exact if_neg (by omega)
    have hbyte := h (fun b => if b = a then 1 else 0) (a - src) (by omega)
    rw [hcleared, memcpy_const] at hbyte
    simp only at hbyte
    rw [if_pos (by omega)] at hbyte
    cases hbyte
  · intro hapart bytes i hi
    have hside : dst ≤ src ∨ src + len ≤ dst := by
      rcases hapart with hle | hle
      · exact Or.inl (by omega)
      · exact Or.inr hle
    rw [memcpy_eq sse _ hside, copyRun_get _ hi]
    refine if_neg ?_
    rcases hapart with hle | hle <;> omega

/--
The descriptor is the first one that reaches its start; the allocator serves the
size of the block with a block apart, and `n` bytes with one that the old bytes
can be copied to, or with none; and a block that is handed back for `n = 0` is not
one that can be freed.
-/
structure LookupClear (sse : Bool) (E : HeapEnv) (h : Heap) (pool slot : Nat) (mp : MemPool)
    (d : MemDesc) (n : Nat) : Prop where
  found : FirstIn (reaches d.ptr) h.pools pool slot mp d
  cloned : ∃ out h', h.mmalloc E d.nbytes = .ok (some out, h') ∧ Apart out d.ptr d.nbytes
  moved : n ≠ 0 → (∃ h', h.mmalloc E n = .ok (none, h')) ∨
    ∃ out h', h.mmalloc E n = .ok (some out, h') ∧ Copies sse out d.ptr (min d.nbytes n)
  kept : n = 0 → freesDesc d.ptr d = false

section Lookups

variable {sse : Bool} {E : HeapEnv} {h : Heap} {pool slot : Nat} {mp : MemPool} {d : MemDesc}
  {n : Nat} (hdisjoint : h.Disjoint) (hcell : cell h.pools pool slot = some d)
  (hpool : h.pools[pool]? = some mp) (hsize : d.nbytes ≠ 0) (hptr : d.ptr ≠ 0)

include hpool

theorem descinfo_eq : h.descinfo E d.ptr = .ok (descinfoFrom d.ptr 0 h.pools, h) :=
  if_neg (List.ne_nil_of_mem (List.mem_of_getElem? hpool))

include hdisjoint hcell hsize

theorem found_of_info
    (hinfo : h.descinfo E d.ptr = .ok (⟨pool, !flagCheck d.flags memdescUsed, d⟩, h)) :
    FirstIn (reaches d.ptr) h.pools pool slot mp d := by
  rw [descinfo_eq hpool] at hinfo
  have hresult := (Prod.mk.inj (Except.ok.inj hinfo)).1
  rcases none_or_exists_firstIn (reaches d.ptr) h.pools with
    hnone | ⟨pool', slot', mp', d', hfirst⟩
  · rw [descinfoFrom_none hnone] at hresult
    have hbytes : (0 : Nat) = d.nbytes := congrArg (fun r => r.mdesc.nbytes) hresult
    exact absurd hbytes.symm hsize
  · rw [descinfoFrom_first hfirst, Nat.zero_add] at hresult
    obtain rfl : pool' = pool := congrArg DescInfo.pool hresult
    obtain rfl : d' = d := congrArg DescInfo.mdesc hresult
    obtain rfl := Option.some.inj (hfirst.inPools.get.symm.trans hpool)
    by_cases hslot : slot' = slot
    · rw [← hslot]
      exact hfirst
    · -- two descriptors of the same block would share its bytes
      have hcell' : cell h.pools pool' slot' = some d' := by
        rw [cell, hfirst.inPools.get]
        exact hfirst.inPool.get
      rcases hdisjoint hcell' hcell (fun hsame => hslot hsame.2) with hle | hle <;> omega

omit hdisjoint hcell hpool in
theorem clone_iff (hfound : FirstIn (reaches d.ptr) h.pools pool slot mp d) :
    (∀ bytes, ∃ out s', HeapMem.mclone sse E ⟨h, bytes⟩ d.ptr = .ok (some out, s') ∧
        h.mmalloc E d.nbytes = .ok (some out, s'.heap) ∧
        ∀ i < d.nbytes, s'.bytes (out + i) = bytes (d.ptr + i)) ↔
      ∃ out h', h.mmalloc E d.nbytes = .ok (some out, h') ∧ Apart out d.ptr d.nbytes := by
  have hsame := originalSize_first hfound hsize
  have hclone : ∀ bytes out h', h.mmalloc E d.nbytes = .ok (some out, h') →
      HeapMem.mclone sse E ⟨h, bytes⟩ d.ptr = .ok (some out,
        ⟨h', Contents.memcpy sse (memset bytes out 0 d.nbytes) out d.ptr d.nbytes⟩) := by
    intro bytes out h' hmalloc
    rw [HeapMem.mclone]
    simp only [hsame, HeapMem.mmalloczero, hmalloc]
    exact if_pos hsize
  constructor
  · intro hall
    obtain ⟨out, s', -, hmalloc, -⟩ := hall fun _ => 0
    refine ⟨out, s'.heap, hmalloc, (copies_cleared_iff sse).mp fun bytes i hi => ?_⟩
    obtain ⟨out', s₂, hrun, hmalloc', hcopied⟩ := hall bytes
    rw [hclone bytes out s'.heap hmalloc] at hrun
    obtain ⟨hout, hstate⟩ := Prod.mk.inj (Except.ok.inj hrun)
    obtain rfl := Option.some.inj hout
    have hbyte := hcopied i hi
    rwa [← hstate] at hbyte
  · rintro ⟨out, h', hmalloc, hapart⟩ bytes
    exact ⟨out, _, hclone bytes out h' hmalloc, hmalloc,
      (copies_cleared_iff sse).mpr hapart bytes⟩

theorem freed_is_block {pool' slot' : Nat} {mp' : MemPool} {d' : MemDesc}
    (hfirst : FirstIn (freesDesc d.ptr) h.pools pool' slot' mp' d') :
    pool' = pool ∧ slot' = slot ∧ mp' = mp ∧ d' = d := by
  have hcell' : cell h.pools pool' slot' = some d' := by
    rw [cell, hfirst.inPools.get]
    exact hfirst.inPool.get
  have hsame : pool' = pool ∧ slot' = slot := by
    by_contra hother
    have hholds := (holds_of_freesDesc hfirst.inPool.holds).2
    obtain ⟨hstart, hend⟩ := hholds
    rcases hdisjoint hcell' hcell hother with hle | hle <;> omega
  obtain ⟨rfl, rfl⟩ := hsame
  exact ⟨rfl, rfl, Option.some.inj (hfirst.inPools.get.symm.trans hpool),
    Option.some.inj (hcell'.symm.trans hcell)⟩

include hptr

theorem realloc_zero_iff :
    (∀ bytes,
      (∃ out s', HeapMem.mrealloc sse E ⟨h, bytes⟩ d.ptr 0 = .ok (some out, s') ∧
        ∀ i < min d.nbytes 0, s'.bytes (out + i) = bytes (d.ptr + i)) ∨
      ∃ s' d', HeapMem.mrealloc sse E ⟨h, bytes⟩ d.ptr 0 = .ok (none, s') ∧
        cell s'.heap.pools pool slot = some d' ∧ d'.unlinked = d.unlinked ∧
        ∀ i < d.nbytes, s'.bytes (d.ptr + i) = bytes (d.ptr + i)) ↔
      freesDesc d.ptr d = false := by
  have hne := List.ne_nil_of_mem (List.mem_of_getElem? hpool)
  have hrun : ∀ bytes h', h.mfree E d.ptr = .ok h' →
      HeapMem.mrealloc sse E ⟨h, bytes⟩ d.ptr 0 = .ok (none, ⟨h', bytes⟩) := by
    intro bytes h' hfree
    rw [HeapMem.mrealloc]
    simp only [if_neg hptr, hfree, if_true]
    rfl
  rcases none_or_exists_firstIn (freesDesc d.ptr) h.pools with
    hnone | ⟨pool', slot', mp', d', hfirst⟩
  · have hmem : d ∈ mp.descs := by
      rw [cell, hpool] at hcell
      exact List.mem_of_getElem? hcell
    refine iff_of_true (fun bytes => Or.inr ?_) (hnone mp (List.mem_of_getElem? hpool) d hmem)
    exact ⟨_, d, hrun bytes _ (mfree_none hptr hne hnone), hcell, rfl, fun _ _ => rfl⟩
  · obtain ⟨rfl, rfl, rfl, rfl⟩ := freed_is_block hdisjoint hcell hpool hsize hfirst
    have hholds := hfirst.inPool.holds
    refine iff_of_false (fun hall => ?_) (by rw [hholds]; exact Bool.noConfusion)
    have hrun' := hrun (fun _ => 0) _ (mfree_first hptr hfirst)
    rcases hall fun _ => 0 with ⟨out, s', hsome, -⟩ | ⟨s', d₁, hnone, hkept, hunlinked, -⟩
    · rw [hrun'] at hsome
      cases hsome
    · rw [hrun'] at hnone
      rw [← (Prod.mk.inj (Except.ok.inj hnone)).2,
        cell_set_same _ hfirst.inPools.get hfirst.inPool.get] at hkept
      rw [← Option.some.inj hkept] at hunlinked
      have hflags := congrArg MemDesc.flags hunlinked
      exact released_ne (holds_of_freesDesc hholds).1
        (by rw [released, show flagUnset d'.flags memdescUsed = d'.flags from hflags])

omit hdisjoint hcell hpool in
theorem realloc_iff (hn : n ≠ 0) (hfound : FirstIn (reaches d.ptr) h.pools pool slot mp d) :
    (∀ bytes,
      (∃ out s', HeapMem.mrealloc sse E ⟨h, bytes⟩ d.ptr n = .ok (some out, s') ∧
        ∀ i < min d.nbytes n, s'.bytes (out + i) = bytes (d.ptr + i)) ∨
      ∃ s' d', HeapMem.mrealloc sse E ⟨h, bytes⟩ d.ptr n = .ok (none, s') ∧
        cell s'.heap.pools pool slot = some d' ∧ d'.unlinked = d.unlinked ∧
        ∀ i < d.nbytes, s'.bytes (d.ptr + i) = bytes (d.ptr + i)) ↔
      (∃ h', h.mmalloc E n = .ok (none, h')) ∨
        ∃ out h', h.mmalloc E n = .ok (some out, h') ∧
          Copies sse out d.ptr (min d.nbytes n) := by
  have hsame := originalSize_first hfound hsize
  cases hmalloc : h.mmalloc E n with
  | error e =>
      have hrun : ∀ bytes, HeapMem.mrealloc sse E ⟨h, bytes⟩ d.ptr n = .error e := by
        intro bytes
        rw [HeapMem.mrealloc]
        simp only [if_neg hptr, if_neg hn, hsame, if_neg hsize, hmalloc]
      refine iff_of_false (fun hall => ?_) ?_
      · rcases hall fun _ => 0 with ⟨out, s', hsome, -⟩ | ⟨s', d₁, hnone, -⟩
        · rw [hrun] at hsome
          cases hsome
        · rw [hrun] at hnone
          cases hnone
      · rintro (⟨h', hnone⟩ | ⟨out, h', hsome, -⟩)
        · cases hnone
        · cases hsome
  | ok r =>
      obtain ⟨block, h'⟩ := r
      cases block with
      | none => exact absurd (mmalloc_none hmalloc).1 hn
      | some out =>
          obtain ⟨h₂, hfree⟩ :=
            (@mfree_returns_iff E h' d.ptr).mpr (Or.inr (mmalloc_pools hmalloc).2)
          have hrun : ∀ bytes, HeapMem.mrealloc sse E ⟨h, bytes⟩ d.ptr n =
              .ok (some out, ⟨h₂, Contents.memcpy sse bytes out d.ptr (min d.nbytes n)⟩) := by
            intro bytes
            rw [HeapMem.mrealloc]
            simp only [if_neg hptr, if_neg hn, hsame, if_neg hsize, hmalloc, hfree]
            rfl
          constructor
          · intro hall
            refine Or.inr ⟨out, h', rfl, fun bytes i hi => ?_⟩
            rcases hall bytes with ⟨out', s', hsome, hcopied⟩ | ⟨s', d₁, hnone, -⟩
            · rw [hrun bytes] at hsome
              obtain ⟨hout, hstate⟩ := Prod.mk.inj (Except.ok.inj hsome)
              obtain rfl := Option.some.inj hout
              have hbyte := hcopied i hi
              rwa [← hstate] at hbyte
            · rw [hrun bytes] at hnone
              cases hnone
          · rintro (⟨h₁, hnone⟩ | ⟨out', h₁, hsome, hcopies⟩) bytes
            · cases hnone
            · obtain ⟨hout, -⟩ := Prod.mk.inj (Except.ok.inj hsome)
              obtain rfl := Option.some.inj hout
              exact Or.inl ⟨out, _, hrun bytes, hcopies bytes⟩

/--
Among descriptors that share no byte, the lookups are right for the start of a
block exactly when the search finds the block first and the allocator serves them.
-/
theorem findsOwner_iff :
    h.FindsOwner sse E pool slot d n ↔ h.LookupClear sse E pool slot mp d n := by
  constructor
  · rintro ⟨hinfo, hclone, hrealloc⟩
    have hfound := found_of_info hdisjoint hcell hpool hsize hinfo
    refine ⟨hfound, (clone_iff hsize hfound).mp hclone, fun hn => ?_, fun hn => ?_⟩
    · exact (realloc_iff hsize hptr hn hfound).mp hrealloc
    · subst hn
      exact (realloc_zero_iff hdisjoint hcell hpool hsize hptr).mp hrealloc
  · rintro ⟨hfound, hcloned, hmoved, hkept⟩
    refine ⟨?_, (clone_iff hsize hfound).mpr hcloned, ?_⟩
    · rw [descinfo_eq hpool, descinfoFrom_first hfound, Nat.zero_add]
    · by_cases hn : n = 0
      · subst hn
        exact (realloc_zero_iff hdisjoint hcell hpool hsize hptr).mpr (hkept rfl)
      · exact (realloc_iff hsize hptr hn hfound).mpr (hmoved hn)

end Lookups

/-! ### Blocks of one pool -/

theorem ok_of_map {α β : Type} {r : Except Fault (α × β)} {a : α}
    (h : (r.map Prod.fst).toOption = some a) : ∃ b, r = .ok (a, b) := by
  cases r with
  | error e => cases h
  | ok p =>
      obtain ⟨a', b⟩ := p
      obtain rfl := Option.some.inj h
      exact ⟨b, rfl⟩

theorem disjoint_single {mp : MemPool} {total : Nat} {freed : List Nat}
    (h : mp.descs.Pairwise fun d d' =>
      d.ptr + d.nbytes ≤ d'.ptr ∨ d'.ptr + d'.nbytes ≤ d.ptr) :
    (⟨[mp], total, freed⟩ : Heap).Disjoint := by
  have hplace : ∀ {pool slot d}, cell [mp] pool slot = some d →
      pool = 0 ∧ ∃ hslot : slot < mp.descs.length, mp.descs[slot] = d := by
    intro pool slot d h
    obtain ⟨mp', hpool, hslot⟩ := Option.bind_eq_some_iff.mp h
    obtain rfl := Nat.lt_one_iff.mp (List.getElem?_eq_some_iff.mp hpool).1
    obtain rfl := Option.some.inj hpool
    exact ⟨rfl, List.getElem?_eq_some_iff.mp hslot⟩
  intro pool slot pool' slot' d d' hcell hcell' hne
  obtain ⟨rfl, hslot, rfl⟩ := hplace hcell
  obtain ⟨rfl, hslot', rfl⟩ := hplace hcell'
  rcases Nat.lt_trichotomy slot slot' with hlt | rfl | hgt
  · exact List.pairwise_iff_getElem.mp h slot slot' hslot hslot' hlt
  · exact absurd ⟨rfl, rfl⟩ hne
  · exact (List.pairwise_iff_getElem.mp h slot' slot hslot' hslot hgt).symm

def oneBlock : Heap := ⟨[⟨65536, 16, [⟨65536, 8, 1, none⟩]⟩], 1, []⟩

theorem findsOwner_iff_oneBlock :
    oneBlock.FindsOwner false sampleHeapEnv 0 0 ⟨65536, 8, 1, none⟩ 16 := by
  obtain ⟨h₁, hclone⟩ := ok_of_map
    (show ((oneBlock.mmalloc sampleHeapEnv 8).map Prod.fst).toOption = some (some 65544) by
      decide +kernel)
  obtain ⟨h₂, hmove⟩ := ok_of_map
    (show ((oneBlock.mmalloc sampleHeapEnv 16).map Prod.fst).toOption = some (some 65544) by
      decide +kernel)
  refine (findsOwner_iff (disjoint_single (by decide) : oneBlock.Disjoint)
    (show cell oneBlock.pools 0 0 = _ from rfl) (show oneBlock.pools[0]? = _ from rfl)
    (by decide) (by decide)).mpr ⟨⟨?_, ?_⟩, ?_, ?_, ?_⟩
  · exact firstAt_zero (by decide)
  · exact firstAt_zero (by decide)
  · exact ⟨65544, h₁, hclone, Or.inr (by decide)⟩
  · exact fun _ => Or.inr ⟨65544, h₂, hmove, copies_of_le false (Or.inr (by decide))⟩
  · exact fun h => absurd h (by decide)

def touching : Heap := ⟨[⟨65536, 16, [⟨65536, 8, 1, some 1⟩, ⟨65544, 16, 1, none⟩]⟩], 2, []⟩

/-- The older block in front is told for the start of the younger one. -/
theorem not_findsOwner_touching :
    touching.Disjoint ∧
      ¬ touching.FindsOwner false sampleHeapEnv 0 1 ⟨65544, 16, 1, none⟩ 16 := by
  refine ⟨disjoint_single (by decide), fun h => ?_⟩
  have hinfo := congrArg (fun r => (r.map fun p => p.1.mdesc.nbytes).toOption) h.info
  revert hinfo
  decide

end Heap

end BlockyOS.Kernel
