import BlockyOS.Kernel.AllocTable

/-!
# The first call of `InitialiseAllocationState`

No call with a memory map returns, because `memcheckl` does not.  With any other
test in its place the two passes still disagree: the sub-descriptors are put into
the array of page indexes, and no list of them is ever ended.
-/

namespace BlockyOS.Kernel

open BlockyOS.Foundation
open BlockyOS.HostTool (Fault)

/-! ## The test that does not return -/

theorem classify_memcheckl (type : Nat) : classify memcheckl type typeClasses =
    if type = 6 then .ok (some 0) else .error .hang := by
  have hword : (typeMask 0)[(typeMask 0).length / 4]? = some 6 := rfl
  rw [typeClasses, classify, memcheckl]
  simp only [hword]
  by_cases htype : type = 6
  · subst htype
    rfl
  · rw [if_neg htype, if_neg (by decide), if_neg fun h => htype h.symm]

theorem sizingPass_memcheckl {map : List EfiDescriptor} :
    ∀ {s s' : Sizing}, sizingPass memcheckl map s = .ok s' → ∀ d ∈ map, d.type = 6 := by
  induction map with
  | nil => exact fun _ d hd => absurd hd List.not_mem_nil
  | cons first map ih =>
      intro s s' hpass d hd
      rw [sizingPass, classify_memcheckl] at hpass
      by_cases hfirst : first.type = 6
      · rw [if_pos hfirst] at hpass
        rcases List.mem_cons.mp hd with rfl | hd
        · exact hfirst
        · exact ih hpass d hd
      · rw [if_neg hfirst] at hpass
        cases hpass

theorem queryCandidatePool_memcheckl {map : List EfiDescriptor} (required : Nat)
    (htype : ∀ d ∈ map, d.type = 6) :
    queryCandidatePool memcheckl map required = .ok none ∨
      queryCandidatePool memcheckl map required = .error .hang := by
  rw [queryCandidatePool]
  cases hmap : map.take (u32 map.length) with
  | nil => exact Or.inl rfl
  | cons d rest =>
      have hd : d ∈ map := List.mem_of_mem_take (by rw [hmap]; exact List.mem_cons_self)
      have hhang : memcheckl (typeMask 1) (typeMask 1).length d.type = .error .hang := by
        rw [htype d hd]
        rfl
      rw [candidateLoop, hhang]
      exact Or.inr rfl

theorem initialiseAllocationState_memcheckl (structSize : Nat) (map : List EfiDescriptor)
    (totalMemory : Nat) (memory : AllocTable) (r : Initialised) :
    initialiseAllocationState memcheckl structSize map totalMemory memory ≠ .ok r := by
  intro h
  rw [initialiseAllocationState] at h
  cases hpass : sizingPass memcheckl map .initial with
  | error e =>
      rw [hpass] at h
      cases h
  | ok sizes =>
      simp only [hpass] at h
      rcases queryCandidatePool_memcheckl (sizes.requiredPages totalMemory)
        (sizingPass_memcheckl hpass) with hquery | hquery
      · rw [hquery] at h
        cases h
      · rw [hquery] at h
        cases h

theorem initialiseAllocationState_ok {member : MemberTest} {structSize totalMemory : Nat}
    {map : List EfiDescriptor} {memory : AllocTable} {r : Initialised}
    (h : initialiseAllocationState member structSize map totalMemory memory = .ok r) :
    ∃ sizes index totalPages pool d f, sizingPass member map .initial = .ok sizes ∧
      map[index]? = some pool ∧
      fillingPass member (clearMap structSize index totalPages map) (.initial memory) = .ok f ∧
      r.state.table = f.table ∧ r.state.memoryMaxPages = totalMemory / pageSize ∧
      r.state.indexesAt = u64 (d + sizes.descriptorAllocation) ∧
      r.state.subDescriptorsAt =
        u64 (d + sizes.descriptorAllocation + sizes.subDescriptorAllocation) := by
  simp only [initialiseAllocationState] at h
  split at h
  case h_1 => cases h
  case h_2 sizes hpass =>
    split at h
    case h_1 => cases h
    case h_2 => cases h
    case h_3 index totalPages hquery =>
      split at h
      case h_2 => cases h
      case h_1 pool d hpool hd =>
        split at h
        case h_1 => cases h
        case h_2 f hfill =>
          cases h
          exact ⟨sizes, index, totalPages, pool, d.physicalStart, f, hpass, hpool, hfill, rfl,
            rfl, rfl, rfl⟩

/-! ## What the table has to say -/

def efiClass (type : Nat) : Option (Fin 4) := typeClasses.find? fun c => type ∈ typeMask c

/-- The range descriptor that a page selects. -/
def AllocTable.range (t : AllocTable) (page : Nat) : MemoryRangeDescriptor :=
  t.descriptors (t.indexes page)

structure AllocTable.Selects (t : AllocTable) (c : Fin 4) (page : Nat) : Prop where
  type : efiClass (t.range page).efiMemoryType = some c
  above : (t.range page).physical ≤ page * pageSize
  below : page * pageSize < (t.range page).physical + (t.range page).pageLimit * pageSize

def AllocTable.ListSums (t : AllocTable) (r : MemoryRangeDescriptor) : Prop :=
  ∃ k, (∀ j, j < k → (t.subDescriptors (r.subDescriptorIndex + j)).endOfList = false) ∧
    (t.subDescriptors (r.subDescriptorIndex + k)).endOfList = true ∧
    ((List.range k).map fun j =>
      (t.subDescriptors (r.subDescriptorIndex + j)).noPages).sum = r.pageLimit

structure AllocTable.Describes (t : AllocTable) (map : List EfiDescriptor) : Prop where
  selects : ∀ d ∈ map, ∀ c, efiClass d.type = some c → ∀ cc, cc < d.numberOfPages →
    t.Selects c (d.physicalStart / pageSize + cc)
  lists : ∀ d ∈ map, (efiClass d.type).isSome → ∀ cc, cc < d.numberOfPages →
    t.ListSums (t.range (d.physicalStart / pageSize + cc))

/-- The call returns, and the table it leaves describes the map. -/
def Initialises (member : MemberTest) (structSize : Nat) (map : List EfiDescriptor)
    (totalMemory : Nat) (memory : AllocTable) : Prop :=
  ∃ r, initialiseAllocationState member structSize map totalMemory memory = .ok r ∧
    r.state.table.Describes map

/-- No memory map is described by the table, because no call returns. -/
theorem not_initialises (structSize : Nat) (map : List EfiDescriptor) (totalMemory : Nat)
    (memory : AllocTable) : ¬ Initialises memcheckl structSize map totalMemory memory := by
  rintro ⟨r, hok, -⟩
  exact initialiseAllocationState_memcheckl structSize map totalMemory memory r hok

/-- One range of conventional memory of 64 pages. -/
def sampleMap : List EfiDescriptor := [⟨7, 0x100000, 64, 0xF⟩]

def zeroTable : AllocTable :=
  ⟨fun _ => ⟨0, 0, 0, 0⟩, fun _ => 0, fun _ => ⟨false, false, 0, initPageCoordinate false 0, 0⟩⟩

theorem not_initialises_sampleMap :
    ¬ Initialises memcheckl 48 sampleMap 0x140000 zeroTable := by
  rintro ⟨r, hok, -⟩
  have hhang : initialiseAllocationState memcheckl 48 sampleMap 0x140000 zeroTable =
      .error .hang := rfl
  rw [hhang] at hok
  cases hok

/-! ## What the first pass makes room for -/

structure Region where
  start : Nat
  length : Nat

namespace Region

def address (r : Region) (i : Nat) : Nat := u64 (r.start + i)

def Apart (r r' : Region) : Prop :=
  ∀ i, i < r.length → ∀ j, j < r'.length → r.address i ≠ r'.address j

def Inside (r r' : Region) : Prop :=
  ∀ i, i < r.length → ∃ j, j < r'.length ∧ r.address i = r'.address j

end Region

namespace AllocState

def descriptorRegion (s : AllocState) : Region :=
  ⟨s.descriptorsAt, s.totalDescriptors * sizeofMemoryRangeDescriptor⟩

/-- `PhysicalDescriptorIndexes`, a `uint16_t` for each page. -/
def indexRegion (s : AllocState) : Region := ⟨s.indexesAt, s.memoryMaxPages * 2⟩

def subDescriptorRegion (s : AllocState) : Region :=
  ⟨s.subDescriptorsAt, 8 + s.totalSubDescriptors * sizeofMemoryRangeSubDescriptor⟩

def regions (s : AllocState) : List Region :=
  [s.descriptorRegion, s.indexRegion, s.subDescriptorRegion]

end AllocState

def TableWrite.InBounds (s : AllocState) : TableWrite → Prop
  | .descriptor index => index < s.totalDescriptors
  | .subDescriptors first run => first + run ≤ s.totalSubDescriptors
  | .pages first count => ∀ cc, cc < count → first + cc < s.memoryMaxPages

structure Initialised.Suffices (r : Initialised) : Prop where
  writes : ∀ w ∈ r.writes, w.InBounds r.state
  apart : r.state.regions.Pairwise Region.Apart
  inside : ∀ region ∈ r.state.regions,
    region.Inside ⟨r.poolStart, r.poolPages * pageSize⟩

/-- The first pass computes sizes, and the second goes through within them. -/
def SizingSuffices (member : MemberTest) (structSize : Nat) (map : List EfiDescriptor)
    (totalMemory : Nat) (memory : AllocTable) : Prop :=
  ∃ r, initialiseAllocationState member structSize map totalMemory memory = .ok r ∧
    r.Suffices

/-- A map as the firmware gives it: ranges in order, of at least a page, within the memory. -/
structure MapWithin (map : List EfiDescriptor) (totalMemory : Nat) : Prop where
  pages : ∀ d ∈ map, 0 < d.numberOfPages
  ordered : map.Pairwise fun d d' =>
    d.physicalStart + d.numberOfPages * pageSize ≤ d'.physicalStart
  within : ∀ d ∈ map, d.physicalStart + d.numberOfPages * pageSize ≤ totalMemory

theorem EfiDescriptor.subRun_le (d : EfiDescriptor) : d.subRun ≤ d.numberOfPages := by
  have hword : u64 (d.numberOfPages * pageSize) ≤ d.numberOfPages * pageSize := Nat.mod_le _ _
  rw [subRun]
  split
  · rw [pageSize2]
    rw [pageSize] at hword ⊢
    omega
  · exact Nat.le_refl _

theorem Sizing.add_le (s : Sizing) (c : Fin 4) (d : EfiDescriptor) :
    (s.add c d).subDescriptorAllocation ≤ s.subDescriptorAllocation + d.numberOfPages := by
  have hrun := d.subRun_le
  rw [Sizing.add]
  split
  · exact Nat.le_add_right _ _
  · split
    · have hword : u64 (s.subDescriptorAllocation + d.subRun) ≤
          s.subDescriptorAllocation + d.subRun := Nat.mod_le _ _
      exact Nat.le_trans hword (by omega)
    · exact Nat.le_add_right _ _

theorem sizingPass_le {member : MemberTest} {map : List EfiDescriptor} :
    ∀ {s s' : Sizing}, sizingPass member map s = .ok s' →
      s'.subDescriptorAllocation ≤
        s.subDescriptorAllocation + (map.map EfiDescriptor.numberOfPages).sum := by
  induction map with
  | nil =>
      intro s s' h
      cases h
      exact Nat.le_add_right _ _
  | cons d map ih =>
      intro s s' h
      rw [List.map_cons, List.sum_cons]
      rw [sizingPass] at h
      split at h
      case h_1 => cases h
      case h_2 =>
        have hrest := ih h
        omega
      case h_3 c _ =>
        have hrest := ih h
        have hadd := s.add_le c d
        omega

theorem pages_le {map : List EfiDescriptor} {totalMemory : Nat}
    (hwithin : ∀ d ∈ map, d.physicalStart + d.numberOfPages * pageSize ≤ totalMemory) :
    ∀ {start : Nat}, start ≤ totalMemory → (∀ d ∈ map, start ≤ d.physicalStart) →
      (map.Pairwise fun d d' =>
        d.physicalStart + d.numberOfPages * pageSize ≤ d'.physicalStart) →
      start + (map.map EfiDescriptor.numberOfPages).sum * pageSize ≤ totalMemory := by
  induction map with
  | nil =>
      intro start hstart _ _
      simpa using hstart
  | cons d map ih =>
      intro start _ habove hordered
      obtain ⟨hfirst, hrest⟩ := List.pairwise_cons.mp hordered
      have hd := habove d List.mem_cons_self
      have hsum := ih (fun d' hd' => hwithin d' (List.mem_cons_of_mem d hd'))
        (hwithin d List.mem_cons_self) hfirst hrest
      rw [List.map_cons, List.sum_cons, Nat.add_mul]
      omega

theorem MapWithin.pages_le {map : List EfiDescriptor} {totalMemory : Nat}
    (h : MapWithin map totalMemory) :
    (map.map EfiDescriptor.numberOfPages).sum ≤ totalMemory / pageSize := by
  have hsum := @Kernel.pages_le map totalMemory h.within 0 (Nat.zero_le _)
    (fun _ _ => Nat.zero_le _) h.ordered
  rw [Nat.le_div_iff_mul_le (by decide)]
  omega

theorem not_sizingSuffices_of_member (member : MemberTest) (structSize : Nat)
    {map : List EfiDescriptor} {totalMemory : Nat} (memory : AllocTable)
    (hmap : MapWithin map totalMemory) :
    ¬ SizingSuffices member structSize map totalMemory memory := by
  rintro ⟨r, hok, hsuffices⟩
  obtain ⟨sizes, index, totalPages, pool, d, f, hpass, hpool, -, -, hmax, hindexes, hsubs⟩ :=
    initialiseAllocationState_ok hok
  have hmem := List.mem_of_getElem? hpool
  have hcounted := sizingPass_le hpass
  have hpages := hmap.pages_le
  have hlarge : 0 < totalMemory / pageSize := by
    have hone := hmap.pages pool hmem
    have hwithin := hmap.within pool hmem
    rw [Nat.div_pos_iff]
    exact ⟨by decide, Nat.le_trans (Nat.le_mul_of_pos_left _ hone) (by omega)⟩
  have hzero : Sizing.initial.subDescriptorAllocation = 0 := rfl
  have hapart : r.state.indexRegion.Apart r.state.subDescriptorRegion := by
    have hpairs := hsuffices.apart
    rw [AllocState.regions, List.pairwise_cons, List.pairwise_pair] at hpairs
    exact hpairs.2
  refine hapart sizes.subDescriptorAllocation ?_ 0 ?_ ?_
  · change sizes.subDescriptorAllocation < r.state.memoryMaxPages * 2
    rw [hmax]
    omega
  · exact Nat.lt_of_lt_of_le (by decide) (Nat.le_add_right 8 _)
  · rw [Region.address, Region.address, AllocState.indexRegion, AllocState.subDescriptorRegion,
      hindexes, hsubs]
    simp only [u64]
    omega

/--
No memory map gets through both passes within the sizes of the first: with
`memcheckl` the first does not end, and with any other test in its place the
array of page indexes and the sub-descriptors share their addresses.
-/
theorem not_sizingSuffices (structSize : Nat) (map : List EfiDescriptor) (totalMemory : Nat)
    (memory : AllocTable) :
    ¬ SizingSuffices memcheckl structSize map totalMemory memory ∧
      ∀ member, MapWithin map totalMemory →
        ¬ SizingSuffices member structSize map totalMemory memory := by
  refine ⟨?_, fun member hmap => not_sizingSuffices_of_member member structSize memory hmap⟩
  rintro ⟨r, hok, -⟩
  exact initialiseAllocationState_memcheckl structSize map totalMemory memory r hok

theorem not_sizingSuffices_sampleMap :
    ¬ SizingSuffices memcheckl 48 sampleMap 0x140000 zeroTable := by
  rintro ⟨r, hok, -⟩
  have hhang : initialiseAllocationState memcheckl 48 sampleMap 0x140000 zeroTable =
      .error .hang := rfl
  rw [hhang] at hok
  cases hok

theorem mapWithin_sampleMap : MapWithin sampleMap 0x140000 :=
  ⟨by decide, List.pairwise_singleton _ _, by decide⟩

/-- The test that the name of `memcheckl` promises. -/
def membership : MemberTest := fun p l n => .ok ((p.take n).contains l)

theorem not_sizingSuffices_membership :
    ¬ SizingSuffices membership 48 sampleMap 0x140000 zeroTable :=
  (not_sizingSuffices 48 sampleMap 0x140000 zeroTable).2 membership mapWithin_sampleMap

end BlockyOS.Kernel
