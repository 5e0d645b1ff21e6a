import BlockyOS.Foundation.Layouts
import BlockyOS.Kernel.BestFit

/-!
# Looking up the entry of an address

The sub-descriptors of a range lie one behind the other in physical memory.
`GetSubDescriptor` walks along them with the distance to the start of the range,
and takes at most two steps.
-/

namespace BlockyOS.Kernel

open BlockyOS.Foundation
open BlockyOS.HostTool (Fault)

/-! ## The updates of an entry -/

namespace AllocState

variable (s : AllocState)

def setAllocationType (type slot : Nat) : AllocState :=
  s.setSubDescriptor slot { s.table.subDescriptors slot with
    allocationType := (s.table.subDescriptors slot).allocationType &&& type }

def setValid (valid : Bool) (slot : Nat) : AllocState :=
  s.setSubDescriptor slot { s.table.subDescriptors slot with valid := valid }

def setCoordBaseIndex (c : PageCoordinate) (slot : Nat) : AllocState :=
  s.setSubDescriptor slot { s.table.subDescriptors slot with coordBaseIndex := c }

def resize (fuel newNoPages slot : Nat) : Except Fault AllocState :=
  let d := s.table.subDescriptors slot
  let resized := s.setSubDescriptor slot { d with noPages := newNoPages % 2 ^ 14 }
  (resized.listLength fuel (slot + 1)).map fun count =>
    resized.shiftPages slot count (u64sub newNoPages d.noPages)

theorem updateNoPages_eq (fuel adr newNoPages : Nat) : s.updateNoPages fuel adr newNoPages =
    match s.getSubDescriptor adr with
    | none => .ok none
    | some slot => (s.resize fuel newNoPages slot).map some := by
  rw [updateNoPages]
  cases s.getSubDescriptor adr with
  | none => rfl
  | some slot =>
      simp only [resize]
      split
      case h_1 e h =>
        rw [h]
        rfl
      case h_2 count h =>
        rw [h]
        rfl

end AllocState

namespace ListedTable

/-! ## The entry that covers an address -/

section Covering

variable (t : ListedTable) (cc : Nat)

/-- The bytes of entry `i` of a range. -/
def bytesAt (i : Nat) : Nat := t.state.pagesAt (t.first cc) i * pageSize

/-- The distance of an address from the start of a range. -/
def distance (adr : Nat) : Nat := adr - (t.state.table.descriptors cc).physical

/-- An address of a range, which the table enters for its page. -/
structure Inside (adr : Nat) : Prop where
  listed : t.Listed cc
  index : t.state.descriptorIndex adr = cc
  low : (t.state.table.descriptors cc).physical ≤ adr
  high : adr < (t.state.table.descriptors cc).physical +
    (t.state.table.descriptors cc).pageLimit * pageSize
  mapped : adr < t.state.memoryMaxPages * pageSize
  word : adr < 2 ^ 64

def covering (adr : Nat) : Option Nat :=
  (itemAt (t.bytesAt cc) (t.length cc) (t.distance cc adr)).map fun i => t.first cc + i

/-- The lookup, and what reads or resizes the entry it finds, come to the one that covers. -/
structure LooksUpCovering (adr : Nat) : Prop where
  lookup : t.state.getSubDescriptor adr = t.covering cc adr
  totalMapped : ∀ (E : PagingEnv) (s : PagingState) (virt : Nat), s.alloc = t.state → virt ≠ 0 →
    s.mapPhysical E virt = adr →
    s.totalMappedMemory E virt = match t.covering cc adr with
      | none => 0
      | some slot => (t.state.table.subDescriptors slot).noPages * pageSize
  mapVirtual : t.state.mapVirtual adr = match t.covering cc adr with
    | none => 0
    | some slot => AllocState.virtualAddress (t.state.table.subDescriptors slot).coordBaseIndex
  noPages : ∀ fuel newNoPages, t.state.updateNoPages fuel adr newNoPages =
    match t.covering cc adr with
    | none => .ok none
    | some slot => (t.state.resize fuel newNoPages slot).map some
  coordBaseIndex : ∀ c, t.state.updateCoordBaseIndex adr c =
    (t.covering cc adr).map (t.state.setCoordBaseIndex c)

/-- All that rely on the lookup operate on the entry that covers the address. -/
structure FindsCovering (adr : Nat) : Prop extends t.LooksUpCovering cc adr where
  allocationType : ∀ type, t.state.updateAllocationType adr type =
    .ok ((t.covering cc adr).map (t.state.setAllocationType type))
  valid : ∀ valid, t.state.updateValid adr valid =
    .ok ((t.covering cc adr).map (t.state.setValid valid))

def lookedUp (adr : Nat) : Option Nat :=
  if t.distance cc adr = 0 then some (t.first cc)
  else if t.length cc = 0 then none
  else if t.bytesAt cc 0 ≤ t.distance cc adr then some (t.first cc + 1)
  else if t.length cc = 1 then none
  else some (t.first cc + 2)

/--
The address is the start of a range whose first entry has pages, lies beyond the
start of an empty list, or in the second entry.
-/
def LookedUpRight (adr : Nat) : Prop :=
  t.distance cc adr = 0 ∧ 0 < t.length cc ∧ 0 < t.bytesAt cc 0 ∨
    0 < t.distance cc adr ∧ t.length cc = 0 ∨
    0 < t.distance cc adr ∧ 2 ≤ t.length cc ∧ t.bytesAt cc 0 ≤ t.distance cc adr ∧
      t.distance cc adr < t.bytesAt cc 0 + t.bytesAt cc 1

end Covering

variable {t : ListedTable} {cc adr : Nat}

theorem covering_eq_some_iff {slot : Nat} : t.covering cc adr = some slot ↔
    ∃ i, HasOffset (t.bytesAt cc) (t.length cc) i (t.distance cc adr) ∧
      t.first cc + i = slot := by
  rw [covering, Option.map_eq_some_iff]
  simp only [itemAt_eq_some_iff]

theorem covering_first_add_iff {i : Nat} : t.covering cc adr = some (t.first cc + i) ↔
    HasOffset (t.bytesAt cc) (t.length cc) i (t.distance cc adr) := by
  rw [covering_eq_some_iff]
  constructor
  · rintro ⟨j, hj, heq⟩
    rwa [← Nat.add_left_cancel heq]
  · exact fun h => ⟨i, h, rfl⟩

theorem covering_eq_none_iff : t.covering cc adr = none ↔
    startOf (t.bytesAt cc) (t.length cc) ≤ t.distance cc adr := by
  rw [covering, Option.map_eq_none_iff, itemAt_eq_none_iff]

/-! ## The walk -/

theorem bytesAt_lt (t : ListedTable) (cc i : Nat) : t.bytesAt cc i < 2 ^ 26 := by
  have hcount := t.counts (t.first cc + i)
  rw [bytesAt, AllocState.pagesAt, pageSize]
  omega

theorem endOfList_iff (hlisted : t.Listed cc) {i : Nat} (hi : i ≤ t.length cc) :
    (t.state.table.subDescriptors (t.first cc + i)).endOfList = true ↔ i = t.length cc := by
  have hlist := t.lists cc hlisted.1 hlisted.2
  rcases Nat.lt_or_eq_of_le hi with hlt | rfl
  · have hopen := hlist.inList i hlt
    rw [← first] at hopen
    exact iff_of_false (by rw [hopen]; exact Bool.false_ne_true) (Nat.ne_of_lt hlt)
  · exact iff_of_true hlist.ends rfl

/-- A distance within the first entry wraps, and the second entry is passed over for it. -/
theorem subDescriptorFrom_eq (hlisted : t.Listed cc) (hword : adr < 2 ^ 64) :
    t.state.subDescriptorFrom 3 (t.first cc) (t.distance cc adr) = t.lookedUp cc adr := by
  have hdistance : t.distance cc adr < 2 ^ 64 := Nat.lt_of_le_of_lt (Nat.sub_le _ _) hword
  have hfirst := bytesAt_lt t cc 0
  have hsecond := bytesAt_lt t cc 1
  have hend0 := endOfList_iff hlisted (Nat.zero_le _)
  rw [Nat.add_zero] at hend0
  rw [AllocState.subDescriptorFrom, lookedUp]
  by_cases hzero : t.distance cc adr = 0
  · rw [if_pos hzero, if_pos hzero]
  · rw [if_neg hzero, if_neg hzero]
    by_cases hempty : t.length cc = 0
    · rw [if_pos hempty, if_pos (hend0.mpr hempty.symm)]
    · rw [if_neg hempty, if_neg fun h => hempty (hend0.mp h).symm]
      change t.state.subDescriptorFrom 2 (t.first cc + 1)
        (if t.distance cc adr < t.bytesAt cc 0 then
          u64sub (t.distance cc adr) (t.bytesAt cc 0) else 0) = _
      by_cases hlt : t.distance cc adr < t.bytesAt cc 0
      · have hwrap : u64sub (t.distance cc adr) (t.bytesAt cc 0) =
            2 ^ 64 - (t.bytesAt cc 0 - t.distance cc adr) := by
          rw [u64sub, u64_of_lt (show t.bytesAt cc 0 < 2 ^ 64 by omega), u64]
          omega
        have hend1 := endOfList_iff hlisted (Nat.pos_of_ne_zero hempty)
        rw [if_pos hlt, if_neg (Nat.not_le.mpr hlt), hwrap, AllocState.subDescriptorFrom,
          if_neg (by omega)]
        by_cases hone : t.length cc = 1
        · rw [if_pos hone, if_pos (hend1.mpr hone.symm)]
        · rw [if_neg hone, if_neg fun h => hone (hend1.mp h).symm]
          change t.state.subDescriptorFrom 1 (t.first cc + 1 + 1)
            (if 2 ^ 64 - (t.bytesAt cc 0 - t.distance cc adr) < t.bytesAt cc 1 then
              u64sub (2 ^ 64 - (t.bytesAt cc 0 - t.distance cc adr)) (t.bytesAt cc 1)
              else 0) = _
          rw [if_neg (by omega), AllocState.subDescriptorFrom, if_pos rfl]
      · rw [if_neg hlt, if_pos (Nat.not_lt.mp hlt), AllocState.subDescriptorFrom, if_pos rfl]

theorem Inside.getSubDescriptor_eq (h : t.Inside cc adr) :
    t.state.getSubDescriptor adr = t.lookedUp cc adr := by
  have hsub : u64sub adr (t.state.table.descriptors cc).physical = t.distance cc adr := by
    have hlow := h.low
    have hword := h.word
    have hphysical : u64 (t.state.table.descriptors cc).physical =
        (t.state.table.descriptors cc).physical := u64_of_lt (by omega)
    rw [distance, u64sub, hphysical, u64]
    omega
  have hlist := h.listed.2
  rw [first] at hlist
  rw [← subDescriptorFrom_eq h.listed h.word, AllocState.getSubDescriptor, h.index,
    if_pos ⟨h.mapped, hlist⟩, hsub]
  rfl

theorem Inside.covers (h : t.Inside cc adr) : t.state.covers adr = true := by
  have hmapped := h.mapped
  rw [AllocState.covers, decide_eq_true_eq, Nat.div_lt_iff_lt_mul (by decide)]
  exact hmapped

theorem lookedUp_eq_covering_iff : t.lookedUp cc adr = t.covering cc adr ↔
    t.LookedUpRight cc adr := by
  have hfirst : startOf (t.bytesAt cc) 1 = t.bytesAt cc 0 := Nat.zero_add _
  have hsecond : startOf (t.bytesAt cc) 2 = t.bytesAt cc 0 + t.bytesAt cc 1 := by
    rw [startOf_succ, hfirst]
  rw [lookedUp, LookedUpRight]
  by_cases hzero : t.distance cc adr = 0
  · rw [if_pos hzero, eq_comm]
    refine covering_first_add_iff (i := 0).trans ?_
    rw [hzero]
    constructor
    · intro h
      exact Or.inl ⟨rfl, h.lt, by rw [← hfirst]; exact h.stop⟩
    · rintro (⟨-, hlength, hpages⟩ | ⟨hpos, -⟩ | ⟨hpos, -⟩)
      · exact ⟨hlength, Nat.le_refl 0, by rw [hfirst]; exact hpages⟩
      · exact absurd hpos (Nat.lt_irrefl 0)
      · exact absurd hpos (Nat.lt_irrefl 0)
  · rw [if_neg hzero]
    by_cases hempty : t.length cc = 0
    · rw [if_pos hempty, eq_comm, covering_eq_none_iff, hempty]
      exact iff_of_true (Nat.zero_le _) (Or.inr (Or.inl ⟨Nat.pos_of_ne_zero hzero, rfl⟩))
    · rw [if_neg hempty]
      by_cases hle : t.bytesAt cc 0 ≤ t.distance cc adr
      · rw [if_pos hle, eq_comm, covering_first_add_iff]
        constructor
        · intro h
          exact Or.inr (Or.inr ⟨Nat.pos_of_ne_zero hzero, h.lt, hle, hsecond ▸ h.stop⟩)
        · rintro (⟨hd, -⟩ | ⟨-, hlength⟩ | ⟨-, hlength, -, hstop⟩)
          · exact absurd hd hzero
          · exact absurd hlength hempty
          · exact ⟨hlength, by rw [hfirst]; exact hle, by rw [hsecond]; exact hstop⟩
      · -- The first entry covers the address, and it is not what the walk comes to.
        have hcovers : t.covering cc adr = some (t.first cc + 0) :=
          covering_first_add_iff.mpr ⟨Nat.pos_of_ne_zero hempty, Nat.zero_le _,
            by rw [hfirst]; exact Nat.not_le.mp hle⟩
        rw [if_neg hle, hcovers]
        refine iff_of_false ?_ ?_
        · split
          · exact fun h => nomatch h
          · intro h
            have heq := Option.some.inj h
            omega
        · rintro (⟨hd, -⟩ | ⟨-, hlength⟩ | ⟨-, -, hstart, -⟩)
          · exact hzero hd
          · exact hempty hlength
          · exact hle hstart

theorem Inside.looksUpCovering_iff (hinside : t.Inside cc adr) :
    t.LooksUpCovering cc adr ↔ t.LookedUpRight cc adr := by
  rw [← lookedUp_eq_covering_iff, ← hinside.getSubDescriptor_eq]
  refine ⟨fun h => h.lookup, fun h => ⟨h, ?_, ?_, ?_, ?_⟩⟩
  · rintro E s virt hs hvirt hphysical
    rw [PagingState.totalMappedMemory, if_neg hvirt]
    simp only [hphysical, hs, hinside.covers, if_true, h]
    cases t.covering cc adr with
    | none => rfl
    | some slot => rfl
  · rw [AllocState.mapVirtual, if_pos hinside.covers, h]
    cases t.covering cc adr with
    | none => rfl
    | some slot => rfl
  · exact fun fuel newNoPages => by rw [AllocState.updateNoPages_eq, h]
  · exact fun c => congrArg _ h

theorem lookedUp_eq_none_of_right (h : t.LookedUpRight cc adr) :
    t.lookedUp cc adr = none ↔ 0 < t.distance cc adr ∧ t.length cc = 0 := by
  rw [lookedUp]
  rcases h with ⟨hzero, hlength, -⟩ | ⟨hpos, hempty⟩ | ⟨hpos, hlength, hle, -⟩
  · rw [if_pos hzero]
    exact iff_of_false (fun h => nomatch h) fun h => by omega
  · rw [if_neg (Nat.ne_of_gt hpos), if_pos hempty]
    exact iff_of_true rfl ⟨hpos, hempty⟩
  · rw [if_neg (Nat.ne_of_gt hpos), if_neg (by omega), if_pos hle]
    exact iff_of_false (fun h => nomatch h) fun h => by omega

/--
The updates of a byte trap for every entry, so that only where there is none all goes
right; the rest does for the start of a range and in its second entry.
-/
theorem findsCovering_iff (t : ListedTable) (cc adr : Nat) (hinside : t.Inside cc adr) :
    (t.FindsCovering cc adr ↔ 0 < t.distance cc adr ∧ t.length cc = 0) ∧
      (t.LooksUpCovering cc adr ↔ t.LookedUpRight cc adr) := by
  refine ⟨⟨fun h => ?_, fun h => ?_⟩, hinside.looksUpCovering_iff⟩
  · have hright := hinside.looksUpCovering_iff.mp h.toLooksUpCovering
    rw [← lookedUp_eq_none_of_right hright, ← hinside.getSubDescriptor_eq]
    have hvalid := h.valid true
    rw [AllocState.updateValid, AllocState.updateByte] at hvalid
    cases hlookup : t.state.getSubDescriptor adr with
    | none => rfl
    | some slot =>
        rw [hlookup] at hvalid
        cases hvalid
  · have hright : t.LookedUpRight cc adr := Or.inr (Or.inl h)
    have hnone : t.state.getSubDescriptor adr = none := by
      rw [hinside.getSubDescriptor_eq, lookedUp_eq_none_of_right hright]
      exact h
    have hlooks := hinside.looksUpCovering_iff.mpr hright
    have hcovering : t.covering cc adr = none := hlooks.lookup ▸ hnone
    refine ⟨hlooks, fun type => ?_, fun valid => ?_⟩
    · rw [AllocState.updateAllocationType, AllocState.updateByte, hnone, hcovering]
      rfl
    · rw [AllocState.updateValid, AllocState.updateByte, hnone, hcovering]
      rfl

/-! ## The start of a range -/

theorem inside_singleTable {adr : Nat} (hlow : 4096 ≤ adr) (hhigh : adr < 20480) :
    (singleTable 4096).Inside 0 adr where
  listed := (singleTable_firstRange 4096).listed
  index := rfl
  low := hlow
  high := by
    change adr < 4096 + 4 * (4 * 1024)
    omega
  mapped := by
    change adr < 1024 * (4 * 1024)
    omega
  word := by omega

def emptyTable : ListedTable where
  state := { singleRange 4096 with
    table := { (singleRange 4096).table with
      subDescriptors := fun _ => ⟨true, false, 0, .enabled false 0, 0⟩ } }
  length _ := 0
  counts _ := Nat.two_pow_pos 14
  lists _ _ _ := ⟨fun _ hi => absurd hi (Nat.not_lt_zero _), rfl⟩

theorem inside_emptyTable : emptyTable.Inside 0 8192 where
  listed := ⟨Nat.one_pos, show 0 ≠ invalidSubDescriptorIndex by decide⟩
  index := rfl
  low := by decide
  high := by decide
  mapped := by decide
  word := by decide

theorem findsCovering_iff_emptyTable : emptyTable.FindsCovering 0 8192 ∧
    (singleTable 4096).LooksUpCovering 0 4096 :=
  ⟨(findsCovering_iff emptyTable 0 8192 inside_emptyTable).1.mpr (by decide),
    (findsCovering_iff (singleTable 4096) 0 4096
      (inside_singleTable (by decide) (by decide))).2.mpr (Or.inl (by decide))⟩

/-- The second page of a range of one entry is in no entry for the lookup. -/
theorem not_findsCovering_singleTable : ¬ (singleTable 4096).FindsCovering 0 8192 := by
  intro h
  have hlookup : (singleTable 4096).state.getSubDescriptor 8192 = none := by decide +kernel
  have hcovering : (singleTable 4096).covering 0 8192 = some 0 := by decide +kernel
  rw [h.lookup, hcovering] at hlookup
  cases hlookup

end ListedTable

end BlockyOS.Kernel
