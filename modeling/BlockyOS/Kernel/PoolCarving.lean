import BlockyOS.Kernel.PageConservation

/-!
# Carving records out of the table

`AllocateSubDescriptorPool` looks for records between the lists of two ranges
that follow each other in the array of descriptors.
-/

namespace BlockyOS.Kernel

open BlockyOS.Foundation
open BlockyOS.HostTool (Fault)

namespace AllocState

def carveLoop (s : AllocState) (fuel n : Nat) : Nat → Nat → Except Fault (Option (Nat × Nat))
  | 0, _ => .error .hang
  | turns + 1, cc =>
      if cc < s.totalDescriptors - 1 then
        let currentStart := (s.table.descriptors cc).subDescriptorIndex
        if currentStart = invalidSubDescriptorIndex then carveLoop s fuel n turns (u32 (cc + 1))
        else
          match s.listLength fuel currentStart with
          | .error e => .error e
          | .ok length =>
              let currentEnd := u32 (currentStart + length)
              let nextStart := (s.table.descriptors (cc + 1)).subDescriptorIndex
              if nextStart ≠ invalidSubDescriptorIndex ∧ currentEnd < nextStart ∧
                  n ≤ nextStart - currentEnd then
                .ok (some (currentEnd, nextStart - currentEnd))
              else carveLoop s fuel n turns (u32 (cc + 1))
      else .ok none

/-- `AllocateSubDescriptorPool`: the first record of the region, and what `*N` is set to. -/
def allocateSubDescriptorPool (s : AllocState) (fuel turns n : Nat) :
    Except Fault (Option Nat × Nat) :=
  if s.totalDescriptors < 2 then .ok (none, invalidSubDescriptorIndex)
  else
    match s.carveLoop fuel n turns 0 with
    | .error e => .error e
    | .ok none => .ok (none, invalidSubDescriptorIndex)
    | .ok (some (slot, gapSize)) => .ok (some slot, gapSize)

end AllocState

/-- A table whose lists end within the records that 32-bit indexes reach. -/
structure IndexedTable extends ListedTable where
  indexed : ∀ cc, toListedTable.Listed cc → toListedTable.first cc + length cc < 2 ^ 32

namespace IndexedTable

/-! ## Regions and gaps -/

section Regions

variable (t : IndexedTable)

def HasRecord (cc slot : Nat) : Prop :=
  t.Listed cc ∧ t.first cc ≤ slot ∧ slot ≤ t.first cc + t.length cc

def Unused (slot count : Nat) : Prop :=
  ∀ cc i, i < count → ¬ t.HasRecord cc (slot + i)

/-- Between the lists of two ranges, one behind the other in the table, are `n` records or more. -/
structure Gap (n a b : Nat) : Prop where
  left : t.Listed a
  right : t.Listed b
  behind : t.first a + t.length a < t.first b
  unused : t.Unused (t.first a + t.length a + 1) (t.first b - (t.first a + t.length a + 1))
  room : n ≤ t.first b - (t.first a + t.length a + 1)

def Carved (n : Nat) : Option Nat × Nat → Prop
  | (none, count) => count = invalidSubDescriptorIndex ∧ ∀ a b, ¬ t.Gap n a b
  | (some slot, count) => n ≤ count ∧ t.Unused slot count

def CarvesRight (n : Nat) : Prop :=
  ∃ fuel turns result, t.state.allocateSubDescriptorPool fuel turns n = .ok result ∧
    t.Carved n result

/-- The records from the end of a list to the list of the next descriptor, that end included. -/
structure Taken (n cc : Nat) : Prop where
  next : cc + 1 < t.state.totalDescriptors
  left : t.Listed cc
  right : t.Listed (cc + 1)
  behind : t.first cc + t.length cc < t.first (cc + 1)
  room : n ≤ t.first (cc + 1) - (t.first cc + t.length cc)

end Regions

/-! ## The loop -/

variable {t : IndexedTable} {fuel n : Nat}

theorem listLength_first {cc : Nat} (hlisted : t.Listed cc) {length : Nat}
    (h : t.state.listLength fuel (t.first cc) = .ok length) : length = t.length cc := by
  have hlist := t.lists cc hlisted.1 hlisted.2
  have hfound := AllocState.listOf_of_listLength h
  rcases Nat.lt_trichotomy length (t.length cc) with hlt | heq | hgt
  · have hopen := hlist.inList length hlt
    rw [← ListedTable.first, hfound.ends] at hopen
    cases hopen
  · exact heq
  · have hopen := hfound.inList (t.length cc) hgt
    rw [ListedTable.first, hlist.ends] at hopen
    cases hopen

theorem carveLoop_some {turns cc slot gapSize : Nat}
    (h : t.state.carveLoop fuel n turns cc = .ok (some (slot, gapSize))) :
    ∃ cc', t.HasRecord cc' slot ∧ 0 < gapSize := by
  induction turns generalizing cc with
  | zero => cases h
  | succ turns ih =>
      rw [AllocState.carveLoop] at h
      split at h
      case isFalse => cases h
      case isTrue hcc =>
        simp only at h
        split at h
        case isTrue => exact ih h
        case isFalse hlist =>
          split at h
          case h_1 => cases h
          case h_2 length hlength =>
            split at h
            case isFalse => exact ih h
            case isTrue hgap =>
              obtain ⟨rfl, rfl⟩ := Prod.mk.inj (Option.some.inj (Except.ok.inj h))
              have hlisted : t.Listed cc := ⟨by omega, hlist⟩
              obtain rfl := listLength_first hlisted hlength
              have hword : u32 (t.first cc + t.length cc) = t.first cc + t.length cc :=
                u32_of_lt (t.indexed cc hlisted)
              refine ⟨cc, ⟨hlisted, ?_, ?_⟩, Nat.sub_pos_of_lt hgap.2.1⟩
              · exact (Nat.le_add_right _ _).trans hword.ge
              · exact hword.le

theorem carveLoop_none {turns cc : Nat} (hcc : cc < 2 ^ 32)
    (h : t.state.carveLoop fuel n turns cc = .ok none) :
    t.state.totalDescriptors ≤ 2 ^ 32 ∧ ∀ cc', cc ≤ cc' → ¬ t.Taken n cc' := by
  induction turns generalizing cc with
  | zero => cases h
  | succ turns ih =>
      rw [AllocState.carveLoop] at h
      split at h
      case isFalse hend =>
        exact ⟨by omega, fun cc' hle htaken => hend (by have := htaken.next; omega)⟩
      case isTrue hlt =>
        have hnext : t.state.carveLoop fuel n turns (u32 (cc + 1)) = .ok none →
            ¬ t.Taken n cc → t.state.totalDescriptors ≤ 2 ^ 32 ∧
              ∀ cc', cc ≤ cc' → ¬ t.Taken n cc' := by
          intro hrun hnot
          obtain ⟨htotal, hrest⟩ := ih (u32_lt _) hrun
          rw [u32_of_lt (show cc + 1 < 2 ^ 32 by omega)] at hrest
          refine ⟨htotal, fun cc' hle => ?_⟩
          rcases Nat.eq_or_lt_of_le hle with rfl | hgt
          · exact hnot
          · exact hrest cc' hgt
        simp only at h
        split at h
        case isTrue hlist => exact hnext h fun htaken => htaken.left.2 hlist
        case isFalse hlist =>
          split at h
          case h_1 => cases h
          case h_2 length hlength =>
            have hlisted : t.Listed cc := ⟨by omega, hlist⟩
            obtain rfl := listLength_first hlisted hlength
            have hword : u32 (t.first cc + t.length cc) = t.first cc + t.length cc :=
              u32_of_lt (t.indexed cc hlisted)
            rw [ListedTable.first] at hword
            rw [hword] at h
            split at h
            case isTrue => cases h
            case isFalse hgap =>
              exact hnext h fun htaken => hgap ⟨htaken.right.2, htaken.behind, htaken.room⟩

theorem carveLoop_of_none {turns cc : Nat} (hfuel : ∀ cc, t.Listed cc → t.length cc < fuel)
    (htotal : t.state.totalDescriptors ≤ 2 ^ 32) (hnone : ∀ cc, ¬ t.Taken n cc)
    (hturns : t.state.totalDescriptors - cc < turns) :
    t.state.carveLoop fuel n turns cc = .ok none := by
  induction turns generalizing cc with
  | zero => exact absurd hturns (Nat.not_lt_zero _)
  | succ turns ih =>
      rw [AllocState.carveLoop]
      split
      case isFalse => rfl
      case isTrue hlt =>
        have hword : u32 (cc + 1) = cc + 1 := u32_of_lt (by omega)
        have hnext : t.state.carveLoop fuel n turns (u32 (cc + 1)) = .ok none := by
          rw [hword]
          exact ih (by omega)
        simp only
        split
        case isTrue => exact hnext
        case isFalse hlist =>
          have hlisted : t.Listed cc := ⟨by omega, hlist⟩
          have hlength := AllocState.listLength_of_listOf (t.lists cc hlisted.1 hlisted.2)
            (hfuel cc hlisted)
          have hend : u32 (t.first cc + t.length cc) = t.first cc + t.length cc :=
            u32_of_lt (t.indexed cc hlisted)
          rw [ListedTable.first] at hend
          simp only [hlength, hend]
          rw [if_neg]
          · exact hnext
          · rintro ⟨hright, hbehind, hroom⟩
            exact hnone cc ⟨by omega, hlisted, ⟨by omega, hright⟩, hbehind, hroom⟩

/--
The result is right where the loop takes nothing and there is nothing to take: a
region that is returned begins with the end of a list.
-/
theorem carvesRight_iff (t : IndexedTable) (n : Nat) (htwo : 2 ≤ t.state.totalDescriptors) :
    t.CarvesRight n ↔ t.state.totalDescriptors ≤ 2 ^ 32 ∧ (∀ cc, ¬ t.Taken n cc) ∧
      ∀ a b, ¬ t.Gap n a b := by
  constructor
  · rintro ⟨fuel, turns, result, hrun, hcarved⟩
    rw [AllocState.allocateSubDescriptorPool, if_neg (Nat.not_lt.mpr htwo)] at hrun
    split at hrun
    case h_1 => cases hrun
    case h_2 hloop =>
      cases hrun
      obtain ⟨htotal, hnone⟩ := carveLoop_none (by decide) hloop
      exact ⟨htotal, fun cc => hnone cc (Nat.zero_le cc), hcarved.2⟩
    case h_3 slot gapSize hloop =>
      cases hrun
      obtain ⟨cc, hrecord, hpos⟩ := carveLoop_some hloop
      exact absurd hrecord (hcarved.2 cc 0 hpos)
  · rintro ⟨htotal, hnone, hgap⟩
    obtain ⟨fuel, hfuel⟩ : ∃ fuel, ∀ cc, t.Listed cc → t.length cc < fuel :=
      ⟨2 ^ 32, fun cc hlisted => Nat.lt_of_le_of_lt (Nat.le_add_left _ _) (t.indexed cc hlisted)⟩
    refine ⟨fuel, t.state.totalDescriptors + 1, (none, invalidSubDescriptorIndex), ?_, rfl, hgap⟩
    rw [AllocState.allocateSubDescriptorPool, if_neg (Nat.not_lt.mpr htwo),
      carveLoop_of_none hfuel htotal hnone (by omega)]

/-! ## Two lists -/

def twoLists : AllocState where
  table :=
    { descriptors := fun cc => ⟨cc * 16384, if cc = 0 then 0 else 5, 4, 7⟩
      indexes := fun page => if page < 4 then 0 else 1
      subDescriptors := fun i =>
        ⟨i = 1 ∨ i = 6, false, 4, ⟨0, 0, 0, 0, 0, false, false, false, false, false⟩, 0⟩ }
  descriptorsAt := 0x100000
  indexesAt := 0x101000
  subDescriptorsAt := 0x102000
  totalDescriptors := 2
  totalSubDescriptors := 7
  memoryMaxPages := 8

theorem twoLists_counts (i : Nat) : (twoLists.table.subDescriptors i).noPages < 2 ^ 14 :=
  show 4 < 2 ^ 14 by decide

theorem twoLists_lists (cc : Nat) :
    twoLists.ListOf (twoLists.table.descriptors cc).subDescriptorIndex 1 := by
  have hlist : ∀ first, first = 0 ∨ first = 5 → twoLists.ListOf first 1 := by
    rintro first (rfl | rfl)
    · exact ⟨fun i hi => by obtain rfl := Nat.lt_one_iff.mp hi; rfl, rfl⟩
    · exact ⟨fun i hi => by obtain rfl := Nat.lt_one_iff.mp hi; rfl, rfl⟩
  apply hlist
  simp only [twoLists]
  split
  · exact Or.inl rfl
  · exact Or.inr rfl

def twoListsTable : ListedTable where
  state := twoLists
  length _ := 1
  counts := twoLists_counts
  lists cc _ _ := twoLists_lists cc

theorem first_twoLists (cc : Nat) :
    twoListsTable.first cc = if cc = 0 then 0 else 5 := rfl

theorem twoLists_indexed (cc : Nat) : twoListsTable.first cc + 1 < 2 ^ 32 := by
  rw [first_twoLists]
  split <;> omega

def twoListsIndexed : IndexedTable where
  toListedTable := twoListsTable
  indexed cc _ := twoLists_indexed cc

theorem carvesRight_twoLists : twoListsIndexed.CarvesRight 10 := by
  have hfirst : ∀ cc, twoListsTable.first cc ≤ 5 := by
    intro cc
    rw [first_twoLists]
    split <;> omega
  refine (carvesRight_iff twoListsIndexed 10 (by decide)).mpr ⟨by decide, fun cc h => ?_,
    fun a b h => ?_⟩
  · have hroom : 10 ≤ twoListsTable.first (cc + 1) - (twoListsTable.first cc + 1) := h.room
    have hnext := hfirst (cc + 1)
    omega
  · have hroom : 10 ≤ twoListsTable.first b - (twoListsTable.first a + 1 + 1) := h.room
    have hright := hfirst b
    omega

/-- The region between the lists begins with the end of the first one. -/
theorem not_carvesRight_twoLists : ¬ twoListsIndexed.CarvesRight 2 := by
  rintro ⟨fuel, turns, result, hrun, hcarved⟩
  rw [AllocState.allocateSubDescriptorPool, if_neg (by decide)] at hrun
  split at hrun
  case h_1 => cases hrun
  case h_2 hloop =>
    refine (carveLoop_none (by decide) hloop).2 0 (Nat.le_refl 0) ⟨by decide, ?_, ?_, ?_, ?_⟩
    · exact ⟨by decide, show 0 ≠ invalidSubDescriptorIndex by decide⟩
    · exact ⟨by decide, show 5 ≠ invalidSubDescriptorIndex by decide⟩
    · exact show 0 + 1 < 5 by decide
    · exact show 2 ≤ 5 - (0 + 1) by decide
  case h_3 slot gapSize hloop =>
    cases hrun
    obtain ⟨cc, hrecord, hpos⟩ := carveLoop_some hloop
    exact hcarved.2 cc 0 hpos hrecord

end IndexedTable

end BlockyOS.Kernel
