import BlockyOS.Kernel.SubDescriptorLookup

/-!
# Resizing an entry of the frame table

`UpdateAllocationTableByPhysical` with any mask, and what a new number of pages
does to a list whose entries add up to the pages of its range.
-/

namespace BlockyOS.Kernel

open BlockyOS.Foundation
open BlockyOS.HostTool (Fault)

/-! ## The update -/

namespace AllocState

section Masks

theorem updatePart_of_not_mem {mask bit : BitVec 64} (h : (mask &&& bit == bit) = false)
    (update : AllocState → Except Fault (Option AllocState)) (s : AllocState) :
    updatePart mask bit update (true, s) = .ok (true, s) := by
  rw [updatePart, h]
  rfl

variable (s : AllocState) (fuel adr : Nat) (a : UpdateArgs)

theorem updateAllocationTableByPhysical_noPages :
    s.updateAllocationTableByPhysical fuel atuNoPages adr a =
      if !s.covers adr || (s.getDescriptor adr).isNone then .ok (false, s)
      else
        match s.getSubDescriptor adr with
        | none => .ok (false, s)
        | some slot => (s.resize fuel a.noPages slot).map fun s => (true, s) := by
  rw [updateAllocationTableByPhysical]
  split
  · rfl
  · rw [updatePart_of_not_mem (by decide)]
    simp only [bind, Except.bind]
    rw [updatePart_of_not_mem (by decide)]
    simp only
    rw [updatePart_of_mem (by decide), updateNoPages_eq]
    cases s.getSubDescriptor adr with
    | none => rfl
    | some slot =>
        cases hresize : s.resize fuel a.noPages slot with
        | error e =>
            simp only [hresize]
            rfl
        | ok s' =>
            simp only [hresize, Except.map]
            exact updatePart_of_not_mem (by decide) _ _

end Masks

/-! ## Resizing -/

section Resize

variable {s : AllocState} {fuel first n slot count : Nat}

theorem listLength_of_listOf (h : s.ListOf first n) (hfuel : n < fuel) :
    s.listLength fuel first = .ok n := by
  induction n generalizing first fuel with
  | zero =>
      obtain ⟨fuel, rfl⟩ := Nat.exists_eq_succ_of_ne_zero (Nat.ne_of_gt hfuel)
      have hend := h.ends
      rw [Nat.add_zero] at hend
      rw [listLength, if_pos hend]
  | succ n ih =>
      obtain ⟨fuel, rfl⟩ := Nat.exists_eq_succ_of_ne_zero (show fuel ≠ 0 by omega)
      have hrest : s.ListOf (first + 1) n := by
        refine ⟨fun i hi => ?_, ?_⟩
        · rw [Nat.add_assoc, Nat.add_comm 1 i]
          exact h.inList (i + 1) (by omega)
        · rw [Nat.add_assoc, Nat.add_comm 1 n]
          exact h.ends
      have hopen := h.inList 0 (Nat.succ_pos n)
      rw [Nat.add_zero] at hopen
      rw [listLength, hopen, if_neg Bool.false_ne_true, ih hrest (by omega)]
      rfl

theorem listOf_of_listLength (h : s.listLength fuel first = .ok n) : s.ListOf first n := by
  induction fuel generalizing first n with
  | zero => cases h
  | succ fuel ih =>
      rw [listLength] at h
      split at h
      case isTrue hend =>
        cases h
        exact ⟨fun i hi => absurd hi (Nat.not_lt_zero i), hend⟩
      case isFalse hopen =>
        cases hrest : s.listLength fuel (first + 1) with
        | error e =>
            rw [hrest] at h
            cases h
        | ok m =>
            rw [hrest] at h
            obtain rfl : m + 1 = n := Except.ok.inj h
            have hlist := ih hrest
            refine ⟨fun i hi => ?_, ?_⟩
            · cases i with
              | zero => exact Bool.eq_false_of_not_eq_true hopen
              | succ i =>
                  have hin := hlist.inList i (by omega)
                  rwa [Nat.add_assoc, Nat.add_comm 1 i] at hin
            · have hend := hlist.ends
              rwa [Nat.add_assoc, Nat.add_comm 1 m] at hend

theorem ListOf.of_before {d : MemoryRangeSubDescriptor} (h : slot < first) :
    (s.setSubDescriptor slot d).ListOf first n ↔ s.ListOf first n := by
  have hsame : ∀ i, (s.setSubDescriptor slot d).table.subDescriptors (first + i) =
      s.table.subDescriptors (first + i) := fun i =>
    Function.update_of_ne (by omega) _ _
  constructor
  · exact fun hlist => ⟨fun i hi => hsame i ▸ hlist.inList i hi, hsame n ▸ hlist.ends⟩
  · intro hlist
    exact ⟨fun i hi => (hsame i).symm ▸ hlist.inList i hi, (hsame n).symm ▸ hlist.ends⟩

theorem resize_eq_ok_iff {newNoPages : Nat} {s' : AllocState} :
    (∃ fuel, s.resize fuel newNoPages slot = .ok s') ↔
      ∃ count, s.ListOf (slot + 1) count ∧
        s' = (s.setSubDescriptor slot { s.table.subDescriptors slot with
          noPages := newNoPages % 2 ^ 14 }).shiftPages slot count
            (u64sub newNoPages (s.table.subDescriptors slot).noPages) := by
  constructor
  · rintro ⟨fuel, h⟩
    rw [resize] at h
    cases hlength : (s.setSubDescriptor slot { s.table.subDescriptors slot with
        noPages := newNoPages % 2 ^ 14 }).listLength fuel (slot + 1) with
    | error e =>
        rw [hlength] at h
        cases h
    | ok count =>
        rw [hlength] at h
        cases h
        exact ⟨count, (ListOf.of_before (Nat.lt_succ_self slot)).mp (listOf_of_listLength hlength),
          rfl⟩
  · rintro ⟨count, hlist, rfl⟩
    refine ⟨count + 1, ?_⟩
    rw [resize]
    rw [listLength_of_listOf ((ListOf.of_before (Nat.lt_succ_self slot)).mpr hlist)
      (Nat.lt_succ_self count)]
    rfl

theorem resize_same (hcounts : ∀ i, (s.table.subDescriptors i).noPages < 2 ^ 14)
    (hlist : s.ListOf (slot + 1) count) :
    ∃ fuel, s.resize fuel (s.table.subDescriptors slot).noPages slot = .ok s := by
  refine resize_eq_ok_iff.mpr ⟨count, hlist, ?_⟩
  have hdelta : ∀ n, u64sub n n = 0 := by
    intro n
    rw [u64sub, u64, u64]
    omega
  have hword : (s.table.subDescriptors slot).noPages % 2 ^ 14 =
      (s.table.subDescriptors slot).noPages := Nat.mod_eq_of_lt (hcounts slot)
  have hset : s.setSubDescriptor slot (s.table.subDescriptors slot) = s := by
    rw [setSubDescriptor, Function.update_eq_self]
  rw [hword, hdelta, hset, shiftPages]
  have hshift : (fun i => if slot < i ∧ i ≤ slot + count then
      { s.table.subDescriptors i with noPages := ((s.table.subDescriptors i).noPages + 0) % 2 ^ 14 }
      else s.table.subDescriptors i) = s.table.subDescriptors := by
    funext i
    split
    · rw [Nat.add_zero, Nat.mod_eq_of_lt (hcounts i)]
    · rfl
  simp only [hshift]

end Resize

end AllocState

/-! ## Conservation -/

namespace ListedTable

/-- What each entry should have once `slot` has a new size, those behind it moved by as much. -/
def intended (t : ListedTable) (slot count newNoPages i : Nat) : Int :=
  let pages (i : Nat) : Int := (t.state.table.subDescriptors i).noPages
  if i = slot then newNoPages
  else if slot < i ∧ i ≤ slot + count then pages i + (newNoPages - pages slot)
  else pages i

/-- The entry at `i` of a range has its pages, their place and its validity as before. -/
structure KeepsEntry (t : ListedTable) (s' : AllocState) (cc i : Nat) : Prop where
  start : startOf (s'.pagesAt (t.first cc)) i = startOf (t.state.pagesAt (t.first cc)) i
  pages : s'.pagesAt (t.first cc) i = t.state.pagesAt (t.first cc) i
  valid : (s'.table.subDescriptors (t.first cc + i)).valid =
    (t.state.table.subDescriptors (t.first cc + i)).valid

/-- A neighbour of `slot` makes up for its new size, and all other entries are as before. -/
structure Compensated (t : ListedTable) (s' : AllocState) (slot newNoPages neighbour : Nat) :
    Prop where
  adjacent : neighbour = slot + 1 ∨ neighbour + 1 = slot
  absorbs : ((s'.table.subDescriptors neighbour).noPages : Int) =
    (t.state.table.subDescriptors neighbour).noPages -
      (newNoPages - (t.state.table.subDescriptors slot).noPages)
  others : ∀ cc, t.Listed cc → ∀ i < t.length cc, t.first cc + i ≠ slot →
    t.first cc + i ≠ neighbour → t.KeepsEntry s' cc i

/-- The update of an address of the range keeps the sum, wraps nothing and moves one border. -/
structure Conserved (t : ListedTable) (cc adr newNoPages : Nat) (out : Bool) (s' : AllocState) :
    Prop where
  sum : startOf (s'.pagesAt (t.first cc)) (t.length cc) =
    (t.state.table.descriptors cc).pageLimit
  refused : out = false → s' = t.state
  updated : out = true → ∃ slot count, t.state.getSubDescriptor adr = some slot ∧
    t.state.ListOf (slot + 1) count ∧
    (∀ i, ((s'.table.subDescriptors i).noPages : Int) = t.intended slot count newNoPages i) ∧
    ∃ neighbour, t.Compensated s' slot newNoPages neighbour

def Conserves (t : ListedTable) (cc adr : Nat) (a : UpdateArgs) : Prop :=
  ∃ fuel out s', t.state.updateAllocationTableByPhysical fuel atuNoPages adr a = .ok (out, s') ∧
    t.Conserved cc adr a.noPages out s'

/-- The entry that the lookup finds has the new size already, and a list ends behind it. -/
def SameSize (t : ListedTable) (cc adr newNoPages : Nat) : Prop :=
  ∀ slot, t.lookedUp cc adr = some slot →
    newNoPages = (t.state.table.subDescriptors slot).noPages ∧
      ∃ count, t.state.ListOf (slot + 1) count

section Conserves

variable {t : ListedTable} {cc adr : Nat} {a : UpdateArgs}

/-- An entry behind `slot` is moved the same way, so that no neighbour makes up for a change. -/
theorem sameSize_of_compensated {s' : AllocState} {slot count newNoPages neighbour : Nat}
    (hintended : ∀ i, ((s'.table.subDescriptors i).noPages : Int) =
      t.intended slot count newNoPages i)
    (h : t.Compensated s' slot newNoPages neighbour) :
    newNoPages = (t.state.table.subDescriptors slot).noPages := by
  have hneighbour := hintended neighbour
  rw [h.absorbs, intended] at hneighbour
  have hne : neighbour ≠ slot := by
    have hadjacent := h.adjacent
    omega
  simp only [if_neg hne] at hneighbour
  split at hneighbour
  · omega
  · omega

theorem conserved_refused (hsum : startOf (t.state.pagesAt (t.first cc)) (t.length cc) =
    (t.state.table.descriptors cc).pageLimit) (newNoPages : Nat) :
    t.Conserved cc adr newNoPages false t.state :=
  ⟨hsum, fun _ => rfl, fun h => nomatch h⟩

/--
The pages of a range are conserved where the update finds no entry to set, or one
that has the pages already.
-/
theorem conserves_iff (t : ListedTable) (cc adr : Nat) (a : UpdateArgs) (hinside : t.Inside cc adr)
    (hsum : startOf (t.state.pagesAt (t.first cc)) (t.length cc) =
      (t.state.table.descriptors cc).pageLimit) :
    t.Conserves cc adr a ↔ t.state.getDescriptor adr = none ∨ t.SameSize cc adr a.noPages := by
  have hlookup := hinside.getSubDescriptor_eq
  simp only [Conserves, AllocState.updateAllocationTableByPhysical_noPages, hinside.covers,
    Bool.not_true, Bool.false_or, Option.isNone_iff_eq_none]
  by_cases hnull : t.state.getDescriptor adr = none
  · simp only [if_pos hnull]
    exact iff_of_true ⟨0, false, t.state, rfl, conserved_refused hsum _⟩ (Or.inl hnull)
  · simp only [if_neg hnull, SameSize, ← hlookup, or_iff_right hnull]
    cases hslot : t.state.getSubDescriptor adr with
    | none =>
        refine iff_of_true ⟨0, false, t.state, rfl, conserved_refused hsum _⟩ fun slot hslot' => ?_
        cases hslot'
    | some slot =>
        constructor
        · rintro ⟨fuel, out, s', hrun, hconserved⟩ slot' hslot'
          simp only at hrun
          obtain rfl := Option.some.inj hslot'
          obtain ⟨s₁, hresize, heq⟩ : ∃ s₁, t.state.resize fuel a.noPages slot = .ok s₁ ∧
              (true, s₁) = (out, s') := by
            cases hresize : t.state.resize fuel a.noPages slot with
            | error e =>
                rw [hresize] at hrun
                cases hrun
            | ok s₁ =>
                rw [hresize] at hrun
                exact ⟨s₁, rfl, Except.ok.inj hrun⟩
          obtain ⟨rfl, rfl⟩ := Prod.mk.inj heq
          obtain ⟨slot', count, hfound, hlist, hintended, neighbour, hcompensated⟩ :=
            hconserved.updated rfl
          rw [hslot] at hfound
          obtain rfl := Option.some.inj hfound
          exact ⟨sameSize_of_compensated hintended hcompensated, count, hlist⟩
        · intro h
          obtain ⟨hsame, count, hlist⟩ := h slot rfl
          obtain ⟨fuel, hresize⟩ := AllocState.resize_same t.counts hlist
          rw [← hsame] at hresize
          refine ⟨fuel, true, t.state, ?_, hsum, fun hfalse => (by cases hfalse), fun _ => ?_⟩
          · simp only [hresize]
            rfl
          refine ⟨slot, count, hslot, hlist, fun i => ?_, slot + 1, Or.inl rfl, ?_, ?_⟩
          · rw [intended, hsame]
            simp only [Int.sub_self, Int.add_zero]
            split
            · subst i
              rfl
            · split <;> rfl
          · rw [hsame, Int.sub_self, Int.sub_zero]
          · exact fun cc _ i _ _ _ => ⟨rfl, rfl, rfl⟩

end Conserves

/-! ## A range of two entries -/

def twoEntries : AllocState where
  table :=
    { descriptors := fun _ => ⟨4096, 0, 8, 7⟩
      indexes := fun _ => 0
      subDescriptors := fun i =>
        ⟨i = 2, false, if i < 2 then 4 else 0,
          ⟨0, 0, 0, 0, 0, false, false, false, false, false⟩, 0⟩ }
  descriptorsAt := 0x100000
  indexesAt := 0x101000
  subDescriptorsAt := 0x102000
  totalDescriptors := 1
  totalSubDescriptors := 3
  memoryMaxPages := 1024

theorem twoEntries_counts (i : Nat) : (twoEntries.table.subDescriptors i).noPages < 2 ^ 14 := by
  simp only [twoEntries]
  split <;> omega

theorem twoEntries_lists (cc : Nat) :
    twoEntries.ListOf (twoEntries.table.descriptors cc).subDescriptorIndex 2 := by
  refine ⟨fun i hi => ?_, rfl⟩
  obtain rfl | rfl : i = 0 ∨ i = 1 := by omega
  · rfl
  · rfl

def twoTable : ListedTable where
  state := twoEntries
  length _ := 2
  counts := twoEntries_counts
  lists cc _ _ := twoEntries_lists cc

theorem inside_twoTable {adr : Nat} (hlow : 4096 ≤ adr) (hhigh : adr < 36864) :
    twoTable.Inside 0 adr where
  listed := ⟨Nat.one_pos, show 0 ≠ invalidSubDescriptorIndex by decide⟩
  index := rfl
  low := hlow
  high := by
    change adr < 4096 + 8 * (4 * 1024)
    omega
  mapped := by
    change adr < 1024 * (4 * 1024)
    omega
  word := by omega

/-- A number of pages for an entry. -/
def resizeTo (noPages : Nat) : UpdateArgs := ⟨0, true, noPages, .enabled false 0⟩

theorem conserves_twoTable : twoTable.Conserves 0 4096 (resizeTo 4) := by
  refine (conserves_iff twoTable 0 4096 (resizeTo 4) (inside_twoTable (by decide) (by decide))
    (by decide)).mpr (Or.inr fun slot hslot => ?_)
  have hfirst : twoTable.lookedUp 0 4096 = some 0 := by decide
  rw [hfirst] at hslot
  obtain rfl := Option.some.inj hslot
  refine ⟨rfl, 1, fun i hi => ?_, rfl⟩
  obtain rfl := Nat.lt_one_iff.mp hi
  rfl

/-- Both entries shrink where the first is made smaller. -/
theorem not_conserves_twoTable : ¬ twoTable.Conserves 0 4096 (resizeTo 2) := by
  rintro ⟨fuel, out, s', hrun, hconserved⟩
  have hset : twoTable.state.getSubDescriptor 4096 = some 0 := by decide
  rw [AllocState.updateAllocationTableByPhysical_noPages, if_neg (by decide), hset] at hrun
  simp only at hrun
  cases hresize : twoTable.state.resize fuel (resizeTo 2).noPages 0 with
  | error e =>
      rw [hresize] at hrun
      cases hrun
  | ok s₁ =>
      rw [hresize] at hrun
      obtain ⟨-, rfl⟩ := Prod.mk.inj (Except.ok.inj hrun)
      obtain ⟨count, hlist, rfl⟩ := AllocState.resize_eq_ok_iff.mp ⟨fuel, hresize⟩
      have hend : decide (0 + 1 + count = 2) = true := hlist.ends
      obtain rfl : count = 1 := by
        rw [decide_eq_true_eq] at hend
        omega
      have hsum := hconserved.sum
      revert hsum
      decide

end ListedTable

end BlockyOS.Kernel
