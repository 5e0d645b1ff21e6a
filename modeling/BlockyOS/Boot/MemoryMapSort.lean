import Mathlib.Algebra.BigOperators.Group.List.Basic
import Mathlib.Algebra.Order.BigOperators.Group.Finset
import BlockyOS.Foundation.Records
import BlockyOS.Foundation.Runs
import BlockyOS.HostTool.Raw

/-!
# Sorting the memory map

`SortMemoryDescriptors` is an insertion sort on an array of raw descriptors whose
stride the firmware chooses.  It makes room by copying descriptors over the one
it is about to insert, and then inserts what has become of it.
-/

namespace BlockyOS.Boot

open BlockyOS.Foundation
open BlockyOS.HostTool (Fault)

/-! ## Descriptors in memory -/

/-- The size of the fields an `EFI_MEMORY_DESCRIPTOR` is known to have. -/
def sizeofMemoryDescriptor : Nat := 40

/-- `PhysicalStart` comes after the type and its padding. -/
def physicalStartOffset : Nat := 8

/-- `PhysicalStart` of descriptor `j`. -/
def startAt (structSize : Nat) (array : Bytes) (j : Nat) : Nat :=
  fieldNat array (structSize * j + physicalStartOffset) 8

def loadStart (structSize : Nat) (array : Bytes) (j : Nat) : Except Fault Nat :=
  if structSize * j + physicalStartOffset + 8 ≤ array.length then
    .ok (startAt structSize array j)
  else .error .outOfBounds

/-- `__memcpy` of descriptor `src` over descriptor `dst`. -/
def copyDescriptor (structSize : Nat) (array : Bytes) (dst src : Nat) : Except Fault Bytes :=
  if structSize * dst + structSize ≤ array.length ∧
      structSize * src + structSize ≤ array.length then
    .ok (splice array (structSize * dst) (slice array (structSize * src) structSize))
  else .error .outOfBounds

/-! ## The sort -/

/-- The `while` loop: shift the descriptors below `j` that start behind `currentStart`. -/
def shiftLoop (structSize currentStart : Nat) : Nat → Bytes → Except Fault (Nat × Bytes)
  | 0, array => .ok (0, array)
  | j + 1, array => do
      let prevStart ← loadStart structSize array j
      if prevStart > currentStart then
        let array ← copyDescriptor structSize array (j + 1) j
        shiftLoop structSize currentStart j array
      else .ok (j + 1, array)

/-- One pass of the `for` loop.  `currentPtr` still points at place `i`. -/
def insertCurrent (structSize : Nat) (array : Bytes) (i : Nat) : Except Fault Bytes := do
  let currentStart ← loadStart structSize array i
  let (j, array) ← shiftLoop structSize currentStart i array
  if j ≠ i then copyDescriptor structSize array j i else .ok array

def sortLoop (structSize : Nat) : Nat → Nat → Bytes → Except Fault Bytes
  | 0, _, array => .ok array
  | n + 1, i, array => do
      let array ← insertCurrent structSize array i
      sortLoop structSize n (i + 1) array

def sortMemoryDescriptors (array : Option Bytes) (structSize N : Nat) :
    Except Fault (Option Bytes) :=
  match array with
  | none => .ok none
  | some array =>
      if N < 2 then .ok (some array)
      else (sortLoop structSize (N - 1) 1 array).map some

/-! ## What the sort is for -/

/-- All the bytes of each descriptor, in order. -/
def descriptors (structSize N : Nat) (array : Bytes) : List Bytes :=
  (List.range N).map fun j => slice array (structSize * j) structSize

def physicalStart (descriptor : Bytes) : Nat := fieldNat descriptor physicalStartOffset 8

/--
The sort stays inside the array and leaves the descriptors it found, ordered by
their starts, those of equal start in the order they had.
-/
def SortsRight (structSize N : Nat) (array : Bytes) : Prop :=
  ∃ after, sortMemoryDescriptors (some array) structSize N = .ok (some after) ∧
    after.length = array.length ∧
    (descriptors structSize N after).Perm (descriptors structSize N array) ∧
    (descriptors structSize N after).Pairwise (fun a b => physicalStart a ≤ physicalStart b) ∧
    ∀ start, (descriptors structSize N after).filter (physicalStart · = start) =
      (descriptors structSize N array).filter (physicalStart · = start)

def totalStart (structSize N : Nat) (array : Bytes) : Nat :=
  ∑ j ∈ Finset.range N, startAt structSize array j

section Passes

variable {structSize N : Nat} (hsize : sizeofMemoryDescriptor ≤ structSize) {array : Bytes}
  (harray : array.length = structSize * N)

include harray

theorem descriptor_inside {j : Nat} (hj : j < N) :
    structSize * j + structSize ≤ array.length := by
  have hmul := Nat.mul_le_mul_left structSize (Nat.succ_le_of_lt hj)
  rw [Nat.mul_succ] at hmul
  omega

include hsize

theorem loadStart_eq {j : Nat} (hj : j < N) :
    loadStart structSize array j = .ok (startAt structSize array j) := by
  have hinside := descriptor_inside harray hj
  unfold sizeofMemoryDescriptor at hsize
  exact if_pos (by unfold physicalStartOffset; omega)

theorem copyDescriptor_ok {dst src : Nat} (hdst : dst < N) (hsrc : src < N) :
    ∃ after, copyDescriptor structSize array dst src = .ok after ∧
      after.length = structSize * N ∧
      ∀ j, j < N → startAt structSize after j =
        if j = dst then startAt structSize array src else startAt structSize array j := by
  have hin := descriptor_inside harray hdst
  have hfrom := descriptor_inside harray hsrc
  have hrecord := length_slice array hfrom
  have hpatch : structSize * dst + (slice array (structSize * src) structSize).length ≤
      array.length := by omega
  unfold sizeofMemoryDescriptor at hsize
  refine ⟨_, if_pos ⟨hin, hfrom⟩, by rw [length_splice array hpatch, harray], fun j hj => ?_⟩
  have hfield : physicalStartOffset + 8 ≤ structSize := by unfold physicalStartOffset; omega
  have hread : ∀ bytes : Bytes, ∀ k, startAt structSize bytes k =
      fieldNat (slice bytes (structSize * k) structSize) physicalStartOffset 8 :=
    fun bytes k => (fieldNat_slice bytes hfield).symm
  rw [hread, hread array, hread array]
  split
  case isTrue heq =>
    subst heq
    have hinside := @slice_splice_inside _ array _ _ hpatch 0 structSize (by omega)
    have hfull := slice_full (slice array (structSize * src) structSize)
    rw [hrecord] at hfull
    rw [Nat.add_zero] at hinside
    rw [hinside, hfull]
  case isFalse hne =>
    rw [slice_splice_outside array hpatch]
    rcases Nat.lt_or_gt_of_ne hne with hlt | hgt
    · left
      have hmul := Nat.mul_le_mul_left structSize (Nat.succ_le_of_lt hlt)
      rwa [Nat.mul_succ] at hmul
    · right
      have hmul := Nat.mul_le_mul_left structSize (Nat.succ_le_of_lt hgt)
      rw [Nat.mul_succ] at hmul
      omega

omit hsize harray in
theorem totalStart_copy {after : Bytes} {dst src : Nat} (hdst : dst < N)
    (hstarts : ∀ j, j < N → startAt structSize after j =
      if j = dst then startAt structSize array src else startAt structSize array j) :
    totalStart structSize N after + startAt structSize array dst =
      totalStart structSize N array + startAt structSize array src := by
  have hmem : dst ∈ Finset.range N := Finset.mem_range.mpr hdst
  have hrest : ∑ j ∈ (Finset.range N).erase dst, startAt structSize after j =
      ∑ j ∈ (Finset.range N).erase dst, startAt structSize array j := by
    apply Finset.sum_congr rfl
    intro j hj
    obtain ⟨hne, hlt⟩ := Finset.mem_erase.mp hj
    rw [hstarts j (Finset.mem_range.mp hlt), if_neg hne]
  rw [totalStart, totalStart, ← Finset.add_sum_erase _ _ hmem,
    ← Finset.add_sum_erase _ (startAt structSize array) hmem, hrest, hstarts dst hdst,
    if_pos rfl]
  omega

theorem shiftLoop_ok (currentStart : Nat) {j : Nat} (hj : j < N) :
    ∃ k after, shiftLoop structSize currentStart j array = .ok (k, after) ∧
      after.length = structSize * N ∧ k ≤ j ∧
      (∀ m, j < m → m < N → startAt structSize after m = startAt structSize array m) ∧
      (k = j → after = array ∧ (0 < j → startAt structSize array (j - 1) ≤ currentStart)) ∧
      (k < j → currentStart < startAt structSize array (j - 1) ∧
        startAt structSize after j = startAt structSize array (j - 1) ∧
        totalStart structSize N after + startAt structSize array j =
          totalStart structSize N array + startAt structSize after k) := by
  induction j generalizing array with
  | zero =>
      exact ⟨0, array, rfl, harray, Nat.le_refl _, fun _ _ _ => rfl,
        fun _ => ⟨rfl, fun hpos => by omega⟩, fun hlt => by omega⟩
  | succ j ih =>
      rw [shiftLoop, loadStart_eq hsize harray (Nat.lt_of_succ_lt hj)]
      simp only [ok_bind, gt_iff_lt]
      split
      case isFalse hstop =>
        exact ⟨j + 1, array, rfl, harray, Nat.le_refl _, fun _ _ _ => rfl,
          fun _ => ⟨rfl, fun _ => Nat.le_of_not_lt hstop⟩, fun hlt => by omega⟩
      case isTrue hshift =>
        obtain ⟨mid, hcopy, hmid, hstarts⟩ :=
          copyDescriptor_ok hsize harray hj (Nat.lt_of_succ_lt hj)
        have htotal := totalStart_copy hj hstarts
        obtain ⟨k, after, hloop, hafter, hk, habove, hnone, hsome⟩ :=
          ih hmid (Nat.lt_of_succ_lt hj)
        have hlast : startAt structSize mid (j + 1) = startAt structSize array j := by
          rw [hstarts _ hj, if_pos rfl]
        have hsame : startAt structSize mid j = startAt structSize array j := by
          rw [hstarts _ (Nat.lt_of_succ_lt hj), if_neg (by omega)]
        rw [hcopy]
        refine ⟨k, after, hloop, hafter, by omega, fun m hlow hhigh => ?_,
          fun heq => by omega, fun _ => ⟨hshift, ?_, ?_⟩⟩
        · rw [habove m (by omega) hhigh, hstarts m hhigh, if_neg (by omega)]
        · rw [habove (j + 1) (by omega) hj, hlast]
          rfl
        · rcases Nat.lt_or_eq_of_le hk with hlt | rfl
          · have hrest := (hsome hlt).2.2
            omega
          · obtain ⟨rfl, -⟩ := hnone rfl
            omega

theorem insertCurrent_ok {i : Nat} (hpos : 0 < i) (hi : i < N) :
    ∃ after, insertCurrent structSize array i = .ok after ∧
      after.length = structSize * N ∧
      (startAt structSize array (i - 1) ≤ startAt structSize array i → after = array) ∧
      (startAt structSize array i < startAt structSize array (i - 1) →
        totalStart structSize N array < totalStart structSize N after) := by
  obtain ⟨k, mid, hloop, hmid, hk, -, hnone, hsome⟩ :=
    shiftLoop_ok hsize harray (startAt structSize array i) hi
  rw [insertCurrent, loadStart_eq hsize harray hi]
  simp only [ok_bind, hloop]
  rcases Nat.lt_or_eq_of_le hk with hlt | rfl
  · obtain ⟨hbehind, hlast, htotal⟩ := hsome hlt
    obtain ⟨after, hcopy, hafter, hstarts⟩ :=
      copyDescriptor_ok hsize hmid (Nat.lt_trans hlt hi) hi
    have htotal' := totalStart_copy (Nat.lt_trans hlt hi) hstarts
    rw [if_pos (Nat.ne_of_lt hlt), hcopy]
    exact ⟨after, rfl, hafter, fun hle => by omega, fun _ => by omega⟩
  · obtain ⟨rfl, hle⟩ := hnone rfl
    rw [if_neg (not_not.mpr rfl)]
    exact ⟨mid, rfl, hmid, fun _ => rfl, fun hlt => by have := hle hpos; omega⟩

theorem sortLoop_ok (n : Nat) {i : Nat} (hpos : 0 < i) (hn : i + n = N) :
    ∃ after, sortLoop structSize n i array = .ok after ∧
      after.length = structSize * N ∧
      totalStart structSize N array ≤ totalStart structSize N after ∧
      (totalStart structSize N array = totalStart structSize N after →
        ∀ j, i ≤ j → j < N → startAt structSize array (j - 1) ≤ startAt structSize array j) ∧
      ((∀ j, i ≤ j → j < N → startAt structSize array (j - 1) ≤ startAt structSize array j) →
        after = array) := by
  induction n generalizing array i with
  | zero =>
      exact ⟨array, rfl, harray, Nat.le_refl _, fun _ j hlow hhigh => by omega, fun _ => rfl⟩
  | succ n ih =>
      obtain ⟨mid, hpass, hmid, hstay, hmove⟩ :=
        insertCurrent_ok hsize harray hpos (by omega : i < N)
      obtain ⟨after, hloop, hafter, hle, hsame, hdone⟩ := ih hmid (Nat.succ_pos i) (by omega)
      rw [sortLoop, hpass]
      refine ⟨after, hloop, hafter, ?_, fun heq j hlow hhigh => ?_, fun hordered => ?_⟩
      · rcases Nat.lt_or_ge (startAt structSize array i) (startAt structSize array (i - 1))
          with hlt | hge
        · have := hmove hlt
          omega
        · rwa [hstay hge] at hle
      · rcases Nat.lt_or_ge (startAt structSize array i) (startAt structSize array (i - 1))
          with hlt | hge
        · have := hmove hlt
          omega
        · rw [hstay hge] at hsame
          rcases Nat.eq_or_lt_of_le hlow with rfl | hlt
          · exact hge
          · exact hsame heq j hlt hhigh
      · have hkeep := hstay (hordered i (Nat.le_refl _) (by omega))
        rw [hkeep] at hdone
        exact hdone fun j hlow hhigh => hordered j (by omega) hhigh

end Passes

/-! ## When the sort is right -/

section Order

variable {structSize N : Nat} {array after : Bytes}

theorem physicalStart_slice (hsize : sizeofMemoryDescriptor ≤ structSize) (j : Nat) :
    physicalStart (slice array (structSize * j) structSize) = startAt structSize array j := by
  unfold sizeofMemoryDescriptor at hsize
  exact fieldNat_slice array (by unfold physicalStartOffset; omega)

theorem totalStart_eq (hsize : sizeofMemoryDescriptor ≤ structSize) :
    totalStart structSize N array = ((descriptors structSize N array).map physicalStart).sum := by
  induction N with
  | zero => rfl
  | succ N ih =>
      rw [totalStart] at ih
      rw [totalStart, Finset.sum_range_succ, ih, descriptors, descriptors, List.range_succ]
      simp [physicalStart_slice hsize]

theorem ordered_iff (hsize : sizeofMemoryDescriptor ≤ structSize) :
    (descriptors structSize N array).Pairwise (fun a b => physicalStart a ≤ physicalStart b) ↔
      ∀ j, 1 ≤ j → j < N → startAt structSize array (j - 1) ≤ startAt structSize array j := by
  have hlength : (descriptors structSize N array).length = N := by simp [descriptors]
  rw [List.pairwise_iff_getElem]
  constructor
  · intro hall j hlow hhigh
    have hstep := hall (j - 1) j (by omega) (by omega) (by omega)
    simpa [descriptors, physicalStart_slice hsize] using hstep
  · intro hstep i j hi hj hlt
    rw [hlength] at hj
    simp only [descriptors, List.getElem_map, List.getElem_range, physicalStart_slice hsize]
    induction j, hlt using Nat.le_induction with
    | base => exact hstep (i + 1) (by omega) hj
    | succ j hij ih =>
        have hnext := hstep (j + 1) (by omega) hj
        exact Nat.le_trans (ih (by omega) (by omega)) hnext

end Order

/--
The sort is right on the arrays that are in order already, and on no other: it
loses the first descriptor it would have to move.
-/
theorem sortsRight_iff {structSize N : Nat} {array : Bytes}
    (hsize : sizeofMemoryDescriptor ≤ structSize) (harray : array.length = structSize * N) :
    SortsRight structSize N array ↔
      (descriptors structSize N array).Pairwise fun a b => physicalStart a ≤ physicalStart b := by
  rw [ordered_iff hsize]
  by_cases hN : N < 2
  · have hsorted : ∀ j, 1 ≤ j → j < N →
        startAt structSize array (j - 1) ≤ startAt structSize array j := by
      intro j hlow hhigh
      omega
    refine iff_of_true ⟨array, if_pos hN, rfl, .refl _, (ordered_iff hsize).mpr hsorted,
      fun _ => rfl⟩ hsorted
  obtain ⟨after, hloop, hafter, hle, hsame, hdone⟩ :=
    sortLoop_ok hsize harray (N - 1) Nat.one_pos (by omega)
  have hsort : sortMemoryDescriptors (some array) structSize N = .ok (some after) := by
    rw [sortMemoryDescriptors, if_neg hN, hloop]
    rfl
  constructor
  · rintro ⟨after', hsort', -, hperm, -, -⟩
    rw [hsort] at hsort'
    cases hsort'
    apply hsame
    rw [totalStart_eq hsize, totalStart_eq hsize]
    exact (hperm.map physicalStart).sum_eq.symm
  · intro hordered
    obtain rfl := hdone hordered
    exact ⟨after, hsort, rfl, .refl _, (ordered_iff hsize).mpr hordered, fun _ => rfl⟩

/-- A descriptor of conventional memory that starts at `start`. -/
def sampleDescriptor (start : Nat) : Bytes := leBytes 8 7 ++ (leBytes 8 start ++ zeros 24)

theorem sortsRight_sample :
    SortsRight 40 2 (sampleDescriptor 1 ++ sampleDescriptor 2) ↔
      (descriptors 40 2 (sampleDescriptor 1 ++ sampleDescriptor 2)).Pairwise
        fun a b => physicalStart a ≤ physicalStart b :=
  sortsRight_iff (by decide) (by decide)

/-- Of two descriptors in the wrong order, the earlier is lost and the later stands twice. -/
theorem not_sortsRight_sample : ¬ SortsRight 40 2 (sampleDescriptor 2 ++ sampleDescriptor 1) := by
  rintro ⟨after, hsort, -, hperm, -, -⟩
  have heval : sortMemoryDescriptors (some (sampleDescriptor 2 ++ sampleDescriptor 1)) 40 2 =
      .ok (some (sampleDescriptor 2 ++ sampleDescriptor 2)) := by
    decide +kernel
  rw [heval] at hsort
  cases hsort
  have hlost : slice (sampleDescriptor 2 ++ sampleDescriptor 1) 40 40 ∈
      descriptors 40 2 (sampleDescriptor 2 ++ sampleDescriptor 1) := by
    decide +kernel
  exact absurd (hperm.mem_iff.mpr hlost) (by decide +kernel)

end BlockyOS.Boot
