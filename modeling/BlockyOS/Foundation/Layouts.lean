import Mathlib.Data.List.Range

/-!
# Items laid out one behind the other

The place of an item is the sum of the sizes of those before it, and an offset
belongs to the item whose interval it is in.
-/

namespace BlockyOS.Foundation

/-- Where an item begins. -/
def startOf (size : Nat → Nat) : Nat → Nat
  | 0 => 0
  | i + 1 => startOf size i + size i

/-- Item `i` of the first `n` has the offset. -/
structure HasOffset (size : Nat → Nat) (n i x : Nat) : Prop where
  lt : i < n
  start : startOf size i ≤ x
  stop : x < startOf size (i + 1)

def itemAt (size : Nat → Nat) (n x : Nat) : Option Nat :=
  (List.range n).find? fun i => x < startOf size (i + 1)

section Items

variable {size : Nat → Nat} {n i j x : Nat}

theorem startOf_succ (size : Nat → Nat) (i : Nat) :
    startOf size (i + 1) = startOf size i + size i := rfl

theorem startOf_mono (h : i ≤ j) : startOf size i ≤ startOf size j := by
  induction h with
  | refl => exact Nat.le_refl _
  | step _ ih => exact Nat.le_add_right_of_le ih

theorem itemAt_eq_some_iff : itemAt size n x = some i ↔ HasOffset size n i x := by
  rw [itemAt, List.find?_range_eq_some]
  simp only [decide_eq_true_eq, List.mem_range, Bool.not_eq_eq_eq_not, Bool.not_true,
    decide_eq_false_iff_not, Nat.not_lt]
  constructor
  · rintro ⟨hstop, hi, hbefore⟩
    refine ⟨hi, ?_, hstop⟩
    cases i with
    | zero => exact Nat.zero_le x
    | succ i => exact hbefore i (Nat.lt_succ_self i)
  · intro h
    exact ⟨h.stop, h.lt, fun j hj => Nat.le_trans (startOf_mono (Nat.succ_le_of_lt hj)) h.start⟩

theorem itemAt_eq_none_iff : itemAt size n x = none ↔ startOf size n ≤ x := by
  rw [itemAt, List.find?_range_eq_none]
  simp only [Bool.not_eq_eq_eq_not, Bool.not_true, decide_eq_false_iff_not, Nat.not_lt]
  constructor
  · intro h
    cases n with
    | zero => exact Nat.zero_le x
    | succ n => exact h n (Nat.lt_succ_self n)
  · exact fun h j hj => Nat.le_trans (startOf_mono (Nat.succ_le_of_lt hj)) h

end Items

end BlockyOS.Foundation
