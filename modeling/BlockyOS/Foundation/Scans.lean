import Mathlib.Data.Finset.Card
import Mathlib.Data.Fintype.Pigeonhole

/-!
# Scans that pass over some of what they find

A scan looks at one place after another, passes over the values that are to be
skipped, and stops at the first place that holds none of them.
-/

namespace BlockyOS.Foundation

section Scans

variable {α : Type} {seen : Nat → Option α} {skip : α → Bool}

/-- The scan stops at place `m`: a value is skipped at every place before, and none there. -/
structure Stops (seen : Nat → Option α) (skip : α → Bool) (m : Nat) : Prop where
  before : ∀ k < m, ∃ a, seen k = some a ∧ skip a = true
  stop : ∀ a, seen m = some a → skip a = false

theorem Stops.unique {m m' : Nat} (h : Stops seen skip m) (h' : Stops seen skip m') :
    m = m' := by
  have hnot : ∀ {m m' : Nat}, Stops seen skip m → Stops seen skip m' → ¬ m < m' := by
    intro m m' h h' hlt
    obtain ⟨a, hseen, hskip⟩ := h'.before m hlt
    rw [h.stop a hseen] at hskip
    cases hskip
  exact Nat.le_antisymm (Nat.not_lt.mp (hnot h' h)) (Nat.not_lt.mp (hnot h h'))

theorem exists_stops (values : Finset α) (hvalues : ∀ k a, seen k = some a → a ∈ values)
    (honce : ∀ k ≤ values.card, ∀ k' ≤ values.card, ∀ a, seen k = some a → seen k' = some a →
      k = k') : ∃ m ≤ values.card, Stops seen skip m := by
  by_contra hnone
  -- otherwise every place up to the bound holds a value that is skipped
  have hskipped : ∀ k ≤ values.card, ∃ a, seen k = some a ∧ skip a = true := by
    intro k
    induction k using Nat.strong_induction_on with
    | h k ih =>
        intro hk
        by_contra hstop
        refine hnone ⟨k, hk, fun j hj => ih j hj (hj.le.trans hk), fun a hseen => ?_⟩
        by_contra hskip
        exact hstop ⟨a, hseen, by simpa using hskip⟩
  have hnonempty : Nonempty α := (hskipped 0 (Nat.zero_le _)).nonempty
  choose! value hseen _ using hskipped
  have hcard : values.card < (Finset.range (values.card + 1)).card := by
    rw [Finset.card_range]
    exact Nat.lt_succ_self _
  obtain ⟨k, hk, k', hk', hne, hsame⟩ :=
    Finset.exists_ne_map_eq_of_card_lt_of_maps_to hcard
      (fun k hk => hvalues k (value k) (hseen k (Nat.lt_succ_iff.mp (Finset.mem_range.mp hk))))
  have hk := Nat.lt_succ_iff.mp (Finset.mem_range.mp hk)
  have hk' := Nat.lt_succ_iff.mp (Finset.mem_range.mp hk')
  exact hne (honce k hk k' hk' (value k) (hseen k hk) (hsame ▸ hseen k' hk'))

end Scans

end BlockyOS.Foundation
