import Mathlib.Order.Lattice
import Mathlib.Tactic.ByContra

/-!
# Running minima

A pass over the places `0`, `1`, ... keeps the place of the smallest value among
those that qualify.
-/

namespace BlockyOS.Foundation

section Minima

variable {α : Type} [LinearOrder α] {p : Nat → Prop} {size : Nat → α} {n m : Nat}

/-- No qualifying place below `n` has a smaller value than the qualifying place `m`. -/
structure Least (p : Nat → Prop) (size : Nat → α) (n m : Nat) : Prop where
  lt : m < n
  holds : p m
  le : ∀ i < n, p i → size m ≤ size i

structure FirstLeast (p : Nat → Prop) (size : Nat → α) (n m : Nat) : Prop
    extends Least p size n m where
  first : ∀ i < m, p i → size m < size i

theorem FirstLeast.unique {m' : Nat} (h : FirstLeast p size n m)
    (h' : FirstLeast p size n m') : m = m' := by
  have hnot : ∀ {m m'}, FirstLeast p size n m → FirstLeast p size n m' → ¬ m < m' := by
    intro m m' h h' hlt
    exact absurd (h.le m' h'.lt h'.holds) (not_le.mpr (h'.first m hlt h.holds))
  exact Nat.le_antisymm (Nat.not_lt.mp (hnot h' h)) (Nat.not_lt.mp (hnot h h'))

/-! ## One more place -/

theorem Least.keep (h : Least p size n m) (hn : p n → size m ≤ size n) :
    Least p size (n + 1) m where
  lt := Nat.lt_succ_of_lt h.lt
  holds := h.holds
  le i hi hp := by
    rcases Nat.lt_succ_iff_lt_or_eq.mp hi with hlt | rfl
    · exact h.le i hlt hp
    · exact hn hp

theorem Least.replace (h : Least p size n m) (hp : p n) (hn : size n ≤ size m) :
    Least p size (n + 1) n where
  lt := Nat.lt_succ_self n
  holds := hp
  le i hi hpi := by
    rcases Nat.lt_succ_iff_lt_or_eq.mp hi with hlt | rfl
    · exact hn.trans (h.le i hlt hpi)
    · exact le_refl _

theorem FirstLeast.keep (h : FirstLeast p size n m) (hn : p n → size m ≤ size n) :
    FirstLeast p size (n + 1) m :=
  ⟨h.toLeast.keep hn, h.first⟩

theorem FirstLeast.replace (h : FirstLeast p size n m) (hp : p n) (hn : size n < size m) :
    FirstLeast p size (n + 1) n :=
  ⟨h.toLeast.replace hp hn.le, fun i hi hpi => hn.trans_le (h.le i hi hpi)⟩

theorem firstLeast_skip {unknown : Prop} {known : Nat → Prop} (hn : ¬ p n)
    (h : (unknown ∧ ∀ i < n, ¬ p i) ∨ ∃ m, known m ∧ FirstLeast p size n m) :
    (unknown ∧ ∀ i < n + 1, ¬ p i) ∨ ∃ m, known m ∧ FirstLeast p size (n + 1) m := by
  rcases h with ⟨hunknown, hall⟩ | ⟨m, hm, hleast⟩
  · exact Or.inl ⟨hunknown, Nat.forall_lt_succ_right.mpr ⟨hall, hn⟩⟩
  · exact Or.inr ⟨m, hm, hleast.keep fun hp => absurd hp hn⟩

theorem firstLeast_of_none (hnone : ∀ i < n, ¬ p i) (hp : p n) :
    FirstLeast p size (n + 1) n where
  lt := Nat.lt_succ_self n
  holds := hp
  le i hi hpi := by
    rcases Nat.lt_succ_iff_lt_or_eq.mp hi with hlt | rfl
    · exact absurd hpi (hnone i hlt)
    · exact le_refl _
  first i hi hpi := absurd hpi (hnone i hi)

theorem FirstLeast.mono {n' m' : Nat} (h : FirstLeast p size n m)
    (h' : FirstLeast p size n' m') (hn : n ≤ n') : m ≤ m' := by
  by_cases hm : m' < n
  · have hsame : FirstLeast p size n m' :=
      ⟨⟨hm, h'.holds, fun i hi => h'.le i (Nat.lt_of_lt_of_le hi hn)⟩, h'.first⟩
    exact Nat.le_of_eq (h.unique hsame)
  · exact Nat.le_trans (Nat.le_of_lt h.lt) (Nat.not_lt.mp hm)

theorem FirstLeast.extend {n' : Nat} (h : FirstLeast p size n m) (hn : n ≤ n')
    (hle : ∀ i, p i → size m ≤ size i) : FirstLeast p size n' m :=
  ⟨⟨Nat.lt_of_lt_of_le h.lt hn, h.holds, fun i _ hp => hle i hp⟩, h.first⟩

/-! ## Existence -/

theorem exists_firstLeast_or_none (p : Nat → Prop) (size : Nat → α) (n : Nat) :
    (∀ i < n, ¬ p i) ∨ ∃ m, FirstLeast p size n m := by
  induction n with
  | zero => exact Or.inl fun i hi => absurd hi (Nat.not_lt_zero i)
  | succ n ih =>
      by_cases hp : p n
      · right
        rcases ih with hnone | ⟨m, h⟩
        · exact ⟨n, firstLeast_of_none hnone hp⟩
        · rcases lt_or_ge (size n) (size m) with hlt | hle
          · exact ⟨n, h.replace hp hlt⟩
          · exact ⟨m, h.keep fun _ => hle⟩
      · rcases ih with hnone | ⟨m, h⟩
        · exact Or.inl (Nat.forall_lt_succ_right.mpr ⟨hnone, hp⟩)
        · exact Or.inr ⟨m, h.keep fun hn => absurd hn hp⟩

end Minima

end BlockyOS.Foundation
