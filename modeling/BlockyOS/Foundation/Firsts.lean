import Mathlib.Data.List.Basic

/-!
# The first element of a list with a property

Searches that stop at the first element they accept, told by the place where
they stop.
-/

namespace BlockyOS.Foundation

section Firsts

variable {α : Type} {p : α → Bool} {l : List α} {i j : Nat} {a b : α}

/-- The element at place `i` is the first one of the list that is accepted. -/
structure FirstAt (p : α → Bool) (l : List α) (i : Nat) (a : α) : Prop where
  get : l[i]? = some a
  holds : p a = true
  before : ∀ j < i, ∀ b, l[j]? = some b → p b = false

theorem FirstAt.mem (h : FirstAt p l i a) : a ∈ l := List.mem_of_getElem? h.get

theorem firstAt_zero (ha : p a = true) : FirstAt p (a :: l) 0 a :=
  ⟨rfl, ha, fun j hj => absurd hj (Nat.not_lt_zero j)⟩

theorem FirstAt.succ (h : FirstAt p l i a) (hb : p b = false) : FirstAt p (b :: l) (i + 1) a where
  get := h.get
  holds := h.holds
  before j hj x hx := by
    cases j with
    | zero =>
        obtain rfl := Option.some.inj hx
        exact hb
    | succ j => exact h.before j (Nat.lt_of_succ_lt_succ hj) x hx

theorem firstAt_cons_iff :
    FirstAt p (b :: l) i a ↔
      (i = 0 ∧ a = b ∧ p b = true) ∨ ∃ k, i = k + 1 ∧ p b = false ∧ FirstAt p l k a := by
  constructor
  · intro h
    cases i with
    | zero =>
        obtain rfl := Option.some.inj h.get
        exact Or.inl ⟨rfl, rfl, h.holds⟩
    | succ k =>
        refine Or.inr ⟨k, rfl, h.before 0 (Nat.succ_pos k) b rfl, h.get, h.holds, ?_⟩
        exact fun j hj x hx => h.before (j + 1) (Nat.succ_lt_succ hj) x hx
  · rintro (⟨rfl, rfl, hb⟩ | ⟨k, rfl, hb, h⟩)
    · exact firstAt_zero hb
    · exact h.succ hb

theorem none_or_exists_firstAt (p : α → Bool) (l : List α) :
    (∀ a ∈ l, p a = false) ∨ ∃ i a, FirstAt p l i a := by
  induction l with
  | nil => exact Or.inl fun a ha => absurd ha List.not_mem_nil
  | cons b l ih =>
      cases hb : p b with
      | true => exact Or.inr ⟨0, b, firstAt_zero hb⟩
      | false =>
          rcases ih with hnone | ⟨i, a, h⟩
          · refine Or.inl fun a ha => ?_
            rcases List.mem_cons.mp ha with rfl | ha
            · exact hb
            · exact hnone a ha
          · exact Or.inr ⟨i + 1, a, h.succ hb⟩

theorem FirstAt.find? (h : FirstAt p l i a) : l.find? p = some a := by
  induction l generalizing i with
  | nil => cases h.get
  | cons b l ih =>
      rcases firstAt_cons_iff.mp h with ⟨-, rfl, hb⟩ | ⟨k, -, hb, h⟩
      · rw [List.find?_cons_of_pos hb]
      · rw [List.find?_cons_of_neg (by simp [hb]), ih h]

end Firsts

end BlockyOS.Foundation
