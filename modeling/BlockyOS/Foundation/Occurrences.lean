import Mathlib.Data.List.Infix
import Mathlib.Data.Nat.Find

/-!
# Occurrences of one list in another

A list is cut at the leftmost occurrence of another one, and what is behind it is
cut in the same way.  The pieces between are determined by the two lists.
-/

namespace BlockyOS.Foundation

section Occurrences

variable {α : Type} (old : List α)

/-- The occurrence of `old` behind `pre` is the leftmost one. -/
def Leftmost (pre post : List α) : Prop :=
  ∀ pre' post', pre ++ old ++ post = pre' ++ old ++ post' → pre.length ≤ pre'.length

inductive Splits : List α → List (List α) → Prop
  | last {s : List α} (hnone : ¬ old <:+: s) : Splits s [s]
  | cut {pre post : List α} {pieces : List (List α)} (hfirst : Leftmost old pre post)
      (hrest : Splits post pieces) : Splits (pre ++ old ++ post) (pre :: pieces)

variable {old}

theorem Leftmost.unique {pre post pre' post' : List α} (h : Leftmost old pre post)
    (h' : Leftmost old pre' post') (heq : pre ++ old ++ post = pre' ++ old ++ post') :
    pre = pre' ∧ post = post' := by
  have hlength : pre.length = pre'.length :=
    Nat.le_antisymm (h pre' post' heq) (h' pre post heq.symm)
  rw [List.append_assoc, List.append_assoc] at heq
  obtain ⟨hpre, hrest⟩ := List.append_inj heq hlength
  exact ⟨hpre, List.append_cancel_left hrest⟩

theorem Splits.unique {s : List α} {pieces pieces' : List (List α)} (h : Splits old s pieces)
    (h' : Splits old s pieces') : pieces = pieces' := by
  induction h generalizing pieces' with
  | last hnone =>
      cases h' with
      | last => rfl
      | cut => exact absurd ⟨_, _, rfl⟩ hnone
  | @cut pre post pieces hfirst _ ih =>
      generalize hs : pre ++ old ++ post = s at h'
      cases h' with
      | last hnone => exact absurd ⟨pre, post, hs⟩ hnone
      | cut hfirst' hrest' =>
          obtain ⟨rfl, rfl⟩ := hfirst.unique hfirst' hs
          rw [ih hrest']

theorem exists_leftmost {s : List α} (h : old <:+: s) :
    ∃ pre post, s = pre ++ old ++ post ∧ Leftmost old pre post := by
  classical
  have hexists : ∃ k, ∃ pre post, s = pre ++ old ++ post ∧ pre.length = k := by
    obtain ⟨pre, post, rfl⟩ := h
    exact ⟨pre.length, pre, post, rfl, rfl⟩
  obtain ⟨pre, post, hs, hk⟩ := Nat.find_spec hexists
  refine ⟨pre, post, hs, fun pre' post' heq => ?_⟩
  rw [hk]
  exact Nat.find_min' hexists ⟨pre', post', hs.trans heq, rfl⟩

theorem exists_splits (hold : old ≠ []) (s : List α) : ∃ pieces, Splits old s pieces := by
  generalize hn : s.length = n
  induction n using Nat.strong_induction_on generalizing s with
  | h n ih =>
      by_cases hoccurs : old <:+: s
      · obtain ⟨pre, post, rfl, hfirst⟩ := exists_leftmost hoccurs
        have hpos := List.length_pos_iff.mpr hold
        rw [List.length_append, List.length_append] at hn
        obtain ⟨pieces, hrest⟩ := ih post.length (by omega) post rfl
        exact ⟨pre :: pieces, .cut hfirst hrest⟩
      · exact ⟨[s], .last hoccurs⟩

theorem Splits.ne_nil {s : List α} {pieces : List (List α)} (h : Splits old s pieces) :
    pieces ≠ [] := by
  cases h <;> simp

theorem Splits.eq_singleton {s : List α} {pieces : List (List α)} (h : Splits old s pieces)
    (hone : pieces.length = 1) : pieces = [s] := by
  cases h with
  | last => rfl
  | cut _ hrest =>
      rw [List.length_cons] at hone
      exact absurd (List.length_eq_zero_iff.mp (Nat.succ.inj hone)) hrest.ne_nil

theorem Splits.length_pos {s : List α} {pieces : List (List α)} (h : Splits old s pieces) :
    0 < pieces.length := List.length_pos_iff.mpr h.ne_nil

theorem intercalate_cons_of_ne_nil (sep piece : List α) {pieces : List (List α)}
    (h : pieces ≠ []) :
    sep.intercalate (piece :: pieces) = piece ++ sep ++ sep.intercalate pieces := by
  obtain ⟨next, rest, rfl⟩ := List.exists_cons_of_ne_nil h
  simp [List.intercalate]

theorem Splits.length_intercalate {s : List α} {pieces : List (List α)}
    (h : Splits old s pieces) (new : List α) :
    (new.intercalate pieces).length + (pieces.length - 1) * old.length =
      s.length + (pieces.length - 1) * new.length := by
  induction h with
  | last => simp [List.intercalate]
  | @cut pre post pieces _ hrest ih =>
      obtain ⟨k, hk⟩ := Nat.exists_eq_succ_of_ne_zero (Nat.ne_of_gt hrest.length_pos)
      rw [intercalate_cons_of_ne_nil _ _ hrest.ne_nil]
      simp only [List.length_append, List.length_cons, hk, Nat.succ_eq_add_one,
        Nat.add_sub_cancel] at ih ⊢
      rw [Nat.succ_mul, Nat.succ_mul]
      omega

theorem Splits.length_le {s : List α} {pieces : List (List α)} (hold : old ≠ [])
    (h : Splits old s pieces) : pieces.length ≤ s.length + 1 := by
  have hpos := List.length_pos_iff.mpr hold
  induction h with
  | last => simp
  | cut _ _ ih =>
      simp only [List.length_append, List.length_cons]
      omega

end Occurrences

end BlockyOS.Foundation
