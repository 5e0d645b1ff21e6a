import Mathlib.Data.Fintype.Pigeonhole
import Mathlib.Data.Set.Finite.Basic
import Mathlib.Logic.Relation

/-!
# Trails of a deterministic search

One activation of a search either answers or moves on to one next place.  The
trail from a place is what the search visits; it ends with the answer, or on
finitely many places it runs into a cycle.
-/

namespace BlockyOS.Foundation

open Relation

section Trails

variable {α β : Type} (next : α → α ⊕ β)

/-- Follow the trail for at most `fuel` activations. -/
def follow : Nat → α → Option β
  | 0, _ => none
  | fuel + 1, a =>
      match next a with
      | .inl a' => follow fuel a'
      | .inr b => some b

def Moves (a a' : α) : Prop := next a = .inl a'

/-- The places the search visits. -/
def Trail : α → α → Prop := ReflTransGen (Moves next)

variable {next}

theorem follow_of_moves {a a' : α} (h : Moves next a a') (fuel : Nat) :
    follow next (fuel + 1) a = follow next fuel a' := by
  rw [follow, show next a = .inl a' from h]

theorem exists_follow_of_moves {a a' : α} (h : Moves next a a') {P : β → Prop} :
    (∃ fuel b, follow next fuel a = some b ∧ P b) ↔
      ∃ fuel b, follow next fuel a' = some b ∧ P b := by
  constructor
  · rintro ⟨fuel, b, hfollow, hb⟩
    cases fuel with
    | zero => cases hfollow
    | succ fuel => exact ⟨fuel, b, (follow_of_moves h fuel).symm.trans hfollow, hb⟩
  · rintro ⟨fuel, b, hfollow, hb⟩
    exact ⟨fuel + 1, b, (follow_of_moves h fuel).trans hfollow, hb⟩

theorem follow_of_answer {a : α} {b : β} (h : next a = .inr b) (fuel : Nat) :
    follow next (fuel + 1) a = some b := by
  rw [follow, h]

theorem follow_eq_some_iff {a : α} {b : β} :
    (∃ fuel, follow next fuel a = some b) ↔ ∃ c, Trail next a c ∧ next c = .inr b := by
  constructor
  · rintro ⟨fuel, hfuel⟩
    induction fuel generalizing a with
    | zero => cases hfuel
    | succ fuel ih =>
        cases hnext : next a with
        | inl a' =>
            rw [follow_of_moves hnext] at hfuel
            obtain ⟨c, htrail, hanswer⟩ := ih hfuel
            exact ⟨c, .head hnext htrail, hanswer⟩
        | inr b' =>
            rw [follow_of_answer hnext] at hfuel
            exact ⟨a, .refl, hnext.trans (congrArg Sum.inr (Option.some.inj hfuel))⟩
  · rintro ⟨c, htrail, hanswer⟩
    induction htrail using ReflTransGen.head_induction_on with
    | refl => exact ⟨1, follow_of_answer hanswer 0⟩
    | head hmove _ ih =>
        obtain ⟨fuel, hfuel⟩ := ih
        exact ⟨fuel + 1, (follow_of_moves hmove fuel).trans hfuel⟩

theorem trail_invariant {P : α → Prop} (hkeep : ∀ a a', P a → Moves next a a' → P a') {a c : α}
    (ha : P a) (htrail : Trail next a c) : P c := by
  induction htrail with
  | refl => exact ha
  | tail _ hmove ih => exact hkeep _ _ ih hmove

theorem follow_unique {a : α} {b b' : β} {fuel fuel' : Nat}
    (h : follow next fuel a = some b) (h' : follow next fuel' a = some b') : b = b' := by
  induction fuel generalizing a fuel' with
  | zero => cases h
  | succ fuel ih =>
      cases fuel' with
      | zero => cases h'
      | succ fuel' =>
          cases hnext : next a with
          | inl a' =>
              rw [follow_of_moves hnext] at h h'
              exact ih h h'
          | inr b'' =>
              rw [follow_of_answer hnext] at h h'
              exact Option.some.inj (h.symm.trans h')

theorem follow_mono {a : α} {b : β} {fuel fuel' : Nat} (h : follow next fuel a = some b)
    (hle : fuel ≤ fuel') : follow next fuel' a = some b := by
  induction fuel generalizing a fuel' with
  | zero => cases h
  | succ fuel ih =>
      obtain ⟨fuel', rfl⟩ := Nat.exists_eq_add_of_le' (Nat.le_trans (Nat.le_add_left 1 fuel) hle)
      cases hnext : next a with
      | inl a' =>
          rw [follow_of_moves hnext] at h ⊢
          exact ih h (Nat.le_of_succ_le_succ hle)
      | inr b' =>
          rw [follow_of_answer hnext] at h ⊢
          exact h

theorem follow_along {a c : α} {b : β} {fuel : Nat} (htrail : Trail next a c)
    (h : follow next fuel a = some b) : ∃ fuel', follow next fuel' c = some b := by
  induction htrail using ReflTransGen.head_induction_on generalizing fuel with
  | refl => exact ⟨fuel, h⟩
  | head hmove _ ih =>
      cases fuel with
      | zero => cases h
      | succ fuel => exact ih ((follow_of_moves hmove fuel).symm.trans h)

theorem ends_of_measure {P : α → Prop} {good : β → Prop} (measure : α → Nat)
    (hstep : ∀ a, P a → (∃ a', next a = .inl a' ∧ P a' ∧ measure a' < measure a) ∨
      ∃ b, next a = .inr b ∧ good b)
    {a : α} (ha : P a) : ∃ fuel b, follow next fuel a = some b ∧ good b := by
  generalize hn : measure a = n
  induction n using Nat.strong_induction_on generalizing a with
  | h n ih =>
      rcases hstep a ha with ⟨a', hmove, ha', hlt⟩ | ⟨b, hanswer, hb⟩
      · obtain ⟨fuel, b, hfuel, hb⟩ := ih _ (hn ▸ hlt) ha' rfl
        exact ⟨fuel + 1, b, (follow_of_moves hmove fuel).trans hfuel, hb⟩
      · exact ⟨1, b, follow_of_answer hanswer 0, hb⟩

theorem answer_of_invariant {P : α → Prop} {good : β → Prop}
    (hstep : ∀ a, P a → (∃ a', next a = .inl a' ∧ P a') ∨ ∃ b, next a = .inr b ∧ good b)
    {a : α} (ha : P a) {fuel : Nat} {b : β} (h : follow next fuel a = some b) : good b := by
  induction fuel generalizing a with
  | zero => cases h
  | succ fuel ih =>
      rcases hstep a ha with ⟨a', hmove, ha'⟩ | ⟨b', hanswer, hb'⟩
      · rw [follow_of_moves hmove] at h
        exact ih ha' h
      · rw [follow_of_answer hanswer] at h
        exact Option.some.inj h ▸ hb'

theorem follow_eq_none_of_invariant {P : α → Prop}
    (hmove : ∀ a, P a → ∃ a', next a = .inl a' ∧ P a') {a : α} (ha : P a) (fuel : Nat) :
    follow next fuel a = none := by
  cases hfollow : follow next fuel a with
  | none => rfl
  | some b =>
      exact (@answer_of_invariant _ _ _ P (fun _ => False) (fun a ha => .inl (hmove a ha)) _ ha
        _ _ hfollow).elim

theorem follow_of_cycle {a : α} (h : TransGen (Moves next) a a) (fuel : Nat) :
    follow next fuel a = none := by
  induction fuel generalizing a with
  | zero => rfl
  | succ fuel ih =>
      obtain ⟨a', hmove, hback⟩ := TransGen.head'_iff.mp h
      rw [follow_of_moves hmove]
      exact ih (TransGen.tail' hback hmove)

theorem follow_of_trail {a c : α} (htrail : Trail next a c)
    (hnone : ∀ fuel, follow next fuel c = none) (fuel : Nat) :
    follow next fuel a = none := by
  induction htrail using ReflTransGen.head_induction_on generalizing fuel with
  | refl => exact hnone fuel
  | head hmove _ ih =>
      cases fuel with
      | zero => rfl
      | succ fuel => exact (follow_of_moves hmove fuel).trans (ih fuel)

theorem exists_walk {a : α} (h : ∀ c, Trail next a c → ∃ c', Moves next c c') :
    ∃ walk : Nat → α, ∀ n, Trail next a (walk n) ∧ Moves next (walk n) (walk (n + 1)) := by
  choose move hmove using h
  let step : { c // Trail next a c } → { c // Trail next a c } := fun c =>
    ⟨move c.1 c.2, ReflTransGen.tail c.2 (hmove c.1 c.2)⟩
  refine ⟨fun n => (Nat.rec ⟨a, .refl⟩ (fun _ => step) n : { c // Trail next a c }).1,
    fun n => ⟨Subtype.property _, hmove _ _⟩⟩

theorem transGen_of_walk {walk : Nat → α} (hwalk : ∀ n, Moves next (walk n) (walk (n + 1)))
    {i j : Nat} (hij : i < j) : TransGen (Moves next) (walk i) (walk j) := by
  induction j, hij using Nat.le_induction with
  | base => exact .single (hwalk i)
  | succ j _ ih => exact ih.tail (hwalk j)

theorem ends_iff_acyclic {a : α} {places : Set α} (hfinite : places.Finite)
    (hplaces : ∀ c, Trail next a c → c ∈ places) :
    (∃ fuel b, follow next fuel a = some b) ↔
      ∀ c, Trail next a c → ¬ TransGen (Moves next) c c := by
  constructor
  · rintro ⟨fuel, b, hfuel⟩ c htrail hcycle
    rw [follow_of_trail htrail (follow_of_cycle hcycle) fuel] at hfuel
    cases hfuel
  · intro hacyclic
    by_contra hnever
    have hmoves : ∀ c, Trail next a c → ∃ c', Moves next c c' := by
      intro c htrail
      cases hnext : next c with
      | inl c' => exact ⟨c', hnext⟩
      | inr b =>
          obtain ⟨fuel, hfuel⟩ := follow_eq_some_iff.mpr ⟨c, htrail, hnext⟩
          exact absurd ⟨fuel, b, hfuel⟩ hnever
    obtain ⟨walk, hwalk⟩ := exists_walk hmoves
    have := hfinite.to_subtype
    -- an endless walk over finitely many places visits one of them twice
    obtain ⟨i, j, hne, heq⟩ := Finite.exists_ne_map_eq_of_infinite
      fun n => (⟨walk n, hplaces _ (hwalk n).1⟩ : places)
    have hsame : walk i = walk j := congrArg Subtype.val heq
    rcases Nat.lt_or_gt_of_ne hne with hij | hji
    · have hloop := transGen_of_walk (fun n => (hwalk n).2) hij
      rw [← hsame] at hloop
      exact hacyclic _ (hwalk i).1 hloop
    · have hloop := transGen_of_walk (fun n => (hwalk n).2) hji
      rw [hsame] at hloop
      exact hacyclic _ (hwalk j).1 hloop

end Trails

end BlockyOS.Foundation
