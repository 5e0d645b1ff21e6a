import Mathlib.Algebra.Order.Group.Multiset
import Mathlib.Data.Multiset.Range
import Mathlib.Tactic.Abel

/-!
# Tables of numbered slots

A table is a list of slots.  Each slot belongs to a key and carries a number.
The numbers of a key form a multiset, and writing one slot exchanges one
number for another.  A key is dense when its numbers are `0, 1, .., n - 1`,
each carried once.
-/

namespace BlockyOS.Foundation

section Table

variable {β κ : Type} [DecidableEq κ] (key : β → κ) (num : β → Nat)

/-- The numbers carried by the slots of `k`. -/
def numbers (xs : List β) (k : κ) : Multiset Nat :=
  ((xs.filter fun x => key x = k).map num : List Nat)

/-- What one slot contributes to the numbers of `k`. -/
def share (x : β) (k : κ) : Multiset Nat := if key x = k then {num x} else 0

def Dense (xs : List β) (k : κ) : Prop :=
  numbers key num xs k = Multiset.range (xs.countP fun x => key x = k)

variable {key num}

theorem share_self (x : β) : share key num x (key x) = {num x} := if_pos rfl

theorem share_other {x : β} {k : κ} (h : key x ≠ k) : share key num x k = 0 := if_neg h

theorem numbers_cons (x : β) (xs : List β) (k : κ) :
    numbers key num (x :: xs) k = share key num x k + numbers key num xs k := by
  unfold numbers share
  by_cases h : key x = k
  · simp [h]
  · simp [h]

theorem card_numbers (xs : List β) (k : κ) :
    (numbers key num xs k).card = xs.countP fun x => key x = k := by
  simp [numbers, List.countP_eq_length_filter]

theorem mem_numbers {xs : List β} {k : κ} {i : Nat} :
    i ∈ numbers key num xs k ↔
      ∃ (s : Nat) (hs : s < xs.length), key xs[s] = k ∧ num xs[s] = i := by
  unfold numbers
  rw [Multiset.mem_coe, List.mem_map]
  constructor
  · rintro ⟨x, hx, rfl⟩
    obtain ⟨hmem, hkey⟩ := List.mem_filter.mp hx
    obtain ⟨s, hs, rfl⟩ := List.mem_iff_getElem.mp hmem
    exact ⟨s, hs, by simpa using hkey, rfl⟩
  · rintro ⟨s, hs, hkey, rfl⟩
    exact ⟨xs[s], List.mem_filter.mpr ⟨List.getElem_mem hs, by simpa using hkey⟩, rfl⟩

theorem nodup_numbers_iff {xs : List β} {k : κ} :
    (numbers key num xs k).Nodup ↔
      ∀ (s t : Nat) (hs : s < xs.length) (ht : t < xs.length),
        key xs[s] = k → key xs[t] = k → num xs[s] = num xs[t] → s = t := by
  unfold numbers
  rw [Multiset.coe_nodup, List.Nodup, List.pairwise_map, List.pairwise_filter,
    List.pairwise_iff_getElem]
  constructor
  · intro h s t hs ht hks hkt hnum
    rcases Nat.lt_trichotomy s t with hlt | heq | hgt
    · exact absurd hnum (h s t hs ht hlt (by simpa using hks) (by simpa using hkt))
    · exact heq
    · exact absurd hnum.symm (h t s ht hs hgt (by simpa using hkt) (by simpa using hks))
  · intro h s t hs ht hlt hks hkt hnum
    have := h s t hs ht (by simpa using hks) (by simpa using hkt) hnum
    omega

theorem numbers_set (xs : List β) {s : Nat} (hs : s < xs.length) (y : β) (k : κ) :
    numbers key num (xs.set s y) k + share key num xs[s] k =
      numbers key num xs k + share key num y k := by
  induction xs generalizing s with
  | nil => simp at hs
  | cons x xs ih =>
      cases s with
      | zero =>
          simp only [List.set_cons_zero, List.getElem_cons_zero, numbers_cons]
          abel
      | succ s =>
          have hrest := ih (s := s) (by simpa using hs)
          simp only [List.set_cons_succ, List.getElem_cons_succ, numbers_cons]
          rw [add_assoc, hrest, add_assoc]

theorem numbers_set_add {xs : List β} {s : Nat} (hs : s < xs.length) {y : β} {k : κ}
    (hold : key xs[s] ≠ k) (hnew : key y = k) :
    numbers key num (xs.set s y) k = num y ::ₘ numbers key num xs k := by
  have h := @numbers_set _ _ _ key num xs _ hs y k
  rw [share_other hold, add_zero] at h
  subst hnew
  rw [h, share_self, add_comm, Multiset.singleton_add]

theorem numbers_set_remove {xs : List β} {s : Nat} (hs : s < xs.length) {y : β} {k : κ}
    (hold : key xs[s] = k) (hnew : key y ≠ k) :
    num xs[s] ::ₘ numbers key num (xs.set s y) k = numbers key num xs k := by
  have h := @numbers_set _ _ _ key num xs _ hs y k
  subst hold
  rw [share_other hnew, share_self, add_zero] at h
  rw [← h, add_comm, Multiset.singleton_add]

theorem numbers_set_other {xs : List β} {s : Nat} (hs : s < xs.length) {y : β} {k : κ}
    (hold : key xs[s] ≠ k) (hnew : key y ≠ k) :
    numbers key num (xs.set s y) k = numbers key num xs k := by
  have h := @numbers_set _ _ _ key num xs _ hs y k
  rwa [share_other hold, share_other hnew, add_zero, add_zero] at h

/-! ## Dense keys -/

theorem dense_iff {xs : List β} {k : κ} :
    Dense key num xs k ↔
      numbers key num xs k = Multiset.range (numbers key num xs k).card := by
  rw [Dense, card_numbers]

theorem Dense.nodup {xs : List β} {k : κ} (h : Dense key num xs k) :
    (numbers key num xs k).Nodup := by
  rw [dense_iff] at h
  rw [h]
  exact Multiset.nodup_range _

theorem Dense.mem_iff {xs : List β} {k : κ} (h : Dense key num xs k) (i : Nat) :
    i ∈ numbers key num xs k ↔ i < xs.countP fun x => key x = k := by
  unfold Dense at h
  rw [h, Multiset.mem_range]

theorem dense_of_segment {xs : List β} {k : κ} {n : Nat}
    (hnodup : (numbers key num xs k).Nodup)
    (hmem : ∀ i, i ∈ numbers key num xs k ↔ i < n) : Dense key num xs k := by
  have hrange : numbers key num xs k = Multiset.range n := by
    apply (Multiset.Nodup.ext hnodup (Multiset.nodup_range n)).mpr
    intro i
    rw [hmem, Multiset.mem_range]
  rw [dense_iff, hrange, Multiset.card_range]

theorem dense_of_nil {xs : List β} {k : κ} (h : ∀ x ∈ xs, key x ≠ k) :
    Dense key num xs k := by
  have hfilter : xs.filter (fun x => key x = k) = [] := by
    simpa [List.filter_eq_nil_iff] using h
  simp [dense_iff, numbers, hfilter]

theorem Dense.set_next {xs : List β} {s : Nat} (hs : s < xs.length) {y : β} {k : κ}
    (h : Dense key num xs k) (hold : key xs[s] ≠ k) (hnew : key y = k)
    (hnum : num y = xs.countP fun x => key x = k) :
    Dense key num (xs.set s y) k := by
  rw [dense_iff, numbers_set_add hs hold hnew, Multiset.card_cons, card_numbers, hnum,
    Multiset.range_succ]
  congr 1

theorem Dense.set_other {xs : List β} {s : Nat} (hs : s < xs.length) {y : β} {k : κ}
    (h : Dense key num xs k) (hold : key xs[s] ≠ k) (hnew : key y ≠ k) :
    Dense key num (xs.set s y) k := by
  rw [dense_iff] at h ⊢
  rwa [numbers_set_other hs hold hnew]

theorem dense_set_remove_zero_iff {xs : List β} {s : Nat} (hs : s < xs.length) {y : β}
    {k : κ} (h : Dense key num xs k) (hold : key xs[s] = k) (hzero : num xs[s] = 0)
    (hnew : key y ≠ k) :
    Dense key num (xs.set s y) k ↔ (xs.countP fun x => key x = k) ≤ 1 := by
  have hremove := @numbers_set_remove _ _ _ _ num _ _ hs _ _ hold hnew
  have hcard := congrArg Multiset.card hremove
  rw [Multiset.card_cons, card_numbers, card_numbers] at hcard
  constructor
  · intro hdense
    by_contra hmany
    -- 0 would have to be carried once more
    have hagain : 0 ∈ numbers key num (xs.set s y) k := (hdense.mem_iff 0).mpr (by omega)
    have htwice : ¬ (0 ::ₘ numbers key num (xs.set s y) k).Nodup := by
      simp [hagain]
    rw [hzero] at hremove
    exact htwice (hremove ▸ h.nodup)
  · intro hfew
    have hempty : numbers key num (xs.set s y) k = 0 := by
      rw [← Multiset.card_eq_zero, card_numbers]
      omega
    rw [dense_iff, hempty]
    rfl

theorem Dense.set_move {xs : List β} {s t : Nat} {y z : β} {k : κ}
    (h : Dense key num xs k) (hs : s < xs.length) (hold : key xs[s] = k) (hnew : key y ≠ k)
    (ht : t < (xs.set s y).length) (hold' : key (xs.set s y)[t] ≠ k) (hnew' : key z = k)
    (hnum : num z = num xs[s]) : Dense key num ((xs.set s y).set t z) k := by
  have hmove : numbers key num ((xs.set s y).set t z) k = numbers key num xs k := by
    rw [numbers_set_add ht hold' hnew', hnum, numbers_set_remove hs hold hnew]
  rw [dense_iff] at h ⊢
  rwa [hmove]

/-! ## The first number that is missing -/

theorem exists_le_card_notMem (numbers : Multiset Nat) :
    ∃ i ≤ numbers.card, i ∉ numbers := by
  by_contra hall
  push Not at hall
  have hle : Multiset.range (numbers.card + 1) ≤ numbers := by
    rw [Multiset.le_iff_subset (Multiset.nodup_range _)]
    intro i hi
    exact hall i (by rw [Multiset.mem_range] at hi; omega)
  have hcard := Multiset.card_le_card hle
  rw [Multiset.card_range] at hcard
  omega

theorem dense_iff_card {xs : List β} {k : κ} {n : Nat}
    (hfilled : ∀ i, i < n → i ∈ numbers key num xs k) (hmissing : n ∉ numbers key num xs k) :
    Dense key num xs k ↔ (xs.countP fun x => key x = k) = n := by
  constructor
  · intro h
    have hmem := h.mem_iff
    have hlow : ¬ n < xs.countP fun x => key x = k := by rwa [← hmem]
    rcases Nat.lt_or_ge (xs.countP fun x => key x = k) n with hlt | hge
    · have hself := (hmem _).mp (hfilled _ hlt)
      omega
    · omega
  · intro hcount
    have hle : Multiset.range n ≤ numbers key num xs k := by
      rw [Multiset.le_iff_subset (Multiset.nodup_range _)]
      intro i hi
      exact hfilled i (Multiset.mem_range.mp hi)
    have heq : Multiset.range n = numbers key num xs k := by
      apply Multiset.eq_of_le_of_card_le hle
      rw [card_numbers, hcount, Multiset.card_range]
    rw [Dense, hcount, heq]

end Table

end BlockyOS.Foundation
