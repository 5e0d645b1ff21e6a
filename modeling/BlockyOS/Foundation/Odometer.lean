import Mathlib.Data.List.Nodup
import Mathlib.Data.Nat.Digits.Defs
import Mathlib.Data.Nat.ModEq
import Mathlib.Logic.Function.Iterate

/-!
# Odometers

A counter whose digits lie lowest first.  One tick moves the first digit on, and
the next one whenever a digit wraps to zero.
-/

namespace BlockyOS.Foundation

def tick (b : Nat) : List Nat → List Nat
  | [] => []
  | d :: ds => if (d + 1) % b = 0 then 0 :: tick b ds else (d + 1) % b :: ds

/-- A counter of `n` digits in base `b`. -/
structure Reading (b n : Nat) (ds : List Nat) : Prop where
  length : ds.length = n
  lt : ∀ d ∈ ds, d < b

section Ticks

variable {b n : Nat} {ds es : List Nat}

theorem length_tick (b : Nat) (ds : List Nat) : (tick b ds).length = ds.length := by
  induction ds with
  | nil => rfl
  | cons d ds ih =>
      rw [tick]
      split
      · rw [List.length_cons, List.length_cons, ih]
      · rfl

theorem tick_lt (hb : 1 < b) (h : ∀ d ∈ ds, d < b) : ∀ d ∈ tick b ds, d < b := by
  induction ds with
  | nil => exact h
  | cons d ds ih =>
      obtain ⟨hd, hds⟩ := List.forall_mem_cons.mp h
      rw [tick]
      split
      · exact List.forall_mem_cons.mpr ⟨Nat.zero_lt_of_lt hb, ih hds⟩
      · exact List.forall_mem_cons.mpr ⟨Nat.mod_lt _ (Nat.zero_lt_of_lt hb), hds⟩

theorem Reading.tick (hb : 1 < b) (h : Reading b n ds) : Reading b n (tick b ds) :=
  ⟨(length_tick b ds).trans h.length, tick_lt hb h.lt⟩

theorem Reading.iterate (hb : 1 < b) (h : Reading b n ds) (k : Nat) :
    Reading b n ((Foundation.tick b)^[k] ds) := by
  induction k with
  | zero => exact h
  | succ k ih =>
      rw [Function.iterate_succ_apply']
      exact ih.tick hb

theorem Reading.value_lt (hb : 1 < b) (h : Reading b n ds) : Nat.ofDigits b ds < b ^ n := by
  rw [← h.length]
  exact Nat.ofDigits_lt_base_pow_length hb h.lt

theorem Reading.eq_of_value (hb : 1 < b) (h : Reading b n ds) (h' : Reading b n es)
    (hvalue : Nat.ofDigits b ds = Nat.ofDigits b es) : ds = es :=
  Nat.ofDigits_inj_of_len_eq hb (h.length.trans h'.length.symm) h.lt h'.lt hvalue

/-- A tick adds one to the value, which wraps with the last digit. -/
theorem value_tick (hb : 1 < b) (h : ∀ d ∈ ds, d < b) :
    Nat.ofDigits b (tick b ds) = (Nat.ofDigits b ds + 1) % b ^ ds.length := by
  induction ds with
  | nil => exact (Nat.mod_one _).symm
  | cons d ds ih =>
      obtain ⟨hd, hds⟩ := List.forall_mem_cons.mp h
      rw [tick, Nat.ofDigits_cons, List.length_cons]
      rcases Nat.lt_or_eq_of_le (Nat.succ_le_of_lt hd) with hlt | hwrap
      · -- No carry: the value stays below the next power.
        have hmod : (d + 1) % b = d + 1 := Nat.mod_eq_of_lt hlt
        have hbound : Nat.ofDigits b ((d + 1) :: ds) < b ^ (ds.length + 1) :=
          Nat.ofDigits_lt_base_pow_length hb (List.forall_mem_cons.mpr ⟨hlt, hds⟩)
        rw [Nat.ofDigits_cons] at hbound
        rw [hmod, if_neg (Nat.succ_ne_zero d), Nat.ofDigits_cons,
          Nat.add_right_comm d (b * Nat.ofDigits b ds), Nat.mod_eq_of_lt hbound]
      · have hmod : (d + 1) % b = 0 := by
          rw [← Nat.succ_eq_add_one, hwrap, Nat.mod_self]
        have hsum : d + b * Nat.ofDigits b ds + 1 = b * (Nat.ofDigits b ds + 1) := by
          rw [Nat.mul_add, Nat.mul_one]
          omega
        rw [if_pos hmod, Nat.ofDigits_cons, ih hds, Nat.zero_add, hsum, Nat.pow_succ',
          Nat.mul_mod_mul_left]

theorem Reading.value_iterate (hb : 1 < b) (h : Reading b n ds) (k : Nat) :
    Nat.ofDigits b ((Foundation.tick b)^[k] ds) = (Nat.ofDigits b ds + k) % b ^ n := by
  induction k with
  | zero => exact (Nat.mod_eq_of_lt (h.value_lt hb)).symm
  | succ k ih =>
      have hreading := h.iterate hb k
      rw [Function.iterate_succ_apply', value_tick hb hreading.lt, hreading.length, ih,
        Nat.mod_add_mod, Nat.add_assoc]

/-! ## One full turn -/

def fullTurn (b n : Nat) (ds : List Nat) : List (List Nat) :=
  (List.range (b ^ n)).map fun k => (tick b)^[k] ds

theorem Reading.nodup_fullTurn (hb : 1 < b) (h : Reading b n ds) : (fullTurn b n ds).Nodup := by
  refine List.Nodup.map_on ?_ List.nodup_range
  intro i hi j hj heq
  have hvalue := congrArg (Nat.ofDigits b) heq
  rw [h.value_iterate hb, h.value_iterate hb] at hvalue
  have hmod : i % b ^ n = j % b ^ n := Nat.ModEq.add_left_cancel' _ hvalue
  rwa [Nat.mod_eq_of_lt (List.mem_range.mp hi), Nat.mod_eq_of_lt (List.mem_range.mp hj)]
    at hmod

theorem Reading.mem_fullTurn (hb : 1 < b) (h : Reading b n ds) (h' : Reading b n es) :
    es ∈ fullTurn b n ds := by
  have hv := h.value_lt hb
  have hw := h'.value_lt hb
  refine List.mem_map.mpr
    ⟨(Nat.ofDigits b es + (b ^ n - Nat.ofDigits b ds)) % b ^ n,
      List.mem_range.mpr (Nat.mod_lt _ (Nat.zero_lt_of_lt hv)), ?_⟩
  refine (h.iterate hb _).eq_of_value hb h' ?_
  have hsum : Nat.ofDigits b ds + (Nat.ofDigits b es + (b ^ n - Nat.ofDigits b ds)) =
      Nat.ofDigits b es + b ^ n := by omega
  rw [h.value_iterate hb, Nat.add_mod_mod, hsum, Nat.add_mod_right, Nat.mod_eq_of_lt hw]

end Ticks

end BlockyOS.Foundation
