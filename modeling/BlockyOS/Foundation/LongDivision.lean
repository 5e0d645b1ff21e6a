import Mathlib.Tactic.Ring

/-!
# Binary long division

Subtract the divisor where it fits and double, one turn for each binary place;
and double until a bound is reached.
-/

namespace BlockyOS.Foundation

/-! ## Remainders -/

section Remainder

variable (b : Nat)

def subtractOnce (a : Nat) : Nat := if b ≤ a then a - b else a

/-- `n` places of the division of `a` by `b`. -/
def longDivision : Nat → Nat → Nat
  | 0, a => a
  | n + 1, a => longDivision n (2 * subtractOnce b a)

variable {b}

theorem subtractOnce_lt {a : Nat} (ha : a < 2 * b) : subtractOnce b a < b := by
  unfold subtractOnce
  split <;> omega

theorem subtractOnce_mod (a : Nat) : subtractOnce b a % b = a % b := by
  unfold subtractOnce
  split
  case isTrue hle => exact (Nat.mod_eq_sub_mod hle).symm
  case isFalse => rfl

theorem longDivision_lt (n : Nat) {a : Nat} (ha : a < 2 * b) : longDivision b n a < 2 * b := by
  induction n generalizing a with
  | zero => exact ha
  | succ n ih =>
      have hlt := subtractOnce_lt ha
      exact ih (by omega)

theorem longDivision_mod (n a : Nat) : longDivision b n a % b = a * 2 ^ n % b := by
  induction n generalizing a with
  | zero => rw [longDivision, Nat.pow_zero, Nat.mul_one]
  | succ n ih =>
      rw [longDivision, ih, Nat.pow_succ, Nat.mul_comm 2, Nat.mul_assoc, Nat.mul_comm 2,
        Nat.mul_mod, subtractOnce_mod, ← Nat.mul_mod]

theorem subtractOnce_longDivision (n : Nat) {a : Nat} (ha : a < 2 * b) :
    subtractOnce b (longDivision b n a) = a * 2 ^ n % b := by
  rw [← longDivision_mod, ← subtractOnce_mod,
    Nat.mod_eq_of_lt (subtractOnce_lt (longDivision_lt n ha))]

end Remainder

/-! ## Doubling up to a bound -/

section Doubling

variable (bound : Nat)

/-- The number doubled until it reaches the bound, and how often; `fuel` bounds that. -/
def doubleUpTo : Nat → Nat → Nat × Nat
  | 0, a => (a, 0)
  | fuel + 1, a =>
      if a < bound then ((doubleUpTo fuel (2 * a)).1, (doubleUpTo fuel (2 * a)).2 + 1) else (a, 0)

variable {bound}

theorem doubleUpTo_eq (bound fuel a : Nat) :
    (doubleUpTo bound fuel a).1 = a * 2 ^ (doubleUpTo bound fuel a).2 := by
  induction fuel generalizing a with
  | zero => rw [doubleUpTo, Nat.pow_zero, Nat.mul_one]
  | succ fuel ih =>
      rw [doubleUpTo]
      split
      case isTrue =>
        rw [ih, Nat.pow_succ]
        ring
      case isFalse => rw [Nat.pow_zero, Nat.mul_one]

theorem doubleUpTo_lt (fuel : Nat) {a : Nat} (ha : a < 2 * bound) :
    (doubleUpTo bound fuel a).1 < 2 * bound := by
  induction fuel generalizing a with
  | zero => exact ha
  | succ fuel ih =>
      rw [doubleUpTo]
      split
      case isTrue hlt => exact ih (by omega)
      case isFalse => exact ha

theorem le_doubleUpTo {fuel a : Nat} (h : bound ≤ a * 2 ^ fuel) :
    bound ≤ (doubleUpTo bound fuel a).1 := by
  induction fuel generalizing a with
  | zero => rwa [Nat.pow_zero, Nat.mul_one] at h
  | succ fuel ih =>
      rw [doubleUpTo]
      split
      case isTrue =>
        apply ih
        rw [Nat.pow_succ] at h
        calc bound ≤ a * (2 ^ fuel * 2) := h
          _ = 2 * a * 2 ^ fuel := by ring
      case isFalse hle => exact Nat.le_of_not_lt hle

end Doubling

end BlockyOS.Foundation
