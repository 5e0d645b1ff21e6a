import Mathlib.Algebra.BigOperators.Ring.List
import Mathlib.Algebra.Field.ZMod
import Mathlib.GroupTheory.OrderOfElement

/-!
# Multiplicative congruential generators

The state is multiplied by a fixed number modulo a prime.  It comes back after as
many turns as the order of the multiplier, and not before.
-/

namespace BlockyOS.Foundation

def multiplied (k p x : Nat) : Nat := k * x % p

variable {k p x : Nat}

theorem iterate_multiplied_lt (hx : x < p) (n : Nat) : (multiplied k p)^[n] x < p := by
  induction n generalizing x with
  | zero => exact hx
  | succ n ih =>
      rw [Function.iterate_succ_apply]
      exact ih (Nat.mod_lt _ (by omega))

theorem cast_iterate_multiplied (n x : Nat) :
    (((multiplied k p)^[n] x : Nat) : ZMod p) = (k : ZMod p) ^ n * x := by
  induction n generalizing x with
  | zero => rw [Function.iterate_zero_apply, pow_zero, one_mul]
  | succ n ih =>
      rw [Function.iterate_succ_apply, ih, multiplied, ZMod.natCast_mod, Nat.cast_mul, pow_succ,
        mul_assoc]

section Prime

variable [Fact p.Prime]

theorem cast_ne_zero (hx : 0 < x) (hlt : x < p) : (x : ZMod p) ≠ 0 := by
  rw [Ne, ZMod.natCast_eq_zero_iff]
  exact Nat.not_dvd_of_pos_of_lt hx hlt

theorem iterate_multiplied_eq_self_iff (hx : 0 < x) (hlt : x < p) (n : Nat) :
    (multiplied k p)^[n] x = x ↔ orderOf (k : ZMod p) ∣ n := by
  have hne := cast_ne_zero hx hlt
  rw [orderOf_dvd_iff_pow_eq_one]
  constructor
  · intro h
    have hcast := cast_iterate_multiplied (k := k) (p := p) n x
    rw [h] at hcast
    exact mul_right_cancel₀ hne (by rw [one_mul, ← hcast])
  · intro h
    have hcast := cast_iterate_multiplied (k := k) (p := p) n x
    rw [h, one_mul, ZMod.natCast_eq_natCast_iff', Nat.mod_eq_of_lt (iterate_multiplied_lt hlt n),
      Nat.mod_eq_of_lt hlt] at hcast
    exact hcast

theorem iterate_multiplied_pos (hk : (k : ZMod p) ≠ 0) (hx : 0 < x) (hlt : x < p) (n : Nat) :
    0 < (multiplied k p)^[n] x := by
  rw [Nat.pos_iff_ne_zero]
  intro h
  have hcast := cast_iterate_multiplied (k := k) (p := p) n x
  rw [h, Nat.cast_zero] at hcast
  exact mul_ne_zero (pow_ne_zero n hk) (cast_ne_zero hx hlt) hcast.symm

end Prime

theorem orderOf_natCast_eq (qs : List Nat) (hp : 1 < p) (hprime : ∀ q ∈ qs, q.Prime)
    (hone : k ^ qs.prod % p = 1) (hne : ∀ q ∈ qs, k ^ (qs.prod / q) % p ≠ 1) :
    orderOf (k : ZMod p) = qs.prod := by
  have hcast : ∀ e, (k : ZMod p) ^ e = 1 ↔ k ^ e % p = 1 := by
    intro e
    rw [← Nat.cast_pow, ← Nat.cast_one, ZMod.natCast_eq_natCast_iff', Nat.mod_eq_of_lt hp]
  apply orderOf_eq_of_pow_and_pow_div_prime
  · exact Nat.pos_of_ne_zero (List.prod_ne_zero fun h => Nat.not_prime_zero (hprime 0 h))
  · exact (hcast _).mpr hone
  · intro q hq hdvd
    obtain ⟨r, hr, hqr⟩ := (Nat.Prime.prime hq).dvd_prod_iff.mp hdvd
    obtain rfl := (Nat.prime_dvd_prime_iff_eq hq (hprime r hr)).mp hqr
    exact mt (hcast _).mp (hne q hr)

end BlockyOS.Foundation
