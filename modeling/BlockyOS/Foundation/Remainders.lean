import Mathlib.Data.Int.CardIntervalMod

/-!
# Remainders without bias

Of the numbers below a bound the last ones are rejected, so many that those that
are left come in full periods.  Each remainder then occurs equally often.
-/

namespace BlockyOS.Foundation

section Remainders

variable {bound period : Nat}

theorem card_remainder {d : Nat} (hd : d < period) :
    ((Finset.range (bound - bound % period)).filter fun x => x % period = d).card =
      bound / period := by
  have hlimit : bound - bound % period = period * (bound / period) := by
    rw [Nat.sub_eq_of_eq_add (Nat.div_add_mod bound period).symm]
  have hcount := Nat.count_modEq_card (bound - bound % period) (Nat.zero_lt_of_lt hd) d
  rw [Nat.count_eq_card_filter_range, hlimit, Nat.mul_mod_right,
    Nat.mul_div_cancel_left _ (Nat.zero_lt_of_lt hd), if_neg (Nat.not_lt_zero _),
    Nat.add_zero] at hcount
  rw [hlimit]
  refine (congrArg Finset.card (Finset.filter_congr fun x _ => ?_)).trans hcount
  rw [Nat.ModEq, Nat.mod_eq_of_lt hd]

theorem sub_mod_pos (hperiod : 0 < period) (hle : period ≤ bound) : 0 < bound - bound % period :=
  Nat.sub_pos_of_lt (Nat.lt_of_lt_of_le (Nat.mod_lt bound hperiod) hle)

end Remainders

end BlockyOS.Foundation
