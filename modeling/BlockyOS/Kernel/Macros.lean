import BlockyOS.Foundation.Roundings
import BlockyOS.Foundation.Words

/-!
# The macros of `math.h`

Rounding of 64-bit words and the operations on flags.
-/

namespace BlockyOS.Kernel

open BlockyOS.Foundation

/-- The `__roundup` macro on 64-bit words. -/
def roundup (a i : Nat) : Nat := u64 (u64 (a + (i - 1)) / i * i)

section Rounding

variable {a i : Nat} (hsum : a + (i - 1) < 2 ^ 64) (hi : 0 < i)

include hsum

theorem roundup_of_sum_lt : roundup a i = (a + (i - 1)) / i * i := by
  have hle : (a + (i - 1)) / i * i ≤ a + (i - 1) := Nat.div_mul_le_self _ _
  rw [roundup, u64_of_lt hsum, u64_of_lt (by omega)]

include hi

theorem roundsUp_roundup : RoundsUp i a (roundup a i) :=
  roundup_of_sum_lt hsum ▸ roundsUp_div_mul hi a

theorem roundup_of_dvd (hdvd : i ∣ a) : roundup a i = a :=
  IsLeast.unique (roundsUp_roundup hsum hi) (roundsUpIn_of_mem hdvd)

theorem roundup_lt : roundup a i < a + i := by
  have hle : (a + (i - 1)) / i * i ≤ a + (i - 1) := Nat.div_mul_le_self _ _
  rw [roundup_of_sum_lt hsum]
  omega

end Rounding

/-! ## Flags -/

/-- The `__set` macro: `a &= f`. -/
def flagSet (a f : BitVec 32) : BitVec 32 := a &&& f

/-- The `__uset` macro: `a &= ~f`. -/
def flagUnset (a f : BitVec 32) : BitVec 32 := a &&& ~~~f

/-- The `__check` macro. -/
def flagCheck (a f : BitVec 32) : Bool := a &&& f == f

@[simp] theorem flagSet_zero (f : BitVec 32) : flagSet 0 f = 0 := BitVec.zero_and

@[simp] theorem flagUnset_zero (f : BitVec 32) : flagUnset 0 f = 0 := BitVec.zero_and

theorem flagCheck_zero (f : BitVec 32) : flagCheck 0 f = decide (f = 0) := by
  have hand : (0 : BitVec 32) &&& f = 0 := BitVec.zero_and
  rw [flagCheck, hand]
  exact decide_eq_decide.mpr eq_comm

end BlockyOS.Kernel
