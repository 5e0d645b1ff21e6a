import Mathlib.Data.Nat.Basic
import Mathlib.Tactic.Ring

/-!
# Unsigned machine words

Unsigned arithmetic on naturals, reduced to the width of the word that holds
the result.
-/

namespace BlockyOS.Foundation

def u32 (n : Nat) : Nat := n % 2 ^ 32

def u64 (n : Nat) : Nat := n % 2 ^ 64

theorem u32_of_lt {n : Nat} (h : n < 2 ^ 32) : u32 n = n := Nat.mod_eq_of_lt h

theorem u64_of_lt {n : Nat} (h : n < 2 ^ 64) : u64 n = n := Nat.mod_eq_of_lt h

theorem u32_lt (n : Nat) : u32 n < 2 ^ 32 := Nat.mod_lt _ (by decide)

theorem u64_lt (n : Nat) : u64 n < 2 ^ 64 := Nat.mod_lt _ (by decide)

theorem u32_le (n : Nat) : u32 n ≤ n := Nat.mod_le _ _

/-- The wrapped difference `a - b` of two 32-bit words. -/
def u32sub (a b : Nat) : Nat := u32 (a + 2 ^ 32 - u32 b)

/-- The wrapped difference `a - b` of two 64-bit words. -/
def u64sub (a b : Nat) : Nat := u64 (a + 2 ^ 64 - u64 b)

theorem u64sub_of_le {a b : Nat} (ha : a < 2 ^ 64) (hb : b ≤ a) :
    u64sub a b = a - b := by
  have hb' : u64 b = b := u64_of_lt (by omega)
  unfold u64sub
  rw [hb']
  unfold u64
  omega

end BlockyOS.Foundation
