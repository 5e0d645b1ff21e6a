import Mathlib.Tactic.Linarith
import Mathlib.Tactic.Ring
import Mathlib.Tactic.Zify

/-!
# Newton's iteration for integer square roots

The mean of a guess and of the quotient by it never falls below the root, and a guess
that the mean does not lower is not above it.
-/

namespace BlockyOS.Foundation

section SquareRoots

variable {n g : Nat}

def newton (n g : Nat) : Nat := (g + n / g) / 2

theorem lt_succ_newton (hg : 0 < g) : n < (newton n g + 1) * (newton n g + 1) := by
  have hquotient : n < g * (n / g + 1) := Nat.lt_mul_div_succ n hg
  have hmean : g + (n / g + 1) ≤ 2 * (newton n g + 1) := by
    unfold newton
    omega
  have hsquare := Nat.mul_le_mul hmean hmean
  have hmeans : 4 * (g * (n / g + 1)) ≤ (g + (n / g + 1)) * (g + (n / g + 1)) := by
    generalize n / g + 1 = q
    zify
    nlinarith [sq_nonneg ((g : ℤ) - q)]
  linarith

theorem square_le_of_le_newton (hg : g ≤ newton n g) : g * g ≤ n := by
  have hquotient : g ≤ n / g := by
    unfold newton at hg
    omega
  exact Nat.le_trans (Nat.mul_le_mul_right g hquotient) (Nat.div_mul_le_self n g)

theorem one_le_newton (hg : 0 < g) (hle : g ≤ n) : 1 ≤ newton n g := by
  have hquotient : 1 ≤ n / g := Nat.div_pos hle hg
  unfold newton
  omega

theorem add_div_le (hg : 0 < g) (hle : g ≤ n) : g + n / g ≤ n + 1 := by
  have hquotient : 1 ≤ n / g := Nat.div_pos hle hg
  have hproduct : g * (n / g) ≤ n := Nat.mul_div_le n g
  nlinarith

end SquareRoots

end BlockyOS.Foundation
