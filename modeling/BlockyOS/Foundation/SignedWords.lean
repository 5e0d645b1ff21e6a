import Mathlib.Data.Int.ModEq
import Mathlib.Tactic.Ring

/-!
# Signed machine words

A signed word holds the number of its width that agrees with what is stored.
-/

namespace BlockyOS.Foundation

/-- The value of a signed integer of this width, in two's complement. -/
def narrow (bits : Nat) (x : Int) : Int := x.bmod (2 ^ bits)

theorem narrow_of_fits {bits : Nat} {v : Int} (hlow : -2 ^ bits ≤ v) (hhigh : v < 2 ^ bits) :
    narrow (bits + 1) v = v := by
  have htwice : ((2 ^ (bits + 1) : Nat) : Int) = 2 * 2 ^ bits := by
    push_cast
    ring
  apply Int.bmod_eq_of_le_mul_two <;> omega

theorem narrow_modEq (bits : Nat) (x : Int) : narrow bits x ≡ x [ZMOD (2 ^ bits : Nat)] :=
  Int.bmod_emod

theorem narrow_congr {bits : Nat} {x y : Int} (h : x ≡ y [ZMOD (2 ^ bits : Nat)]) :
    narrow bits x = narrow bits y := by
  rw [narrow, narrow, ← Int.emod_bmod, h, Int.emod_bmod]

end BlockyOS.Foundation
