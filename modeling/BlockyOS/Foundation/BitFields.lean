import Mathlib.Data.Nat.Basic
import Mathlib.Tactic.Ring

/-!
# Words packed from bit-fields

A struct of bit-fields is a list of widths and values, the lowest field first.
A stored value is cut to the width of its field; reading any run of adjacent
fields gives that run packed by itself.
-/

namespace BlockyOS.Foundation

abbrev BitField := Nat × Nat

def fieldsWidth (fields : List BitField) : Nat := (fields.map Prod.fst).sum

def packFields : List BitField → Nat
  | [] => 0
  | (width, value) :: rest => value % 2 ^ width + 2 ^ width * packFields rest

/-- The `width` bits of a word from bit `off` on. -/
def bits (word off width : Nat) : Nat := word / 2 ^ off % 2 ^ width

@[simp] theorem fieldsWidth_nil : fieldsWidth [] = 0 := rfl

@[simp] theorem fieldsWidth_cons (field : BitField) (rest : List BitField) :
    fieldsWidth (field :: rest) = field.1 + fieldsWidth rest := by
  simp [fieldsWidth]

theorem bits_lt (word off width : Nat) : bits word off width < 2 ^ width :=
  Nat.mod_lt _ (Nat.two_pow_pos _)

theorem packFields_lt (fields : List BitField) :
    packFields fields < 2 ^ fieldsWidth fields := by
  induction fields with
  | nil => simp [packFields]
  | cons field rest ih =>
      obtain ⟨width, value⟩ := field
      have hvalue : value % 2 ^ width < 2 ^ width := Nat.mod_lt _ (Nat.two_pow_pos _)
      have hrest := Nat.mul_le_mul_left (2 ^ width) (Nat.succ_le_of_lt ih)
      rw [Nat.mul_succ] at hrest
      rw [packFields, fieldsWidth_cons, Nat.pow_add]
      dsimp only
      omega

theorem packFields_append (low high : List BitField) :
    packFields (low ++ high) =
      packFields low + 2 ^ fieldsWidth low * packFields high := by
  induction low with
  | nil => simp [packFields]
  | cons field rest ih =>
      obtain ⟨width, value⟩ := field
      rw [List.cons_append, packFields, packFields, ih, fieldsWidth_cons, Nat.pow_add]
      ring

theorem bits_packFields (low mid high : List BitField) (off width : Nat)
    (hoff : fieldsWidth low = off) (hwidth : fieldsWidth mid = width) :
    bits (packFields (low ++ (mid ++ high))) off width = packFields mid := by
  subst hoff hwidth
  have hlow := packFields_lt low
  have hmid := packFields_lt mid
  rw [bits, packFields_append, Nat.add_mul_div_left _ _ (Nat.two_pow_pos _),
    Nat.div_eq_of_lt hlow, Nat.zero_add, packFields_append, Nat.add_mul_mod_self_left,
    Nat.mod_eq_of_lt hmid]

theorem packFields_singleton (width value : Nat) :
    packFields [(width, value)] = value % 2 ^ width := by
  simp [packFields]

theorem bits_packFields_field (low : List BitField) (width value : Nat)
    (high : List BitField) (off : Nat) (hoff : fieldsWidth low = off) :
    bits (packFields (low ++ (width, value) :: high)) off width = value % 2 ^ width := by
  rw [← packFields_singleton]
  exact bits_packFields low [(width, value)] high off width hoff (by simp)

end BlockyOS.Foundation
