import BlockyOS.Foundation.Bytes
import Mathlib.Data.Nat.Digits.Lemmas

/-!
# Decimal numerals

The numeral of a number is the shortest one: no zero in front, and a minus sign for
negative numbers only.
-/

namespace BlockyOS.Foundation

def digitByte (d : Nat) : UInt8 := UInt8.ofNat (0x30 + d)

def isDigit (c : UInt8) : Bool := 0x30 ≤ c && c ≤ 0x39

/-- The digits of `n`, the most significant one first. -/
def decimal (n : Nat) : Bytes :=
  if n = 0 then [digitByte 0] else ((Nat.digits 10 n).map digitByte).reverse

def numeral (v : Int) : Bytes := if v < 0 then 0x2D :: decimal v.natAbs else decimal v.natAbs

/-- The number that digits stand for behind those of `a`. -/
def valueFrom (a : Int) (digits : Bytes) : Int :=
  digits.foldl (fun a c => a * 10 + (c.toNat - 0x30)) a

theorem toNat_digitByte {d : Nat} (h : d < 10) : (digitByte d).toNat = 0x30 + d := by
  rw [digitByte, UInt8.toNat_ofNat']
  exact Nat.mod_eq_of_lt (by omega)

theorem isDigit_digitByte {d : Nat} (h : d < 10) : isDigit (digitByte d) = true := by
  have hall : ∀ d < 10, isDigit (digitByte d) = true := by decide
  exact hall d h

theorem isDigit_of_mem_decimal {n : Nat} {c : UInt8} (h : c ∈ decimal n) : isDigit c = true := by
  rw [decimal] at h
  split at h
  · rw [List.mem_singleton.mp h]
    exact isDigit_digitByte (by decide)
  · obtain ⟨d, hd, rfl⟩ := List.mem_map.mp (List.mem_reverse.mp h)
    exact isDigit_digitByte (Nat.digits_lt_base (by decide) hd)

theorem decimal_ne_nil (n : Nat) : decimal n ≠ [] := by
  rw [decimal]
  split
  · exact List.cons_ne_nil _ _
  · next hne => simpa [Nat.digits_ne_nil_iff_ne_zero] using hne

theorem valueFrom_decimal (n : Nat) : valueFrom 0 (decimal n) = n := by
  rw [decimal, valueFrom]
  split
  · next hzero =>
      rw [hzero]
      rfl
  · rw [List.foldl_reverse, List.foldr_map]
    have hdigits : ∀ digits : List Nat, (∀ d ∈ digits, d < 10) →
        digits.foldr (fun d (a : Int) => a * 10 + ((digitByte d).toNat - 0x30)) 0 =
          (Nat.ofDigits (10 : Nat) digits : Nat) := by
      intro digits
      induction digits with
      | nil => exact fun _ => rfl
      | cons d rest ih =>
          intro hlt
          rw [List.foldr_cons, ih fun d hd => hlt d (List.mem_cons_of_mem _ hd),
            toNat_digitByte (hlt d (List.mem_cons_self ..)), Nat.ofDigits_cons]
          push_cast
          ring
    rw [hdigits _ fun d hd => Nat.digits_lt_base (by decide) hd, Nat.ofDigits_digits]

end BlockyOS.Foundation
