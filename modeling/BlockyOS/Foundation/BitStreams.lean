import Mathlib.Data.Nat.Bitwise
import BlockyOS.Foundation.Bytes

/-!
# Streams of codes in bytes

A byte string is also a number, its first byte the lowest.  A code is some bits of
that number from a position on; codes of changing widths are packed one after
another, and each can be loaded from four bytes.
-/

namespace BlockyOS.Foundation

section Numbers

theorem leNat_drop (bytes : Bytes) (k : Nat) : leNat (bytes.drop k) = leNat bytes / 256 ^ k := by
  induction k generalizing bytes with
  | zero => simp
  | succ k ih =>
      cases bytes with
      | nil => simp [leNat]
      | cons byte rest =>
          have hbyte : byte.toNat < 256 := byte.toNat_lt
          have htail : (byte.toNat + 256 * leNat rest) / 256 = leNat rest := by omega
          rw [List.drop_succ_cons, ih, leNat, Nat.pow_succ, Nat.mul_comm (256 ^ k),
            ← Nat.div_div_eq_div_mul, htail]

theorem leNat_take (bytes : Bytes) (n : Nat) : leNat (bytes.take n) = leNat bytes % 256 ^ n := by
  induction n generalizing bytes with
  | zero => simp [leNat, Nat.mod_one]
  | succ n ih =>
      cases bytes with
      | nil => simp [leNat]
      | cons byte rest =>
          have hbyte : byte.toNat < 256 := byte.toNat_lt
          have hlow : (byte.toNat + 256 * leNat rest) % 256 = byte.toNat := by omega
          have hhigh : (byte.toNat + 256 * leNat rest) / 256 = leNat rest := by omega
          rw [List.take_succ_cons, leNat, leNat, ih, Nat.pow_succ, Nat.mul_comm (256 ^ n),
            Nat.mod_mul, hlow, hhigh]

theorem leNat_slice (bytes : Bytes) (off len : Nat) :
    leNat (slice bytes off len) = leNat bytes / 256 ^ off % 256 ^ len := by
  rw [slice, leNat_take, leNat_drop]

end Numbers

/-- The `width` bits of `n` from position `pos` on. -/
def bitsAt (n pos width : Nat) : Nat := n / 2 ^ pos % 2 ^ width

theorem bitsAt_of_load (bytes : Bytes) (pos : Nat) {width : Nat} (hwidth : width ≤ 24) :
    (leNat (slice bytes (pos / 8) 4) >>> (pos % 8)) &&& (2 ^ width - 1) =
      bitsAt (leNat bytes) pos width := by
  have hbyte : (256 : Nat) ^ (pos / 8) * 2 ^ (pos % 8) = 2 ^ pos := by
    rw [show (256 : Nat) = 2 ^ 8 from rfl, ← Nat.pow_mul, ← Nat.pow_add, Nat.div_add_mod]
  have hload : (256 : Nat) ^ 4 = 2 ^ (pos % 8) * 2 ^ (32 - pos % 8) := by
    rw [← Nat.pow_add, show pos % 8 + (32 - pos % 8) = 32 by omega]
    rfl
  have hsplit : (2 : Nat) ^ (32 - pos % 8) = 2 ^ width * 2 ^ (32 - pos % 8 - width) := by
    rw [← Nat.pow_add]
    congr 1
    omega
  rw [Nat.and_two_pow_sub_one_eq_mod, Nat.shiftRight_eq_div_pow, leNat_slice, hload,
    Nat.mod_mul_right_div_self, Nat.div_div_eq_div_mul, hbyte, hsplit, Nat.mod_mul_right_mod,
    bitsAt]

/-- The codes, each with its width, are packed into `n` from `pos` on. -/
def PackedAt (n : Nat) : Nat → List (Nat × Nat) → Prop
  | _, [] => True
  | pos, (code, width) :: rest => bitsAt n pos width = code ∧ PackedAt n (pos + width) rest

end BlockyOS.Foundation
