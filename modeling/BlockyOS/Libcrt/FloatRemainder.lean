import BlockyOS.Libcrt.SoftFloatArithmetic

/-!
# The remainder of doubles

The operators are calls of the software routines, which know no subnormal words:
a word of exponent zero is scaled as if it had a leading one.
-/

namespace BlockyOS.Libcrt

open BlockyOS.Foundation
open BlockyOS.Libcrt.SoftFloat

def NaNd : Nat := 0x7ff8000000000000

def INFINITY_D : Nat := 0x7ff0000000000000

def isnand (d : Nat) : Prop := eqdf2 d NaNd = 0

def isinfd (d : Nat) : Prop := eqdf2 d INFINITY_D = 0

instance (d : Nat) : Decidable (isnand d) := inferInstanceAs (Decidable (_ = _))

instance (d : Nat) : Decidable (isinfd d) := inferInstanceAs (Decidable (_ = _))

def copysign (a f : Nat) : Nat := if gtdf2 f 0 > 0 then a else negate double a

def FP64_NAN_INDEFINITE : Nat := 0xfff8000000000000

/-- The double that stands for `FP64_UPSCALE`. -/
def upscale : Nat := 0x4330000000000000

def normalized (a : Nat) : Int × Nat :=
  if double.exponent a = 0 then
    (double.exponent (muldf3 a upscale) - 52, double.significand (muldf3 a upscale))
  else (double.exponent a, double.significand a)

def packRemainder (ia : Nat) (ea : Int) : Nat :=
  if ia = 0 then 0
  else
    let r := doubleUpTo (2 ^ 52) 52 ia
    if 0 < ea - r.2 then (r.1 + (ea - r.2 - 1).toNat * 2 ^ 52) % 2 ^ 64
    else r.1 >>> (1 - (ea - r.2)).toNat

def fmod (a b : Nat) : Nat :=
  if isnand a ∨ isnand b then adddf3 a b
  else if isinfd a ∨ eqdf2 b 0 = 0 then FP64_NAN_INDEFINITE
  else if b <<< 1 % 2 ^ 64 ≤ a <<< 1 % 2 ^ 64 then
    let x := normalized a
    let y := normalized b
    let turns := (x.1 - y.1).toNat
    copysign (packRemainder (subtractOnce y.2 (longDivision y.2 turns x.2)) (x.1 - turns)) a
  else a

section Remainders

variable {a b : Nat}

theorem double_shift_eq (a : Nat) : a <<< 1 % 2 ^ 64 = 2 * double.unsigned a := by
  change a <<< 1 % 2 ^ 64 = 2 * (a % 2 ^ 63)
  rw [Nat.shiftLeft_eq]
  omega

theorem equal_of_exponent {f : FloatFormat} {c : Nat} (hc : f.unsigned c ≠ 0)
    (h : f.exponent a ≠ f.exponent c) : equal f a c ≠ 0 := by
  unfold equal
  rw [if_neg (mt FloatFormat.unsigned_or_eq_zero.mp (by omega)), if_neg]
  · decide
  · rintro rfl
    exact h rfl

theorem not_isnand (h : double.exponent a < 2047) : ¬ isnand a :=
  equal_of_exponent (by decide) (by rw [show double.exponent NaNd = 2047 by decide]; omega)

theorem not_isinfd (h : double.exponent a < 2047) : ¬ isinfd a :=
  equal_of_exponent (by decide) (by rw [show double.exponent INFINITY_D = 2047 by decide]; omega)

theorem equal_zero (h : double.unsigned b ≠ 0) : eqdf2 b 0 ≠ 0 := by
  unfold eqdf2 equal
  rw [if_neg (mt FloatFormat.unsigned_or_eq_zero.mp (by omega)), if_neg]
  · decide
  · rintro rfl
    exact h rfl

theorem muldf3_upscale (h : double.unsigned a ≠ 0) (hzero : double.exponent a = 0) :
    double.exponent (muldf3 a upscale) = 52 ∧
      double.significand (muldf3 a upscale) = double.significand a := by
  have hscaled : muldf3 a upscale =
      double.pack ((double.sign a + 0) % 2) (52 : Nat) (double.fraction a) := by
    have hsignificand : double.significand upscale = 2 ^ 52 := by decide
    have hlow := double.significand_lt a
    have htop : (double.significand a * 2 ^ 52).testBit (2 * double.fractionBits + 1) = false := by
      apply Nat.testBit_lt_two_pow
      change double.significand a < 2 * 2 ^ 52 at hlow
      change double.significand a * 2 ^ 52 < 2 ^ 105
      omega
    have hcut : (double.significand a * 2 ^ 52) >>> double.fractionBits % 2 ^ double.fractionBits =
        double.fraction a := by
      change (double.significand a * 2 ^ 52) >>> 52 % 2 ^ 52 = a % 2 ^ 52
      rw [Nat.shiftRight_eq_div_pow, Nat.mul_div_cancel _ (Nat.two_pow_pos 52)]
      change (2 ^ 52 + a % 2 ^ 52) % 2 ^ 52 = a % 2 ^ 52
      omega
    unfold muldf3 mul
    rw [if_neg h, if_neg (by decide)]
    dsimp only
    rw [hsignificand, htop, if_neg (by decide), hcut, hzero]
    rfl
  obtain ⟨-, hexponent, hfraction⟩ := double.fields_pack (s := (double.sign a + 0) % 2) (e := 52)
    (m := double.fraction a) (by decide) (double.fraction_lt a)
  rw [hscaled, FloatFormat.significand, hexponent, hfraction]
  exact ⟨rfl, rfl⟩

theorem normalized_eq (h : double.unsigned a ≠ 0) :
    normalized a = ((double.exponent a : Int), double.significand a) := by
  unfold normalized
  split
  case isFalse => rfl
  case isTrue hzero =>
    obtain ⟨hexponent, hsignificand⟩ := muldf3_upscale h hzero
    rw [hexponent, hsignificand, hzero]
    rfl

/-! ## The result -/

theorem negate_fields {f : FloatFormat} (w : Nat) :
    f.unsigned (negate f w) = f.unsigned w ∧ f.sign (negate f w) = f.sign w ^^^ 1 := by
  constructor
  · rw [FloatFormat.unsigned, negate, Nat.xor_mod_two_pow, Nat.mod_self, Nat.xor_zero]
    rfl
  · rw [FloatFormat.sign, negate, Nat.xor_div_two_pow, Nat.div_self (Nat.two_pow_pos _)]
    rfl

theorem copysign_fields {w : Nat} (ha : a < 2 ^ 64) (hne : double.unsigned a ≠ 0)
    (hw : double.sign w = 0) :
    double.unsigned (copysign w a) = double.unsigned w ∧
      double.sign (copysign w a) = double.sign a := by
  have hgreater := greater_iff (f := double) (a := a) (b := 0) ha (by decide)
  have hunits := mt (double.units_eq_zero_iff (a := a)).mp hne
  have hzero : double.value 0 = 0 := by decide
  obtain ⟨hunsigned, hsign⟩ := negate_fields (f := double) w
  have hle : double.sign a ≤ 1 := double.sign_le ha
  rw [hzero, FloatFormat.value] at hgreater
  unfold copysign gtdf2
  by_cases hpositive : double.sign a = 0
  · rw [if_pos hpositive] at hgreater
    rw [if_pos (hgreater.mpr (by omega)), hw, hpositive]
    exact ⟨rfl, rfl⟩
  · rw [if_neg hpositive] at hgreater
    rw [if_neg (mt hgreater.mp (by omega)), hunsigned, hsign, hw]
    exact ⟨rfl, by rw [show double.sign a = 1 by omega]; rfl⟩

theorem packRemainder_units {ia e : Nat} (hia : ia < 2 ^ 53) (he : e < 2047) :
    double.units (packRemainder ia e) = ia * 2 ^ e / 2 ∧ double.sign (packRemainder ia e) = 0 := by
  unfold packRemainder
  split
  case isTrue hzero =>
    rw [hzero, Nat.zero_mul]
    decide
  case isFalse hne =>
    have hstop : 2 ^ 52 ≤ (doubleUpTo (2 ^ 52) 52 ia).1 :=
      le_doubleUpTo (Nat.le_mul_of_pos_left _ (by omega))
    have htop : (doubleUpTo (2 ^ 52) 52 ia).1 < 2 * 2 ^ 52 := doubleUpTo_lt 52 (by omega)
    have hdouble := doubleUpTo_eq (2 ^ 52) 52 ia
    dsimp only
    generalize doubleUpTo (2 ^ 52) 52 ia = r at *
    obtain ⟨m, k⟩ := r
    dsimp only at *
    split
    case isTrue hpos =>
      obtain ⟨t, rfl⟩ : ∃ t, e = k + (t + 1) := ⟨e - k - 1, by omega⟩
      have hword : (m + ((k + (t + 1) : Nat) - k - 1 : Int).toNat * 2 ^ 52) % 2 ^ 64 =
          double.pack 0 (t + 1 : Nat) (m % 2 ^ double.fractionBits) := by
        rw [FloatFormat.pack_eq (by change t + 1 < 2 ^ 11; omega)
          (Nat.mod_lt _ (Nat.two_pow_pos _))]
        change _ = 0 * 2 ^ 63 + ((t + 1) * 2 ^ 52 + m % 2 ^ 52)
        rw [show ((k + (t + 1) : Nat) - k - 1 : Int).toNat = t by omega,
          Nat.mod_eq_of_lt (by omega)]
        omega
      obtain ⟨hmagnitude, hsign, hexponent⟩ := double.magnitude_pack (s := 0) (q := m)
        (e := t + 1) hstop htop (by omega) (by change t + 1 < 2 ^ 11; omega)
      have hunits := double.magnitude_eq_two_mul_units (w := double.pack 0 (t + 1 : Nat)
        (m % 2 ^ double.fractionBits)) (by rw [hexponent]; omega)
      rw [hword]
      refine ⟨?_, hsign⟩
      rw [hmagnitude] at hunits
      rw [Nat.pow_add, ← Nat.mul_assoc, ← hdouble, hunits,
        Nat.mul_div_cancel_left _ (by decide)]
    case isFalse hneg =>
      obtain ⟨t, rfl⟩ : ∃ t, k = e + t := ⟨k - e, by omega⟩
      have hword : m >>> (1 - ((e : Int) - (e + t : Nat))).toNat = ia * 2 ^ e / 2 := by
        rw [show (1 - ((e : Int) - (e + t : Nat))).toNat = t + 1 by omega,
          Nat.shiftRight_eq_div_pow, hdouble, Nat.pow_add, Nat.pow_succ, ← Nat.mul_assoc,
          Nat.mul_comm (2 ^ t) 2, Nat.mul_div_mul_right _ _ (Nat.two_pow_pos t)]
      have hsmall : m >>> (1 - ((e : Int) - (e + t : Nat))).toNat < 2 ^ 52 := by
        rw [show (1 - ((e : Int) - (e + t : Nat))).toNat = t + 1 by omega,
          Nat.shiftRight_eq_div_pow, Nat.div_lt_iff_lt_mul (Nat.two_pow_pos _), Nat.pow_succ]
        have := Nat.two_pow_pos t
        omega
      generalize m >>> (1 - ((e : Int) - (e + t : Nat))).toNat = w at *
      rw [← hword]
      have hexponent : double.exponent w = 0 := by
        change w / 2 ^ 52 % 2 ^ 11 = 0
        omega
      constructor
      · rw [FloatFormat.units, if_pos hexponent]
        exact Nat.mod_eq_of_lt hsmall
      · change w / 2 ^ 63 = 0
        omega

theorem fmod_units (ha : a < 2 ^ 64) (hfa : double.exponent a < 2047)
    (hfb : double.exponent b < 2047) (hb : double.unsigned b ≠ 0) :
    double.units (fmod a b) =
        (if double.unsigned b ≤ double.unsigned a then
          double.magnitude a % double.magnitude b / 2 else double.units a) ∧
      double.sign (fmod a b) = double.sign a := by
  have hnan : ¬ (isnand a ∨ isnand b) := by
    rintro (h | h)
    · exact not_isnand hfa h
    · exact not_isnand hfb h
  have hinf : ¬ (isinfd a ∨ eqdf2 b 0 = 0) := by
    rintro (h | h)
    · exact not_isinfd hfa h
    · exact equal_zero hb h
  unfold fmod
  rw [if_neg hnan, if_neg hinf, double_shift_eq, double_shift_eq]
  by_cases hle : double.unsigned b ≤ double.unsigned a
  · rw [if_pos (by omega), if_pos hle]
    have hane : double.unsigned a ≠ 0 := by omega
    have hexponents := double.exponent_le_of_unsigned_le hle
    have hsa : double.significand a < 2 * 2 ^ 52 := double.significand_lt a
    have hsb : double.significand b < 2 * 2 ^ 52 := double.significand_lt b
    have hlow : 2 ^ 52 ≤ double.significand b := double.le_significand b
    rw [normalized_eq hane, normalized_eq hb]
    dsimp only
    rw [subtractOnce_longDivision _ (by omega)]
    obtain ⟨t, ht⟩ : ∃ t, double.exponent a = double.exponent b + t :=
      ⟨double.exponent a - double.exponent b, by omega⟩
    rw [ht, show (((double.exponent b + t : Nat) : Int) - double.exponent b).toNat = t by omega,
      show ((double.exponent b + t : Nat) : Int) - (t : Nat) = double.exponent b by omega]
    have hrest : double.significand a * 2 ^ t % double.significand b < 2 ^ 53 :=
      Nat.lt_trans (Nat.mod_lt _ (double.significand_pos b)) (by omega)
    obtain ⟨hunits, hsign⟩ := packRemainder_units hrest hfb
    obtain ⟨hunsigned, hcopied⟩ := copysign_fields ha hane hsign
    refine ⟨?_, hcopied⟩
    rw [magnitude_eq hane, magnitude_eq hb, ht, Nat.add_comm, Nat.pow_add, ← Nat.mul_assoc,
      Nat.mul_mod_mul_right, ← hunits]
    exact double.units_congr hunsigned
  · rw [if_neg (by omega), if_neg hle]
    exact ⟨rfl, rfl⟩

/-- Words of exponent zero are divided as if they had a leading one. -/
example : fmod 3 2 = 0 := by decide +kernel

end Remainders

end BlockyOS.Libcrt
