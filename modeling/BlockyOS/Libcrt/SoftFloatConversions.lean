import BlockyOS.Libcrt.SoftFloatArithmetic

/-!
# Conversions in software

Integers become floating-point words by moving their leading one, and the bits
that the format has no place for are cut off.
-/

namespace BlockyOS.Libcrt.SoftFloat

open BlockyOS.Foundation

/-- The leading one is found by `bsr` and moved to the place that the format has for it. -/
def ofInteger (f : FloatFormat) (s n : Nat) : Nat :=
  if n = 0 then 0
  else
    let m :=
      if n.log2 ≤ f.fractionBits then n <<< (f.fractionBits - n.log2)
      else n >>> (n.log2 - f.fractionBits)
    f.pack s (n.log2 + f.bias : Nat) (m % 2 ^ f.fractionBits)

def signBit (n : Int32) : Nat := if n.toInt < 0 then 1 else 0

def floatsisf (n : Int32) : Nat := ofInteger single (signBit n) n.toInt.natAbs

def floatunsisf (n : UInt32) : Nat := ofInteger single 0 n.toNat

def floatsidf (n : Int32) : Nat := ofInteger double (signBit n) n.toInt.natAbs

def floatundidf (n : UInt64) : Nat := ofInteger double 0 n.toNat

/-- Numbers from the thirty-first power of two on become zero. -/
def fixsfsi (a : Nat) : Int :=
  if single.exponent a < 127 then 0
  else if 31 ≤ single.exponent a - 127 then 0
  else
    let m :=
      if single.exponent a - 127 ≤ 23 then single.significand a >>> (23 - (single.exponent a - 127))
      else single.significand a <<< (single.exponent a - 127 - 23)
    if single.sign a = 0 then m else -m

/-- What is too great or too small for a single becomes zero. -/
def truncdfsf2 (a : Nat) : Nat :=
  let e : Int := double.exponent a - 1023 + 127
  if double.exponent a = 0 then double.sign a * 2 ^ 31
  else if 255 ≤ e then double.sign a * 2 ^ 31
  else if e ≤ 0 then double.sign a * 2 ^ 31
  else single.pack (double.sign a) e (double.fraction a >>> 29)

section Conversions

variable {f : FloatFormat} {s n : Nat}

theorem leading_bounds (hn : n ≠ 0) :
    let m :=
      if n.log2 ≤ f.fractionBits then n <<< (f.fractionBits - n.log2)
      else n >>> (n.log2 - f.fractionBits)
    2 ^ f.fractionBits ≤ m ∧ m < 2 * 2 ^ f.fractionBits ∧
      m * 2 ^ n.log2 = n / 2 ^ (n.log2 - f.fractionBits) * 2 ^ (n.log2 - f.fractionBits) *
        2 ^ f.fractionBits := by
  have hlow := Nat.log2_self_le hn
  have hhigh := Nat.lt_log2_self (n := n)
  generalize n.log2 = k at *
  dsimp only
  split
  case isTrue hle =>
    have hpow : 2 ^ f.fractionBits = 2 ^ k * 2 ^ (f.fractionBits - k) := by
      rw [← Nat.pow_add, Nat.add_sub_cancel' hle]
    rw [Nat.shiftLeft_eq, Nat.sub_eq_zero_of_le hle, Nat.pow_zero, Nat.div_one, Nat.mul_one, hpow]
    refine ⟨Nat.mul_le_mul_right _ hlow, ?_, by ring⟩
    rw [← Nat.mul_assoc, Nat.mul_comm 2, ← Nat.pow_succ]
    exact Nat.mul_lt_mul_of_pos_right hhigh (Nat.two_pow_pos _)
  case isFalse hlt =>
    have hpow : 2 ^ k = 2 ^ f.fractionBits * 2 ^ (k - f.fractionBits) := by
      rw [← Nat.pow_add, Nat.add_sub_cancel' (by omega)]
    rw [Nat.shiftRight_eq_div_pow]
    refine ⟨?_, ?_, ?_⟩
    · rw [Nat.le_div_iff_mul_le (Nat.two_pow_pos _), ← hpow]
      exact hlow
    · rw [Nat.div_lt_iff_lt_mul (Nat.two_pow_pos _), Nat.mul_assoc, ← hpow, Nat.mul_comm,
        ← Nat.pow_succ]
      exact hhigh
    · rw [hpow]
      ring

theorem magnitude_ofInteger (hn : n ≠ 0) (hbias : 0 < f.bias)
    (hfit : n.log2 + f.bias < 2 ^ f.exponentBits) :
    f.magnitude (ofInteger f s n) =
        n / 2 ^ (n.log2 - f.fractionBits) * 2 ^ (n.log2 - f.fractionBits) * f.one ∧
      f.sign (ofInteger f s n) = s := by
  obtain ⟨hlow, hhigh, hsize⟩ := leading_bounds (f := f) hn
  unfold ofInteger
  rw [if_neg hn]
  dsimp only at *
  generalize (if n.log2 ≤ f.fractionBits then n <<< (f.fractionBits - n.log2)
      else n >>> (n.log2 - f.fractionBits)) = m at *
  obtain ⟨hmagnitude, hsign, -⟩ := f.magnitude_pack (s := s) hlow hhigh (e := n.log2 + f.bias)
    (by omega) hfit
  refine ⟨?_, hsign⟩
  rw [hmagnitude, Nat.pow_add, ← Nat.mul_assoc, hsize, FloatFormat.one, Nat.pow_add]
  ring

theorem fixsfsi_eq (a : Nat) :
    fixsfsi a =
      if single.magnitude a < 2 ^ 31 * single.one then
        if single.sign a = 0 then ((single.magnitude a / single.one : Nat) : Int)
        else -((single.magnitude a / single.one : Nat) : Int)
      else 0 := by
  have hlow := single.le_significand a
  have hhigh := single.significand_lt a
  have hone : single.one = 2 ^ 150 := rfl
  have hbits : 2 ^ single.fractionBits = 2 ^ 23 := rfl
  have hsmall : single.exponent a < 127 → single.magnitude a < single.one := by
    intro he
    unfold FloatFormat.magnitude
    split
    · exact Nat.two_pow_pos _
    · calc single.significand a * 2 ^ single.exponent a
          < 2 ^ 24 * 2 ^ single.exponent a :=
            Nat.mul_lt_mul_of_pos_right (by omega) (Nat.two_pow_pos _)
        _ ≤ 2 ^ 24 * 2 ^ 126 :=
            Nat.mul_le_mul_left _ (Nat.pow_le_pow_right (by decide) (by omega))
  have hnormal : 127 ≤ single.exponent a →
      single.magnitude a = single.significand a * 2 ^ single.exponent a := by
    intro he
    refine magnitude_eq ?_
    have := Nat.mul_le_mul_right (2 ^ single.fractionBits) he
    rw [single.unsigned_eq]
    omega
  unfold fixsfsi
  rw [hone] at *
  by_cases hbelow : single.exponent a < 127
  · have hzero : single.magnitude a / 2 ^ 150 = 0 := Nat.div_eq_of_lt (hsmall hbelow)
    rw [if_pos hbelow, if_pos (Nat.lt_of_lt_of_le (hsmall hbelow) (by decide)), hzero]
    split <;> rfl
  · rw [if_neg hbelow]
    obtain ⟨t, ht⟩ : ∃ t, single.exponent a = 127 + t := ⟨single.exponent a - 127, by omega⟩
    rw [hnormal (by omega), ht, Nat.add_sub_cancel_left]
    split
    case isTrue hover =>
      rw [if_neg]
      apply Nat.not_lt.mpr
      calc 2 ^ 31 * 2 ^ 150 = 2 ^ 23 * 2 ^ 158 := by decide
        _ ≤ single.significand a * 2 ^ (127 + t) :=
            Nat.mul_le_mul hlow (Nat.pow_le_pow_right (by decide) (by omega))
    case isFalse hin =>
      have hrange : single.significand a * 2 ^ (127 + t) < 2 ^ 31 * 2 ^ 150 := by
        calc single.significand a * 2 ^ (127 + t)
            < 2 ^ 24 * 2 ^ (127 + t) := Nat.mul_lt_mul_of_pos_right (by omega) (Nat.two_pow_pos _)
          _ ≤ 2 ^ 24 * 2 ^ 157 :=
              Nat.mul_le_mul_left _ (Nat.pow_le_pow_right (by decide) (by omega))
          _ = 2 ^ 31 * 2 ^ 150 := by decide
      rw [if_pos hrange]
      have hquotient : single.significand a * 2 ^ (127 + t) / 2 ^ 150 =
          if t ≤ 23 then single.significand a >>> (23 - t)
          else single.significand a <<< (t - 23) := by
        split
        case isTrue hle =>
          have hpow : 2 ^ 150 = 2 ^ (23 - t) * 2 ^ (127 + t) := by
            rw [← Nat.pow_add]
            congr 1
            omega
          rw [hpow, Nat.mul_div_mul_right _ _ (Nat.two_pow_pos _), Nat.shiftRight_eq_div_pow]
        case isFalse hlt =>
          have hpow : 2 ^ (127 + t) = 2 ^ (t - 23) * 2 ^ 150 := by
            rw [← Nat.pow_add]
            congr 1
            omega
          rw [hpow, ← Nat.mul_assoc, Nat.mul_div_cancel _ (Nat.two_pow_pos _), Nat.shiftLeft_eq]
      rw [hquotient]

/-- The places of an integer that a single has no room for. -/
def lostPlaces (n : Int32) : Nat := n.toInt.natAbs.log2 - 23

theorem natAbs_log2_le (n : Int32) : n.toInt.natAbs.log2 ≤ 31 := by
  have hlow := n.le_toInt
  have hhigh := n.toInt_lt
  rcases Nat.eq_zero_or_pos n.toInt.natAbs with hzero | hpos
  · rw [hzero]
    decide
  · have := (Nat.log2_lt (k := 32) hpos.ne').mpr (by omega)
    omega

theorem fixsfsi_floatsisf (n : Int32) (hn : n ≠ Int32.minValue) :
    fixsfsi (floatsisf n) =
      n.toInt.sign * (n.toInt.natAbs / 2 ^ lostPlaces n * 2 ^ lostPlaces n : Nat) := by
  have hlow := n.le_toInt
  have hhigh := n.toInt_lt
  have hlog := natAbs_log2_le n
  have hmin : n.toInt ≠ -2 ^ 31 := fun h => hn (Int32.toInt_inj.mp h)
  rcases Nat.eq_zero_or_pos n.toInt.natAbs with hzero | hpos
  · have hzero : n.toInt = 0 := by omega
    rw [floatsisf, ofInteger, if_pos (by omega), hzero, Int.sign_zero, Int.zero_mul]
    decide
  · have hone : 0 < single.one := Nat.two_pow_pos _
    have hcut : n.toInt.natAbs / 2 ^ lostPlaces n * 2 ^ lostPlaces n ≤ n.toInt.natAbs :=
      Nat.div_mul_le_self _ _
    obtain ⟨hmagnitude, hsign⟩ := magnitude_ofInteger (f := single) (s := signBit n) hpos.ne'
      (by decide) (by change _ + 127 < 256; omega)
    change single.magnitude (floatsisf n) =
      n.toInt.natAbs / 2 ^ lostPlaces n * 2 ^ lostPlaces n * single.one at hmagnitude
    change single.sign (floatsisf n) = signBit n at hsign
    rw [fixsfsi_eq, hmagnitude, hsign, Nat.mul_div_cancel _ hone,
      if_pos (Nat.mul_lt_mul_of_pos_right (by omega) hone), signBit]
    by_cases hneg : n.toInt < 0
    · rw [if_pos hneg, if_neg (by decide), Int.sign_eq_neg_one_of_neg hneg, Int.neg_one_mul]
    · rw [if_neg hneg, if_pos rfl, Int.sign_eq_one_of_pos (by omega), Int.one_mul]

theorem truncdfsf2_floatsidf (n : Int32) : truncdfsf2 (floatsidf n) = floatsisf n := by
  have hlog := natAbs_log2_le n
  unfold floatsidf floatsisf ofInteger
  by_cases hzero : n.toInt.natAbs = 0
  · rw [if_pos hzero, if_pos hzero]
    decide
  · rw [if_neg hzero, if_neg hzero]
    generalize n.toInt.natAbs = x at *
    dsimp only
    change truncdfsf2 (double.pack (signBit n) (x.log2 + 1023 : Nat)
      ((if x.log2 ≤ 52 then x <<< (52 - x.log2) else x >>> (x.log2 - 52)) % 2 ^ 52)) =
        single.pack (signBit n) (x.log2 + 127 : Nat)
          ((if x.log2 ≤ 23 then x <<< (23 - x.log2) else x >>> (x.log2 - 23)) % 2 ^ 23)
    generalize x.log2 = k at *
    rw [if_pos (by omega), Nat.shiftLeft_eq]
    obtain ⟨hsign, hexponent, hfraction⟩ := double.fields_pack (s := signBit n) (e := k + 1023)
      (m := x * 2 ^ (52 - k) % 2 ^ 52) (by change _ < 2 ^ 11; omega)
      (Nat.mod_lt _ (Nat.two_pow_pos _))
    have hcut : x * 2 ^ (52 - k) / 2 ^ 29 =
        if k ≤ 23 then x <<< (23 - k) else x >>> (k - 23) := by
      split
      case isTrue hle =>
        rw [show 52 - k = 23 - k + 29 by omega, Nat.pow_add, ← Nat.mul_assoc,
          Nat.mul_div_cancel _ (Nat.two_pow_pos 29), Nat.shiftLeft_eq]
      case isFalse hlt =>
        rw [show 29 = k - 23 + (52 - k) by omega, Nat.pow_add,
          Nat.mul_div_mul_right _ _ (Nat.two_pow_pos _), Nat.shiftRight_eq_div_pow]
    unfold truncdfsf2
    rw [hsign, hexponent, hfraction, if_neg (by omega), if_neg (by omega), if_neg (by omega),
      show ((k + 1023 : Nat) : Int) - 1023 + 127 = (k + 127 : Nat) by omega,
      Nat.shiftRight_eq_div_pow, show (2 : Nat) ^ 52 = 2 ^ 29 * 2 ^ 23 by decide,
      Nat.mod_mul_right_div_self, hcut]

/-- An integer that was a single, straight or over a double, comes back without its lost places;
the least one comes back as zero. -/
theorem integer_returns (n : Int32) :
    fixsfsi (truncdfsf2 (floatsidf n)) = fixsfsi (floatsisf n) ∧
      fixsfsi (floatsisf n) =
        if n = Int32.minValue then 0
        else n.toInt.sign * (n.toInt.natAbs / 2 ^ lostPlaces n * 2 ^ lostPlaces n : Nat) := by
  refine ⟨by rw [truncdfsf2_floatsidf], ?_⟩
  split
  case isTrue hmin =>
    rw [hmin]
    decide +kernel
  case isFalse hne => exact fixsfsi_floatsisf n hne

theorem truncdfsf2_truncates {a : Nat}
    (h : single.NormalQuotient (double.magnitude a * single.one) double.one) :
    single.Truncates (truncdfsf2 a) (double.magnitude a * single.one) double.one ∧
      single.sign (truncdfsf2 a) = double.sign a := by
  have hne : double.magnitude a ≠ 0 := by
    intro hzero
    have hpos : 0 < 2 * 2 ^ single.fractionBits * double.one :=
      Nat.mul_pos (by decide) (Nat.two_pow_pos _)
    rw [hzero, Nat.zero_mul] at h
    exact Nat.not_lt_zero _ (Nat.lt_of_lt_of_le hpos h.1)
  have hlow : 2 ^ 52 ≤ double.significand a := double.le_significand a
  have hhigh : double.significand a < 2 * 2 ^ 52 := double.significand_lt a
  have hscaled : double.magnitude a * single.one =
      double.significand a * 2 ^ (double.exponent a + 150) := by
    rw [magnitude_eq (unsigned_ne_zero hne), Nat.pow_add, ← Nat.mul_assoc]
    rfl
  have hcut : double.fraction a >>> 29 =
      double.significand a / 2 ^ 29 % 2 ^ single.fractionBits := by
    change double.fraction a >>> 29 = (2 ^ 52 + double.fraction a) / 2 ^ 29 % 2 ^ 23
    have hfraction : double.fraction a < 2 ^ 52 := double.fraction_lt a
    rw [Nat.shiftRight_eq_div_pow]
    omega
  have hqlow : 2 ^ single.fractionBits ≤ double.significand a / 2 ^ 29 := by
    change 2 ^ 23 ≤ _
    omega
  have hqhigh : double.significand a / 2 ^ 29 < 2 * 2 ^ single.fractionBits := by
    change _ < 2 * 2 ^ 23
    omega
  rw [hscaled] at h ⊢
  obtain ⟨n, hn, hbelow, habove⟩ := shift_scaled (f := single) (P := double.significand a)
    (k := 29) (M := double.exponent a + 150) (D := double.bias + double.fractionBits)
    (e := double.exponent a - 1023 + 127) h hqhigh
    (by rw [show double.bias + double.fractionBits = 1075 from rfl]; omega)
  obtain ⟨hpos, hlt⟩ := h.exponent_range hqlow hqhigh hbelow habove
  change n < 255 at hlt
  unfold truncdfsf2
  rw [if_neg (by omega), if_neg (by omega), if_neg (by omega), hn, hcut]
  exact single.truncates_pack h hqlow hqhigh hbelow habove

end Conversions

end BlockyOS.Libcrt.SoftFloat
