import Mathlib.Tactic.Ring

/-!
# Binary floating-point formats

A word has a sign, an exponent and a fraction.  What it stands for is a number of
units, so that all results are about natural numbers.
-/

namespace BlockyOS.Foundation

structure FloatFormat where
  fractionBits : Nat
  exponentBits : Nat

namespace FloatFormat

variable (f : FloatFormat)

def magnitudeBits : Nat := f.exponentBits + f.fractionBits

def width : Nat := f.magnitudeBits + 1

def bias : Nat := 2 ^ (f.exponentBits - 1) - 1

def unsigned (w : Nat) : Nat := w % 2 ^ f.magnitudeBits

def sign (w : Nat) : Nat := w / 2 ^ f.magnitudeBits

def exponent (w : Nat) : Nat := w / 2 ^ f.fractionBits % 2 ^ f.exponentBits

def fraction (w : Nat) : Nat := w % 2 ^ f.fractionBits

/-- The fraction with the leading one in front. -/
def significand (w : Nat) : Nat := 2 ^ f.fractionBits + f.fraction w

def pack (s : Nat) (e : Int) (m : Nat) : Nat :=
  (e * 2 ^ f.fractionBits % 2 ^ f.width).toNat ||| s * 2 ^ f.magnitudeBits ||| m

/-- The number of half units that make one. -/
def one : Nat := 2 ^ (f.bias + f.fractionBits)

/-- The number of half units when every word but zero has a leading one: the number that a normal
word stands for, and the misreading of the others by software that knows only normal words. -/
def magnitude (w : Nat) : Nat :=
  if f.unsigned w = 0 then 0 else f.significand w * 2 ^ f.exponent w

/-- The number of units, with words of exponent zero that have no leading one. -/
def units (w : Nat) : Nat :=
  if f.exponent w = 0 then f.fraction w else f.significand w * 2 ^ (f.exponent w - 1)

/-- A word with a leading one that is below the infinities. -/
def Normal (w : Nat) : Prop := f.exponent w ≠ 0 ∧ f.exponent w < 2 ^ f.exponentBits - 1

instance (w : Nat) : Decidable (f.Normal w) := inferInstanceAs (Decidable (_ ∧ _))

def value (w : Nat) : Int := if f.sign w = 0 then f.units w else -f.units w

/-! ## Fields -/

section Fields

variable {f}

theorem unsigned_eq (w : Nat) :
    f.unsigned w = f.exponent w * 2 ^ f.fractionBits + f.fraction w := by
  unfold unsigned exponent fraction magnitudeBits
  rw [Nat.add_comm f.exponentBits, Nat.pow_add, Nat.mod_mul]
  ring

theorem eq_sign_add (w : Nat) : w = f.sign w * 2 ^ f.magnitudeBits + f.unsigned w := by
  unfold sign unsigned
  rw [Nat.mul_comm, Nat.div_add_mod]

theorem exponent_lt (w : Nat) : f.exponent w < 2 ^ f.exponentBits :=
  Nat.mod_lt _ (Nat.two_pow_pos _)

theorem fraction_lt (w : Nat) : f.fraction w < 2 ^ f.fractionBits :=
  Nat.mod_lt _ (Nat.two_pow_pos _)

theorem le_significand (w : Nat) : 2 ^ f.fractionBits ≤ f.significand w :=
  Nat.le_add_right _ _

theorem significand_lt (w : Nat) : f.significand w < 2 * 2 ^ f.fractionBits := by
  have h := fraction_lt (f := f) w
  unfold significand
  omega

theorem significand_pos (w : Nat) : 0 < f.significand w :=
  Nat.lt_of_lt_of_le (Nat.two_pow_pos _) (le_significand w)

theorem sign_le {w : Nat} (hw : w < 2 ^ f.width) : f.sign w ≤ 1 := by
  have h : f.sign w < 2 := by
    unfold sign
    rw [Nat.div_lt_iff_lt_mul (Nat.two_pow_pos _)]
    rw [width, Nat.pow_succ] at hw
    omega
  omega

theorem unsigned_or_eq_zero {a b : Nat} :
    f.unsigned (a ||| b) = 0 ↔ f.unsigned a = 0 ∧ f.unsigned b = 0 := by
  unfold unsigned
  rw [Nat.or_mod_two_pow, Nat.or_eq_zero_iff]

variable {s e m : Nat}

theorem fields_lt (he : e < 2 ^ f.exponentBits) (hm : m < 2 ^ f.fractionBits) :
    e * 2 ^ f.fractionBits + m < 2 ^ f.magnitudeBits := by
  have hmul : (e + 1) * 2 ^ f.fractionBits ≤ 2 ^ f.exponentBits * 2 ^ f.fractionBits :=
    Nat.mul_le_mul_right _ he
  rw [magnitudeBits, Nat.pow_add]
  rw [Nat.succ_mul] at hmul
  omega

theorem pack_eq (he : e < 2 ^ f.exponentBits) (hm : m < 2 ^ f.fractionBits) :
    f.pack s e m = s * 2 ^ f.magnitudeBits + (e * 2 ^ f.fractionBits + m) := by
  have hfit := fields_lt (f := f) he hm
  have hword : ((e : Int) * 2 ^ f.fractionBits % 2 ^ f.width).toNat = e * 2 ^ f.fractionBits := by
    have hlt : e * 2 ^ f.fractionBits < 2 ^ f.width := by
      rw [width, Nat.pow_succ]
      omega
    have hcast : (e : Int) * 2 ^ f.fractionBits = ((e * 2 ^ f.fractionBits : Nat) : Int) := by
      push_cast
      rfl
    rw [hcast,
      show (2 : Int) ^ f.width = ((2 ^ f.width : Nat) : Int) by push_cast; rfl,
      ← Int.natCast_mod, Int.toNat_natCast, Nat.mod_eq_of_lt hlt]
  rw [pack, hword, Nat.or_comm (e * 2 ^ f.fractionBits), Nat.or_assoc, Nat.mul_comm e,
    ← Nat.two_pow_add_eq_or_of_lt hm, Nat.mul_comm s, ← Nat.two_pow_add_eq_or_of_lt (by
      rwa [Nat.mul_comm e] at hfit)]

theorem fields_pack (he : e < 2 ^ f.exponentBits) (hm : m < 2 ^ f.fractionBits) :
    f.sign (f.pack s e m) = s ∧ f.exponent (f.pack s e m) = e ∧ f.fraction (f.pack s e m) = m := by
  have hpow : 2 ^ f.magnitudeBits = 2 ^ f.exponentBits * 2 ^ f.fractionBits := by
    rw [magnitudeBits, Nat.pow_add]
  have hfit := fields_lt (f := f) he hm
  have hpos := Nat.two_pow_pos f.fractionBits
  rw [pack_eq he hm]
  refine ⟨?_, ?_, ?_⟩
  · rw [sign, Nat.mul_comm, Nat.mul_add_div (Nat.two_pow_pos _), Nat.div_eq_of_lt hfit,
      Nat.add_zero]
  · rw [exponent, hpow, ← Nat.mul_assoc, ← Nat.add_assoc, ← Nat.add_mul, Nat.mul_comm _ (2 ^ _),
      Nat.mul_add_div hpos, Nat.div_eq_of_lt hm, Nat.add_zero, Nat.mul_comm s,
      Nat.mul_add_mod, Nat.mod_eq_of_lt he]
  · rw [fraction, hpow, ← Nat.mul_assoc, ← Nat.add_assoc, ← Nat.add_mul, Nat.mul_comm _ (2 ^ _),
      Nat.mul_add_mod, Nat.mod_eq_of_lt hm]

end Fields

/-! ## Order -/

section Order

variable {f}

theorem units_lt_two_pow (w : Nat) : f.units w < 2 ^ f.fractionBits * 2 ^ f.exponent w := by
  unfold units
  split
  case isTrue h =>
    rw [h, Nat.pow_zero, Nat.mul_one]
    exact fraction_lt w
  case isFalse h =>
    calc f.significand w * 2 ^ (f.exponent w - 1)
        < 2 * 2 ^ f.fractionBits * 2 ^ (f.exponent w - 1) :=
          Nat.mul_lt_mul_of_pos_right (significand_lt w) (Nat.two_pow_pos _)
      _ = 2 ^ f.fractionBits * 2 ^ (f.exponent w - 1 + 1) := by rw [Nat.pow_succ]; ring
      _ = 2 ^ f.fractionBits * 2 ^ f.exponent w := by rw [Nat.sub_add_cancel (by omega)]

theorem two_pow_le_units {w e : Nat} (h : e < f.exponent w) :
    2 ^ f.fractionBits * 2 ^ e ≤ f.units w := by
  rw [units, if_neg (by omega)]
  exact Nat.mul_le_mul (le_significand w) (Nat.pow_le_pow_right (by decide) (by omega))

theorem exponent_le_of_unsigned_le {a b : Nat} (h : f.unsigned a ≤ f.unsigned b) :
    f.exponent a ≤ f.exponent b := by
  rw [unsigned_eq, unsigned_eq] at h
  by_contra hlt
  have hmul : (f.exponent b + 1) * 2 ^ f.fractionBits ≤ f.exponent a * 2 ^ f.fractionBits :=
    Nat.mul_le_mul_right _ (by omega)
  have := fraction_lt (f := f) b
  rw [Nat.succ_mul] at hmul
  omega

theorem units_lt_units {a b : Nat} (h : f.unsigned a < f.unsigned b) : f.units a < f.units b := by
  rcases Nat.lt_or_ge (f.exponent a) (f.exponent b) with hlt | hge
  · exact Nat.lt_of_lt_of_le (units_lt_two_pow a) (two_pow_le_units hlt)
  · have heq : f.exponent a = f.exponent b :=
      Nat.le_antisymm (exponent_le_of_unsigned_le h.le) hge
    have hfraction : f.fraction a < f.fraction b := by
      rw [unsigned_eq, unsigned_eq, heq] at h
      omega
    unfold units
    rw [heq]
    split
    · exact hfraction
    · exact Nat.mul_lt_mul_of_pos_right (Nat.add_lt_add_left hfraction _) (Nat.two_pow_pos _)

theorem units_congr {a b : Nat} (h : f.unsigned a = f.unsigned b) : f.units a = f.units b := by
  have hexponent : f.exponent a = f.exponent b :=
    Nat.le_antisymm (exponent_le_of_unsigned_le h.le) (exponent_le_of_unsigned_le h.ge)
  have hfraction : f.fraction a = f.fraction b := by
    rw [unsigned_eq, unsigned_eq, hexponent] at h
    omega
  rw [units, units, significand, significand, hexponent, hfraction]

theorem units_lt_units_iff {a b : Nat} : f.units a < f.units b ↔ f.unsigned a < f.unsigned b := by
  constructor
  · intro h
    by_contra hle
    rcases Nat.lt_or_eq_of_le (Nat.le_of_not_lt hle) with hlt | heq
    · exact Nat.lt_asymm h (units_lt_units hlt)
    · exact Nat.ne_of_lt h (units_congr heq.symm)
  · exact units_lt_units

theorem units_eq_zero_iff {a : Nat} : f.units a = 0 ↔ f.unsigned a = 0 := by
  have hzero : f.unsigned 0 = 0 := Nat.zero_mod _
  have hunits : f.units 0 = 0 := by
    rw [units, if_pos (by rw [exponent, Nat.zero_div, Nat.zero_mod]), fraction, Nat.zero_mod]
  have h := units_lt_units_iff (f := f) (a := 0) (b := a)
  rw [hzero, hunits] at h
  omega

theorem magnitude_le_magnitude {a b : Nat} (h : f.unsigned a ≤ f.unsigned b) :
    f.magnitude a ≤ f.magnitude b := by
  unfold magnitude
  split
  case isTrue => exact Nat.zero_le _
  case isFalse hne =>
    rw [if_neg (by omega)]
    rcases Nat.lt_or_eq_of_le (exponent_le_of_unsigned_le h) with hlt | heq
    · calc f.significand a * 2 ^ f.exponent a
          ≤ 2 * 2 ^ f.fractionBits * 2 ^ f.exponent a :=
            Nat.mul_le_mul_right _ (significand_lt a).le
        _ = 2 ^ f.fractionBits * 2 ^ (f.exponent a + 1) := by rw [Nat.pow_succ]; ring
        _ ≤ f.significand b * 2 ^ f.exponent b :=
            Nat.mul_le_mul (le_significand b) (Nat.pow_le_pow_right (by decide) hlt)
    · have hfraction : f.fraction a ≤ f.fraction b := by
        rw [unsigned_eq, unsigned_eq, heq] at h
        omega
      rw [heq]
      exact Nat.mul_le_mul_right _ (Nat.add_le_add_left hfraction _)

theorem magnitude_eq_two_mul_units {w : Nat} (h : f.exponent w ≠ 0) :
    f.magnitude w = 2 * f.units w := by
  have hpos := Nat.two_pow_pos f.fractionBits
  have hne : f.unsigned w ≠ 0 := by
    have := Nat.mul_pos (Nat.pos_of_ne_zero h) hpos
    rw [unsigned_eq]
    omega
  rw [magnitude, if_neg hne, units, if_neg h]
  calc f.significand w * 2 ^ f.exponent w
      = f.significand w * 2 ^ (f.exponent w - 1 + 1) := by rw [Nat.sub_add_cancel (by omega)]
    _ = 2 * (f.significand w * 2 ^ (f.exponent w - 1)) := by rw [Nat.pow_succ]; ring

end Order

/-! ## Truncation -/

/-- The word is the largest one not above the quotient, in half units. -/
def Truncates (w num den : Nat) : Prop :=
  f.magnitude w * den ≤ num ∧ num < (f.magnitude w + 2 ^ f.exponent w) * den

def NormalQuotient (num den : Nat) : Prop :=
  2 * 2 ^ f.fractionBits * den ≤ num ∧
    num < 2 ^ f.fractionBits * 2 ^ (2 ^ f.exponentBits - 1) * den

section Truncation

variable {f} {num den q e s : Nat}

theorem NormalQuotient.exponent_range (h : f.NormalQuotient num den)
    (hlow : 2 ^ f.fractionBits ≤ q) (hhigh : q < 2 * 2 ^ f.fractionBits)
    (hle : q * 2 ^ e * den ≤ num) (hlt : num < (q + 1) * 2 ^ e * den) :
    0 < e ∧ e < 2 ^ f.exponentBits - 1 := by
  have hpos : 0 < 2 ^ f.fractionBits := Nat.two_pow_pos _
  have hden : 0 < den := by
    rcases Nat.eq_zero_or_pos den with rfl | hden
    · omega
    · exact hden
  constructor
  · by_contra hzero
    obtain rfl : e = 0 := by omega
    have hq : (q + 1) * den ≤ 2 * 2 ^ f.fractionBits * den := Nat.mul_le_mul_right _ hhigh
    rw [Nat.pow_zero, Nat.mul_one] at hlt
    exact Nat.lt_irrefl _ (Nat.lt_of_lt_of_le hlt (hq.trans h.1))
  · have hbelow : 2 ^ f.fractionBits * 2 ^ e * den
        < 2 ^ f.fractionBits * 2 ^ (2 ^ f.exponentBits - 1) * den := by
      refine Nat.lt_of_le_of_lt (Nat.le_trans ?_ hle) h.2
      exact Nat.mul_le_mul_right _ (Nat.mul_le_mul_right _ hlow)
    exact (Nat.pow_lt_pow_iff_right (by decide)).mp
      (Nat.lt_of_mul_lt_mul_left (Nat.lt_of_mul_lt_mul_right hbelow))

theorem magnitude_pack (hlow : 2 ^ f.fractionBits ≤ q) (hhigh : q < 2 * 2 ^ f.fractionBits)
    (hepos : 0 < e) (helt : e < 2 ^ f.exponentBits) :
    f.magnitude (f.pack s e (q % 2 ^ f.fractionBits)) = q * 2 ^ e ∧
      f.sign (f.pack s e (q % 2 ^ f.fractionBits)) = s ∧
      f.exponent (f.pack s e (q % 2 ^ f.fractionBits)) = e := by
  have hfraction : q % 2 ^ f.fractionBits = q - 2 ^ f.fractionBits := by
    rw [Nat.mod_eq_sub_mod hlow, Nat.mod_eq_of_lt (by omega)]
  obtain ⟨hsign, hexponent, hmantissa⟩ := fields_pack (f := f) (s := s) (e := e)
    (m := q % 2 ^ f.fractionBits) helt (Nat.mod_lt _ (Nat.two_pow_pos _))
  have hne : f.unsigned (f.pack s e (q % 2 ^ f.fractionBits)) ≠ 0 := by
    have := Nat.mul_pos hepos (Nat.two_pow_pos f.fractionBits)
    rw [unsigned_eq, hexponent]
    omega
  refine ⟨?_, hsign, hexponent⟩
  rw [magnitude, if_neg hne, significand, hexponent, hmantissa, hfraction,
    Nat.add_sub_cancel' hlow]

theorem truncates_pack (h : f.NormalQuotient num den)
    (hlow : 2 ^ f.fractionBits ≤ q) (hhigh : q < 2 * 2 ^ f.fractionBits)
    (hle : q * 2 ^ e * den ≤ num) (hlt : num < (q + 1) * 2 ^ e * den) :
    f.Truncates (f.pack s e (q % 2 ^ f.fractionBits)) num den ∧
      f.sign (f.pack s e (q % 2 ^ f.fractionBits)) = s := by
  obtain ⟨hepos, helt⟩ := h.exponent_range hlow hhigh hle hlt
  obtain ⟨hmagnitude, hsign, hexponent⟩ :=
    magnitude_pack (f := f) (s := s) hlow hhigh hepos (by omega)
  refine ⟨⟨?_, ?_⟩, hsign⟩
  · rwa [hmagnitude]
  · rwa [hmagnitude, hexponent, ← Nat.succ_mul]

theorem Truncates.of_mul_right {w d : Nat} (h : f.Truncates w (num * d) d) :
    f.Truncates w num 1 := by
  obtain ⟨hle, hlt⟩ := h
  have hd : 0 < d := Nat.pos_of_mul_pos_left (Nat.lt_of_le_of_lt (Nat.zero_le _) hlt)
  refine ⟨?_, ?_⟩ <;> rw [Nat.mul_one]
  · exact Nat.le_of_mul_le_mul_right hle hd
  · exact Nat.lt_of_mul_lt_mul_right hlt

theorem two_pow_le_magnitude {w : Nat} (h : f.magnitude w ≠ 0) :
    2 ^ f.fractionBits * 2 ^ f.exponent w ≤ f.magnitude w := by
  unfold magnitude at h ⊢
  split
  case isTrue hzero => exact absurd (if_pos hzero) h
  case isFalse => exact Nat.mul_le_mul_right _ (le_significand w)

theorem Truncates.eq_of_lt {w N M : Nat} (h : f.Truncates w (N * 2 ^ M) 1)
    (hN : N < 2 ^ f.fractionBits) : f.magnitude w = N * 2 ^ M := by
  obtain ⟨hle, hlt⟩ := h
  rw [Nat.mul_one] at hle hlt
  by_cases hzero : f.magnitude w = 0
  · have hexponent : f.exponent w = 0 := by
      have hunsigned : f.unsigned w = 0 := by
        by_contra hne
        rw [magnitude, if_neg hne] at hzero
        have := Nat.mul_pos (significand_pos (f := f) w) (Nat.two_pow_pos (f.exponent w))
        omega
      rw [unsigned_eq] at hunsigned
      rcases Nat.eq_zero_or_pos (f.exponent w) with h | h
      · exact h
      · have := Nat.mul_pos h (Nat.two_pow_pos f.fractionBits)
        omega
    rw [hzero, hexponent] at hlt
    omega
  · have hexponent : f.exponent w ≤ M := by
      have hpow : 2 ^ f.fractionBits * 2 ^ f.exponent w < 2 ^ f.fractionBits * 2 ^ M := by
        calc 2 ^ f.fractionBits * 2 ^ f.exponent w ≤ f.magnitude w := two_pow_le_magnitude hzero
          _ ≤ N * 2 ^ M := hle
          _ < 2 ^ f.fractionBits * 2 ^ M := Nat.mul_lt_mul_of_pos_right hN (Nat.two_pow_pos _)
      exact ((Nat.pow_lt_pow_iff_right (by decide)).mp (Nat.lt_of_mul_lt_mul_left hpow)).le
    have hunit : 2 ^ f.exponent w ∣ f.magnitude w := by
      unfold magnitude
      split
      · exact Nat.dvd_zero _
      · exact Nat.dvd_mul_left _ _
    obtain ⟨x, hx⟩ := hunit
    obtain ⟨y, hy⟩ : 2 ^ f.exponent w ∣ N * 2 ^ M :=
      Nat.dvd_mul_left_of_dvd (Nat.pow_dvd_pow 2 hexponent) N
    rw [hx, hy] at hle hlt ⊢
    rw [← Nat.mul_succ] at hlt
    have := Nat.le_of_mul_le_mul_left hle (Nat.two_pow_pos _)
    have := Nat.lt_of_mul_lt_mul_left hlt
    rw [show x = y by omega]

theorem Truncates.normal {w : Nat} (ht : f.Truncates w num den) (h : f.NormalQuotient num den) :
    f.Normal w := by
  have hpos := Nat.two_pow_pos f.fractionBits
  constructor
  · intro hzero
    have hsmall : f.magnitude w + 1 ≤ 2 * 2 ^ f.fractionBits := by
      have hlt := significand_lt (f := f) w
      unfold magnitude
      rw [hzero, Nat.pow_zero, Nat.mul_one]
      split <;> omega
    have hlow := Nat.mul_le_mul_right den hsmall
    have habove := ht.2
    rw [hzero, Nat.pow_zero] at habove
    exact Nat.lt_irrefl _ (Nat.lt_of_lt_of_le habove (hlow.trans h.1))
  · by_cases hzero : f.magnitude w = 0
    · -- nothing below a whole unit is in the range
      have habove := ht.2
      have hunsigned : f.unsigned w = 0 := by
        by_contra hne
        have := Nat.mul_pos (f.significand_pos w) (Nat.two_pow_pos (f.exponent w))
        rw [magnitude, if_neg hne] at hzero
        omega
      have hexponent : f.exponent w = 0 := by
        have hsplit := unsigned_eq (f := f) w
        rw [hunsigned] at hsplit
        exact (Nat.mul_eq_zero.mp (by omega)).resolve_right hpos.ne'
      have hlow := Nat.mul_le_mul_right den (show 1 ≤ 2 * 2 ^ f.fractionBits by omega)
      rw [hzero, hexponent] at habove
      exact absurd (Nat.lt_of_lt_of_le habove (hlow.trans h.1)) (Nat.lt_irrefl _)
    · have hle := Nat.mul_le_mul_right den (f.two_pow_le_magnitude hzero)
      have hlt := Nat.lt_of_le_of_lt (hle.trans ht.1) h.2
      exact (Nat.pow_lt_pow_iff_right (by decide)).mp
        (Nat.lt_of_mul_lt_mul_left (Nat.lt_of_mul_lt_mul_right hlt))

end Truncation

/-! ## Normal words -/

/-- The word is the largest normal one not above the quotient, in units. -/
structure Cuts (w num den : Nat) : Prop where
  normal : f.Normal w
  below : f.units w * den ≤ num
  above : num < (f.units w + 2 ^ (f.exponent w - 1)) * den

/-- The quotient, in units, is between the least normal number and the infinity. -/
def InRange (num den : Nat) : Prop :=
  2 ^ f.fractionBits * den ≤ num ∧ num < 2 ^ f.fractionBits * 2 ^ (2 ^ f.exponentBits - 2) * den

section Normal

variable {f} {num den w : Nat}

theorem Normal.magnitude_eq (h : f.Normal w) : f.magnitude w = 2 * f.units w :=
  magnitude_eq_two_mul_units h.1

theorem Normal.two_pow_exponent (h : f.Normal w) :
    2 ^ f.exponent w = 2 * 2 ^ (f.exponent w - 1) := by
  rw [← Nat.pow_succ', Nat.succ_eq_add_one, Nat.sub_add_cancel (Nat.pos_of_ne_zero h.1)]

theorem Normal.exponentBits_pos (h : f.Normal w) : 0 < f.exponentBits := by
  refine Nat.pos_of_ne_zero fun hzero => ?_
  have hlt := h.2
  rw [hzero] at hlt
  omega

theorem Normal.unsigned_ne_zero (h : f.Normal w) : f.unsigned w ≠ 0 := by
  have hpos := Nat.mul_pos (Nat.pos_of_ne_zero h.1) (Nat.two_pow_pos f.fractionBits)
  rw [unsigned_eq]
  omega

theorem InRange.normalQuotient (h : f.InRange num den) (hE : 0 < f.exponentBits) :
    f.NormalQuotient (2 * num) den := by
  obtain ⟨hlow, hhigh⟩ := h
  have hbits : 2 ^ 1 ≤ 2 ^ f.exponentBits := Nat.pow_le_pow_right (by decide) hE
  have hdouble : 2 ^ (2 ^ f.exponentBits - 1) = 2 * 2 ^ (2 ^ f.exponentBits - 2) := by
    rw [← Nat.pow_succ', Nat.succ_eq_add_one]
    congr 1
    omega
  constructor
  · rw [Nat.mul_assoc]
    exact Nat.mul_le_mul_left 2 hlow
  · rw [hdouble, Nat.mul_left_comm, Nat.mul_assoc 2]
    omega

theorem Truncates.cuts (ht : f.Truncates w (2 * num) den) (h : f.NormalQuotient (2 * num) den) :
    f.Cuts w num den := by
  have hnormal := ht.normal h
  obtain ⟨hbelow, habove⟩ := ht
  rw [hnormal.magnitude_eq, Nat.mul_assoc] at hbelow
  rw [hnormal.magnitude_eq, hnormal.two_pow_exponent, ← Nat.mul_add, Nat.mul_assoc] at habove
  exact ⟨hnormal, by omega, by omega⟩

end Normal

end FloatFormat

end BlockyOS.Foundation
