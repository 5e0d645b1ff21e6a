import BlockyOS.Foundation.FloatFormats
import BlockyOS.Foundation.LongDivision

/-!
# Software floating point

The library is built for software floating point, so that an operator on doubles
is a call of a routine here.  The routines for both formats differ in the format
alone, the division apart.
-/

namespace BlockyOS.Libcrt.SoftFloat

open BlockyOS.Foundation

def single : FloatFormat := ⟨23, 8⟩

def double : FloatFormat := ⟨52, 11⟩

/-! ## The routines -/

section Routines

variable (f : FloatFormat)

def equal (a b : Nat) : Int :=
  if f.unsigned (a ||| b) = 0 then 0 else if a = b then 0 else 1

def ordering (a b : Nat) : Ordering :=
  if f.unsigned (a ||| b) = 0 then .eq
  else if f.sign a ≠ f.sign b then (if f.sign a ≠ 0 then .lt else .gt)
  else if f.sign a ≠ 0 then compare b a
  else compare a b

def less (a b : Nat) : Int := if (ordering f a b).isLT then -1 else 0

def lessEqual (a b : Nat) : Int := if (ordering f a b).isLE then 0 else 1

def greater (a b : Nat) : Int := if (ordering f a b).isGT then 1 else 0

def greaterEqual (a b : Nat) : Int := if (ordering f a b).isGE then 0 else -1

def aligned (a b : Nat) : Nat :=
  f.significand b >>> min (f.exponent a - f.exponent b) (f.width - 1)

/-- The sum of operands of one sign, the first of which is not smaller. -/
def addAligned (a b : Nat) : Nat :=
  let sum := f.significand a + aligned f a b
  if sum.testBit (f.fractionBits + 1) then
    f.pack (f.sign a) (f.exponent a + 1) (sum >>> 1 % 2 ^ f.fractionBits)
  else f.pack (f.sign a) (f.exponent a) (sum % 2 ^ f.fractionBits)

def subAligned (a b : Nat) : Nat :=
  let r := doubleUpTo (2 ^ f.fractionBits) f.fractionBits (f.significand a - aligned f a b)
  f.pack (f.sign a) (f.exponent a - r.2) (r.1 % 2 ^ f.fractionBits)

def add (a b : Nat) : Nat :=
  if f.unsigned a = 0 then b
  else if f.unsigned b = 0 then a
  else if f.sign a = f.sign b then
    if f.unsigned b ≤ f.unsigned a then addAligned f a b else addAligned f b a
  else if f.unsigned a = f.unsigned b then 0
  else if f.unsigned b ≤ f.unsigned a then subAligned f a b else subAligned f b a

def negate (a : Nat) : Nat := a ^^^ 2 ^ f.magnitudeBits

def sub (a b : Nat) : Nat := add f a (negate f b)

def signedZero (a b : Nat) : Nat := (a ^^^ b) &&& 2 ^ f.magnitudeBits

def mul (a b : Nat) : Nat :=
  if f.unsigned a = 0 then signedZero f a b
  else if f.unsigned b = 0 then signedZero f a b
  else
    let product := f.significand a * f.significand b
    let e : Int := f.exponent a + f.exponent b - f.bias
    let s := (f.sign a + f.sign b) % 2
    if product.testBit (2 * f.fractionBits + 1) then
      f.pack s (e + 1) (product >>> (f.fractionBits + 1) % 2 ^ f.fractionBits)
    else f.pack s e (product >>> f.fractionBits % 2 ^ f.fractionBits)

end Routines

def eqsf2 : Nat → Nat → Int := equal single
def ltsf2 : Nat → Nat → Int := less single
def lesf2 : Nat → Nat → Int := lessEqual single
def gtsf2 : Nat → Nat → Int := greater single
def addsf3 : Nat → Nat → Nat := add single
def subsf3 : Nat → Nat → Nat := sub single
def mulsf3 : Nat → Nat → Nat := mul single

def eqdf2 : Nat → Nat → Int := equal double
def ltdf2 : Nat → Nat → Int := less double
def ledf2 : Nat → Nat → Int := lessEqual double
def gtdf2 : Nat → Nat → Int := greater double
def gedf2 : Nat → Nat → Int := greaterEqual double
def adddf3 : Nat → Nat → Nat := add double
def subdf3 : Nat → Nat → Nat := sub double
def muldf3 : Nat → Nat → Nat := mul double

def divsf3 (a b : Nat) : Nat :=
  if single.unsigned a = 0 then signedZero single a b
  else
    let e : Int := single.exponent a - single.exponent b + single.bias
    let s := (single.sign a + single.sign b) % 2
    if single.significand b ≤ single.significand a then
      single.pack s e (single.significand a <<< 23 / single.significand b % 2 ^ 23)
    else single.pack s (e - 1) (single.significand a <<< 24 / single.significand b % 2 ^ 23)

/-- The dividend is the shifted significand as the upper word; the quotient has to fit a word. -/
def divdf3 (a b : Nat) : Option Nat :=
  if double.unsigned a = 0 then some (signedZero double a b)
  else
    let e : Int := double.exponent a - double.exponent b + double.bias
    let s := (double.sign a + double.sign b) % 2
    let shift := if double.significand b ≤ double.significand a then 52 else 53
    let e := if double.significand b ≤ double.significand a then e else e - 1
    let upper := double.significand a <<< shift % 2 ^ 64
    if double.significand b ≤ upper then none
    else some (double.pack s e (upper * 2 ^ 64 / double.significand b % 2 ^ 52))

/-! ## Comparisons -/

section Comparisons

variable {f : FloatFormat} {a b : Nat}

theorem compare_eq_of_iff {i j : Nat} {x y : Int} (hlt : i < j ↔ x < y) (hgt : j < i ↔ y < x) :
    compare i j = compare x y := by
  rw [Nat.compare_eq_ite_lt, Int.compare_eq_ite_lt]
  simp only [hlt, hgt]

theorem ordering_eq (ha : a < 2 ^ f.width) (hb : b < 2 ^ f.width) :
    ordering f a b = compare (f.value a) (f.value b) := by
  have hzero := f.unsigned_or_eq_zero (a := a) (b := b)
  have hab := f.units_lt_units_iff (a := a) (b := b)
  have hba := f.units_lt_units_iff (a := b) (b := a)
  have hza := f.units_eq_zero_iff (a := a)
  have hzb := f.units_eq_zero_iff (a := b)
  have hworda := f.eq_sign_add a
  have hwordb := f.eq_sign_add b
  have hsa := f.sign_le ha
  have hsb := f.sign_le hb
  unfold ordering
  by_cases hz : f.unsigned (a ||| b) = 0
  · obtain ⟨hua, hub⟩ := hzero.mp hz
    rw [if_pos hz, FloatFormat.value, FloatFormat.value, hza.mpr hua, hzb.mpr hub]
    simp
  · have hnot := mt hzero.mpr hz
    rw [if_neg hz]
    rcases Nat.lt_or_eq_of_le hsa with hpa | hna <;> rcases Nat.lt_or_eq_of_le hsb with hpb | hnb
    · have hpa : f.sign a = 0 := by omega
      have hpb : f.sign b = 0 := by omega
      rw [hpa] at hworda
      rw [hpb] at hwordb
      rw [if_neg (by omega), if_neg (by omega), FloatFormat.value, FloatFormat.value,
        if_pos hpa, if_pos hpb]
      exact compare_eq_of_iff (by omega) (by omega)
    · have hpa : f.sign a = 0 := by omega
      rw [if_pos (by omega), if_neg (by omega), FloatFormat.value, FloatFormat.value,
        if_pos hpa, if_neg (by omega), eq_comm, Int.compare_eq_gt]
      omega
    · have hpb : f.sign b = 0 := by omega
      rw [if_pos (by omega), if_pos (by omega), FloatFormat.value, FloatFormat.value,
        if_neg (by omega), if_pos hpb, eq_comm, Int.compare_eq_lt]
      omega
    · rw [hna] at hworda
      rw [hnb] at hwordb
      rw [if_neg (by omega), if_pos (by omega), FloatFormat.value, FloatFormat.value,
        if_neg (by omega), if_neg (by omega)]
      exact compare_eq_of_iff (by omega) (by omega)

theorem equal_eq : equal f a b = 0 ↔ ordering f a b = .eq := by
  unfold equal ordering
  split
  case isTrue => simp
  case isFalse hz =>
    split
    case isTrue heq => simp [heq]
    case isFalse hne =>
      simp only [one_ne_zero, false_iff]
      repeat' split
      all_goals simp [hne, Ne.symm hne]

theorem greater_iff (ha : a < 2 ^ f.width) (hb : b < 2 ^ f.width) :
    greater f a b > 0 ↔ f.value a > f.value b := by
  unfold greater
  rw [ordering_eq ha hb]
  rcases lt_trichotomy (f.value a) (f.value b) with hlt | heq | hgt
  · rw [Int.compare_eq_lt.mpr hlt]
    simp [hlt.le]
  · rw [Int.compare_eq_eq.mpr heq]
    simp [heq]
  · rw [Int.compare_eq_gt.mpr hgt]
    simp [hgt]

/-- Each comparison answers as its relation on what the words stand for. -/
theorem comparisons_right (ha : a < 2 ^ f.width) (hb : b < 2 ^ f.width) :
    (equal f a b = 0 ↔ f.value a = f.value b) ∧
    (less f a b < 0 ↔ f.value a < f.value b) ∧
    (lessEqual f a b ≤ 0 ↔ f.value a ≤ f.value b) ∧
    (greater f a b > 0 ↔ f.value a > f.value b) ∧
    (greaterEqual f a b ≥ 0 ↔ f.value a ≥ f.value b) := by
  have horder := ordering_eq ha hb
  rw [equal_eq]
  unfold less lessEqual greater greaterEqual
  rw [horder]
  rcases lt_trichotomy (f.value a) (f.value b) with hlt | heq | hgt
  · rw [Int.compare_eq_lt.mpr hlt]
    simp [hlt, hlt.le, hlt.ne, hlt.not_ge, hlt.not_gt]
  · rw [Int.compare_eq_eq.mpr heq]
    simp [heq]
  · rw [Int.compare_eq_gt.mpr hgt]
    simp [hgt, hgt.le, hgt.ne', hgt.not_ge, hgt.not_gt]

/-- A negative double against the quiet NaN. -/
theorem comparisons_right_nan :
    (equal double 0xbff8000000000000 0x7ff8000000000000 = 0 ↔
      double.value 0xbff8000000000000 = double.value 0x7ff8000000000000) ∧
    (less double 0xbff8000000000000 0x7ff8000000000000 < 0 ↔
      double.value 0xbff8000000000000 < double.value 0x7ff8000000000000) ∧
    (lessEqual double 0xbff8000000000000 0x7ff8000000000000 ≤ 0 ↔
      double.value 0xbff8000000000000 ≤ double.value 0x7ff8000000000000) ∧
    (greater double 0xbff8000000000000 0x7ff8000000000000 > 0 ↔
      double.value 0xbff8000000000000 > double.value 0x7ff8000000000000) ∧
    (greaterEqual double 0xbff8000000000000 0x7ff8000000000000 ≥ 0 ↔
      double.value 0xbff8000000000000 ≥ double.value 0x7ff8000000000000) :=
  comparisons_right (by decide) (by decide)

end Comparisons

end BlockyOS.Libcrt.SoftFloat
