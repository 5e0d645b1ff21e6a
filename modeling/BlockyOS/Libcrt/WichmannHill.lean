import BlockyOS.Foundation.Multipliers
import BlockyOS.Libcrt.FloatRemainder
import BlockyOS.Libcrt.SoftFloatConversions
import Mathlib.Tactic.NormNum.Prime

/-!
# The generator of Wichmann and Hill

Three multiplicative generators run side by side, and the sum of their quotients
without its integer part is the number that is returned.
-/

namespace BlockyOS.Libcrt

open BlockyOS.Foundation
open BlockyOS.Libcrt.SoftFloat

/-- The three words of `seed`. -/
@[ext]
structure Seed where
  s0 : Nat
  s1 : Nat
  s2 : Nat
  deriving DecidableEq

/-- The `__clamp` macro. -/
def clamp (a b n : Nat) : Nat := if n > a then (if n < b then n else b) else a

def whSeed (a b c : UInt16) : Seed :=
  ⟨clamp 1 30000 a.toNat, clamp 1 30000 b.toNat, clamp 1 30000 c.toNat⟩

/-- The words that `wichmann_hill` leaves in `seed`. -/
def nextSeed (s : Seed) : Seed :=
  ⟨multiplied 171 30269 s.s0, multiplied 172 30307 s.s1, multiplied 170 30323 s.s2⟩

/-- The number that `wichmann_hill` makes of the words; a division may fault. -/
def seedNumber (s : Seed) : Option Nat := do
  let x ← divdf3 (floatsidf (Int32.ofNat s.s0)) 0x40dd8f4000000000
  let y ← divdf3 (floatsidf (Int32.ofNat s.s1)) 0x40dd98c000000000
  let z ← divdf3 (floatsidf (Int32.ofNat s.s2)) 0x40dd9cc000000000
  some (truncdfsf2 (fmod (adddf3 (adddf3 x y) z) 0x3ff0000000000000))

def wichmannHill (s : Seed) : Option (Nat × Seed) :=
  (seedNumber (nextSeed s)).map fun r => (r, nextSeed s)

/-! ## The state -/

/-- Each word is between zero and its modulus. -/
def SeedInRange (s : Seed) : Prop :=
  (0 < s.s0 ∧ s.s0 < 30269) ∧ (0 < s.s1 ∧ s.s1 < 30307) ∧ (0 < s.s2 ∧ s.s2 < 30323)

section State

theorem clamp_bounds (n : Nat) : 0 < clamp 1 30000 n ∧ clamp 1 30000 n ≤ 30000 := by
  unfold clamp
  split
  · split <;> omega
  · omega

theorem seedInRange_whSeed (a b c : UInt16) : SeedInRange (whSeed a b c) := by
  have ha := clamp_bounds a.toNat
  have hb := clamp_bounds b.toNat
  have hc := clamp_bounds c.toNat
  unfold SeedInRange whSeed
  dsimp only
  omega

theorem iterate_nextSeed (s : Seed) (n : Nat) :
    nextSeed^[n] s = ⟨(multiplied 171 30269)^[n] s.s0, (multiplied 172 30307)^[n] s.s1,
      (multiplied 170 30323)^[n] s.s2⟩ := by
  induction n generalizing s with
  | zero => rfl
  | succ n ih =>
      rw [Function.iterate_succ_apply, ih]
      rfl

instance prime_first : Fact (Nat.Prime 30269) := ⟨by norm_num⟩

instance prime_second : Fact (Nat.Prime 30307) := ⟨by norm_num⟩

instance prime_third : Fact (Nat.Prime 30323) := ⟨by norm_num⟩

theorem orderOf_first : orderOf ((171 : Nat) : ZMod 30269) = 30268 :=
  orderOf_natCast_eq [2, 2, 7, 23, 47] (by decide) (by norm_num) (by decide +kernel)
    (by decide +kernel)

theorem orderOf_second : orderOf ((172 : Nat) : ZMod 30307) = 30306 :=
  orderOf_natCast_eq [2, 3, 5051] (by decide) (by norm_num) (by decide +kernel)
    (by decide +kernel)

theorem orderOf_third : orderOf ((170 : Nat) : ZMod 30323) = 30322 :=
  orderOf_natCast_eq [2, 15161] (by decide) (by norm_num) (by decide +kernel)
    (by decide +kernel)

theorem seedInRange_iterate {s : Seed} (h : SeedInRange s) (n : Nat) :
    SeedInRange (nextSeed^[n] s) := by
  obtain ⟨⟨hpos0, hlt0⟩, ⟨hpos1, hlt1⟩, hpos2, hlt2⟩ := h
  rw [iterate_nextSeed]
  refine ⟨⟨?_, iterate_multiplied_lt hlt0 n⟩, ⟨?_, iterate_multiplied_lt hlt1 n⟩, ?_,
    iterate_multiplied_lt hlt2 n⟩
  · exact iterate_multiplied_pos (cast_ne_zero (by decide) (by decide)) hpos0 hlt0 n
  · exact iterate_multiplied_pos (cast_ne_zero (by decide) (by decide)) hpos1 hlt1 n
  · exact iterate_multiplied_pos (cast_ne_zero (by decide) (by decide)) hpos2 hlt2 n

theorem iterate_nextSeed_eq_self_iff {s : Seed} (h : SeedInRange s) (n : Nat) :
    nextSeed^[n] s = s ↔ 6953607871644 ∣ n := by
  obtain ⟨⟨hpos0, hlt0⟩, ⟨hpos1, hlt1⟩, hpos2, hlt2⟩ := h
  have hlcm : Nat.lcm 30268 (Nat.lcm 30306 30322) = 6953607871644 := by decide +kernel
  rw [iterate_nextSeed, Seed.ext_iff, iterate_multiplied_eq_self_iff hpos0 hlt0,
    iterate_multiplied_eq_self_iff hpos1 hlt1, iterate_multiplied_eq_self_iff hpos2 hlt2,
    orderOf_first, orderOf_second, orderOf_third, ← hlcm, Nat.lcm_dvd_iff, Nat.lcm_dvd_iff]

/-- No seed leads into a shorter cycle, or to a word that stays zero. -/
theorem seed_cycle (a b c : UInt16) (n : Nat) :
    SeedInRange (nextSeed^[n] (whSeed a b c)) ∧
      (nextSeed^[n] (whSeed a b c) = whSeed a b c ↔ 6953607871644 ∣ n) :=
  ⟨seedInRange_iterate (seedInRange_whSeed a b c) n,
    iterate_nextSeed_eq_self_iff (seedInRange_whSeed a b c) n⟩

/-- The words that the program starts with are not seeded. -/
example : nextSeed ⟨0, 0, 0⟩ = ⟨0, 0, 0⟩ := rfl

end State

/-! ## The numbers -/

section Numbers

theorem floatsidf_small {s : Nat} (hpos : 0 < s) (hlt : s < 2 ^ 15) :
    double.magnitude (floatsidf (Int32.ofNat s)) = s * double.one ∧
      double.sign (floatsidf (Int32.ofNat s)) = 0 ∧
      floatsidf (Int32.ofNat s) % 2 ^ 12 = 0 := by
  have hint : (Int32.ofNat s).toInt = s := Int32.toInt_ofNat_of_lt (by omega)
  have hsign : signBit (Int32.ofNat s) = 0 := by
    rw [signBit, hint, if_neg (by omega)]
  have hlog : s.log2 < 15 := (Nat.log2_lt hpos.ne').mpr hlt
  obtain ⟨hmagnitude, hsigned⟩ := magnitude_ofInteger (f := double) (s := 0) hpos.ne'
    (by decide) (by change _ + 1023 < 2048; omega)
  have hcut : s.log2 - double.fractionBits = 0 := by
    change s.log2 - 52 = 0
    omega
  unfold floatsidf
  rw [hsign, hint, Int.natAbs_natCast]
  rw [hcut, Nat.pow_zero, Nat.div_one, Nat.mul_one] at hmagnitude
  refine ⟨hmagnitude, hsigned, ?_⟩
  have hplace : s.log2 ≤ double.fractionBits := by
    change s.log2 ≤ 52
    omega
  rw [ofInteger, if_neg hpos.ne']
  dsimp only
  rw [if_pos hplace, double.pack_eq (by change _ + 1023 < 2048; omega)
    (Nat.mod_lt _ (Nat.two_pow_pos _)), Nat.shiftLeft_eq]
  change (0 * 2 ^ 63 + ((s.log2 + 1023) * 2 ^ 52 + s * 2 ^ (52 - s.log2) % 2 ^ 52)) % 2 ^ 12 = 0
  have hlow : s * 2 ^ (52 - s.log2) = s * 2 ^ (40 - s.log2) * 2 ^ 12 := by
    rw [Nat.mul_assoc, ← Nat.pow_add]
    congr 2
    omega
  rw [hlow]
  omega

/-- The half units of `2⁻¹⁵`, as the exponent of a power of two. -/
def grid : Nat := 1060

theorem double_one_eq : double.one = 2 ^ 15 * 2 ^ grid := by
  rw [FloatFormat.one, ← Nat.pow_add]
  congr 1

theorem one_le_greatest {f : FloatFormat}
    (h : f.bias + f.fractionBits ≤ 2 ^ f.exponentBits - 1) :
    f.one ≤ 2 ^ f.fractionBits * 2 ^ (2 ^ f.exponentBits - 1) :=
  Nat.le_trans (Nat.pow_le_pow_right (by decide) h)
    (Nat.le_mul_of_pos_left _ (Nat.two_pow_pos f.fractionBits))

theorem normal_on_grid {N : Nat} (hpos : 0 < N) (hlt : N < 2 ^ 52) :
    double.NormalQuotient (N * 2 ^ grid) 1 := by
  constructor
  · rw [Nat.mul_one]
    calc 2 * 2 ^ double.fractionBits = 1 * 2 ^ 53 := by decide
      _ ≤ N * 2 ^ grid := Nat.mul_le_mul hpos (Nat.pow_le_pow_right (by decide) (by decide))
  · rw [Nat.mul_one]
    exact Nat.mul_lt_mul_of_lt_of_le hlt (Nat.pow_le_pow_right (by decide) (by decide))
      (Nat.two_pow_pos (2 ^ double.exponentBits - 1))

/-- The power `2⁻ᵉ` is the greatest one not above `s / P`. -/
def PowerBelow (s P e : Nat) : Prop := e ≤ 15 ∧ P ≤ s * 2 ^ e ∧ s * 2 ^ e < 2 * P

theorem quotient_place {s P c : Nat} (hpos : 0 < s) (hlt : s < P) (hP : P < 2 ^ 15)
    (hc : double.magnitude c = P * double.one) (hsign : double.sign c = 0) :
    ∃ r e, divdf3 (floatsidf (Int32.ofNat s)) c = some r ∧ 1 ≤ e ∧ PowerBelow s P e ∧
      double.magnitude r = 2 ^ (15 - e) * 2 ^ grid ∧ double.sign r = 0 := by
  obtain ⟨hmagnitude, hsigned, hlow⟩ := floatsidf_small hpos (by omega)
  have hone : 0 < double.one := Nat.two_pow_pos _
  have hnormal : double.NormalQuotient (double.magnitude (floatsidf (Int32.ofNat s)) * double.one)
      (double.magnitude c) := by
    rw [hmagnitude, hc]
    constructor
    · rw [← Nat.mul_assoc]
      refine Nat.mul_le_mul_right _ ?_
      calc 2 * 2 ^ double.fractionBits * P ≤ 2 * 2 ^ 52 * 2 ^ 15 := Nat.mul_le_mul_left _ hP.le
        _ = 1 * 2 ^ (53 + 15) := by decide
        _ ≤ s * double.one :=
            Nat.mul_le_mul hpos (Nat.pow_le_pow_right (by decide) (by decide))
    · rw [← Nat.mul_assoc]
      refine Nat.mul_lt_mul_of_pos_right ?_ hone
      calc s * double.one < P * double.one := Nat.mul_lt_mul_of_pos_right hlt hone
        _ ≤ P * (2 ^ double.fractionBits * 2 ^ (2 ^ double.exponentBits - 1)) :=
            Nat.mul_le_mul_left _ (one_le_greatest (by decide))
        _ = 2 ^ double.fractionBits * 2 ^ (2 ^ double.exponentBits - 1) * P := Nat.mul_comm _ _
  obtain ⟨r, n, hr, hpower, hrsign, hbelow, habove⟩ := divdf3_power hlow hnormal
  rw [hmagnitude, hc, hpower, ← Nat.mul_assoc] at hbelow
  rw [hmagnitude, hc, hpower, ← Nat.mul_assoc] at habove
  replace hbelow := Nat.le_of_mul_le_mul_right hbelow hone
  replace habove := Nat.lt_of_mul_lt_mul_right habove
  have hnlow : grid ≤ n := by
    by_contra hless
    refine absurd habove (Nat.not_lt.mpr ?_)
    calc 2 * 2 ^ n * P = 2 ^ (n + 1) * P := by rw [Nat.pow_succ, Nat.mul_comm 2]
      _ ≤ 2 ^ grid * 2 ^ 15 :=
          Nat.mul_le_mul (Nat.pow_le_pow_right (by decide) (by omega)) hP.le
      _ = double.one := by rw [double_one_eq, Nat.mul_comm]
      _ ≤ s * double.one := Nat.le_mul_of_pos_left _ hpos
  have hnhigh : n < 15 + grid := by
    by_contra hmore
    refine absurd hbelow (Nat.not_le.mpr ?_)
    calc s * double.one < P * double.one := Nat.mul_lt_mul_of_pos_right hlt hone
      _ = 2 ^ (15 + grid) * P := by rw [double_one_eq, ← Nat.pow_add, Nat.mul_comm]
      _ ≤ 2 ^ n * P := Nat.mul_le_mul_right _ (Nat.pow_le_pow_right (by decide) (by omega))
  obtain ⟨e, he⟩ : ∃ e, n + e = 15 + grid := ⟨15 + grid - n, by omega⟩
  have hscale : s * double.one = 2 ^ n * (s * 2 ^ e) := by
    rw [double_one_eq, ← Nat.pow_add, ← he, Nat.pow_add, Nat.mul_left_comm]
  rw [hscale] at hbelow habove
  rw [Nat.mul_comm 2, Nat.mul_assoc] at habove
  refine ⟨r, e, hr, by omega, ⟨by omega, Nat.le_of_mul_le_mul_left hbelow (Nat.two_pow_pos n),
    Nat.lt_of_mul_lt_mul_left habove⟩, ?_, by rw [hrsign, hsigned, hsign]⟩
  rw [hpower, ← Nat.pow_add, show 15 - e + grid = n by omega]

theorem add_on_grid {x y X Y : Nat} (hX : 0 < X) (hY : 0 < Y) (hlt : X + Y < 2 ^ 52)
    (hx : double.magnitude x = X * 2 ^ grid) (hy : double.magnitude y = Y * 2 ^ grid)
    (hsx : double.sign x = 0) (hsy : double.sign y = 0) :
    double.magnitude (adddf3 x y) = (X + Y) * 2 ^ grid ∧ double.sign (adddf3 x y) = 0 := by
  have hpos : 0 < 2 ^ grid := Nat.two_pow_pos grid
  have hsum : double.magnitude x + double.magnitude y = (X + Y) * 2 ^ grid := by
    rw [hx, hy, Nat.add_mul]
  have hxne := unsigned_ne_zero (f := double) (a := x)
    (by rw [hx]; exact (Nat.mul_pos hX hpos).ne')
  have hyne := unsigned_ne_zero (f := double) (a := y)
    (by rw [hy]; exact (Nat.mul_pos hY hpos).ne')
  obtain ⟨htruncated, hsign⟩ := add_truncates (by decide) hxne hyne (by rw [hsx, hsy])
    (by rw [hsum]; exact normal_on_grid (by omega) hlt)
  rw [hsum] at htruncated
  exact ⟨htruncated.eq_of_lt hlt, by rw [← hsx]; exact hsign⟩

theorem exponent_on_grid {x X : Nat} (hX : 0 < X) (hlt : X < 2 ^ 17)
    (hx : double.magnitude x = X * 2 ^ grid) :
    double.exponent x ≠ 0 ∧ double.exponent x < 2047 := by
  have hne : double.magnitude x ≠ 0 := by
    rw [hx]
    exact (Nat.mul_pos hX (Nat.two_pow_pos grid)).ne'
  have hgrid : grid = 1060 := rfl
  constructor
  · intro hzero
    refine absurd hx (Nat.ne_of_lt ?_)
    rw [magnitude_eq (unsigned_ne_zero hne), hzero, Nat.pow_zero, Nat.mul_one]
    calc double.significand x < 2 ^ 53 := double.significand_lt x
      _ ≤ 2 ^ grid := Nat.pow_le_pow_right (by decide) (by decide)
      _ ≤ X * 2 ^ grid := Nat.le_mul_of_pos_left _ hX
  · have hpow : 2 ^ (52 + double.exponent x) < 2 ^ (17 + grid) := by
      calc 2 ^ (52 + double.exponent x) = 2 ^ 52 * 2 ^ double.exponent x := Nat.pow_add _ _ _
        _ ≤ double.magnitude x := double.two_pow_le_magnitude hne
        _ = X * 2 ^ grid := hx
        _ < 2 ^ 17 * 2 ^ grid := Nat.mul_lt_mul_of_pos_right hlt (Nat.two_pow_pos grid)
        _ = 2 ^ (17 + grid) := by rw [Nat.pow_add]
    have := (Nat.pow_lt_pow_iff_right (by decide)).mp hpow
    omega

theorem fmod_one_on_grid {x X : Nat} (hX : 0 < X) (hlt : X < 2 ^ 17)
    (hx : double.magnitude x = X * 2 ^ grid) (hs : double.sign x = 0) :
    2 * double.units (fmod x 0x3ff0000000000000) = X % 2 ^ 15 * 2 ^ grid ∧
      double.sign (fmod x 0x3ff0000000000000) = 0 := by
  obtain ⟨hne, hfinite⟩ := exponent_on_grid hX hlt hx
  have hword : x < 2 ^ 64 := by
    have := double.eq_sign_add x
    have hunsigned : double.unsigned x < 2 ^ 63 := Nat.mod_lt _ (Nat.two_pow_pos _)
    rw [hs] at this
    omega
  have hone : double.magnitude 0x3ff0000000000000 = 2 ^ 15 * 2 ^ grid := by
    rw [← double_one_eq]
    decide +kernel
  obtain ⟨hunits, hsign⟩ := fmod_units (b := 0x3ff0000000000000) hword hfinite (by decide)
    (by decide)
  refine ⟨?_, by rw [hsign, hs]⟩
  rw [hunits]
  split
  case isTrue =>
    rw [hx, hone, Nat.mul_mod_mul_right]
    refine Nat.mul_div_cancel' ?_
    exact Dvd.dvd.mul_left (dvd_pow_self 2 (by decide)) _
  case isFalse hless =>
    have hbelow := double.units_lt_units (a := x) (b := 0x3ff0000000000000) (by omega)
    have hX15 : X < 2 ^ 15 := by
      refine Nat.lt_of_mul_lt_mul_right (a := 2 ^ grid) ?_
      rw [← hx, ← hone, double.magnitude_eq_two_mul_units hne,
        double.magnitude_eq_two_mul_units (w := 0x3ff0000000000000) (by decide)]
      omega
    rw [Nat.mod_eq_of_lt hX15, ← hx, double.magnitude_eq_two_mul_units hne]

theorem fraction_on_grid {x X : Nat} (hX : 0 < X) (hlt : X < 2 ^ 17)
    (hx : double.magnitude x = X * 2 ^ grid) (hs : double.sign x = 0) :
    single.magnitude (truncdfsf2 (fmod x 0x3ff0000000000000)) * 2 ^ 15 =
        X % 2 ^ 15 * single.one ∧
      single.sign (truncdfsf2 (fmod x 0x3ff0000000000000)) = 0 := by
  obtain ⟨hunits, hsign⟩ := fmod_one_on_grid hX hlt hx hs
  generalize fmod x 0x3ff0000000000000 = w at *
  have hT : X % 2 ^ 15 < 2 ^ 15 := Nat.mod_lt _ (by decide)
  generalize X % 2 ^ 15 = T at *
  rcases Nat.eq_zero_or_pos T with rfl | hpos
  · have hzero : double.unsigned w = 0 := double.units_eq_zero_iff.mp (by omega)
    have hexponent : double.exponent w = 0 := by
      have := double.unsigned_eq w
      have hfields : double.exponent w * 2 ^ 52 = 0 := by
        change _ = double.exponent w * 2 ^ 52 + _ at this
        omega
      omega
    rw [truncdfsf2, if_pos hexponent, hsign]
    decide
  · have hexponent : double.exponent w ≠ 0 := by
      intro hzero
      refine absurd hunits (Nat.ne_of_lt ?_)
      rw [FloatFormat.units, if_pos hzero]
      calc 2 * double.fraction w < 2 * 2 ^ 52 :=
            Nat.mul_lt_mul_of_pos_left (double.fraction_lt w) (by decide)
        _ = 2 ^ 53 := by decide
        _ ≤ 2 ^ grid := Nat.pow_le_pow_right (by decide) (by decide)
        _ ≤ T * 2 ^ grid := Nat.le_mul_of_pos_left _ hpos
    have hmagnitude : double.magnitude w * single.one = T * 2 ^ 135 * double.one := by
      have hone : single.one = 2 ^ 135 * 2 ^ 15 := by decide
      rw [double.magnitude_eq_two_mul_units hexponent, hunits, double_one_eq, hone]
      ring
    obtain ⟨htruncated, hsingle⟩ := truncdfsf2_truncates (a := w) (by
      rw [hmagnitude]
      refine ⟨Nat.mul_le_mul_right _ ?_, Nat.mul_lt_mul_of_pos_right ?_ (Nat.two_pow_pos _)⟩
      · change 2 * 2 ^ 23 ≤ T * 2 ^ 135
        omega
      · change T * 2 ^ 135 < 2 ^ 23 * 2 ^ 255
        omega)
    rw [hmagnitude] at htruncated
    rw [htruncated.of_mul_right.eq_of_lt (by change T < 2 ^ 23; omega), hsingle, hsign]
    refine ⟨?_, rfl⟩
    change T * 2 ^ 135 * 2 ^ 15 = T * 2 ^ 150
    omega

end Numbers

end BlockyOS.Libcrt
