import BlockyOS.Libcrt.SoftFloat

/-!
# Arithmetic in software

Products, quotients and sums of one sign are cut down to the word below.  A
difference is not: the bits of the smaller operand that the greater one has no
place for are lost before the subtraction.
-/

namespace BlockyOS.Libcrt.SoftFloat

open BlockyOS.Foundation

section Arithmetic

variable {f : FloatFormat} {a b : Nat}

theorem testBit_eq_decide {n i : Nat} (h : n < 2 ^ (i + 1)) :
    n.testBit i = decide (2 ^ i ≤ n) := by
  by_cases hle : 2 ^ i ≤ n
  · rw [Nat.testBit_of_two_pow_le_and_two_pow_add_one_gt hle h, decide_eq_true hle]
  · rw [Nat.testBit_lt_two_pow (by omega), decide_eq_false hle]

theorem div_pow_bounds (n k : Nat) : n / 2 ^ k * 2 ^ k ≤ n ∧ n < (n / 2 ^ k + 1) * 2 ^ k := by
  constructor
  · exact Nat.div_mul_le_self n _
  · rw [Nat.mul_comm]
    exact Nat.lt_mul_div_succ n (Nat.two_pow_pos k)

theorem magnitude_eq (h : f.unsigned a ≠ 0) :
    f.magnitude a = f.significand a * 2 ^ f.exponent a := by
  rw [FloatFormat.magnitude, if_neg h]

theorem unsigned_ne_zero (h : f.magnitude a ≠ 0) : f.unsigned a ≠ 0 := by
  intro hzero
  exact h (by rw [FloatFormat.magnitude, if_pos hzero])

/-! ## Products -/

theorem shift_scaled {P k M D : Nat} {e : Int} (h : f.NormalQuotient (P * 2 ^ M) (2 ^ D))
    (hhigh : P / 2 ^ k < 2 * 2 ^ f.fractionBits) (he : e + D = M + k) :
    ∃ n : Nat, e = n ∧ P / 2 ^ k * 2 ^ n * 2 ^ D ≤ P * 2 ^ M ∧
      P * 2 ^ M < (P / 2 ^ k + 1) * 2 ^ n * 2 ^ D := by
  obtain ⟨hle, hlt⟩ := div_pow_bounds P k
  have hroom : D < M + k := by
    have hbelow : P * 2 ^ M < 2 * 2 ^ f.fractionBits * 2 ^ k * 2 ^ M := by
      refine Nat.mul_lt_mul_of_pos_right (Nat.lt_of_lt_of_le hlt ?_) (Nat.two_pow_pos M)
      exact Nat.mul_le_mul_right _ hhigh
    have hpow : 2 * 2 ^ f.fractionBits * 2 ^ D < 2 * 2 ^ f.fractionBits * 2 ^ (M + k) := by
      calc 2 * 2 ^ f.fractionBits * 2 ^ D ≤ P * 2 ^ M := h.1
        _ < 2 * 2 ^ f.fractionBits * 2 ^ k * 2 ^ M := hbelow
        _ = 2 * 2 ^ f.fractionBits * 2 ^ (M + k) := by rw [Nat.pow_add]; ring
    exact (Nat.pow_lt_pow_iff_right (by decide)).mp (Nat.lt_of_mul_lt_mul_left hpow)
  obtain ⟨n, hn⟩ : ∃ n : Nat, e = n := ⟨M + k - D, by omega⟩
  have hscale : 2 ^ n * 2 ^ D = 2 ^ k * 2 ^ M := by
    rw [← Nat.pow_add, ← Nat.pow_add]
    congr 1
    omega
  refine ⟨n, hn, ?_, ?_⟩ <;> rw [Nat.mul_assoc, hscale, ← Nat.mul_assoc]
  · exact Nat.mul_le_mul_right _ hle
  · exact Nat.mul_lt_mul_of_pos_right hlt (Nat.two_pow_pos M)

theorem truncates_shift {P k M D s : Nat} {e : Int}
    (h : f.NormalQuotient (P * 2 ^ M) (2 ^ D))
    (hlow : 2 ^ f.fractionBits ≤ P / 2 ^ k) (hhigh : P / 2 ^ k < 2 * 2 ^ f.fractionBits)
    (he : e + D = M + k) :
    f.Truncates (f.pack s e (P / 2 ^ k % 2 ^ f.fractionBits)) (P * 2 ^ M) (2 ^ D) ∧
      f.sign (f.pack s e (P / 2 ^ k % 2 ^ f.fractionBits)) = s := by
  obtain ⟨n, rfl, hbelow, habove⟩ := shift_scaled h hhigh he
  exact f.truncates_pack h hlow hhigh hbelow habove

theorem product_bounds (a b : Nat) :
    2 ^ f.fractionBits * 2 ^ f.fractionBits ≤ f.significand a * f.significand b ∧
      f.significand a * f.significand b < 4 * (2 ^ f.fractionBits * 2 ^ f.fractionBits) := by
  constructor
  · exact Nat.mul_le_mul (f.le_significand a) (f.le_significand b)
  · calc f.significand a * f.significand b
        < 2 * 2 ^ f.fractionBits * (2 * 2 ^ f.fractionBits) :=
          Nat.mul_lt_mul'' (f.significand_lt a) (f.significand_lt b)
      _ = 4 * (2 ^ f.fractionBits * 2 ^ f.fractionBits) := by ring

theorem mul_truncates
    (h : f.NormalQuotient (f.magnitude a * f.magnitude b) f.one) :
    f.Truncates (mul f a b) (f.magnitude a * f.magnitude b) f.one ∧
      f.sign (mul f a b) = (f.sign a + f.sign b) % 2 := by
  have hpos : 0 < f.magnitude a * f.magnitude b := by
    refine Nat.lt_of_lt_of_le ?_ h.1
    exact Nat.mul_pos (Nat.mul_pos (by decide) (Nat.two_pow_pos _)) (Nat.two_pow_pos _)
  have ha := unsigned_ne_zero (Nat.pos_of_mul_pos_right hpos).ne'
  have hb := unsigned_ne_zero (Nat.pos_of_mul_pos_left hpos).ne'
  have hnum : f.magnitude a * f.magnitude b =
      f.significand a * f.significand b * 2 ^ (f.exponent a + f.exponent b) := by
    rw [magnitude_eq ha, magnitude_eq hb, Nat.pow_add]
    ring
  obtain ⟨hlow, hhigh⟩ := product_bounds (f := f) a b
  have hpow : 2 ^ (2 * f.fractionBits + 1) = 2 * (2 ^ f.fractionBits * 2 ^ f.fractionBits) := by
    rw [Nat.pow_succ, Nat.two_mul, Nat.pow_add, Nat.mul_comm]
  have htop : f.significand a * f.significand b < 2 ^ (2 * f.fractionBits + 1 + 1) := by
    rw [Nat.pow_succ, hpow]
    omega
  rw [hnum, FloatFormat.one] at h ⊢
  unfold mul
  rw [if_neg ha, if_neg hb]
  dsimp only
  rw [testBit_eq_decide htop, hpow, Nat.shiftRight_eq_div_pow, Nat.shiftRight_eq_div_pow]
  by_cases hcarry :
      2 * (2 ^ f.fractionBits * 2 ^ f.fractionBits) ≤ f.significand a * f.significand b
  · rw [if_pos (decide_eq_true hcarry)]
    apply truncates_shift h
    · rw [Nat.le_div_iff_mul_le (Nat.two_pow_pos _), Nat.pow_succ]
      calc 2 ^ f.fractionBits * (2 ^ f.fractionBits * 2)
          = 2 * (2 ^ f.fractionBits * 2 ^ f.fractionBits) := by ring
        _ ≤ f.significand a * f.significand b := hcarry
    · rw [Nat.div_lt_iff_lt_mul (Nat.two_pow_pos _), Nat.pow_succ]
      calc f.significand a * f.significand b
          < 4 * (2 ^ f.fractionBits * 2 ^ f.fractionBits) := hhigh
        _ = 2 * 2 ^ f.fractionBits * (2 ^ f.fractionBits * 2) := by ring
    · push_cast
      ring
  · rw [if_neg (by simpa using hcarry)]
    apply truncates_shift h
    · exact (Nat.le_div_iff_mul_le (Nat.two_pow_pos _)).mpr hlow
    · rw [Nat.div_lt_iff_lt_mul (Nat.two_pow_pos _), Nat.mul_assoc]
      omega
    · push_cast
      ring

/-! ## Sums -/

theorem aligned_eq (hE : 0 < f.exponentBits) :
    aligned f a b = f.significand b / 2 ^ (f.exponent a - f.exponent b) := by
  unfold aligned
  rw [Nat.shiftRight_eq_div_pow]
  rcases Nat.le_total (f.exponent a - f.exponent b) (f.width - 1) with hle | hge
  · rw [Nat.min_eq_left hle]
  · have hbits : 2 * 2 ^ f.fractionBits ≤ 2 ^ (f.width - 1) := by
      rw [Nat.mul_comm, ← Nat.pow_succ]
      apply Nat.pow_le_pow_right (by decide)
      unfold FloatFormat.width FloatFormat.magnitudeBits
      omega
    have hmore : 2 ^ (f.width - 1) ≤ 2 ^ (f.exponent a - f.exponent b) :=
      Nat.pow_le_pow_right (by decide) hge
    have hlt := f.significand_lt b
    rw [Nat.min_eq_right hge, Nat.div_eq_of_lt (by omega), Nat.div_eq_of_lt (by omega)]

theorem aligned_bounds (hE : 0 < f.exponentBits) (hb : f.unsigned b ≠ 0)
    (hle : f.exponent b ≤ f.exponent a) :
    aligned f a b * 2 ^ f.exponent a ≤ f.magnitude b ∧
      f.magnitude b < (aligned f a b + 1) * 2 ^ f.exponent a := by
  obtain ⟨hlow, hhigh⟩ := div_pow_bounds (f.significand b) (f.exponent a - f.exponent b)
  have hscale : 2 ^ f.exponent a = 2 ^ (f.exponent a - f.exponent b) * 2 ^ f.exponent b := by
    rw [← Nat.pow_add, Nat.sub_add_cancel hle]
  rw [aligned_eq hE, magnitude_eq hb, hscale, ← Nat.mul_assoc, ← Nat.mul_assoc]
  exact ⟨Nat.mul_le_mul_right _ hlow, Nat.mul_lt_mul_of_pos_right hhigh (Nat.two_pow_pos _)⟩

theorem aligned_lt (hE : 0 < f.exponentBits) : aligned f a b < 2 * 2 ^ f.fractionBits := by
  rw [aligned_eq hE]
  exact Nat.lt_of_le_of_lt (Nat.div_le_self _ _) (f.significand_lt b)

theorem addAligned_truncates (hE : 0 < f.exponentBits) (ha : f.unsigned a ≠ 0)
    (hb : f.unsigned b ≠ 0) (hle : f.exponent b ≤ f.exponent a)
    (h : f.NormalQuotient (f.magnitude a + f.magnitude b) 1) :
    f.Truncates (addAligned f a b) (f.magnitude a + f.magnitude b) 1 ∧
      f.sign (addAligned f a b) = f.sign a := by
  obtain ⟨hlow, hhigh⟩ := aligned_bounds hE hb hle
  have hbelow := aligned_lt (a := a) (b := b) hE
  have hsa := f.significand_lt a
  have hsl := f.le_significand a
  generalize hS : f.significand a + aligned f a b = S
  have hsumlow : S * 2 ^ f.exponent a ≤ f.magnitude a + f.magnitude b := by
    rw [magnitude_eq ha, ← hS, Nat.add_mul]
    omega
  have hsumhigh : f.magnitude a + f.magnitude b < (S + 1) * 2 ^ f.exponent a := by
    rw [magnitude_eq ha, ← hS, Nat.add_assoc, Nat.add_mul]
    omega
  have hpow : 2 ^ (f.fractionBits + 1) = 2 * 2 ^ f.fractionBits := by
    rw [Nat.pow_succ, Nat.mul_comm]
  have htop : S < 2 ^ (f.fractionBits + 1 + 1) := by
    rw [Nat.pow_succ, hpow]
    omega
  unfold addAligned
  rw [hS]
  dsimp only
  rw [testBit_eq_decide htop, hpow, Nat.shiftRight_eq_div_pow, Nat.pow_one]
  by_cases hcarry : 2 * 2 ^ f.fractionBits ≤ S
  · rw [if_pos (decide_eq_true hcarry)]
    rw [show (f.exponent a : Int) + 1 = ((f.exponent a + 1 : Nat) : Int) by push_cast; rfl]
    apply f.truncates_pack h (by omega) (by rw [Nat.pow_succ, hpow] at htop; omega)
    · rw [Nat.mul_one]
      calc S / 2 * 2 ^ (f.exponent a + 1)
          = S / 2 * 2 * 2 ^ f.exponent a := by rw [Nat.pow_succ]; ring
        _ ≤ S * 2 ^ f.exponent a := Nat.mul_le_mul_right _ (Nat.div_mul_le_self S 2)
        _ ≤ f.magnitude a + f.magnitude b := hsumlow
    · rw [Nat.mul_one]
      refine Nat.lt_of_lt_of_le hsumhigh ?_
      calc (S + 1) * 2 ^ f.exponent a ≤ (S / 2 + 1) * 2 * 2 ^ f.exponent a :=
            Nat.mul_le_mul_right _ (by omega)
        _ = (S / 2 + 1) * 2 ^ (f.exponent a + 1) := by rw [Nat.pow_succ]; ring
  · rw [if_neg (by simpa using hcarry)]
    exact f.truncates_pack h (by omega) (by omega) (by rwa [Nat.mul_one]) (by rwa [Nat.mul_one])

theorem add_truncates (hE : 0 < f.exponentBits) (ha : f.unsigned a ≠ 0) (hb : f.unsigned b ≠ 0)
    (hs : f.sign a = f.sign b) (h : f.NormalQuotient (f.magnitude a + f.magnitude b) 1) :
    f.Truncates (add f a b) (f.magnitude a + f.magnitude b) 1 ∧
      f.sign (add f a b) = f.sign a := by
  unfold add
  rw [if_neg ha, if_neg hb, if_pos hs]
  split
  case isTrue hle => exact addAligned_truncates hE ha hb (f.exponent_le_of_unsigned_le hle) h
  case isFalse hlt =>
    rw [Nat.add_comm (f.magnitude a), hs] at *
    exact addAligned_truncates hE hb ha (f.exponent_le_of_unsigned_le (by omega)) h

/-! ## Differences -/

theorem subAligned_eq (hE : 0 < f.exponentBits) (ha : f.unsigned a ≠ 0) (hb : f.unsigned b ≠ 0)
    (hle : f.exponent b ≤ f.exponent a)
    (h : 2 * 2 ^ f.fractionBits + f.magnitude b ≤ f.magnitude a) :
    f.magnitude (subAligned f a b) + aligned f a b * 2 ^ f.exponent a = f.magnitude a ∧
      f.sign (subAligned f a b) = f.sign a := by
  obtain ⟨hlow, -⟩ := aligned_bounds hE hb hle
  have hsa := f.significand_lt a
  have hpos := Nat.two_pow_pos f.fractionBits
  have hless : aligned f a b ≤ f.significand a := by
    refine Nat.le_of_mul_le_mul_right ?_ (Nat.two_pow_pos (f.exponent a))
    rw [← magnitude_eq ha]
    omega
  have hsplit : f.magnitude a =
      (f.significand a - aligned f a b) * 2 ^ f.exponent a + aligned f a b * 2 ^ f.exponent a := by
    rw [← Nat.add_mul, Nat.sub_add_cancel hless, magnitude_eq ha]
  have hdlt : f.significand a - aligned f a b < 2 * 2 ^ f.fractionBits := by omega
  unfold subAligned
  dsimp only
  generalize f.significand a - aligned f a b = d at hsplit hdlt ⊢
  have hd : 2 * 2 ^ f.fractionBits ≤ d * 2 ^ f.exponent a := by omega
  have hdpos : 0 < d := Nat.pos_of_mul_pos_right (Nat.lt_of_lt_of_le (by omega) hd)
  have hstop : 2 ^ f.fractionBits ≤ (doubleUpTo (2 ^ f.fractionBits) f.fractionBits d).1 :=
    le_doubleUpTo (Nat.le_mul_of_pos_left _ hdpos)
  have htop := doubleUpTo_lt f.fractionBits hdlt
  have hdouble := doubleUpTo_eq (2 ^ f.fractionBits) f.fractionBits d
  generalize doubleUpTo (2 ^ f.fractionBits) f.fractionBits d = r at hstop htop hdouble ⊢
  have hturns : r.2 < f.exponent a := by
    have hpow : 2 * 2 ^ f.fractionBits * 2 ^ r.2 < 2 * 2 ^ f.fractionBits * 2 ^ f.exponent a := by
      calc 2 * 2 ^ f.fractionBits * 2 ^ r.2
          ≤ d * 2 ^ f.exponent a * 2 ^ r.2 := Nat.mul_le_mul_right _ hd
        _ = r.1 * 2 ^ f.exponent a := by rw [hdouble]; ring
        _ < 2 * 2 ^ f.fractionBits * 2 ^ f.exponent a :=
            Nat.mul_lt_mul_of_pos_right htop (Nat.two_pow_pos _)
    exact (Nat.pow_lt_pow_iff_right (by decide)).mp (Nat.lt_of_mul_lt_mul_left hpow)
  have hexponent := f.exponent_lt a
  obtain ⟨hmagnitude, hsign, -⟩ := f.magnitude_pack (s := f.sign a) hstop htop
    (e := f.exponent a - r.2) (by omega) (by omega)
  rw [show (f.exponent a : Int) - r.2 = ((f.exponent a - r.2 : Nat) : Int) by omega]
  refine ⟨?_, hsign⟩
  rw [hmagnitude, hdouble, hsplit, Nat.mul_assoc, ← Nat.pow_add, Nat.add_sub_cancel' hturns.le]

theorem add_opposite (hE : 0 < f.exponentBits) (hs : f.sign a ≠ f.sign b)
    (h : 2 * 2 ^ f.fractionBits + f.magnitude b ≤ f.magnitude a) :
    add f b a = add f a b ∧ f.sign (add f a b) = f.sign a ∧
      f.magnitude a ≤ f.magnitude (add f a b) + f.magnitude b ∧
      f.magnitude (add f a b) + f.magnitude b < f.magnitude a + 2 ^ f.exponent a ∧
      (2 ^ f.exponent a ∣ f.magnitude b →
        f.magnitude (add f a b) + f.magnitude b = f.magnitude a) := by
  have hpos := Nat.two_pow_pos f.fractionBits
  have ha : f.unsigned a ≠ 0 := unsigned_ne_zero (by omega)
  have hlt : f.unsigned b < f.unsigned a := by
    by_contra hle
    have := f.magnitude_le_magnitude (Nat.le_of_not_lt hle)
    omega
  by_cases hb : f.unsigned b = 0
  · have hzero : f.magnitude b = 0 := by rw [FloatFormat.magnitude, if_pos hb]
    have hsum : add f a b = a := by rw [add, if_neg ha, if_pos hb]
    refine ⟨by rw [hsum, add, if_pos hb], by rw [hsum], ?_, ?_, fun _ => ?_⟩ <;>
      rw [hsum, hzero]
    · omega
    · have := Nat.two_pow_pos (f.exponent a)
      omega
    · omega
  · have hsum : add f a b = subAligned f a b := by
      rw [add, if_neg ha, if_neg hb, if_neg hs, if_neg (by omega), if_pos hlt.le]
    have hswap : add f b a = subAligned f a b := by
      rw [add, if_neg hb, if_neg ha, if_neg (Ne.symm hs), if_neg (by omega), if_neg (by omega)]
    have hle := f.exponent_le_of_unsigned_le hlt.le
    obtain ⟨hmagnitude, hsign⟩ := subAligned_eq hE ha hb hle h
    obtain ⟨hlow, hhigh⟩ := aligned_bounds hE hb hle
    rw [hsum]
    refine ⟨hswap, hsign, by omega, by rw [Nat.add_mul] at hhigh; omega, ?_⟩
    rintro ⟨n, hn⟩
    have haligned : aligned f a b = n := by
      rw [hn, Nat.mul_comm (2 ^ f.exponent a)] at hlow hhigh
      have hle := Nat.le_of_mul_le_mul_right hlow (Nat.two_pow_pos (f.exponent a))
      have hlt := Nat.lt_of_mul_lt_mul_right hhigh
      omega
    rw [← hmagnitude, hn, haligned, Nat.mul_comm n]

/-! ## Quotients -/

theorem quotient_bounds {c : Nat} (hc : c ≤ 1) (hle : f.significand b ≤ f.significand a * 2 ^ c)
    (hlt : c = 1 → f.significand a < f.significand b) :
    2 ^ f.fractionBits ≤ f.significand a * 2 ^ (f.fractionBits + c) / f.significand b ∧
      f.significand a * 2 ^ (f.fractionBits + c) / f.significand b < 2 * 2 ^ f.fractionBits := by
  have hb := f.significand_pos b
  constructor
  · rw [Nat.le_div_iff_mul_le hb, Nat.pow_add, Nat.mul_left_comm]
    exact Nat.mul_le_mul_left _ hle
  · rw [Nat.div_lt_iff_lt_mul hb, Nat.pow_add, Nat.mul_left_comm, Nat.mul_comm 2, Nat.mul_assoc]
    apply Nat.mul_lt_mul_of_pos_left ?_ (Nat.two_pow_pos _)
    have hsa := f.significand_lt a
    have hsb := f.le_significand b
    rcases Nat.le_one_iff_eq_zero_or_eq_one.mp hc with rfl | rfl
    · omega
    · have := hlt rfl
      omega

theorem quotient_scaled {c : Nat} {e : Int} (ha : f.unsigned a ≠ 0) (hb : f.unsigned b ≠ 0)
    (h : f.NormalQuotient (f.magnitude a * f.one) (f.magnitude b))
    (hc : c ≤ 1) (hle : f.significand b ≤ f.significand a * 2 ^ c)
    (hlt : c = 1 → f.significand a < f.significand b)
    (he : e + f.exponent b + c = f.exponent a + f.bias) :
    ∃ n : Nat, e = n ∧
      f.significand a * 2 ^ (f.fractionBits + c) / f.significand b * 2 ^ n * f.magnitude b ≤
        f.magnitude a * f.one ∧
      f.magnitude a * f.one <
        (f.significand a * 2 ^ (f.fractionBits + c) / f.significand b + 1) * 2 ^ n *
          f.magnitude b := by
  have hhigh := (quotient_bounds hc hle hlt).2
  have hsb := f.significand_pos b
  have hbelow := Nat.div_mul_le_self (f.significand a * 2 ^ (f.fractionBits + c)) (f.significand b)
  have habove := Nat.lt_mul_div_succ (f.significand a * 2 ^ (f.fractionBits + c)) hsb
  rw [Nat.mul_comm (f.significand b)] at habove
  rw [magnitude_eq ha, magnitude_eq hb, FloatFormat.one] at *
  have hroom : f.exponent b + c < f.exponent a + f.bias := by
    have hpow : 2 * 2 ^ f.fractionBits * f.significand b * 2 ^ (f.exponent b + c) <
        2 * 2 ^ f.fractionBits * f.significand b * 2 ^ (f.exponent a + f.bias) := by
      calc 2 * 2 ^ f.fractionBits * f.significand b * 2 ^ (f.exponent b + c)
          = 2 * 2 ^ f.fractionBits * (f.significand b * 2 ^ f.exponent b) * 2 ^ c := by
            rw [Nat.pow_add]; ring
        _ ≤ f.significand a * 2 ^ f.exponent a * 2 ^ (f.bias + f.fractionBits) * 2 ^ c :=
            Nat.mul_le_mul_right _ h.1
        _ = f.significand a * 2 ^ (f.fractionBits + c) * 2 ^ (f.exponent a + f.bias) := by
            rw [Nat.pow_add, Nat.pow_add, Nat.pow_add]; ring
        _ < 2 * 2 ^ f.fractionBits * f.significand b * 2 ^ (f.exponent a + f.bias) := by
            refine Nat.mul_lt_mul_of_pos_right ?_ (Nat.two_pow_pos _)
            exact Nat.lt_of_lt_of_le habove (Nat.mul_le_mul_right _ hhigh)
    exact (Nat.pow_lt_pow_iff_right (by decide)).mp (Nat.lt_of_mul_lt_mul_left hpow)
  generalize f.significand a * 2 ^ (f.fractionBits + c) / f.significand b = q at *
  obtain ⟨n, hn⟩ : ∃ n : Nat, e = n := ⟨f.exponent a + f.bias - f.exponent b - c, by omega⟩
  have hscale : 2 ^ f.exponent a * 2 ^ f.bias = 2 ^ n * 2 ^ f.exponent b * 2 ^ c := by
    rw [← Nat.pow_add, ← Nat.pow_add, ← Nat.pow_add]
    congr 1
    omega
  have hnum : f.significand a * 2 ^ f.exponent a * 2 ^ (f.bias + f.fractionBits) =
      f.significand a * 2 ^ (f.fractionBits + c) * (2 ^ n * 2 ^ f.exponent b) := by
    calc f.significand a * 2 ^ f.exponent a * 2 ^ (f.bias + f.fractionBits)
        = f.significand a * 2 ^ f.fractionBits * (2 ^ f.exponent a * 2 ^ f.bias) := by
          rw [Nat.pow_add]; ring
      _ = f.significand a * 2 ^ (f.fractionBits + c) * (2 ^ n * 2 ^ f.exponent b) := by
          rw [hscale, Nat.pow_add]; ring
  have hpos : 0 < 2 ^ n * 2 ^ f.exponent b := Nat.mul_pos (Nat.two_pow_pos _) (Nat.two_pow_pos _)
  rw [hnum]
  refine ⟨n, hn, ?_, ?_⟩
  · calc q * 2 ^ n * (f.significand b * 2 ^ f.exponent b)
        = q * f.significand b * (2 ^ n * 2 ^ f.exponent b) := by ring
      _ ≤ f.significand a * 2 ^ (f.fractionBits + c) * (2 ^ n * 2 ^ f.exponent b) :=
          Nat.mul_le_mul_right _ hbelow
  · calc f.significand a * 2 ^ (f.fractionBits + c) * (2 ^ n * 2 ^ f.exponent b)
        < (q + 1) * f.significand b * (2 ^ n * 2 ^ f.exponent b) :=
          Nat.mul_lt_mul_of_pos_right habove hpos
      _ = (q + 1) * 2 ^ n * (f.significand b * 2 ^ f.exponent b) := by ring

theorem truncates_quotient {c s : Nat} {e : Int} (ha : f.unsigned a ≠ 0) (hb : f.unsigned b ≠ 0)
    (h : f.NormalQuotient (f.magnitude a * f.one) (f.magnitude b))
    (hc : c ≤ 1) (hle : f.significand b ≤ f.significand a * 2 ^ c)
    (hlt : c = 1 → f.significand a < f.significand b)
    (he : e + f.exponent b + c = f.exponent a + f.bias) :
    f.Truncates
        (f.pack s e (f.significand a * 2 ^ (f.fractionBits + c) / f.significand b %
          2 ^ f.fractionBits))
        (f.magnitude a * f.one) (f.magnitude b) ∧
      f.sign (f.pack s e (f.significand a * 2 ^ (f.fractionBits + c) / f.significand b %
        2 ^ f.fractionBits)) = s := by
  obtain ⟨hlow, hhigh⟩ := quotient_bounds hc hle hlt
  obtain ⟨n, rfl, hbelow, habove⟩ := quotient_scaled ha hb h hc hle hlt he
  exact f.truncates_pack h hlow hhigh hbelow habove

theorem power_quotient {c s : Nat} {e : Int} (ha : f.unsigned a ≠ 0) (hb : f.unsigned b ≠ 0)
    (h : f.NormalQuotient (f.magnitude a * f.one) (f.magnitude b))
    (hc : c ≤ 1) (hle : f.significand b ≤ f.significand a * 2 ^ c)
    (hlt : c = 1 → f.significand a < f.significand b)
    (he : e + f.exponent b + c = f.exponent a + f.bias) :
    ∃ n : Nat, f.magnitude (f.pack s e 0) = 2 ^ f.fractionBits * 2 ^ n ∧
      f.sign (f.pack s e 0) = s ∧
      f.magnitude (f.pack s e 0) * f.magnitude b ≤
        f.magnitude a * f.one ∧
      f.magnitude a * f.one <
        2 * f.magnitude (f.pack s e 0) * f.magnitude b := by
  obtain ⟨hlow, hhigh⟩ := quotient_bounds hc hle hlt
  obtain ⟨n, rfl, hbelow, habove⟩ := quotient_scaled ha hb h hc hle hlt he
  obtain ⟨hepos, helt⟩ := h.exponent_range hlow hhigh hbelow habove
  obtain ⟨hmagnitude, hsign, -⟩ := f.magnitude_pack (s := s) (e := n) (q := 2 ^ f.fractionBits)
    (Nat.le_refl _) (by have := Nat.two_pow_pos f.fractionBits; omega) hepos (by omega)
  rw [Nat.mod_self] at hmagnitude hsign
  refine ⟨n, hmagnitude, hsign, ?_, ?_⟩ <;> rw [hmagnitude]
  · refine Nat.le_trans ?_ hbelow
    exact Nat.mul_le_mul_right _ (Nat.mul_le_mul_right _ hlow)
  · refine Nat.lt_of_lt_of_le habove (Nat.mul_le_mul_right _ ?_)
    rw [← Nat.mul_assoc]
    exact Nat.mul_le_mul_right _ hhigh

theorem operands_ne_zero {k : Nat} (h : f.NormalQuotient (f.magnitude a * k) (f.magnitude b)) :
    f.unsigned a ≠ 0 ∧ f.unsigned b ≠ 0 := by
  have hden : 0 < f.magnitude b := Nat.pos_of_mul_pos_left (Nat.lt_of_le_of_lt (Nat.zero_le _) h.2)
  have hnum : 0 < f.magnitude a * k := by
    refine Nat.lt_of_lt_of_le ?_ h.1
    exact Nat.mul_pos (Nat.mul_pos (by decide) (Nat.two_pow_pos _)) hden
  exact ⟨unsigned_ne_zero (Nat.pos_of_mul_pos_right hnum).ne', unsigned_ne_zero hden.ne'⟩

theorem divsf3_truncates {a b : Nat}
    (h : single.NormalQuotient (single.magnitude a * single.one) (single.magnitude b)) :
    single.Truncates (divsf3 a b) (single.magnitude a * single.one) (single.magnitude b) ∧
      single.sign (divsf3 a b) = (single.sign a + single.sign b) % 2 := by
  obtain ⟨ha, hb⟩ := operands_ne_zero h
  unfold divsf3
  rw [if_neg ha]
  dsimp only
  rw [Nat.shiftLeft_eq, Nat.shiftLeft_eq]
  split
  case isTrue hle =>
    exact truncates_quotient (c := 0) ha hb h (by omega) (by omega) (by omega) (by omega)
  case isFalse hlt =>
    exact truncates_quotient (c := 1) ha hb h (by omega)
      (by
        have := single.le_significand a
        have := single.significand_lt b
        omega) (by omega) (by omega)

/-- The division faults as soon as the bits it keeps of the dividend are more than the lowest one,
or make up the lowest one and the divisor is a power of two. -/
theorem divdf3_eq_none_iff {a b : Nat} (ha : double.unsigned a ≠ 0) :
    divdf3 a b = none ↔
      if double.significand b ≤ double.significand a then
        1 < a % 2 ^ 12 ∨ a % 2 ^ 12 = 1 ∧ double.fraction b = 0
      else a % 2 ^ 11 ≠ 0 := by
  have hfraction : double.significand a = 2 ^ 52 + a % 2 ^ 52 := rfl
  have hdivisor : double.significand b = 2 ^ 52 + double.fraction b := rfl
  have hb : double.fraction b < 2 ^ 52 := double.fraction_lt b
  unfold divdf3
  rw [if_neg ha]
  dsimp only
  rw [Nat.shiftLeft_eq]
  by_cases hle : double.significand b ≤ double.significand a
  · rw [if_pos hle, if_pos hle, if_pos hle]
    split
    case isTrue hfault =>
      simp only [true_iff]
      omega
    case isFalse hfault =>
      simp only [reduceCtorEq, false_iff]
      omega
  · rw [if_neg hle, if_neg hle, if_neg hle]
    split
    case isTrue hfault =>
      simp only [true_iff]
      omega
    case isFalse hfault =>
      simp only [reduceCtorEq, false_iff]
      omega

/-- A third of a third does not return. -/
theorem divdf3_eq_none_third :
    divdf3 0x3fd5555555555555 0x4008000000000000 = none ↔
      if double.significand 0x4008000000000000 ≤ double.significand 0x3fd5555555555555 then
        1 < 0x3fd5555555555555 % 2 ^ 12 ∨
          0x3fd5555555555555 % 2 ^ 12 = 1 ∧ double.fraction 0x4008000000000000 = 0
      else 0x3fd5555555555555 % 2 ^ 11 ≠ 0 :=
  divdf3_eq_none_iff (by decide)

theorem divdf3_power {a b : Nat} (hlow : a % 2 ^ 12 = 0)
    (h : double.NormalQuotient (double.magnitude a * double.one) (double.magnitude b)) :
    ∃ r n, divdf3 a b = some r ∧ double.magnitude r = 2 ^ n ∧
      double.sign r = (double.sign a + double.sign b) % 2 ∧
      double.magnitude r * double.magnitude b ≤ double.magnitude a * double.one ∧
      double.magnitude a * double.one < 2 * double.magnitude r * double.magnitude b := by
  obtain ⟨ha, hb⟩ := operands_ne_zero h
  have hfraction : double.significand a = 2 ^ 52 + a % 2 ^ 52 := rfl
  have hpos := double.significand_pos b
  have hsa := double.le_significand a
  have hsb := double.significand_lt b
  unfold divdf3
  rw [if_neg ha]
  dsimp only
  rw [Nat.shiftLeft_eq]
  split
  case isTrue hle =>
    rw [show double.significand a * 2 ^ 52 % 2 ^ 64 = 0 by omega, if_neg (by omega),
      Nat.zero_mul, Nat.zero_div, Nat.zero_mod]
    obtain ⟨n, hmagnitude, hsign, hbelow, habove⟩ := power_quotient (c := 0)
      (s := (double.sign a + double.sign b) % 2)
      (e := double.exponent a - double.exponent b + double.bias) ha hb h (by omega) (by omega)
      (by omega) (by omega)
    exact ⟨_, 52 + n, rfl, by rw [hmagnitude, ← Nat.pow_add]; rfl, hsign, hbelow, habove⟩
  case isFalse hlt =>
    rw [show double.significand a * 2 ^ 53 % 2 ^ 64 = 0 by omega, if_neg (by omega),
      Nat.zero_mul, Nat.zero_div, Nat.zero_mod]
    obtain ⟨n, hmagnitude, hsign, hbelow, habove⟩ := power_quotient (c := 1)
      (s := (double.sign a + double.sign b) % 2)
      (e := double.exponent a - double.exponent b + double.bias - 1) ha hb h (by omega) (by omega)
      (by omega) (by omega)
    exact ⟨_, 52 + n, rfl, by rw [hmagnitude, ← Nat.pow_add]; rfl, hsign, hbelow, habove⟩

/-! ## Normal operands -/

/-- A product of normal words in the range of the normal words is cut down to the word below. -/
theorem mul_cuts (ha : f.Normal a) (hb : f.Normal b)
    (h : f.InRange (2 * (f.units a * f.units b)) f.one) :
    f.Cuts (mul f a b) (2 * (f.units a * f.units b)) f.one ∧
      f.sign (mul f a b) = (f.sign a + f.sign b) % 2 := by
  have hE : 0 < f.exponentBits := ha.exponentBits_pos
  have hnum : f.magnitude a * f.magnitude b = 2 * (2 * (f.units a * f.units b)) := by
    rw [ha.magnitude_eq, hb.magnitude_eq]
    ring
  have hquotient := h.normalQuotient hE
  rw [← hnum] at hquotient
  obtain ⟨htruncates, hsign⟩ := mul_truncates hquotient
  rw [hnum] at htruncates hquotient
  exact ⟨htruncates.cuts hquotient, hsign⟩

/-- One and a half squared. -/
theorem mul_cuts_square :
    single.Cuts (mul single 0x3fc00000 0x3fc00000)
        (2 * (single.units 0x3fc00000 * single.units 0x3fc00000)) single.one ∧
      single.sign (mul single 0x3fc00000 0x3fc00000) =
        (single.sign 0x3fc00000 + single.sign 0x3fc00000) % 2 :=
  mul_cuts (by decide) (by decide) ⟨by decide, by decide⟩

theorem exponent_le_of_magnitude_lt {r : Nat}
    (h : f.magnitude r < f.magnitude a + 2 ^ f.exponent a) (hr : f.magnitude r ≠ 0)
    (ha : f.unsigned a ≠ 0) : f.exponent r ≤ f.exponent a := by
  have hlow := f.two_pow_le_magnitude hr
  have hsig : f.significand a + 1 ≤ 2 * 2 ^ f.fractionBits := f.significand_lt a
  have hscaled := Nat.mul_le_mul_right (2 ^ f.exponent a) hsig
  rw [Nat.add_mul, Nat.one_mul, ← magnitude_eq ha] at hscaled
  have hlt : 2 ^ f.fractionBits * 2 ^ f.exponent r <
      2 ^ f.fractionBits * 2 ^ (f.exponent a + 1) := by
    calc 2 ^ f.fractionBits * 2 ^ f.exponent r ≤ f.magnitude r := hlow
      _ < 2 * 2 ^ f.fractionBits * 2 ^ f.exponent a := Nat.lt_of_lt_of_le h hscaled
      _ = 2 ^ f.fractionBits * 2 ^ (f.exponent a + 1) := by rw [Nat.pow_succ]; ring
  exact Nat.le_of_lt_succ
    ((Nat.pow_lt_pow_iff_right (by decide)).mp (Nat.lt_of_mul_lt_mul_left hlt))

theorem add_apart (ha : f.Normal a) (hb : f.Normal b) (hs : f.sign a ≠ f.sign b)
    (h : 2 ^ f.fractionBits + f.units b ≤ f.units a) :
    add f b a = add f a b ∧ f.Normal (add f a b) ∧ f.sign (add f a b) = f.sign a ∧
      f.units a ≤ f.units (add f a b) + f.units b ∧
      f.units (add f a b) + f.units b < f.units a + 2 ^ (f.exponent a - 1) ∧
      (2 ^ (f.exponent a - 1) ∣ f.units b →
        f.units (add f a b) + f.units b = f.units a) := by
  have hpos := Nat.two_pow_pos f.fractionBits
  obtain ⟨hswap, hsign, hlow, hhigh, hexact⟩ := add_opposite ha.exponentBits_pos hs
    (by rw [ha.magnitude_eq, hb.magnitude_eq]; omega)
  rw [ha.magnitude_eq, hb.magnitude_eq] at hlow
  have hlarge : 2 * 2 ^ f.fractionBits ≤ f.magnitude (add f a b) := by omega
  have hnormal : f.Normal (add f a b) := by
    constructor
    · intro hzero
      have hlt := f.significand_lt (add f a b)
      rw [magnitude_eq (unsigned_ne_zero (by omega)), hzero, Nat.pow_zero, Nat.mul_one] at hlarge
      omega
    · have hle : f.exponent (add f a b) ≤ f.exponent a :=
        exponent_le_of_magnitude_lt (Nat.lt_of_le_of_lt (Nat.le_add_right _ _) hhigh) (by omega)
          ha.unsigned_ne_zero
      exact Nat.lt_of_le_of_lt hle ha.2
  rw [hnormal.magnitude_eq] at hlow
  rw [hnormal.magnitude_eq, ha.magnitude_eq, hb.magnitude_eq, ha.two_pow_exponent] at hhigh hexact
  refine ⟨hswap, hnormal, hsign, by omega, by omega, fun hdvd => ?_⟩
  have := hexact (Nat.mul_dvd_mul_left 2 hdvd)
  omega

/-- A sum is cut down to the word below, or off by less than a unit of the greater operand. -/
theorem add_cuts (ha : f.Normal a) (hb : f.Normal b) :
    (f.sign a = f.sign b → f.InRange (f.units a + f.units b) 1 →
      f.Cuts (add f a b) (f.units a + f.units b) 1 ∧ f.sign (add f a b) = f.sign a) ∧
    (f.sign a ≠ f.sign b → 2 ^ f.fractionBits + f.units b ≤ f.units a →
      add f b a = add f a b ∧ f.Normal (add f a b) ∧ f.sign (add f a b) = f.sign a ∧
        f.units a ≤ f.units (add f a b) + f.units b ∧
        f.units (add f a b) + f.units b < f.units a + 2 ^ (f.exponent a - 1) ∧
        (2 ^ (f.exponent a - 1) ∣ f.units b →
          f.units (add f a b) + f.units b = f.units a)) := by
  refine ⟨fun hs h => ?_, fun hs h => add_apart ha hb hs h⟩
  have hnum : f.magnitude a + f.magnitude b = 2 * (f.units a + f.units b) := by
    rw [ha.magnitude_eq, hb.magnitude_eq, Nat.mul_add]
  have hquotient := h.normalQuotient ha.exponentBits_pos
  rw [← hnum] at hquotient
  obtain ⟨htruncates, hsign⟩ :=
    add_truncates ha.exponentBits_pos ha.unsigned_ne_zero hb.unsigned_ne_zero hs hquotient
  rw [hnum] at htruncates hquotient
  exact ⟨htruncates.cuts hquotient, hsign⟩

/-- One and the single below it. -/
theorem add_cuts_neighbours :
    add single 0xbf7fffff 0x3f800000 = add single 0x3f800000 0xbf7fffff ∧
      single.Normal (add single 0x3f800000 0xbf7fffff) ∧
      single.sign (add single 0x3f800000 0xbf7fffff) = single.sign 0x3f800000 ∧
      single.units 0x3f800000 ≤
        single.units (add single 0x3f800000 0xbf7fffff) + single.units 0xbf7fffff ∧
      single.units (add single 0x3f800000 0xbf7fffff) + single.units 0xbf7fffff <
        single.units 0x3f800000 + 2 ^ (single.exponent 0x3f800000 - 1) ∧
      (2 ^ (single.exponent 0x3f800000 - 1) ∣ single.units 0xbf7fffff →
        single.units (add single 0x3f800000 0xbf7fffff) + single.units 0xbf7fffff =
          single.units 0x3f800000) :=
  (add_cuts (f := single) (a := 0x3f800000) (b := 0xbf7fffff) (by decide) (by decide)).2
    (by decide) (by decide)

/-- A quotient of normal singles in the range of the normal words is cut down to the word below. -/
theorem divsf3_cuts {a b : Nat} (ha : single.Normal a) (hb : single.Normal b)
    (h : single.InRange (single.units a * single.one) (2 * single.units b)) :
    single.Cuts (divsf3 a b) (single.units a * single.one) (2 * single.units b) ∧
      single.sign (divsf3 a b) = (single.sign a + single.sign b) % 2 := by
  have hnum : single.magnitude a * single.one = 2 * (single.units a * single.one) := by
    rw [ha.magnitude_eq, Nat.mul_assoc]
  have hquotient := h.normalQuotient (by decide)
  rw [← hnum, ← hb.magnitude_eq] at hquotient
  obtain ⟨htruncates, hsign⟩ := divsf3_truncates hquotient
  rw [hnum, hb.magnitude_eq] at htruncates hquotient
  exact ⟨htruncates.cuts hquotient, hsign⟩

/-- One by three. -/
theorem divsf3_cuts_third :
    single.Cuts (divsf3 0x3f800000 0x40400000) (single.units 0x3f800000 * single.one)
        (2 * single.units 0x40400000) ∧
      single.sign (divsf3 0x3f800000 0x40400000) =
        (single.sign 0x3f800000 + single.sign 0x40400000) % 2 :=
  divsf3_cuts (by decide) (by decide) ⟨by decide, by decide⟩

end Arithmetic

end BlockyOS.Libcrt.SoftFloat
