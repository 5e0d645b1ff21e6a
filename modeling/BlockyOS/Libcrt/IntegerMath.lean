import BlockyOS.Foundation.SignedWords
import BlockyOS.Foundation.SquareRoots
import BlockyOS.Foundation.Trails
import BlockyOS.Foundation.Words
import BlockyOS.HostTool.Raw

/-!
# Integer roots and powers

The root is found by Newton's iteration from the number itself, and the power by
squaring.  All sums and products are those of machine words.
-/

namespace BlockyOS.Libcrt

open BlockyOS.Foundation
open BlockyOS.HostTool (Fault)

/-! ## The square root -/

structure RootSearch where
  x : Nat
  x1 : Nat

/-- A turn of the loop in `sqrti`. -/
def sqrtTurn (n : Nat) (s : RootSearch) : RootSearch ⊕ Except Fault Nat :=
  if s.x1 < s.x then
    if s.x1 = 0 then .inr (.error .divByZero) else .inl ⟨s.x1, u32 (s.x1 + n / s.x1) / 2⟩
  else .inr (.ok s.x)

def rootStart (n : Nat) : RootSearch := ⟨n, u32 (n + 1) / 2⟩

def sqrti (n : UInt32) (fuel : Nat) : Option (Except Fault Nat) :=
  if n = 0 then some (.ok 0) else follow (sqrtTurn n.toNat) fuel (rootStart n.toNat)

/-- No sum of the call wraps: not the one in front of the loop, and none in it. -/
def SumsFit (n : Nat) : Prop :=
  n + 1 < 2 ^ 32 ∧
    ∀ s, Trail (sqrtTurn n) (rootStart n) s → s.x1 < s.x → s.x1 + n / s.x1 < 2 ^ 32

/-- The call ends with the root, without a division by zero or a sum that wraps. -/
def SqrtRight (n : UInt32) : Prop :=
  (∃ fuel r, sqrti n fuel = some (.ok r) ∧ r * r ≤ n.toNat ∧ n.toNat < (r + 1) * (r + 1)) ∧
    (n ≠ 0 → SumsFit n.toNat)

section Roots

variable {n : Nat} {s : RootSearch}

structure Guess (n : Nat) (s : RootSearch) : Prop where
  pos : 1 ≤ s.x
  le : s.x ≤ n
  above : n < (s.x + 1) * (s.x + 1)
  step : s.x1 = newton n s.x

theorem Guess.next_pos (h : Guess n s) : 1 ≤ s.x1 := by
  rw [h.step]
  exact one_le_newton h.pos h.le

theorem Guess.sum_lt (h : Guess n s) (hlt : s.x1 < s.x) (hn : n + 1 < 2 ^ 32) :
    s.x1 + n / s.x1 < 2 ^ 32 :=
  Nat.lt_of_le_of_lt (add_div_le h.next_pos (by have := h.le; omega)) hn

theorem Guess.next (h : Guess n s) (hlt : s.x1 < s.x) (hn : n + 1 < 2 ^ 32) :
    sqrtTurn n s = .inl ⟨s.x1, newton n s.x1⟩ ∧ Guess n ⟨s.x1, newton n s.x1⟩ := by
  have hpos := h.next_pos
  constructor
  · rw [sqrtTurn, if_pos hlt, if_neg (by omega), u32_of_lt (h.sum_lt hlt hn)]
    rfl
  · refine ⟨hpos, by have := h.le; dsimp only; omega, ?_, rfl⟩
    change n < (s.x1 + 1) * (s.x1 + 1)
    rw [h.step]
    exact lt_succ_newton h.pos

theorem Guess.start (hpos : 1 ≤ n) (hn : n + 1 < 2 ^ 32) : Guess n (rootStart n) where
  pos := hpos
  le := Nat.le_refl n
  above := by
    change n < (n + 1) * (n + 1)
    nlinarith
  step := by
    change u32 (n + 1) / 2 = newton n n
    rw [u32_of_lt hn, newton, Nat.div_self hpos]

theorem Guess.trail (hn : n + 1 < 2 ^ 32) (h : Guess n s) {s' : RootSearch}
    (htrail : Trail (sqrtTurn n) s s') : Guess n s' := by
  refine trail_invariant (fun a a' ha hmove => ?_) h htrail
  by_cases hlt : a.x1 < a.x
  · obtain ⟨hturn, hnext⟩ := ha.next hlt hn
    cases hmove.symm.trans hturn
    exact hnext
  · rw [Moves, sqrtTurn, if_neg hlt] at hmove
    cases hmove

theorem ends_of_guess (hn : n + 1 < 2 ^ 32) (h : Guess n s) :
    ∃ fuel answer, follow (sqrtTurn n) fuel s = some answer ∧
      ∃ r, answer = .ok r ∧ r * r ≤ n ∧ n < (r + 1) * (r + 1) := by
  refine ends_of_measure (P := Guess n) RootSearch.x (fun a ha => ?_) h
  by_cases hlt : a.x1 < a.x
  · obtain ⟨hturn, hnext⟩ := ha.next hlt hn
    exact .inl ⟨_, hturn, hnext, hlt⟩
  · refine .inr ⟨.ok a.x, if_neg hlt, a.x, rfl, square_le_of_le_newton ?_, ha.above⟩
    rw [← ha.step]
    exact Nat.le_of_not_lt hlt

/--
The call is right for every number but the largest, whose successor wraps, so that the
second guess is zero and divides.
-/
theorem sqrti_right_iff (n : UInt32) : SqrtRight n ↔ n ≠ 0xFFFFFFFF := by
  constructor
  · rintro ⟨-, hsums⟩ rfl
    have hfirst := (hsums (by decide)).1
    revert hfirst
    decide
  · intro hne
    have hn : n.toNat + 1 < 2 ^ 32 := by
      have hlt := n.toNat_lt
      have hmax : n.toNat ≠ 0xFFFFFFFF := fun h => hne (UInt32.toNat_inj.mp h)
      omega
    by_cases hzero : n = 0
    · subst hzero
      exact ⟨⟨0, 0, rfl, by decide, by decide⟩, fun h => absurd rfl h⟩
    · have hpos : 1 ≤ n.toNat :=
        Nat.pos_of_ne_zero fun h => hzero (UInt32.toNat_inj.mp h)
      have hstart := Guess.start hpos hn
      obtain ⟨fuel, answer, hrun, r, rfl, hroot⟩ := ends_of_guess hn hstart
      refine ⟨⟨fuel, r, ?_, hroot⟩, fun _ => ⟨hn, fun s htrail hlt => ?_⟩⟩
      · rw [sqrti, if_neg hzero, hrun]
      · exact (hstart.trail hn htrail).sum_lt hlt hn

/-- The largest number ends with a division by zero. -/
theorem not_sqrti_right_max :
    sqrti 0xFFFFFFFF 1 = some (.error .divByZero) ∧ ¬ SqrtRight 0xFFFFFFFF := by
  have hrun : sqrti 0xFFFFFFFF 1 = some (.error .divByZero) := by decide
  refine ⟨hrun, ?_⟩
  rintro ⟨⟨fuel, r, hright, -⟩, -⟩
  rw [sqrti, if_neg (by decide)] at hrun hright
  cases follow_unique hrun hright

end Roots

/-! ## Powers -/

/-- The loop of `powll`, with 64-bit products. -/
def powLoop (out base : Int) (pow : Nat) : Int :=
  if pow = 0 then out
  else
    powLoop (if pow % 2 = 1 then narrow 64 (out * base) else out) (narrow 64 (base * base))
      (pow / 2)

def powll (n : Int64) (pow : UInt8) : Int := powLoop 1 n.toInt pow.toNat

theorem powLoop_modEq (out base : Int) (pow : Nat) :
    powLoop out base pow ≡ out * base ^ pow [ZMOD (2 ^ 64 : Nat)] := by
  induction out, base, pow using powLoop.induct with
  | case1 out base =>
      rw [powLoop, if_pos rfl, pow_zero, mul_one]
  | case2 out base pow hpow ih =>
      rw [powLoop, if_neg hpow]
      have hbase : narrow 64 (base * base) ^ (pow / 2) ≡ base ^ (2 * (pow / 2))
          [ZMOD (2 ^ 64 : Nat)] := by
        rw [pow_mul, sq]
        exact (narrow_modEq 64 _).pow _
      refine ih.trans ?_
      split
      · next hodd =>
          have hsplit : pow = 2 * (pow / 2) + 1 := by omega
          calc narrow 64 (out * base) * narrow 64 (base * base) ^ (pow / 2)
              ≡ out * base * base ^ (2 * (pow / 2)) [ZMOD (2 ^ 64 : Nat)] :=
                (narrow_modEq 64 _).mul hbase
            _ = out * base ^ (2 * (pow / 2) + 1) := by ring
            _ = out * base ^ pow := by rw [← hsplit]
      · next heven =>
          have hsplit : pow = 2 * (pow / 2) := by omega
          calc out * narrow 64 (base * base) ^ (pow / 2)
              ≡ out * base ^ (2 * (pow / 2)) [ZMOD (2 ^ 64 : Nat)] := hbase.mul_left out
            _ = out * base ^ pow := by rw [← hsplit]

theorem narrow_powLoop {out base : Int} {pow : Nat} (hout : narrow 64 out = out) :
    narrow 64 (powLoop out base pow) = powLoop out base pow := by
  induction out, base, pow using powLoop.induct with
  | case1 out base => rwa [powLoop, if_pos rfl]
  | case2 out base pow hpow ih =>
      rw [powLoop, if_neg hpow]
      apply ih
      split
      · exact Int.bmod_bmod
      · exact hout

end BlockyOS.Libcrt
