import Mathlib.Logic.Function.Iterate

/-!
# Calendars with a leap year every four years

Dates follow each other day by day from the first of January of year zero, which
is a leap year.
-/

namespace BlockyOS.Foundation

structure Date where
  year : Nat
  month : Nat
  day : Nat
  deriving DecidableEq, Repr

def leapDay (y : Nat) : Nat := if y % 4 = 0 then 1 else 0

def monthLength (y m : Nat) : Nat :=
  if m = 2 then 28 + leapDay y else if m = 4 ∨ m = 6 ∨ m = 9 ∨ m = 11 then 30 else 31

def daysThrough (y : Nat) : Nat → Nat
  | 0 => 0
  | m + 1 => daysThrough y m + monthLength y (m + 1)

section Cycle

variable {k : Nat}

theorem leapDay_add (hk : k % 4 = 0) (y : Nat) : leapDay (y + k) = leapDay y := by
  unfold leapDay
  split <;> split <;> omega

theorem monthLength_add (hk : k % 4 = 0) (y m : Nat) :
    monthLength (y + k) m = monthLength y m := by
  rw [monthLength, monthLength, leapDay_add hk]

theorem daysThrough_add (hk : k % 4 = 0) (y m : Nat) :
    daysThrough (y + k) m = daysThrough y m := by
  induction m with
  | zero => rfl
  | succ m ih => rw [daysThrough, daysThrough, ih, monthLength_add hk]

end Cycle

namespace Date

def Valid (t : Date) : Prop :=
  1 ≤ t.month ∧ t.month ≤ 12 ∧ 1 ≤ t.day ∧ t.day ≤ monthLength t.year t.month

def next (t : Date) : Date :=
  if t.day < monthLength t.year t.month then { t with day := t.day + 1 }
  else if t.month < 12 then ⟨t.year, t.month + 1, 1⟩
  else ⟨t.year + 1, 1, 1⟩

def ofNumber (n : Nat) : Date := next^[n] ⟨0, 1, 1⟩

/-- The number of leap days in front of a year is that of the quarters begun. -/
def number (t : Date) : Nat :=
  365 * t.year + (t.year + 3) / 4 + daysThrough t.year (t.month - 1) + (t.day - 1)

variable {t : Date}

theorem one_le_monthLength (y m : Nat) : 28 ≤ monthLength y m ∧ monthLength y m ≤ 31 := by
  unfold monthLength leapDay
  split
  · split <;> omega
  · split <;> omega

theorem daysThrough_twelve (y : Nat) : daysThrough y 12 = 365 + leapDay y := by
  simp [daysThrough, monthLength]
  omega

theorem Valid.next (h : t.Valid) : t.next.Valid := by
  obtain ⟨h1, h12, hd, hle⟩ := h
  unfold Date.next
  split
  case isTrue hlt => exact ⟨h1, h12, by dsimp only; omega, hlt⟩
  case isFalse =>
    split
    case isTrue hmonth =>
      have := one_le_monthLength t.year (t.month + 1)
      exact ⟨by dsimp only; omega, hmonth, Nat.le_refl 1, by dsimp only; omega⟩
    case isFalse =>
      have := one_le_monthLength (t.year + 1) 1
      exact ⟨Nat.le_refl 1, by dsimp only; omega, Nat.le_refl 1, by dsimp only; omega⟩

theorem number_next (h : t.Valid) : t.next.number = t.number + 1 := by
  obtain ⟨h1, h12, hd, hle⟩ := h
  unfold Date.next
  split
  case isTrue hlt =>
    unfold number
    dsimp only
    omega
  case isFalse hlast =>
    obtain ⟨m, hm⟩ : ∃ m, t.month = m + 1 := ⟨t.month - 1, by omega⟩
    rw [hm] at hlast hle
    split
    case isTrue hmonth =>
      unfold number
      dsimp only
      rw [hm, Nat.add_sub_cancel, Nat.add_sub_cancel, daysThrough]
      omega
    case isFalse hmonth =>
      have hyear := daysThrough_twelve t.year
      obtain rfl : m = 11 := by omega
      rw [daysThrough] at hyear
      unfold number
      dsimp only
      rw [hm, show daysThrough (t.year + 1) (1 - 1) = 0 from rfl, Nat.add_sub_cancel]
      unfold leapDay at hyear
      split at hyear <;> omega

theorem valid_ofNumber (n : Nat) : (ofNumber n).Valid := by
  induction n with
  | zero => exact ⟨by decide, by decide, by decide, by decide⟩
  | succ n ih =>
      rw [ofNumber, Function.iterate_succ_apply']
      exact ih.next

theorem number_ofNumber (n : Nat) : (ofNumber n).number = n := by
  induction n with
  | zero => rfl
  | succ n ih =>
      rw [ofNumber, Function.iterate_succ_apply']
      change (ofNumber n).next.number = n + 1
      rw [number_next (valid_ofNumber n), ih]

end Date

end BlockyOS.Foundation
