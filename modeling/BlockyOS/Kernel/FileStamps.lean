import BlockyOS.Foundation.Calendars
import Mathlib.Tactic.IntervalCases

/-!
# The clock and the stamps of files

`CMOSGetTime` reads the registers of the clock, and the driver of the file system
stores the seconds of the day and a count of days.  The registers are taken as
they are between two updates of the clock.
-/

namespace BlockyOS.Kernel

open BlockyOS.Foundation

/-! ## Reading the clock -/

structure CMOSTime where
  second : Nat
  minute : Nat
  hour : Nat
  day : Nat
  month : Nat
  year : Nat
  deriving DecidableEq, Repr

def fromBCD (n : Nat) : Nat := (n &&& 0x0F) + n / 16 * 10

def hourFromBCD (n : Nat) : Nat := ((n &&& 0x0F) + (n &&& 0x70) / 16 * 10) ||| (n &&& 0x80)

def CMOSGetTime (CMOSRead : Nat → Nat) : CMOSTime :=
  let time : CMOSTime :=
    ⟨CMOSRead 0x00, CMOSRead 0x02, CMOSRead 0x04, CMOSRead 0x07, CMOSRead 0x08, CMOSRead 0x09⟩
  let register_b := CMOSRead 0x0B
  let time :=
    if register_b &&& 0x04 = 0 then
      ⟨fromBCD time.second, fromBCD time.minute, hourFromBCD time.hour, fromBCD time.day,
        fromBCD time.month, fromBCD time.year⟩
    else time
  { time with
    hour :=
      if register_b &&& 0x02 = 0 ∧ time.hour &&& 0x80 ≠ 0 then ((time.hour &&& 0x7F) + 12) % 24
      else time.hour
    year := time.year + 2000 }

def CMOSGetElapsedDays (Year Month Days : Nat) : Nat :=
  Year * 365 + Year / 4 +
    ((if Month > 0 then 31 else 0) + (if Month > 1 then (if Year % 4 = 0 then 29 else 28) else 0) +
      (if Month > 2 then 31 else 0) + (if Month > 3 then 30 else 0) +
      (if Month > 4 then 31 else 0) + (if Month > 5 then 30 else 0) +
      (if Month > 6 then 31 else 0) + (if Month > 7 then 31 else 0) +
      (if Month > 8 then 30 else 0) + (if Month > 9 then 31 else 0) +
      (if Month > 10 then 30 else 0) + (if Month > 11 then 31 else 0)) + Days

/-! ## The stamps -/

structure Stamps where
  accesstime : Nat
  writetime : Nat
  accessdate : Nat
  writedate : Nat
  deriving DecidableEq, Repr, Inhabited

def CMOSTime.secondOfDay (time : CMOSTime) : Nat :=
  time.hour * 3600 + time.minute * 60 + time.second

def __fupdatetstamp (time : CMOSTime) (finfo : Stamps) (wt : Bool) : Stamps :=
  let finfo :=
    if wt then
      { finfo with
        writetime := time.secondOfDay
        writedate := CMOSGetElapsedDays (time.year % 256) time.month time.day }
    else finfo
  { finfo with
    accesstime := time.secondOfDay
    accessdate := CMOSGetElapsedDays (time.year % 256) time.month time.day }

/-! ## The registers -/

/-- How the clock codes numbers and counts hours. -/
structure ClockMode where
  binary : Bool
  hours24 : Bool

def ClockMode.code (m : ClockMode) (n : Nat) : Nat :=
  if m.binary then n else n / 10 * 16 + n % 10

def ClockMode.codeHour (m : ClockMode) (h : Nat) : Nat :=
  if m.hours24 then m.code h
  else m.code (if h % 12 = 0 then 12 else h % 12) + (if 12 ≤ h then 0x80 else 0)

/-- The registers of a clock, with the other bits of register B as they are. -/
def ClockMode.registers (m : ClockMode) (other : Nat) (t : CMOSTime) (reg : Nat) : Nat :=
  match reg with
  | 0x00 => m.code t.second
  | 0x02 => m.code t.minute
  | 0x04 => m.codeHour t.hour
  | 0x07 => m.code t.day
  | 0x08 => m.code t.month
  | 0x09 => m.code t.year
  | 0x0B => other / 2 * 8 + (if m.binary then 4 else 0) + (if m.hours24 then 2 else 0) + other % 2
  | _ => 0

section Registers

theorem and_two_pow_eq_zero_iff (x i : Nat) : x &&& 2 ^ i = 0 ↔ x / 2 ^ i % 2 = 0 := by
  have hquotient : (x &&& 2 ^ i) / 2 ^ i = x / 2 ^ i % 2 := by
    rw [Nat.and_div_two_pow, Nat.div_self (Nat.two_pow_pos i), Nat.and_one_is_mod]
  have hrest : (x &&& 2 ^ i) % 2 ^ i = 0 := by
    rw [Nat.and_mod_two_pow, Nat.mod_self, Nat.and_zero]
  have hsplit := Nat.div_add_mod (x &&& 2 ^ i) (2 ^ i)
  rw [hquotient, hrest, Nat.add_zero] at hsplit
  rw [← hsplit, Nat.mul_eq_zero]
  have := Nat.two_pow_pos i
  omega

theorem fromBCD_code {m : ClockMode} (hm : m.binary = false) (n : Nat) :
    fromBCD (m.code n) = n := by
  have hmask : (n / 10 * 16 + n % 10) &&& 0x0F = (n / 10 * 16 + n % 10) % 2 ^ 4 :=
    Nat.and_two_pow_sub_one_eq_mod _ 4
  rw [ClockMode.code, if_neg (by rw [hm]; decide), fromBCD, hmask]
  omega

theorem hours_read (binary hours24 : Bool) :
    ∀ h < 24,
      let read :=
        if binary then ClockMode.codeHour ⟨binary, hours24⟩ h
        else hourFromBCD (ClockMode.codeHour ⟨binary, hours24⟩ h)
      (if hours24 = false ∧ read &&& 0x80 ≠ 0 then ((read &&& 0x7F) + 12) % 24 else read) =
        if hours24 = false ∧ h % 12 = 0 then 12 - h else h := by
  cases binary <;> cases hours24 <;> decide

/-- The clock is read as it is, in all four modes, but midnight and noon of a clock with twelve
hours are taken for each other. -/
theorem CMOSGetTime_registers (m : ClockMode) (other : Nat) (t : CMOSTime) (hh : t.hour < 24) :
    CMOSGetTime (m.registers other t) =
      { t with
        hour := if m.hours24 = false ∧ t.hour % 12 = 0 then 12 - t.hour else t.hour
        year := t.year + 2000 } := by
  obtain ⟨binary, hours24⟩ := m
  have hours := hours_read binary hours24 t.hour hh
  have hcoded : (other / 2 * 8 + (if binary then 4 else 0) + (if hours24 then 2 else 0) +
      other % 2) &&& 0x04 = 0 ↔ binary = false := by
    rw [show (0x04 : Nat) = 2 ^ 2 from rfl, and_two_pow_eq_zero_iff]
    cases binary <;> cases hours24 <;> simp <;> omega
  have htwelve : (other / 2 * 8 + (if binary then 4 else 0) + (if hours24 then 2 else 0) +
      other % 2) &&& 0x02 = 0 ↔ hours24 = false := by
    rw [show (0x02 : Nat) = 2 ^ 1 from rfl, and_two_pow_eq_zero_iff]
    cases binary <;> cases hours24 <;> simp <;> omega
  simp only [CMOSGetTime, ClockMode.registers, hcoded, htwelve]
  cases binary with
  | true =>
      rw [if_neg (by decide)]
      dsimp only
      rw [← hours]
      rfl
  | false =>
      rw [if_pos rfl]
      dsimp only
      rw [fromBCD_code rfl, fromBCD_code rfl, fromBCD_code rfl, fromBCD_code rfl, fromBCD_code rfl,
        ← hours]
      rfl

theorem CMOSGetTime_registers_midnight :
    CMOSGetTime (ClockMode.registers ⟨false, false⟩ 0 ⟨30, 15, 0, 29, 2, 24⟩) =
      ⟨30, 15, 12, 29, 2, 2024⟩ :=
  CMOSGetTime_registers ⟨false, false⟩ 0 ⟨30, 15, 0, 29, 2, 24⟩ (by decide)

end Registers

/-! ## The order of the stamps -/

section Order

theorem CMOSGetElapsedDays_of_valid {t : Date} (ht : t.Valid) :
    CMOSGetElapsedDays t.year t.month t.day =
      t.number + (monthLength t.year t.month + leapDay t.year) := by
  obtain ⟨y, m, d⟩ := t
  obtain ⟨h1, h12, hd, -⟩ := ht
  dsimp only at h1 h12 hd ⊢
  unfold CMOSGetElapsedDays Date.number leapDay
  interval_cases m <;> simp [daysThrough, monthLength, leapDay] <;> split <;> omega

/-- The clock shows a time of the day with this number, in the years from 2000 on. -/
def CMOSTime.OnDay (time : CMOSTime) (n : Nat) : Prop :=
  time.year = (Date.ofNumber n).year + 2000 ∧ time.month = (Date.ofNumber n).month ∧
    time.day = (Date.ofNumber n).day

variable {time time' : CMOSTime} {n : Nat} {finfo finfo' : Stamps} {wt wt' : Bool}

theorem accessdate_fupdatetstamp :
    (__fupdatetstamp time finfo wt).accessdate =
      CMOSGetElapsedDays (time.year % 256) time.month time.day := rfl

theorem accessdate_of_onDay (h : time.OnDay n) (hyear : time.year < 2048) :
    (__fupdatetstamp time finfo wt).accessdate =
      n + 75972 + (monthLength time.year time.month + leapDay time.year) := by
  obtain ⟨hy, hm, hd⟩ := h
  have hvalid := Date.valid_ofNumber n
  have hnumber := Date.number_ofNumber n
  generalize Date.ofNumber n = t at hy hm hd hvalid hnumber
  obtain ⟨h1, h12, hlow, hhigh⟩ := hvalid
  have helapsed := CMOSGetElapsedDays_of_valid (t := ⟨t.year + 208, t.month, t.day⟩)
    ⟨h1, h12, hlow, by rw [monthLength_add (by decide)]; exact hhigh⟩
  dsimp only at helapsed
  rw [accessdate_fupdatetstamp, show time.year % 256 = t.year + 208 by omega, hm, hd, helapsed, hy,
    monthLength_add (by decide), monthLength_add (by decide), leapDay_add (by decide),
    leapDay_add (by decide), Nat.add_right_cancel_iff, ← hnumber]
  unfold Date.number
  dsimp only
  rw [daysThrough_add (by decide)]
  omega

/-- From one day to the next the stamp goes back at the end of January and stands still at the
end of March, May, August, October and of December in a leap year; on all other days it grows. -/
theorem accessdate_next (h : time.OnDay n) (h' : time'.OnDay (n + 1)) (hyear : time'.year < 2048) :
    ((__fupdatetstamp time' finfo' wt').accessdate < (__fupdatetstamp time finfo wt).accessdate ↔
        time.month = 1 ∧ time.day = 31) ∧
      ((__fupdatetstamp time' finfo' wt').accessdate =
          (__fupdatetstamp time finfo wt).accessdate ↔
        time.day = 31 ∧ (time.month = 3 ∨ time.month = 5 ∨ time.month = 8 ∨ time.month = 10 ∨
          time.month = 12 ∧ time.year % 4 = 0)) := by
  have hvalid := Date.valid_ofNumber n
  have hnext : Date.ofNumber (n + 1) = (Date.ofNumber n).next :=
    Function.iterate_succ_apply' Date.next n _
  have hyears : time.year ≤ time'.year := by
    rw [h.1, h'.1, hnext]
    unfold Date.next
    split
    · exact Nat.le_refl _
    · split <;> dsimp only <;> omega
  rw [accessdate_of_onDay h' hyear, accessdate_of_onDay h (by omega)]
  obtain ⟨hy, hm, hd⟩ := h
  obtain ⟨hy', hm', hd'⟩ := h'
  obtain ⟨h1, h12, -, hle⟩ := hvalid
  rw [← monthLength_add (k := 2000) (by decide), ← hy, ← hm, ← hd] at hle
  rw [← hm] at h1 h12
  rw [hnext, Date.next, ← monthLength_add (k := 2000) (by decide), ← hy, ← hm, ← hd] at hy' hm'
  have hbounds := Date.one_le_monthLength time.year time.month
  by_cases hlast : time.day < monthLength time.year time.month
  · -- the month goes on, and both stamps count it in full
    rw [if_pos hlast] at hy' hm'
    dsimp only at hy' hm'
    rw [hm', hy', ← hy]
    omega
  · rw [if_neg hlast] at hy' hm'
    by_cases hmonth : time.month < 12
    · rw [if_pos hmonth] at hy' hm'
      dsimp only at hy' hm'
      rw [hm', hy', ← hy]
      rw [show time.day = monthLength time.year time.month by omega]
      clear hm hd hm' hd' hy hy' hnext hyears
      unfold monthLength leapDay
      generalize time.month = m at *
      interval_cases m <;> simp <;> split <;> omega
    · rw [if_neg hmonth] at hy' hm'
      dsimp only at hy' hm'
      rw [hm', hy', show time.day = monthLength time.year time.month by omega]
      obtain hdecember : time.month = 12 := by omega
      rw [hdecember]
      simp [monthLength, leapDay]
      split <;> split <;> omega

theorem accessdate_next_january :
    (__fupdatetstamp ⟨0, 0, 0, 1, 2, 2000⟩ default false).accessdate <
      (__fupdatetstamp ⟨0, 0, 0, 31, 1, 2000⟩ default false).accessdate :=
  (accessdate_next (n := 30) ⟨by decide +kernel, by decide +kernel, by decide +kernel⟩
    ⟨by decide +kernel, by decide +kernel, by decide +kernel⟩ (by decide)).1.2 ⟨rfl, rfl⟩

end Order

end BlockyOS.Kernel
