import BlockyOS.Foundation.Remainders
import BlockyOS.Foundation.Runs
import BlockyOS.HostTool.Raw
import Mathlib.Data.Set.Card

/-!
# Random numbers in a range

The raw values come from the hardware, one after the other.  The width of a range
wraps to 0 for the full one, the biased function leaves out the lower end, and the
filling of bytes writes its words behind the place where they belong.
-/

namespace BlockyOS.Libcrt

open BlockyOS.Foundation
open BlockyOS.HostTool (Fault)

/-! ## The functions -/

/-- `(__max(max, min) - min) + 1`, in 64 bits. -/
def rangeWidth (min max : UInt64) : UInt64 := (if max < min then min else max) - min + 1

/-- `GetTrueRandomRange64` from a raw value. -/
def getTrueRandomRange64 (raw min max : UInt64) : Except Fault UInt64 :=
  if rangeWidth min max = 0 then .error .divByZero else .ok (raw % rangeWidth min max)

/-- The place of the first raw value below the limit, looked for in `fuel` values from `k` on. -/
def draw (raw : Nat → UInt64) (limit : UInt64) : Nat → Nat → Except Fault Nat
  | 0, _ => .error .hang
  | fuel + 1, k => if limit ≤ raw k then draw raw limit fuel (k + 1) else .ok k

/-- `GetTrueRandomRange64U` from the raw values from `k` on, and how far it reads them. -/
def getTrueRandomRange64U (raw : Nat → UInt64) (min max : UInt64) (fuel k : Nat) :
    Except Fault (UInt64 × Nat) :=
  let range := rangeWidth min max
  if range = 0 then .error .divByZero
  else
    let limit := 0xFFFFFFFFFFFFFFFF - 0xFFFFFFFFFFFFFFFF % range
    (draw raw limit fuel k).map fun k => (min + raw k % range, k + 1)

/-- The bytes that `SetTrueRandomRangedBytes` writes, each with its offset. -/
def setTrueRandomRangedBytes (raw : Nat → UInt64) (min max : UInt64) (fuel n k : Nat) :
    Except Fault (List (Nat × UInt8)) :=
  if 8 < n then
    match getTrueRandomRange64U raw min max fuel k with
    | .error e => .error e
    | .ok (value, k) =>
        (setTrueRandomRangedBytes raw min max fuel (n - 8) k).map fun rest =>
          (List.range 8).map (fun j => (n / 8 * 8 + j, (value >>> UInt64.ofNat (j * 8)).toUInt8))
            ++ rest
  else
    match getTrueRandomRange64U raw min max fuel k with
    | .error e => .error e
    | .ok (tmp, _) =>
        .ok ((List.range n).reverse.map fun i => (i, (tmp >>> UInt64.ofNat (i * 8)).toUInt8))
termination_by n

/-! ## What they are for -/

/-- The raw value is not rejected. -/
def Accepted (min max raw : UInt64) : Prop :=
  ∃ r, getTrueRandomRange64U (fun _ => raw) min max 1 0 = .ok r

/--
Both functions return values of the range, without dividing by zero, the accepted raw
values are spread evenly, and the bytes written are those of the buffer.
-/
structure RandomRangesRight (min max : UInt64) (n : Nat) : Prop where
  biased : ∀ raw, ∃ r, getTrueRandomRange64 raw min max = .ok r ∧ min ≤ r ∧ r ≤ max
  divides : ∀ raw fuel k, getTrueRandomRange64U raw min max fuel k ≠ .error .divByZero
  unbiased : ∀ raw : Nat → UInt64, (∃ j, Accepted min max (raw j)) → ∃ fuel r k,
    getTrueRandomRange64U raw min max fuel 0 = .ok (r, k) ∧ min ≤ r ∧ r ≤ max
  even : ∃ c, 0 < c ∧ ∀ r, min ≤ r → r ≤ max →
    {raw | ∃ k, getTrueRandomRange64U (fun _ => raw) min max 1 0 = .ok (r, k)}.ncard = c
  bytes : ∀ raw : Nat → UInt64, (∃ j, Accepted min max (raw j)) → ∃ fuel writes,
    setTrueRandomRangedBytes raw min max fuel n 0 = .ok writes ∧
      ∀ i, (∃ byte, (i, byte) ∈ writes) ↔ i < n

variable {min max : UInt64} {n : Nat}

/-! ## The width of a range -/

theorem toNat_rangeWidth (h : min ≤ max) :
    (rangeWidth min max).toNat = (max.toNat - min.toNat + 1) % 2 ^ 64 := by
  have hle : min.toNat ≤ max.toNat := UInt64.le_iff_toNat_le.mp h
  rw [rangeWidth, if_neg (UInt64.not_lt.mpr h), UInt64.toNat_add, UInt64.toNat_sub_of_le _ _ h]
  rfl

theorem rangeWidth_eq_zero_iff (h : min ≤ max) :
    rangeWidth min max = 0 ↔ min = 0 ∧ max = 0xFFFFFFFFFFFFFFFF := by
  have hle : min.toNat ≤ max.toNat := UInt64.le_iff_toNat_le.mp h
  have hmax : max.toNat < 2 ^ 64 := max.toNat_lt
  rw [← UInt64.toNat_inj, toNat_rangeWidth h, ← UInt64.toNat_inj, ← UInt64.toNat_inj]
  change _ = 0 ↔ min.toNat = 0 ∧ max.toNat = 0xFFFFFFFFFFFFFFFF
  omega

section Width

variable (h : min ≤ max) (hwidth : rangeWidth min max ≠ 0)

include h hwidth

theorem toNat_rangeWidth_of_ne_zero :
    (rangeWidth min max).toNat = max.toNat - min.toNat + 1 := by
  have hmax : max.toNat < 2 ^ 64 := max.toNat_lt
  rw [ne_eq, ← UInt64.toNat_inj, toNat_rangeWidth h] at hwidth
  change ¬ _ = 0 at hwidth
  rw [toNat_rangeWidth h]
  omega

theorem toNat_add_mod (raw : UInt64) :
    (min + raw % rangeWidth min max).toNat =
      min.toNat + raw.toNat % (max.toNat - min.toNat + 1) ∧
      min.toNat + raw.toNat % (max.toNat - min.toNat + 1) ≤ max.toNat := by
  have hle : min.toNat ≤ max.toNat := UInt64.le_iff_toNat_le.mp h
  have hmax : max.toNat < 2 ^ 64 := max.toNat_lt
  have hmod := Nat.mod_lt raw.toNat (show 0 < max.toNat - min.toNat + 1 from Nat.succ_pos _)
  have hle' : min.toNat + raw.toNat % (max.toNat - min.toNat + 1) ≤ max.toNat := by omega
  rw [UInt64.toNat_add, UInt64.toNat_mod, toNat_rangeWidth_of_ne_zero h hwidth,
    Nat.mod_eq_of_lt (by omega)]
  exact ⟨rfl, hle'⟩

end Width

/-! ## Rejection -/

theorem draw_ok {raw : Nat → UInt64} {limit : UInt64} {k j : Nat} (hj : raw (k + j) < limit) :
    ∃ fuel k', draw raw limit fuel k = .ok k' := by
  induction j generalizing k with
  | zero =>
      refine ⟨1, k, ?_⟩
      rw [draw, if_neg (UInt64.not_le.mpr (Nat.add_zero k ▸ hj))]
  | succ j ih =>
      by_cases hk : limit ≤ raw k
      · have hnext : raw (k + 1 + j) < limit := by rwa [Nat.add_right_comm]
        obtain ⟨fuel, k', hdraw⟩ := ih hnext
        refine ⟨fuel + 1, k', ?_⟩
        rw [draw, if_pos hk, hdraw]
      · refine ⟨1, k, ?_⟩
        rw [draw, if_neg hk]

theorem draw_ne_divByZero {raw : Nat → UInt64} {limit : UInt64} {fuel k : Nat} :
    draw raw limit fuel k ≠ .error .divByZero := by
  induction fuel generalizing k with
  | zero => exact fun h => by cases h
  | succ fuel ih =>
      rw [draw]
      split
      · exact ih
      · exact fun h => by cases h

def rangeLimit (min max : UInt64) : UInt64 :=
  0xFFFFFFFFFFFFFFFF - 0xFFFFFFFFFFFFFFFF % rangeWidth min max

theorem getTrueRandomRange64U_of_ne_zero {raw : Nat → UInt64} {fuel k : Nat}
    (hwidth : rangeWidth min max ≠ 0) : getTrueRandomRange64U raw min max fuel k =
      (draw raw (rangeLimit min max) fuel k).map fun k =>
        (min + raw k % rangeWidth min max, k + 1) :=
  if_neg hwidth

theorem getTrueRandomRange64U_constant {raw r : UInt64} :
    (∃ k, getTrueRandomRange64U (fun _ => raw) min max 1 0 = .ok (r, k)) ↔
      rangeWidth min max ≠ 0 ∧ raw < rangeLimit min max ∧
        min + raw % rangeWidth min max = r := by
  by_cases hwidth : rangeWidth min max = 0
  · have herror : getTrueRandomRange64U (fun _ => raw) min max 1 0 = .error .divByZero :=
      if_pos hwidth
    rw [herror]
    refine iff_of_false ?_ fun h => h.1 hwidth
    rintro ⟨k, hk⟩
    cases hk
  · rw [getTrueRandomRange64U_of_ne_zero hwidth, and_iff_right hwidth]
    simp only [draw]
    by_cases hlimit : rangeLimit min max ≤ raw
    · rw [if_pos hlimit]
      refine iff_of_false ?_ fun h => UInt64.not_lt.mpr hlimit h.1
      rintro ⟨k, hk⟩
      cases hk
    · rw [if_neg hlimit, and_iff_right (UInt64.not_le.mp hlimit)]
      constructor
      · rintro ⟨k, hk⟩
        exact (Prod.mk.inj (Except.ok.inj hk)).1
      · rintro rfl
        exact ⟨1, rfl⟩

theorem accepted_iff {raw : UInt64} :
    Accepted min max raw ↔ rangeWidth min max ≠ 0 ∧ raw < rangeLimit min max := by
  rw [Accepted]
  constructor
  · rintro ⟨⟨r, k⟩, hr⟩
    obtain ⟨hwidth, hlimit, -⟩ := getTrueRandomRange64U_constant.mp ⟨k, hr⟩
    exact ⟨hwidth, hlimit⟩
  · rintro ⟨hwidth, hlimit⟩
    obtain ⟨k, hk⟩ := getTrueRandomRange64U_constant.mpr ⟨hwidth, hlimit, rfl⟩
    exact ⟨_, hk⟩

theorem getTrueRandomRange64U_ok {raw : Nat → UInt64} (h : min ≤ max)
    (hraw : ∃ j, Accepted min max (raw j)) : ∃ fuel r k,
      getTrueRandomRange64U raw min max fuel 0 = .ok (r, k) ∧ min ≤ r ∧ r ≤ max := by
  obtain ⟨j, hj⟩ := hraw
  obtain ⟨hwidth, hlimit⟩ := accepted_iff.mp hj
  obtain ⟨fuel, k, hdraw⟩ := @draw_ok raw _ 0 j (by rwa [Nat.zero_add])
  obtain ⟨hvalue, hle⟩ := toNat_add_mod h hwidth (raw k)
  refine ⟨fuel, min + raw k % rangeWidth min max, k + 1, ?_, ?_, ?_⟩
  · rw [getTrueRandomRange64U_of_ne_zero hwidth, hdraw]
    rfl
  · rw [UInt64.le_iff_toNat_le, hvalue]
    exact Nat.le_add_right _ _
  · rwa [UInt64.le_iff_toNat_le, hvalue]

theorem toNat_rangeLimit (h : min ≤ max) (hwidth : rangeWidth min max ≠ 0) :
    (rangeLimit min max).toNat =
      2 ^ 64 - 1 - (2 ^ 64 - 1) % (max.toNat - min.toNat + 1) := by
  have hfull : (0xFFFFFFFFFFFFFFFF : UInt64).toNat = 2 ^ 64 - 1 := by decide
  have hle : (0xFFFFFFFFFFFFFFFF : UInt64) % rangeWidth min max ≤ 0xFFFFFFFFFFFFFFFF := by
    rw [UInt64.le_iff_toNat_le, UInt64.toNat_mod]
    exact Nat.mod_le _ _
  rw [rangeLimit, UInt64.toNat_sub_of_le _ _ hle, UInt64.toNat_mod, hfull,
    toNat_rangeWidth_of_ne_zero h hwidth]

theorem ncard_raw_values {r : UInt64} (h : min ≤ max) (hwidth : rangeWidth min max ≠ 0)
    (hmin : min ≤ r) (hmax : r ≤ max) :
    {raw | ∃ k, getTrueRandomRange64U (fun _ => raw) min max 1 0 = .ok (r, k)}.ncard =
      (2 ^ 64 - 1) / (max.toNat - min.toNat + 1) := by
  have hle : min.toNat ≤ r.toNat := UInt64.le_iff_toNat_le.mp hmin
  have hle' : r.toNat ≤ max.toNat := UInt64.le_iff_toNat_le.mp hmax
  have hvalue := @toNat_add_mod min max h hwidth
  rw [← Set.ncard_image_of_injective _ fun a b => UInt64.toNat_inj.mp,
    ← @card_remainder (2 ^ 64 - 1) (max.toNat - min.toNat + 1) (r.toNat - min.toNat) (by omega),
    ← Set.ncard_coe_finset]
  refine congrArg Set.ncard (Set.ext fun x => ?_)
  rw [Set.mem_image, Finset.mem_coe, Finset.mem_filter, Finset.mem_range,
    ← toNat_rangeLimit h hwidth]
  constructor
  · rintro ⟨raw, hraw, rfl⟩
    obtain ⟨-, hlimit, rfl⟩ := getTrueRandomRange64U_constant.mp hraw
    refine ⟨UInt64.lt_iff_toNat_lt.mp hlimit, ?_⟩
    rw [(hvalue raw).1, Nat.add_sub_cancel_left]
  · rintro ⟨hlimit, hmod⟩
    have hx : (UInt64.ofNat x).toNat = x :=
      UInt64.toNat_ofNat_of_lt' (Nat.lt_trans hlimit (rangeLimit min max).toNat_lt)
    refine ⟨UInt64.ofNat x, getTrueRandomRange64U_constant.mpr ⟨hwidth, ?_, ?_⟩, hx⟩
    · rwa [UInt64.lt_iff_toNat_lt, hx]
    · rw [← UInt64.toNat_inj, (hvalue _).1, hx, hmod]
      omega

theorem accepted_zero (h : min ≤ max) (hwidth : rangeWidth min max ≠ 0) :
    Accepted min max 0 := by
  have hlt := (rangeWidth min max).toNat_lt
  rw [toNat_rangeWidth_of_ne_zero h hwidth] at hlt
  refine accepted_iff.mpr ⟨hwidth, ?_⟩
  rw [UInt64.lt_iff_toNat_lt, toNat_rangeLimit h hwidth]
  exact sub_mod_pos (Nat.succ_pos _) (Nat.le_sub_one_of_lt hlt)

/-! ## The bytes -/

theorem setTrueRandomRangedBytes_small {raw : Nat → UInt64} {fuel k k' : Nat} {value : UInt64}
    (hn : n ≤ 8) (hvalue : getTrueRandomRange64U raw min max fuel k = .ok (value, k')) :
    setTrueRandomRangedBytes raw min max fuel n k =
      .ok ((List.range n).reverse.map fun i => (i, (value >>> UInt64.ofNat (i * 8)).toUInt8)) := by
  rw [setTrueRandomRangedBytes, if_neg (Nat.not_lt.mpr hn), hvalue]

theorem mem_of_setTrueRandomRangedBytes {raw : Nat → UInt64} {fuel k : Nat}
    {writes : List (Nat × UInt8)} (hn : 8 < n)
    (h : setTrueRandomRangedBytes raw min max fuel n k = .ok writes) :
    ∃ byte, (n / 8 * 8 + 7, byte) ∈ writes := by
  rw [setTrueRandomRangedBytes, if_pos hn] at h
  cases hvalue : getTrueRandomRange64U raw min max fuel k with
  | error e =>
      rw [hvalue] at h
      cases h
  | ok value =>
      rw [hvalue] at h
      obtain ⟨rest, -, rfl⟩ := map_ok h
      exact ⟨_, List.mem_append_left _
        (List.mem_map.mpr ⟨7, List.mem_range.mpr (by decide), rfl⟩)⟩

/--
The random ranges are as they should be exactly when the range starts at 0, it is not
the full one, and there are at most eight bytes to fill.
-/
theorem randomRangesRight_iff (h : min ≤ max) (n : Nat) :
    RandomRangesRight min max n ↔ min = 0 ∧ max ≠ 0xFFFFFFFFFFFFFFFF ∧ n ≤ 8 := by
  constructor
  · intro hright
    have hwidth : rangeWidth min max ≠ 0 := by
      intro hzero
      obtain ⟨r, hr, -⟩ := hright.biased 0
      rw [getTrueRandomRange64, if_pos hzero] at hr
      cases hr
    have hmin : min = 0 := by
      obtain ⟨r, hr, hle, -⟩ := hright.biased 0
      rw [getTrueRandomRange64, if_neg hwidth, UInt64.zero_mod] at hr
      obtain rfl := Except.ok.inj hr
      exact UInt64.le_zero_iff.mp hle
    refine ⟨hmin, fun hmax => hwidth ((rangeWidth_eq_zero_iff h).mpr ⟨hmin, hmax⟩), ?_⟩
    by_contra hn
    have haccepted := accepted_zero h hwidth
    obtain ⟨fuel, writes, hwrites, hbytes⟩ := hright.bytes (fun _ => 0) ⟨0, haccepted⟩
    have hlt := (hbytes _).mp (mem_of_setTrueRandomRangedBytes (Nat.not_le.mp hn) hwrites)
    omega
  · rintro ⟨rfl, hmax, hn⟩
    have hwidth : rangeWidth 0 max ≠ 0 := fun hzero =>
      hmax ((rangeWidth_eq_zero_iff h).mp hzero).2
    refine ⟨fun raw => ?_, fun raw fuel k hdiv => ?_,
      fun raw hraw => getTrueRandomRange64U_ok h hraw, ?_, fun raw hraw => ?_⟩
    · have hle : raw.toNat % (rangeWidth 0 max).toNat ≤ max.toNat := by
        rw [toNat_rangeWidth_of_ne_zero h hwidth]
        exact Nat.le_of_lt_succ (Nat.mod_lt _ (Nat.succ_pos _))
      rw [getTrueRandomRange64, if_neg hwidth]
      refine ⟨_, rfl, UInt64.zero_le, ?_⟩
      rwa [UInt64.le_iff_toNat_le, UInt64.toNat_mod]
    · rw [getTrueRandomRange64U_of_ne_zero hwidth] at hdiv
      cases hdraw : draw raw (rangeLimit 0 max) fuel k with
      | ok k' =>
          rw [hdraw] at hdiv
          cases hdiv
      | error e =>
          rw [hdraw] at hdiv
          obtain rfl : e = .divByZero := Except.error.inj hdiv
          exact draw_ne_divByZero hdraw
    · have hlt := (rangeWidth 0 max).toNat_lt
      rw [toNat_rangeWidth_of_ne_zero h hwidth] at hlt
      exact ⟨_, Nat.div_pos (Nat.le_sub_one_of_lt hlt) (Nat.succ_pos _),
        fun r hmin hle => ncard_raw_values h hwidth hmin hle⟩
    · obtain ⟨fuel, value, k, hvalue, -⟩ := getTrueRandomRange64U_ok h hraw
      refine ⟨fuel, _, setTrueRandomRangedBytes_small hn hvalue, fun i => ?_⟩
      simp only [List.mem_map, List.mem_reverse, List.mem_range, Prod.mk.injEq]
      constructor
      · rintro ⟨byte, j, hj, rfl, -⟩
        exact hj
      · exact fun hi => ⟨_, i, hi, rfl, rfl⟩

/-- The dice of the range from 0 to 5, into eight bytes. -/
theorem randomRangesRight_dice : RandomRangesRight 0 5 8 :=
  (randomRangesRight_iff (by decide) 8).mpr ⟨rfl, by decide, by decide⟩

/-- In the range of the number 1 the biased function returns 0. -/
theorem not_randomRangesRight_one : ¬ RandomRangesRight 1 1 0 := by
  intro hright
  obtain ⟨r, hr, hle, -⟩ := hright.biased 0
  have hvalue : getTrueRandomRange64 0 1 1 = .ok 0 := rfl
  rw [hvalue] at hr
  obtain rfl := Except.ok.inj hr
  exact absurd hle (by decide)

end BlockyOS.Libcrt
