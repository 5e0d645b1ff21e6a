import BlockyOS.Foundation.Roundings
import BlockyOS.Kernel.BlockIO
import BlockyOS.Kernel.HeapPool
import BlockyOS.Kernel.PageAlloc

/-!
# The rounding macros and their uses

When `__roundup` and `__rounddown` give the nearest multiple of the unit, and what
this says about the page that `FreePages` looks up and the blocks of the heap.
-/

namespace BlockyOS.Kernel

open BlockyOS.Foundation

/-! ## Rounding up -/

section Up

variable {a i : Nat}

theorem roundup_of_sum_ge (ha : a < 2 ^ 64) (hi : i < 2 ^ 64) (hsum : 2 ^ 64 ≤ a + (i - 1)) :
    roundup a i = 0 := by
  have hwrap : u64 (a + (i - 1)) < i := by
    rw [u64]
    omega
  rw [roundup, Nat.div_eq_of_lt hwrap, Nat.zero_mul]
  rfl

/-- A sum that wraps gives zero, which is no multiple from `a` on. -/
theorem roundsUp_roundup_iff (hi : 0 < i) (ha : a < 2 ^ 64) (hlt : i < 2 ^ 64) :
    RoundsUp i a (roundup a i) ↔ a + (i - 1) < 2 ^ 64 := by
  refine ⟨fun h => ?_, fun hsum => roundsUp_roundup hsum hi⟩
  by_contra hsum
  rw [roundup_of_sum_ge ha hlt (by omega)] at h
  have hzero : a ≤ 0 := h.1.2
  omega

/-- The second rounding wraps where no unit is left above the result of the first. -/
theorem roundup_roundup_iff (hi : 0 < i) (ha : a < 2 ^ 64) (hlt : i < 2 ^ 64) :
    roundup (roundup a i) i = roundup a i ↔
      2 ^ 64 ≤ a + (i - 1) ∨ a ≤ (2 ^ 64 / i - 1) * i := by
  rcases Nat.lt_or_ge (a + (i - 1)) (2 ^ 64) with hsum | hsum
  case inr =>
    have hzero : roundup 0 i = 0 := by
      rw [roundup_of_sum_lt (by omega), Nat.div_eq_of_lt (by omega), Nat.zero_mul]
    rw [roundup_of_sum_ge ha hlt hsum]
    exact iff_of_true hzero (Or.inl hsum)
  case inl =>
    have hup : RoundsUp i a (roundup a i) := roundsUp_roundup hsum hi
    have hword : roundup a i < 2 ^ 64 := u64_lt _
    rw [or_iff_right (by omega), ← hup.add_le_iff hi (Nat.le_of_lt hlt)]
    constructor
    · intro heq
      by_contra hroom
      rw [roundup_of_sum_ge hword hlt (by omega)] at heq
      omega
    · intro hroom
      exact roundup_of_dvd (by omega) hi hup.1.1

end Up

/-! ## Rounding down -/

/--
The `__rounddown` macro with a unit of `width` bits: the sum `i + 1` has the type
of `i`, and only then is it cast to the type of `a`.
-/
def rounddownIn (width a i : Nat) : Nat := u64 (u64sub a ((i + 1) % 2 ^ width) / i * i)

theorem pagingRounddown_eq_rounddownIn (a i : Nat) :
    PagingState.rounddown a i = rounddownIn 64 a i := by
  have hsub : u64sub a ((i + 1) % 2 ^ 64) = u64sub a (i + 1) := by
    unfold u64sub u64
    rw [Nat.mod_mod]
  rw [rounddownIn, hsub, PagingState.rounddown]

/-- What is taken off is a unit and one more, unless that sum wraps to zero. -/
theorem rounddownIn_eq {width a i : Nat} (hi : i < 2 ^ width) (hw : width ≤ 64)
    (ha : a < 2 ^ 64) :
    rounddownIn width a i =
      (if i + 1 = 2 ^ width then a
        else if i + 1 ≤ a then a - (i + 1) else a + 2 ^ 64 - (i + 1)) / i * i := by
  have hpow : 2 ^ width ≤ 2 ^ 64 := Nat.pow_le_pow_right (by decide) hw
  have hsub : u64sub a ((i + 1) % 2 ^ width) =
      if i + 1 = 2 ^ width then a
        else if i + 1 ≤ a then a - (i + 1) else a + 2 ^ 64 - (i + 1) := by
    split
    case isTrue hall =>
      rw [hall, Nat.mod_self]
      exact u64sub_of_le ha (Nat.zero_le a)
    case isFalse hall =>
      rw [Nat.mod_eq_of_lt (by omega)]
      split
      case isTrue hle => exact u64sub_of_le ha hle
      case isFalse hle =>
        rw [u64sub, u64_of_lt (by omega : i + 1 < 2 ^ 64), u64_of_lt (by omega)]
  have hlt : u64sub a ((i + 1) % 2 ^ width) < 2 ^ 64 := u64_lt _
  have hle := Nat.div_mul_le_self (u64sub a ((i + 1) % 2 ^ width)) i
  rw [rounddownIn, u64_of_lt (Nat.lt_of_le_of_lt hle hlt), hsub]

/-- A difference that wraps has the quotient of `a` only for units of half the words or more. -/
theorem wrapped_div_eq_iff {a i : Nat} (hle : a ≤ i) (hi : 0 < i) (hlt : i < 2 ^ 64) :
    (a + 2 ^ 64 - (i + 1)) / i = a / i ↔
      (a < i ∧ 2 ^ 64 + a ≤ 2 * i) ∨ (a = i ∧ 2 ^ 64 ≤ 2 * i) := by
  rcases Nat.eq_or_lt_of_le hle with rfl | hless
  case inl =>
    rw [Nat.div_self hi, Nat.div_eq_iff hi]
    omega
  case inr =>
    rw [Nat.div_eq_of_lt hless, Nat.div_eq_zero_iff]
    omega

/--
`__rounddown` reaches the greatest multiple only if the sum `i + 1` wraps, or if the
difference wraps to less than a unit, or to less than two from the unit itself.
-/
theorem roundsDown_rounddownIn_iff {width a i : Nat} (hi : 0 < i) (hlt : i < 2 ^ width)
    (hw : width ≤ 64) (ha : a < 2 ^ 64) :
    RoundsDown i a (rounddownIn width a i) ↔
      i + 1 = 2 ^ width ∨ (a < i ∧ 2 ^ 64 + a ≤ 2 * i) ∨ (a = i ∧ 2 ^ 64 ≤ 2 * i) := by
  have hpow : 2 ^ width ≤ 2 ^ 64 := Nat.pow_le_pow_right (by decide) hw
  rw [roundsDown_iff hi, rounddownIn_eq hlt hw ha, Nat.mul_left_inj hi.ne']
  by_cases hall : i + 1 = 2 ^ width
  · rw [if_pos hall]
    exact iff_of_true rfl (Or.inl hall)
  rw [if_neg hall, or_iff_right hall]
  by_cases hle : i + 1 ≤ a
  · -- A whole unit and one more is taken off, so a unit is missing at least.
    have hunit : (a - (i + 1)) / i + 1 ≤ a / i := by
      rw [← Nat.add_div_right _ hi]
      exact Nat.div_le_div_right (by omega)
    rw [if_pos hle]
    omega
  · rw [if_neg hle]
    exact wrapped_div_eq_iff (by omega) hi (by omega)

/-- Below two units a multiple is zero or the unit, which a difference that wraps leaves alone. -/
theorem rounddownIn_rounddownIn_iff {width a i : Nat} (hi : 0 < i) (hlt : i < 2 ^ width)
    (hw : width ≤ 64) (ha : a < 2 ^ 64) :
    rounddownIn width (rounddownIn width a i) i = rounddownIn width a i ↔
      i + 1 = 2 ^ width ∨ 2 ^ 64 ≤ 2 * i := by
  have hword : rounddownIn width a i < 2 ^ 64 := u64_lt _
  have hmem : i ∣ rounddownIn width a i := by
    rw [rounddownIn_eq hlt hw ha]
    exact Nat.dvd_mul_left i _
  have hself : RoundsDown i (rounddownIn width a i) (rounddownIn width a i) :=
    roundsDownIn_of_mem hmem
  have hiff := roundsDown_rounddownIn_iff hi hlt hw hword
  generalize rounddownIn width a i = m at *
  constructor
  · intro heq
    rw [heq] at hiff
    have hcases := hiff.mp hself
    omega
  · intro hunit
    have hright : RoundsDown i m (rounddownIn width m i) := by
      rw [hiff]
      obtain ⟨k, rfl⟩ := hmem
      rcases hunit with hall | hhalf
      · exact Or.inl hall
      · have hk : k < 2 := by
          by_contra hge
          have hmul := Nat.mul_le_mul_left i (Nat.not_lt.mp hge)
          omega
        obtain rfl | rfl : k = 0 ∨ k = 1 := by omega
        · exact Or.inr (Or.inl (by omega))
        · exact Or.inr (Or.inr (by omega))
    exact IsGreatest.unique hright hself

/-! ## Both macros -/

/--
Arguments of the macros: a 64-bit word and a unit of `width` bits, the width after
promotion.  A unit of a signed type is below the largest one of the unsigned type.
-/
structure Rounding where
  a : Nat
  i : Nat
  width : Nat
  a_lt : a < 2 ^ 64
  i_pos : 0 < i
  i_lt : i < 2 ^ width
  promoted : width = 32 ∨ width = 64

namespace Rounding

variable (r : Rounding)

def up : Nat := roundup r.a r.i

def down : Nat := rounddownIn r.width r.a r.i

/-- Both macros give the nearest multiple, and again when they are applied to it. -/
structure Right : Prop where
  up : r.a + (r.i - 1) < 2 ^ 64 → RoundsUp r.i r.a r.up
  down : RoundsDown r.i r.a r.down
  up_up : roundup r.up r.i = r.up
  down_down : rounddownIn r.width r.down r.i = r.down

/-- The sum `i + 1` wraps to zero, or the difference wraps to a word of the same quotient. -/
def DownExact : Prop :=
  r.i + 1 = 2 ^ r.width ∨ (r.a < r.i ∧ 2 ^ 64 + r.a ≤ 2 * r.i) ∨ (r.a = r.i ∧ 2 ^ 64 ≤ 2 * r.i)

/-- The first sum wraps, or `a` lies a unit below the last multiple up to `2 ^ 64` at least. -/
def UpStable : Prop := 2 ^ 64 ≤ r.a + (r.i - 1) ∨ r.a ≤ (2 ^ 64 / r.i - 1) * r.i

instance : Decidable r.DownExact := inferInstanceAs (Decidable (_ ∨ _))

instance : Decidable r.UpStable := inferInstanceAs (Decidable (_ ∨ _))

theorem width_le : r.width ≤ 64 := by
  have hpromoted := r.promoted
  omega

theorem i_lt_word : r.i < 2 ^ 64 :=
  Nat.lt_of_lt_of_le r.i_lt (Nat.pow_le_pow_right (by decide) r.width_le)

theorem roundsDown_down_iff : RoundsDown r.i r.a r.down ↔ r.DownExact :=
  roundsDown_rounddownIn_iff r.i_pos r.i_lt r.width_le r.a_lt

theorem down_down_iff : rounddownIn r.width r.down r.i = r.down ↔
    r.i + 1 = 2 ^ r.width ∨ 2 ^ 64 ≤ 2 * r.i :=
  rounddownIn_rounddownIn_iff r.i_pos r.i_lt r.width_le r.a_lt

theorem half_of_downExact (h : r.DownExact) : r.i + 1 = 2 ^ r.width ∨ 2 ^ 64 ≤ 2 * r.i := by
  rcases h with hall | hless | hsame
  · exact Or.inl hall
  · omega
  · exact Or.inr hsame.2

theorem right_iff : r.Right ↔ r.DownExact ∧ r.UpStable := by
  have hstable : roundup r.up r.i = r.up ↔ r.UpStable :=
    roundup_roundup_iff r.i_pos r.a_lt r.i_lt_word
  constructor
  · intro h
    exact ⟨r.roundsDown_down_iff.mp h.down, hstable.mp h.up_up⟩
  · rintro ⟨hdown, hup⟩
    have hright : RoundsDown r.i r.a r.down := r.roundsDown_down_iff.mpr hdown
    exact {
      up := fun hsum => roundsUp_roundup hsum r.i_pos
      down := hright
      up_up := hstable.mpr hup
      down_down := r.down_down_iff.mpr (r.half_of_downExact hdown) }

end Rounding

/-! ## Pages and blocks of a handle -/

theorem not_roundsDown_page {virt : Nat} (hvirt : virt < 2 ^ 64) :
    ¬ RoundsDown pageSize virt (PagingState.rounddown virt pageSize) := by
  rw [pagingRounddown_eq_rounddownIn,
    roundsDown_rounddownIn_iff (by decide) (by decide) (Nat.le_refl 64) hvirt, pageSize]
  omega

/-! ## New blocks of the heap -/

namespace MemPool

def newestTip (mp : MemPool) : Option Nat :=
  if mp.nDescriptors = 0 then none
  else (mp.chaintip mp.nDescriptors (mp.nDescriptors - 1)).toOption

/-- The address that `allocatedesc` rounds: the end of the tip if that lies in the pool. -/
def blockStart (mp : MemPool) : Option Nat → Nat
  | none => mp.base
  | some tip =>
      if mp.base ≤ mp.ptr tip ∧ mp.ptr tip < mp.base + mp.bytes then
        u64 (mp.ptr tip + mp.nbytes tip)
      else mp.base

theorem placeAfter_eq (mp : MemPool) (tip : Option Nat) :
    mp.placeAfter tip = roundup (mp.blockStart tip) allocAlign := by
  cases tip <;> rfl

theorem blockStart_lt {mp : MemPool} (hbase : mp.base < 2 ^ 64) (tip : Option Nat) :
    mp.blockStart tip < 2 ^ 64 := by
  cases tip with
  | none => exact hbase
  | some tip =>
      rw [blockStart]
      split
      · exact u64_lt _
      · exact hbase

end MemPool

/-- A call of `allocatedesc` that returned a descriptor. -/
structure NewBlock where
  pool : MemPool
  nbytes : Nat
  result : MemPool
  base_lt : pool.base < 2 ^ 64
  nbytes_lt : nbytes < 2 ^ 64
  done : pool.allocatedesc nbytes = .ok (some result)

namespace NewBlock

variable (b : NewBlock)

/-- The descriptor returned. -/
def desc : MemDesc := b.result.desc b.pool.nDescriptors

def start : Nat := b.pool.blockStart b.pool.newestTip

/-- Address and size are those at the next boundaries of eight bytes. -/
def Right : Prop :=
  RoundsUp allocAlign b.start b.desc.ptr ∧ RoundsUp allocAlign b.nbytes b.desc.nbytes

theorem desc_eq :
    b.desc = ⟨roundup b.start allocAlign, roundup b.nbytes allocAlign, 0, none⟩ := by
  have hdone := b.done
  rw [MemPool.allocatedesc] at hdone
  rw [desc, start, ← MemPool.placeAfter_eq, MemPool.newestTip]
  by_cases hadmits : b.pool.admits (roundup b.nbytes allocAlign) = true
  · rw [if_pos hadmits] at hdone
    by_cases hn : b.pool.nDescriptors = 0
    · simp only [if_pos hn, Except.ok.injEq, Option.some.injEq] at hdone
      rw [if_pos hn, ← hdone]
      rw [MemPool.desc, hn]
      rfl
    · cases hchain : b.pool.chaintip b.pool.nDescriptors (b.pool.nDescriptors - 1) with
      | error e =>
          simp only [if_neg hn, hchain, reduceCtorEq] at hdone
      | ok tip =>
          simp only [if_neg hn, hchain, Except.ok.injEq, Option.some.injEq] at hdone
          rw [if_neg hn, ← hdone]
          exact MemPool.desc_grow_last b.pool tip _ _
  · simp only [if_neg hadmits, Except.ok.injEq, reduceCtorEq] at hdone

theorem right_iff : b.Right ↔ b.start + 7 < 2 ^ 64 ∧ b.nbytes + 7 < 2 ^ 64 := by
  have hstart : b.start < 2 ^ 64 := MemPool.blockStart_lt b.base_lt _
  rw [Right, desc_eq]
  exact and_congr (roundsUp_roundup_iff (by decide) hstart (by decide))
    (roundsUp_roundup_iff (by decide) b.nbytes_lt (by decide))

end NewBlock

/-! ## Every use -/

/-- The macros by themselves, the page of `FreePages` and a descriptor of `allocatedesc`. -/
inductive RoundingUse
  | macros (r : Rounding)
  | page (virt : Nat) (nonnull : virt ≠ 0) (word : virt < 2 ^ 64)
  | block (b : NewBlock)

namespace RoundingUse

def Right : RoundingUse → Prop
  | macros r => r.Right
  | page virt _ _ => RoundsDown pageSize virt (PagingState.rounddown virt pageSize)
  | block b => b.Right

/-- Nothing too much is taken off, and no sum wraps that should not. -/
def Exact : RoundingUse → Prop
  | macros r => r.DownExact ∧ r.UpStable
  | page _ _ _ => False
  | block b => b.start + 7 < 2 ^ 64 ∧ b.nbytes + 7 < 2 ^ 64

end RoundingUse

/--
The macros give the nearest multiples exactly where `DownExact` and `UpStable` hold.
`FreePages` never looks up the page of its address, and a new block of the heap has
the address and size of the next boundaries unless one of the two sums wraps.
-/
theorem nearest_multiple_iff (u : RoundingUse) : u.Right ↔ u.Exact := by
  cases u with
  | macros r => exact r.right_iff
  | page virt nonnull word => exact iff_of_false (not_roundsDown_page word) id
  | block b => exact b.right_iff

/-- The largest unit of 32 bits, and a block of 13 bytes in an empty pool. -/
theorem nearest_multiple_exact :
    (⟨5, 2 ^ 32 - 1, 32, by decide, by decide, by decide, Or.inl rfl⟩ : Rounding).Right ∧
      (⟨⟨0x100000, 2, []⟩, 13, ⟨0x100000, 2, [⟨0x100000, 16, 0, none⟩]⟩,
        by decide, by decide, rfl⟩ : NewBlock).Right :=
  ⟨(nearest_multiple_iff (.macros _)).mpr ⟨Or.inl rfl, Or.inr (by decide)⟩,
    (nearest_multiple_iff (.block _)).mpr (by constructor <;> decide)⟩

/-- The page at `0x5000`, a multiple of its size, is rounded to the second one below. -/
theorem page_rounded_two_low :
    PagingState.rounddown 0x5000 pageSize = 0x3000 ∧
      ¬ RoundsDown pageSize 0x5000 (PagingState.rounddown 0x5000 pageSize) ∧
      ¬ (⟨0x5000, pageSize, 32, by decide, by decide, by decide, Or.inl rfl⟩ : Rounding).Right := by
  refine ⟨by decide, not_roundsDown_page (by decide), fun h => ?_⟩
  exact absurd ((Rounding.right_iff _).mp h) (by decide)

end BlockyOS.Kernel
