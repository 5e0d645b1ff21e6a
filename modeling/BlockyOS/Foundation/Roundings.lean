import Mathlib.Algebra.Order.Floor.Div

/-!
# Rounding to a set

The nearest element of a set on one side of a value.  Each adjoint of a Galois
connection rounds to the range of the other, and so division rounds to multiples.
-/

namespace BlockyOS.Foundation

/-! ## Sets of an order -/

section Order

variable {α β : Type} [Preorder α] [Preorder β] {S : Set α} {a r : α}

/-- `r` is the greatest element of `S` that is not above `a`. -/
def RoundsDownIn (S : Set α) (a r : α) : Prop := IsGreatest (S ∩ Set.Iic a) r

/-- `r` is the least element of `S` that is not below `a`. -/
def RoundsUpIn (S : Set α) (a r : α) : Prop := IsLeast (S ∩ Set.Ici a) r

theorem roundsDownIn_of_mem (h : r ∈ S) : RoundsDownIn S r r :=
  ⟨⟨h, le_rfl⟩, fun _ hx => hx.2⟩

theorem roundsUpIn_of_mem (h : r ∈ S) : RoundsUpIn S r r :=
  ⟨⟨h, le_rfl⟩, fun _ hx => hx.2⟩

variable {l : α → β} {u : β → α}

theorem roundsDownIn_range (gc : GaloisConnection l u) (b : β) :
    RoundsDownIn (Set.range l) b (l (u b)) := by
  refine ⟨⟨⟨u b, rfl⟩, gc.l_u_le b⟩, ?_⟩
  rintro _ ⟨⟨x, rfl⟩, hx⟩
  exact gc.monotone_l (gc.le_u hx)

theorem roundsUpIn_range (gc : GaloisConnection l u) (a : α) :
    RoundsUpIn (Set.range u) a (u (l a)) := by
  refine ⟨⟨⟨l a, rfl⟩, gc.le_u_l a⟩, ?_⟩
  rintro _ ⟨⟨y, rfl⟩, hy⟩
  exact gc.monotone_u (gc.l_le hy)

end Order

/-! ## Multiples -/

section Multiples

variable {i a r : Nat}

/-- `r` is the greatest multiple of `i` up to `a`. -/
def RoundsDown (i a r : Nat) : Prop := RoundsDownIn {m | i ∣ m} a r

/-- `r` is the least multiple of `i` from `a` on. -/
def RoundsUp (i a r : Nat) : Prop := RoundsUpIn {m | i ∣ m} a r

theorem range_mul (i : Nat) : Set.range (i * ·) = {m | i ∣ m} :=
  Set.ext fun _ => ⟨fun ⟨k, hk⟩ => ⟨k, hk.symm⟩, fun ⟨k, hk⟩ => ⟨k, hk.symm⟩⟩

theorem roundsDown_div_mul (hi : 0 < i) (a : Nat) : RoundsDown i a (a / i * i) := by
  rw [RoundsDown, ← range_mul, Nat.mul_comm]
  exact roundsDownIn_range (gc_floorDiv_mul hi) a

theorem roundsUp_div_mul (hi : 0 < i) (a : Nat) : RoundsUp i a ((a + (i - 1)) / i * i) := by
  rw [RoundsUp, ← range_mul, Nat.mul_comm, ← Nat.add_sub_assoc hi]
  exact roundsUpIn_range (gc_mul_ceilDiv hi) a

theorem roundsDown_iff (hi : 0 < i) : RoundsDown i a r ↔ r = a / i * i :=
  ⟨fun h => IsGreatest.unique h (roundsDown_div_mul hi a), fun h => h ▸ roundsDown_div_mul hi a⟩

theorem RoundsUp.add_le_iff {N : Nat} (h : RoundsUp i a r) (hi : 0 < i) (hN : i ≤ N) :
    r + i ≤ N ↔ a ≤ (N / i - 1) * i := by
  constructor
  · intro hle
    obtain ⟨k, rfl⟩ := h.1.1
    have hk : k + 1 ≤ N / i := by
      rw [Nat.le_div_iff_mul_le hi, Nat.add_one_mul, Nat.mul_comm k i]
      exact hle
    calc a ≤ i * k := h.1.2
      _ = k * i := Nat.mul_comm i k
      _ ≤ (N / i - 1) * i := Nat.mul_le_mul_right i (by omega)
  · intro ha
    have hr : r ≤ (N / i - 1) * i := h.2 ⟨Nat.dvd_mul_left i _, ha⟩
    have hpos : 0 < N / i := Nat.div_pos hN hi
    calc r + i ≤ (N / i - 1) * i + i := Nat.add_le_add_right hr i
      _ = (N / i - 1 + 1) * i := (Nat.add_one_mul _ i).symm
      _ = N / i * i := by rw [Nat.sub_add_cancel hpos]
      _ ≤ N := Nat.div_mul_le_self N i

end Multiples

end BlockyOS.Foundation
