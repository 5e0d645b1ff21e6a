import Mathlib.Algebra.Ring.Nat
import Mathlib.Data.List.Basic

/-!
# Walks over items of different sizes

A walk over a table goes on from each place by the stride read there.  Where the
strides are the sizes of the items laid out in the table it visits their places.
-/

namespace BlockyOS.Foundation

/-! ## Walks -/

section Strides

variable (stride : Nat → Nat) (bound : Nat)

def stridesFrom : Nat → Nat → List Nat
  | 0, _ => []
  | fuel + 1, i => if bound ≤ i then [] else i :: stridesFrom fuel (i + stride i)

/-- The places below the bound that a walk from `i` on visits. -/
def strides (i : Nat) : List Nat := stridesFrom stride bound (bound - i) i

variable {stride bound}

theorem stridesFrom_eq (hpos : ∀ i, 0 < stride i) {fuel fuel' i : Nat} (hfuel : bound - i ≤ fuel)
    (hfuel' : bound - i ≤ fuel') :
    stridesFrom stride bound fuel i = stridesFrom stride bound fuel' i := by
  induction fuel generalizing fuel' i with
  | zero =>
      cases fuel' with
      | zero => rfl
      | succ fuel' => rw [stridesFrom, stridesFrom, if_pos (by omega)]
  | succ fuel ih =>
      cases fuel' with
      | zero => rw [stridesFrom, stridesFrom, if_pos (by omega)]
      | succ fuel' =>
          have hstride := hpos i
          have hrest := @ih fuel' (i + stride i) (by omega) (by omega)
          rw [stridesFrom, stridesFrom, hrest]

theorem strides_of_le {i : Nat} (h : bound ≤ i) : strides stride bound i = [] := by
  rw [strides, Nat.sub_eq_zero_of_le h, stridesFrom]

theorem strides_of_lt (hpos : ∀ i, 0 < stride i) {i : Nat} (h : i < bound) :
    strides stride bound i = i :: strides stride bound (i + stride i) := by
  have hstride := hpos i
  obtain ⟨fuel, hfuel⟩ := Nat.exists_eq_succ_of_ne_zero (Nat.sub_ne_zero_of_lt h)
  have hrest : strides stride bound (i + stride i) = stridesFrom stride bound fuel (i + stride i) :=
    stridesFrom_eq hpos (Nat.le_refl _) (by omega)
  rw [strides, hfuel, stridesFrom, if_neg (Nat.not_le.mpr h), hrest]

theorem mem_stridesFrom {fuel i j : Nat} (h : j ∈ stridesFrom stride bound fuel i) :
    i ≤ j ∧ j < bound := by
  induction fuel generalizing i with
  | zero => cases h
  | succ fuel ih =>
      rw [stridesFrom] at h
      split at h
      · cases h
      · rcases List.mem_cons.mp h with rfl | hrest
        · exact ⟨Nat.le_refl _, by omega⟩
        · have := ih hrest
          omega

theorem mem_strides {i j : Nat} (h : j ∈ strides stride bound i) : i ≤ j ∧ j < bound :=
  mem_stridesFrom h

theorem pairwise_strides (hpos : ∀ i, 0 < stride i) (i : Nat) :
    (strides stride bound i).Pairwise (· < ·) := by
  induction hn : bound - i using Nat.strong_induction_on generalizing i with
  | h n ih =>
      rcases Nat.lt_or_ge i bound with hlt | hle
      · rw [strides_of_lt hpos hlt]
        have hstride := hpos i
        refine List.pairwise_cons.mpr ⟨fun j hj => ?_, ih _ (by omega) _ rfl⟩
        have := (mem_strides hj).1
        omega
      · rw [strides_of_le hle]
        exact List.Pairwise.nil

end Strides

/-! ## Items -/

section Places

variable {α : Type} (size : α → Nat)

/-- The items of a table with their places, the first one at `i`. -/
def placesFrom : Nat → List α → List (Nat × α)
  | _, [] => []
  | i, a :: rest => (i, a) :: placesFrom (i + size a) rest

def totalSize (items : List α) : Nat := (items.map size).sum

variable {size}

@[simp] theorem totalSize_nil : totalSize size [] = 0 := rfl

@[simp] theorem totalSize_cons (a : α) (rest : List α) :
    totalSize size (a :: rest) = size a + totalSize size rest := by
  rw [totalSize, List.map_cons, List.sum_cons, totalSize]

theorem le_of_mem_placesFrom {i j : Nat} {a : α} {items : List α}
    (h : (j, a) ∈ placesFrom size i items) : i ≤ j ∧ j + size a ≤ i + totalSize size items := by
  induction items generalizing i with
  | nil => cases h
  | cons b rest ih =>
      rw [totalSize_cons]
      rcases List.mem_cons.mp h with heq | hrest
      · cases heq
        omega
      · have := ih hrest
        omega

theorem exists_mem_placesFrom {i x : Nat} (items : List α) (hle : i ≤ x)
    (hlt : x < i + totalSize size items) :
    ∃ j a, (j, a) ∈ placesFrom size i items ∧ j ≤ x ∧ x < j + size a := by
  induction items generalizing i with
  | nil =>
      rw [totalSize_nil] at hlt
      omega
  | cons b rest ih =>
      rw [totalSize_cons] at hlt
      rcases Nat.lt_or_ge x (i + size b) with hin | hout
      · exact ⟨i, b, List.mem_cons_self, hle, hin⟩
      · obtain ⟨j, a, hmem, hj, hx⟩ := ih hout (by omega)
        exact ⟨j, a, List.mem_cons_of_mem _ hmem, hj, hx⟩

end Places

end BlockyOS.Foundation
