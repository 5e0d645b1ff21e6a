import BlockyOS.Foundation.Loops
import Mathlib.Logic.Function.Basic

/-!
# Recurrences in a window

A sequence in which every term follows from those `n`, `n - 1` and `n - m` places
before.  An array of `n` places holds a window of the sequence, and is renewed in
place: one pass over it leaves the next window, although what the pass reads has in
part been overwritten by then.
-/

namespace BlockyOS.Foundation

section Recurrences

variable {α : Type} (n m : Nat) (f : α → α → α → α)

def Recurs (x : Nat → α) : Prop := ∀ k, x (k + n) = f (x k) (x (k + 1)) (x (k + m))

/-- The places of the array hold the terms from `base` on. -/
def Window (x : Nat → α) (base : Nat) (s : Nat → α) : Prop := ∀ i < n, s i = x (base + i)

/-- A turn of the pass, which wraps around at the end of the array. -/
def renew (i : Nat) (s : Nat → α) : Nat → α :=
  Function.update s i (f (s i) (s ((i + 1) % n)) (s ((i + m) % n)))

variable {n m f} {x : Nat → α} {base : Nat} {s : Nat → α}

/-- Before turn `i` the places below `i` hold the next window, the others still the old one. -/
def Renewed (n : Nat) (x : Nat → α) (base i : Nat) (s : Nat → α) : Prop :=
  (∀ j < i, s j = x (base + n + j)) ∧ ∀ j, i ≤ j → j < n → s j = x (base + j)

theorem Renewed.read {i d : Nat} (h : Renewed n x base i s) (hi : i < n) (hd : d < n) :
    s ((i + d) % n) = x (base + i + d) := by
  by_cases hlow : i + d < n
  · rw [Nat.mod_eq_of_lt hlow, h.2 (i + d) (by omega) hlow, Nat.add_assoc]
  · have hwrap : (i + d) % n = i + d - n := by
      rw [Nat.mod_eq_sub_mod (by omega), Nat.mod_eq_of_lt (by omega)]
    rw [hwrap, h.1 (i + d - n) (by omega)]
    exact congrArg x (by omega)

theorem Renewed.turn {i : Nat} (h : Renewed n x base i s) (hx : Recurs n m f x) (hi : i < n)
    (hn : 1 < n) (hm : m < n) : Renewed n x base (i + 1) (renew n m f i s) := by
  have hterm : f (s i) (s ((i + 1) % n)) (s ((i + m) % n)) = x (base + n + i) := by
    rw [h.2 i (Nat.le_refl i) hi, h.read hi hn, h.read hi hm, ← hx (base + i)]
    exact congrArg x (by omega)
  constructor
  · intro j hj
    rcases Nat.lt_succ_iff_lt_or_eq.mp hj with hlt | rfl
    · rw [renew, Function.update_of_ne (Nat.ne_of_lt hlt), h.1 j hlt]
    · rw [renew, Function.update_self, hterm]
  · intro j hij hj
    rw [renew, Function.update_of_ne (Nat.ne_of_gt hij), h.2 j (Nat.le_of_succ_le hij) hj]

theorem Window.sweep_renew (h : Window n x base s) (hx : Recurs n m f x) (hn : 1 < n)
    (hm : m < n) : Window n x (base + n) (sweep (renew n m f) n 0 s) := by
  have hstart : Renewed n x base 0 s :=
    ⟨fun j hj => absurd hj (Nat.not_lt_zero j), fun j _ hj => h j hj⟩
  have hall := @sweep_invariant _ (renew n m f) (fun i s => Renewed n x base i s) n 0 s hstart
    fun i s _ hi hrenewed => hrenewed.turn hx (by omega) hn hm
  rw [Nat.zero_add] at hall
  exact hall.1

end Recurrences

end BlockyOS.Foundation
