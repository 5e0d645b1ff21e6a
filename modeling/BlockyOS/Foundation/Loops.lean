import BlockyOS.Foundation.Runs

/-!
# Counting loops

A loop takes `n` turns from a first index on, each with its index.  A loop that
can fail ends with the first turn that fails: what each turn preserves the loop
preserves, and a loop that gets through has got through every turn.  A sweep
cannot fail, and a search ends with the first turn that has an answer.
-/

namespace BlockyOS.Foundation

section Loops

variable {σ ε : Type} (turn : Nat → σ → Except ε σ)

def loop : Nat → Nat → σ → Except ε σ
  | 0, _, s => .ok s
  | n + 1, i, s => turn i s >>= loop n (i + 1)

variable {turn}

theorem loop_succ_ok {n i : Nat} {s s' : σ} :
    loop turn (n + 1) i s = .ok s' ↔
      ∃ mid, turn i s = .ok mid ∧ loop turn n (i + 1) mid = .ok s' := by
  rw [loop]
  constructor
  · exact bind_ok
  · rintro ⟨mid, hturn, hrest⟩
    rwa [hturn, ok_bind]

theorem loop_add {m n i : Nat} {s : σ} :
    loop turn (m + n) i s = loop turn m i s >>= loop turn n (i + m) := by
  induction m generalizing i s with
  | zero => rw [Nat.zero_add, loop, ok_bind, Nat.add_zero]
  | succ m ih =>
      rw [Nat.succ_add, loop, loop]
      cases turn i s with
      | error e => rfl
      | ok mid => rw [ok_bind, ok_bind, ih, Nat.add_assoc, Nat.add_comm 1]

theorem loop_invariant {P : Nat → σ → Prop} {n i : Nat} {s : σ} (hs : P i s)
    (hturn : ∀ k s, i ≤ k → k < i + n → P k s → ∃ s', turn k s = .ok s' ∧ P (k + 1) s') :
    ∃ s', loop turn n i s = .ok s' ∧ P (i + n) s' := by
  induction n generalizing i s with
  | zero => exact ⟨s, rfl, hs⟩
  | succ n ih =>
      obtain ⟨mid, hmid, hP⟩ := hturn i s (Nat.le_refl i) (by omega) hs
      obtain ⟨s', hloop, hP'⟩ := ih hP fun k s hle hlt => hturn k s (by omega) (by omega)
      refine ⟨s', loop_succ_ok.mpr ⟨mid, hmid, hloop⟩, ?_⟩
      rwa [Nat.add_comm n, ← Nat.add_assoc]

theorem loop_keeps {P : σ → Prop} {n i : Nat} {s s' : σ} (hs : P s)
    (hkeep : ∀ k s s', P s → turn k s = .ok s' → P s') (h : loop turn n i s = .ok s') : P s' := by
  induction n generalizing i s with
  | zero =>
      cases h
      exact hs
  | succ n ih =>
      obtain ⟨mid, hmid, hrest⟩ := loop_succ_ok.mp h
      exact ih (hkeep i s mid hs hmid) hrest

theorem turn_ok_of_loop {P : σ → Prop} {n i : Nat} {s s' : σ} (hs : P s)
    (hkeep : ∀ k s s', P s → turn k s = .ok s' → P s') (h : loop turn n i s = .ok s')
    {k : Nat} (hle : i ≤ k) (hlt : k < i + n) : ∃ t t', P t ∧ turn k t = .ok t' := by
  induction n generalizing i s with
  | zero => omega
  | succ n ih =>
      obtain ⟨mid, hmid, hrest⟩ := loop_succ_ok.mp h
      rcases Nat.eq_or_lt_of_le hle with rfl | hnext
      · exact ⟨s, mid, hs, hmid⟩
      · exact ih (hkeep i s mid hs hmid) hrest hnext (by omega)

end Loops

/-! ## Sweeps -/

section Sweeps

variable {σ : Type} {turn : Nat → σ → σ}

def sweep (turn : Nat → σ → σ) : Nat → Nat → σ → σ
  | 0, _, s => s
  | n + 1, i, s => sweep turn n (i + 1) (turn i s)

theorem sweep_invariant {P : Nat → σ → Prop} {n i : Nat} {s : σ} (hs : P i s)
    (hturn : ∀ k s, i ≤ k → k < i + n → P k s → P (k + 1) (turn k s)) :
    P (i + n) (sweep turn n i s) := by
  induction n generalizing i s with
  | zero => exact hs
  | succ n ih =>
      have hnext : P (i + 1) (turn i s) := hturn i s (Nat.le_refl i) (by omega) hs
      have hrest := ih hnext fun k s hle hlt => hturn k s (by omega) (by omega)
      rwa [Nat.add_assoc, Nat.add_comm 1] at hrest

end Sweeps

/-! ## Searches -/

section Searches

variable {β : Type} {f g : Nat → Option β}

def search (f : Nat → Option β) : Nat → Nat → Option β
  | 0, _ => none
  | n + 1, i => (f i).or (search f n (i + 1))

theorem search_congr {n i : Nat} (h : ∀ k, i ≤ k → k < i + n → f k = g k) :
    search f n i = search g n i := by
  induction n generalizing i with
  | zero => rfl
  | succ n ih =>
      have hrest := @ih (i + 1) fun k hle hlt => h k (by omega) (by omega)
      rw [search, search, h i (Nat.le_refl i) (by omega), hrest]

theorem search_eq_none_iff {n i : Nat} :
    search f n i = none ↔ ∀ k, i ≤ k → k < i + n → f k = none := by
  induction n generalizing i with
  | zero => exact iff_of_true rfl fun k hle hlt => by omega
  | succ n ih =>
      rw [search, Option.or_eq_none_iff, ih]
      constructor
      · rintro ⟨hfirst, hrest⟩ k hle hlt
        rcases Nat.eq_or_lt_of_le hle with rfl | hnext
        · exact hfirst
        · exact hrest k hnext (by omega)
      · intro h
        exact ⟨h i (Nat.le_refl i) (by omega), fun k hle hlt => h k (by omega) (by omega)⟩

theorem search_eq_some {n i : Nat} {b : β} (h : search f n i = some b) :
    ∃ k, i ≤ k ∧ k < i + n ∧ f k = some b ∧ ∀ j, i ≤ j → j < k → f j = none := by
  induction n generalizing i with
  | zero => cases h
  | succ n ih =>
      rw [search] at h
      cases hfirst : f i with
      | some b' =>
          rw [hfirst, Option.some_or] at h
          exact ⟨i, Nat.le_refl i, by omega, hfirst.trans h, fun j hle hlt => by omega⟩
      | none =>
          rw [hfirst, Option.none_or] at h
          obtain ⟨k, hle, hlt, hk, hbefore⟩ := ih h
          refine ⟨k, by omega, by omega, hk, fun j hij hjk => ?_⟩
          rcases Nat.eq_or_lt_of_le hij with rfl | hnext
          · exact hfirst
          · exact hbefore j hnext hjk

theorem search_add {m n i : Nat} :
    search f (m + n) i = (search f m i).or (search f n (i + m)) := by
  induction m generalizing i with
  | zero => rw [Nat.zero_add, search, Option.none_or, Nat.add_zero]
  | succ m ih =>
      have hnext : i + 1 + m = i + (m + 1) := by omega
      rw [Nat.add_right_comm, search, ih, search, Option.or_assoc, hnext]

theorem search_blocks {w n i : Nat} :
    search (fun k => search f w (k * w)) n i = search f (n * w) (i * w) := by
  induction n generalizing i with
  | zero => rw [Nat.zero_mul, search, search]
  | succ n ih =>
      have hlength : (n + 1) * w = w + n * w := by rw [Nat.succ_mul, Nat.add_comm]
      rw [search, ih, hlength, search_add, Nat.succ_mul]

end Searches

end BlockyOS.Foundation
