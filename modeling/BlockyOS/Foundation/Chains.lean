import Mathlib.Data.List.Basic
import Mathlib.Data.List.Nodup
import Mathlib.Data.List.Range
import Mathlib.Tactic.Ring

/-!
# Blocks laid one behind the other

A list of blocks that fill a range of addresses without a gap, and a linking of
each block to the one behind it.
-/

namespace BlockyOS.Foundation

/-! ## One block in the place of another -/

section Replacing

variable {α : Type} {pre post : List α} {x x' y : α}

theorem forall_mem_replace {P : α → Prop} (h : ∀ y ∈ pre ++ x :: post, P y) (hx' : P x') :
    ∀ y ∈ pre ++ x' :: post, P y := by
  rw [List.forall_mem_append, List.forall_mem_cons] at h ⊢
  exact ⟨h.1, hx', h.2.2⟩

theorem mem_replace_of_ne (x' : α) (h : y ∈ pre ++ x :: post) (hne : y ≠ x) :
    y ∈ pre ++ x' :: post := by
  have hall : ∀ y ∈ pre ++ x :: post, y ≠ x → y ∈ pre ++ x' :: post :=
    forall_mem_replace (fun y hy _ => hy) fun hne => absurd rfl hne
  exact hall y h hne

end Replacing

/-! ## Blocks in a row -/

section Chains

variable {α : Type} {start size start' size' : α → Nat} {next next' : α → Option α}

/-- The blocks of the list lie one behind the other from `a` to `b`. -/
def Laid (start size : α → Nat) : Nat → List α → Nat → Prop
  | a, [], b => a = b
  | a, x :: l, b => start x = a ∧ Laid start size (a + size x) l b

/-- Each block of the list is linked to the one behind it, and the last to none. -/
def Linked (next : α → Option α) : List α → Prop
  | [] => True
  | x :: l => next x = l.head? ∧ Linked next l

theorem laid_append {l m : List α} {a b : Nat} :
    Laid start size a (l ++ m) b ↔
      ∃ mid, Laid start size a l mid ∧ Laid start size mid m b := by
  induction l generalizing a with
  | nil => exact ⟨fun h => ⟨a, rfl, h⟩, fun ⟨_, hmid, h⟩ => by subst hmid; exact h⟩
  | cons x l ih =>
      constructor
      · rintro ⟨hx, hrest⟩
        obtain ⟨mid, hl, hm⟩ := ih.mp hrest
        exact ⟨mid, ⟨hx, hl⟩, hm⟩
      · rintro ⟨mid, ⟨hx, hl⟩, hm⟩
        exact ⟨hx, ih.mpr ⟨mid, hl, hm⟩⟩

theorem Laid.end_eq {l : List α} {a b : Nat} (h : Laid start size a l b) :
    b = a + (l.map size).sum := by
  induction l generalizing a with
  | nil => exact h.symm
  | cons x l ih =>
      rw [ih h.2, List.map_cons, List.sum_cons, Nat.add_assoc]

theorem Laid.le {l : List α} {a b : Nat} (h : Laid start size a l b) : a ≤ b := by
  rw [h.end_eq]
  exact Nat.le_add_right _ _

theorem laid_split {pre post : List α} {x : α} {a b : Nat} :
    Laid start size a (pre ++ x :: post) b ↔
      Laid start size a pre (start x) ∧ Laid start size (start x + size x) post b := by
  rw [laid_append]
  constructor
  · rintro ⟨mid, hpre, hx, hpost⟩
    subst hx
    exact ⟨hpre, hpost⟩
  · rintro ⟨hpre, hpost⟩
    exact ⟨start x, hpre, rfl, hpost⟩

theorem Laid.bounds {l : List α} {a b : Nat} (h : Laid start size a l b) {x : α}
    (hx : x ∈ l) : a ≤ start x ∧ start x + size x ≤ b := by
  obtain ⟨pre, post, rfl⟩ := List.append_of_mem hx
  obtain ⟨hpre, hpost⟩ := laid_split.mp h
  exact ⟨hpre.le, hpost.le⟩

theorem Laid.congr {l : List α} {a b : Nat} (h : Laid start size a l b)
    (hsame : ∀ x ∈ l, start' x = start x ∧ size' x = size x) :
    Laid start' size' a l b := by
  induction l generalizing a with
  | nil => exact h
  | cons x l ih =>
      obtain ⟨hstart, hsize⟩ := hsame x List.mem_cons_self
      refine ⟨hstart.trans h.1, ?_⟩
      rw [hsize]
      exact ih h.2 fun y hy => hsame y (List.mem_cons_of_mem x hy)

theorem Laid.disjoint {l : List α} {a b : Nat} (h : Laid start size a l b) {x y : α}
    (hx : x ∈ l) (hy : y ∈ l) (hne : x ≠ y) :
    start x + size x ≤ start y ∨ start y + size y ≤ start x := by
  obtain ⟨pre, post, rfl⟩ := List.append_of_mem hx
  obtain ⟨hpre, hpost⟩ := laid_split.mp h
  rcases List.mem_append.mp hy with hbefore | hafter
  · exact Or.inr (hpre.bounds hbefore).2
  · exact Or.inl (hpost.bounds ((List.mem_cons.mp hafter).resolve_left hne.symm)).1

theorem Laid.cut {pre post : List α} {x y : α} {a b : Nat}
    (h : Laid start size a (pre ++ x :: post) b)
    (hsame : ∀ z ∈ pre ++ post, start' z = start z ∧ size' z = size z)
    (hx : start' x = start x) (hy : start' y = start x + size' x)
    (hsum : size' x + size' y = size x) :
    Laid start' size' a (pre ++ x :: y :: post) b := by
  obtain ⟨hpre, hpost⟩ := laid_split.mp h
  rw [laid_split, hx]
  refine ⟨hpre.congr fun z hz => hsame z (List.mem_append_left _ hz), hy, ?_⟩
  rw [Nat.add_assoc, hsum]
  exact hpost.congr fun z hz => hsame z (List.mem_append_right _ hz)

theorem linked_iff {l : List α} :
    Linked next l ↔ ∀ pre x post, l = pre ++ x :: post → next x = post.head? := by
  induction l with
  | nil => exact ⟨fun _ pre x post h => by simp at h, fun _ => trivial⟩
  | cons y l ih =>
      constructor
      · rintro ⟨hy, hl⟩ pre x post hsplit
        cases pre with
        | nil =>
            obtain ⟨rfl, rfl⟩ := List.cons.inj hsplit
            exact hy
        | cons z pre => exact ih.mp hl pre x post (List.cons.inj hsplit).2
      · intro h
        refine ⟨h [] y l rfl, ih.mpr fun pre x post hsplit => ?_⟩
        exact h (y :: pre) x post (congrArg (List.cons y) hsplit)

theorem Linked.start_next {l : List α} {a b : Nat} (hlaid : Laid start size a l b)
    (hlinked : Linked next l) {x y : α} (hx : x ∈ l) (hnext : next x = some y) :
    y ∈ l ∧ start y = start x + size x := by
  obtain ⟨pre, post, rfl⟩ := List.append_of_mem hx
  rw [linked_iff.mp hlinked pre x post rfl] at hnext
  cases post with
  | nil => cases hnext
  | cons z post =>
      obtain rfl := Option.some.inj hnext
      exact ⟨by simp, (laid_split.mp hlaid).2.1⟩

theorem Linked.last_of_none {l : List α} (hlinked : Linked next l) {x : α} (hx : x ∈ l)
    (hnext : next x = none) : ∃ pre, l = pre ++ [x] := by
  obtain ⟨pre, post, rfl⟩ := List.append_of_mem hx
  rw [linked_iff.mp hlinked pre x post rfl] at hnext
  rw [List.head?_eq_none_iff.mp hnext]
  exact ⟨pre, rfl⟩

theorem Linked.snoc {l : List α} {y : α} (hlinked : Linked next l)
    (hlast : ∀ x ∈ l, next' x = if next x = none then some y else next x)
    (hy : next' y = none) : Linked next' (l ++ [y]) := by
  induction l with
  | nil => exact ⟨hy, trivial⟩
  | cons x l ih =>
      refine ⟨?_, ih hlinked.2 fun z hz => hlast z (List.mem_cons_of_mem x hz)⟩
      rw [hlast x List.mem_cons_self, hlinked.1]
      cases l <;> rfl

theorem Linked.congr {l : List α} (h : Linked next l) (hsame : ∀ x ∈ l, next' x = next x) :
    Linked next' l := by
  induction l with
  | nil => trivial
  | cons x l ih =>
      exact ⟨(hsame x List.mem_cons_self).trans h.1,
        ih h.2 fun y hy => hsame y (List.mem_cons_of_mem x hy)⟩

theorem Linked.cut {pre post : List α} {x y : α} (h : Linked next (pre ++ x :: post))
    (hsame : ∀ z ∈ pre ++ post, next' z = next z) (hx : next' x = some y)
    (hy : next' y = next x) : Linked next' (pre ++ x :: y :: post) := by
  induction pre with
  | nil => exact ⟨hx, hy.trans h.1, h.2.congr hsame⟩
  | cons z pre ih =>
      refine ⟨?_, ih h.2 fun w hw => hsame w (List.mem_cons_of_mem z hw)⟩
      rw [hsame z List.mem_cons_self, h.1]
      cases pre <;> rfl

end Chains

end BlockyOS.Foundation
