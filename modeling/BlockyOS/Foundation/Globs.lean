import Mathlib.Data.List.Forall2
import Mathlib.Data.List.Infix

/-!
# Patterns with single and block wildcards

A pattern is a list of letters, wildcards for one letter, and wildcards for any
number of letters.  Two patterns with the same strings agree, wildcards for
blocks apart, letter by letter, and their blocks stand at the same places up to
the single wildcards beside them.
-/

namespace BlockyOS.Foundation

inductive Glob (α : Type) where
  | lit (a : α)
  | any
  | block
  deriving DecidableEq, Repr

namespace Glob

variable {α : Type}

inductive Matches : List (Glob α) → List α → Prop
  | nil : Matches [] []
  | lit {a : α} {gs : List (Glob α)} {s : List α} (h : Matches gs s) :
      Matches (.lit a :: gs) (a :: s)
  | any {a : α} {gs : List (Glob α)} {s : List α} (h : Matches gs s) :
      Matches (.any :: gs) (a :: s)
  | block {gs : List (Glob α)} (skipped : List α) {s : List α} (h : Matches gs s) :
      Matches (.block :: gs) (skipped ++ s)

/-! ## The strings of a pattern -/

@[simp] theorem matches_nil_iff {s : List α} : Matches [] s ↔ s = [] := by
  constructor
  · rintro ⟨⟩
    rfl
  · rintro rfl
    exact .nil

@[simp] theorem matches_lit_iff {a : α} {gs : List (Glob α)} {s : List α} :
    Matches (.lit a :: gs) s ↔ ∃ rest, s = a :: rest ∧ Matches gs rest := by
  constructor
  · rintro ⟨⟩
    exact ⟨_, rfl, ‹_›⟩
  · rintro ⟨rest, rfl, h⟩
    exact .lit h

@[simp] theorem matches_any_iff {gs : List (Glob α)} {s : List α} :
    Matches (.any :: gs) s ↔ ∃ a rest, s = a :: rest ∧ Matches gs rest := by
  constructor
  · rintro ⟨⟩
    exact ⟨_, _, rfl, ‹_›⟩
  · rintro ⟨a, rest, rfl, h⟩
    exact .any h

theorem matches_block_iff {gs : List (Glob α)} {s : List α} :
    Matches (.block :: gs) s ↔ ∃ skipped rest, s = skipped ++ rest ∧ Matches gs rest := by
  constructor
  · rintro (_ | _ | _ | ⟨skipped, h⟩)
    exact ⟨skipped, _, rfl, h⟩
  · rintro ⟨skipped, rest, rfl, h⟩
    exact .block skipped h

theorem Matches.append {gs gs' : List (Glob α)} {s s' : List α} (h : Matches gs s)
    (h' : Matches gs' s') : Matches (gs ++ gs') (s ++ s') := by
  induction h with
  | nil => exact h'
  | lit _ ih => exact .lit ih
  | any _ ih => exact .any ih
  | block skipped _ ih =>
      rw [List.append_assoc]
      exact .block skipped ih

theorem matches_append_congr (gs : List (Glob α)) {rest rest' : List (Glob α)}
    (h : ∀ s, Matches rest s ↔ Matches rest' s) (s : List α) :
    Matches (gs ++ rest) s ↔ Matches (gs ++ rest') s := by
  induction gs generalizing s with
  | nil => exact h s
  | cons g gs ih =>
      cases g with
      | lit a => simp only [List.cons_append, matches_lit_iff, ih]
      | any => simp only [List.cons_append, matches_any_iff, ih]
      | block => simp only [List.cons_append, matches_block_iff, ih]

theorem matches_block_block {gs : List (Glob α)} {s : List α} :
    Matches (.block :: .block :: gs) s ↔ Matches (.block :: gs) s := by
  constructor
  · intro h
    obtain ⟨first, s', rfl, h'⟩ := matches_block_iff.mp h
    obtain ⟨second, rest, rfl, hrest⟩ := matches_block_iff.mp h'
    rw [← List.append_assoc]
    exact .block _ hrest
  · exact .block []

theorem matches_replicate_block (k : Nat) (gs : List (Glob α)) (s : List α) :
    Matches (List.replicate (k + 1) .block ++ gs) s ↔ Matches (.block :: gs) s := by
  induction k with
  | zero => exact Iff.rfl
  | succ k ih => exact matches_block_block.trans ih

/-! ## Letters and single wildcards -/

def skeleton : List (Glob α) → List (Option α)
  | [] => []
  | .lit a :: gs => some a :: skeleton gs
  | .any :: gs => none :: skeleton gs
  | .block :: gs => skeleton gs

@[simp] theorem skeleton_block (gs : List (Glob α)) :
    skeleton (.block :: gs) = skeleton gs := rfl

@[simp] theorem skeleton_append (gs gs' : List (Glob α)) :
    skeleton (gs ++ gs') = skeleton gs ++ skeleton gs' := by
  induction gs with
  | nil => rfl
  | cons g gs ih => cases g <;> simp [skeleton, ih]

def Fits (places : List (Option α)) (s : List α) : Prop :=
  List.Forall₂ (fun place a => place = none ∨ place = some a) places s

def fill (f : α) (places : List (Option α)) : List α := places.map fun place => place.getD f

@[simp] theorem length_fill (f : α) (places : List (Option α)) :
    (fill f places).length = places.length := List.length_map _

@[simp] theorem fill_append (f : α) (places places' : List (Option α)) :
    fill f (places ++ places') = fill f places ++ fill f places' := List.map_append

theorem fits_fill (f : α) (places : List (Option α)) : Fits places (fill f places) := by
  induction places with
  | nil => exact .nil
  | cons place places ih =>
      refine .cons ?_ ih
      cases place with
      | none => exact Or.inl rfl
      | some a => exact Or.inr rfl

theorem Fits.length_eq {places : List (Option α)} {s : List α} (h : Fits places s) :
    places.length = s.length := List.Forall₂.length_eq h

theorem matches_of_fits {gs : List (Glob α)} {s : List α} (h : Fits (skeleton gs) s) :
    Matches gs s := by
  induction gs generalizing s with
  | nil =>
      cases h
      exact .nil
  | cons g gs ih =>
      cases g with
      | lit a =>
          obtain ⟨⟩ | ⟨hplace, hrest⟩ := h
          obtain rfl := Option.some.inj (hplace.resolve_left (by simp))
          exact .lit (ih hrest)
      | any =>
          obtain ⟨⟩ | ⟨-, hrest⟩ := h
          exact .any (ih hrest)
      | block => exact .block [] (ih h)

theorem length_le_of_matches {gs : List (Glob α)} {s : List α} (h : Matches gs s) :
    (skeleton gs).length ≤ s.length := by
  induction h with
  | nil => exact Nat.le_refl 0
  | lit _ ih => exact Nat.succ_le_succ ih
  | any _ ih => exact Nat.succ_le_succ ih
  | block skipped _ ih =>
      rw [List.length_append]
      exact Nat.le_add_left_of_le ih

theorem fits_of_matches {gs : List (Glob α)} {s : List α} (h : Matches gs s)
    (hlength : s.length = (skeleton gs).length) : Fits (skeleton gs) s := by
  induction h with
  | nil => exact .nil
  | lit _ ih => exact .cons (Or.inr rfl) (ih (Nat.succ.inj hlength))
  | any _ ih => exact .cons (Or.inl rfl) (ih (Nat.succ.inj hlength))
  | block skipped hrest ih =>
      have hle := length_le_of_matches hrest
      rw [List.length_append, skeleton_block] at hlength
      obtain rfl : skipped = [] := List.length_eq_zero_iff.mp (by omega)
      exact ih (by rw [List.length_nil, Nat.zero_add] at hlength; exact hlength)

theorem block_of_matches {gs : List (Glob α)} {s : List α} (h : Matches gs s)
    (hlength : s.length = (skeleton gs).length + 1) :
    ∃ before after s₁ a s₂, gs = before ++ .block :: after ∧ s = s₁ ++ a :: s₂ ∧
      Fits (skeleton before) s₁ ∧ Fits (skeleton after) s₂ := by
  induction h with
  | nil => cases hlength
  | @lit b gs s _ ih =>
      obtain ⟨before, after, s₁, a, s₂, rfl, rfl, hbefore, hafter⟩ :=
        ih (Nat.succ.inj hlength)
      exact ⟨.lit b :: before, after, b :: s₁, a, s₂, rfl, rfl, .cons (Or.inr rfl) hbefore,
        hafter⟩
  | @any b gs s _ ih =>
      obtain ⟨before, after, s₁, a, s₂, rfl, rfl, hbefore, hafter⟩ :=
        ih (Nat.succ.inj hlength)
      exact ⟨.any :: before, after, b :: s₁, a, s₂, rfl, rfl, .cons (Or.inl rfl) hbefore, hafter⟩
  | @block gs skipped s hrest ih =>
      have hle := length_le_of_matches hrest
      rw [List.length_append, skeleton_block] at hlength
      match skipped with
      | [] =>
          obtain ⟨before, after, s₁, a, s₂, rfl, rfl, hbefore, hafter⟩ :=
            ih (by rw [List.length_nil] at hlength; omega)
          exact ⟨.block :: before, after, s₁, a, s₂, rfl, rfl, hbefore, hafter⟩
      | [a] =>
          rw [List.length_singleton] at hlength
          exact ⟨[], gs, [], a, s, rfl, rfl, .nil, fits_of_matches hrest (by omega)⟩
      | _ :: _ :: _ =>
          simp only [List.length_cons] at hlength
          omega

/-! ## Patterns with the same strings -/

def Agree (allowed : α → Prop) (gs gs' : List (Glob α)) : Prop :=
  ∀ s, (∀ a ∈ s, allowed a) → (Matches gs s ↔ Matches gs' s)

theorem Agree.symm {allowed : α → Prop} {gs gs' : List (Glob α)} (h : Agree allowed gs gs') :
    Agree allowed gs' gs := fun s hs => (h s hs).symm

theorem allowed_fill {allowed : α → Prop} {places : List (Option α)} {f : α} (hf : allowed f)
    (hplaces : ∀ a, some a ∈ places → allowed a) : ∀ a ∈ fill f places, allowed a := by
  intro a ha
  obtain ⟨place, hplace, rfl⟩ := List.mem_map.mp ha
  cases place with
  | none => exact hf
  | some b => exact hplaces b hplace

theorem eq_of_fits {f₁ f₂ : α} (hne : f₁ ≠ f₂) {places places' : List (Option α)}
    (h₁ : Fits places' (fill f₁ places)) (h₂ : Fits places' (fill f₂ places))
    (h₁' : Fits places (fill f₁ places')) (h₂' : Fits places (fill f₂ places')) :
    places = places' := by
  induction places generalizing places' with
  | nil =>
      cases h₁
      rfl
  | cons place places ih =>
      cases places' with
      | nil => cases h₁
      | cons place' places' =>
          obtain ⟨⟩ | ⟨hhead₁, htail₁⟩ := h₁
          obtain ⟨⟩ | ⟨hhead₂, htail₂⟩ := h₂
          obtain ⟨⟩ | ⟨hhead₁', htail₁'⟩ := h₁'
          obtain ⟨⟩ | ⟨hhead₂', htail₂'⟩ := h₂'
          rw [ih htail₁ htail₂ htail₁' htail₂']
          congr 1
          cases place <;> cases place' <;> simp_all

section Agree

variable {allowed : α → Prop} {gs gs' : List (Glob α)} (hagree : Agree allowed gs gs')
  (hlits : ∀ a, some a ∈ skeleton gs → allowed a)

include hagree hlits

theorem matches_fill {f : α} (hf : allowed f) : Matches gs' (fill f (skeleton gs)) :=
  (hagree _ (allowed_fill hf hlits)).mp (matches_of_fits (fits_fill f _))

theorem skeleton_eq (hlits' : ∀ a, some a ∈ skeleton gs' → allowed a) {f₁ f₂ : α}
    (hf₁ : allowed f₁) (hf₂ : allowed f₂) (hne : f₁ ≠ f₂) : skeleton gs = skeleton gs' := by
  have hle := length_le_of_matches (matches_fill hagree hlits hf₁)
  have hle' := length_le_of_matches (matches_fill hagree.symm hlits' hf₁)
  rw [length_fill] at hle hle'
  refine eq_of_fits hne ?_ ?_ ?_ ?_
  · exact fits_of_matches (matches_fill hagree hlits hf₁) (by rw [length_fill]; omega)
  · exact fits_of_matches (matches_fill hagree hlits hf₂) (by rw [length_fill]; omega)
  · exact fits_of_matches (matches_fill hagree.symm hlits' hf₁) (by rw [length_fill]; omega)
  · exact fits_of_matches (matches_fill hagree.symm hlits' hf₂) (by rw [length_fill]; omega)

end Agree

theorem fits_later {f : α} {places : List (Option α)}
    (h : Fits places ((f :: fill f places).take places.length)) :
    ∀ place ∈ places, place = none ∨ place = some f := by
  induction places with
  | nil => exact fun _ hplace => absurd hplace List.not_mem_nil
  | cons place places ih =>
      obtain ⟨⟩ | ⟨hhead, htail⟩ := h
      have hletter : place.getD f = f := by rcases hhead with rfl | rfl <;> rfl
      rw [fill, List.map_cons, hletter] at htail
      intro p hp
      rcases List.mem_cons.mp hp with rfl | hp
      · exact hhead
      · exact ih htail p hp

theorem fits_earlier {f : α} {places : List (Option α)}
    (h : Fits places (fill f places ++ [f]).tail) :
    ∀ place ∈ places, place = none ∨ place = some f := by
  induction places with
  | nil => exact fun _ hplace => absurd hplace List.not_mem_nil
  | cons place places ih =>
      cases places with
      | nil =>
          obtain ⟨⟩ | ⟨hhead, -⟩ := h
          exact List.forall_mem_singleton.mpr hhead
      | cons next places =>
          obtain ⟨⟩ | ⟨hhead, htail⟩ := h
          have hrest := ih htail
          have hletter : next.getD f = f := by
            rcases hrest next List.mem_cons_self with rfl | rfl <;> rfl
          have hfirst : place = none ∨ place = some f := by simpa only [hletter] using hhead
          intro p hp
          rcases List.mem_cons.mp hp with rfl | hp
          · exact hfirst
          · exact hrest p hp

theorem block_of_agree {allowed : α → Prop} {before after gs' : List (Glob α)}
    (hagree : Agree allowed (before ++ .block :: after) gs')
    (hskeleton : skeleton (before ++ .block :: after) = skeleton gs')
    (hlits : ∀ a, some a ∈ skeleton gs' → allowed a) {f : α} (hf : allowed f) :
    ∃ before' after' moved, gs' = before' ++ .block :: after' ∧
      (skeleton before' = skeleton before ++ moved ∨
        skeleton before = skeleton before' ++ moved) ∧
      ∀ place ∈ moved, place = none ∨ place = some f := by
  rw [skeleton_append, skeleton_block] at hskeleton
  rw [← hskeleton] at hlits
  have hword : Matches gs' (fill f (skeleton before) ++ [f] ++ fill f (skeleton after)) := by
    refine (hagree _ fun a ha => ?_).mp ?_
    · rw [List.append_assoc, List.mem_append, List.mem_append, List.mem_singleton] at ha
      rcases ha with ha | rfl | ha
      · exact allowed_fill hf (fun b hb => hlits b (List.mem_append_left _ hb)) a ha
      · exact hf
      · exact allowed_fill hf (fun b hb => hlits b (List.mem_append_right _ hb)) a ha
    · rw [List.append_assoc]
      exact (matches_of_fits (fits_fill f _)).append
        (.block [f] (matches_of_fits (fits_fill f _)))
  obtain ⟨before', after', s₁, a, s₂, rfl, hs, hbefore, hafter⟩ := block_of_matches hword
    (by rw [← hskeleton]; simp only [List.length_append, length_fill, List.length_singleton]; omega)
  have hlength := hbefore.length_eq
  rw [skeleton_append, skeleton_block] at hskeleton
  rcases List.append_eq_append_iff.mp hskeleton with ⟨moved, hplace, hrest⟩ | ⟨moved, hplace, hrest⟩
  · -- The block of the other pattern is further behind.
    refine ⟨before', after', moved, rfl, Or.inl hplace, fits_later ?_⟩
    rw [hplace, List.length_append] at hlength
    have htail : s₁.drop (skeleton before).length ++ a :: s₂ =
        (f :: fill f moved) ++ fill f (skeleton after') := by
      rw [← List.drop_append_of_le_length (by omega), ← hs, List.append_assoc,
        List.drop_left' (length_fill f _), hrest, fill_append]
      rfl
    have hmoved : s₁.drop (skeleton before).length = (f :: fill f moved).take moved.length := by
      have htake := congrArg (List.take moved.length) htail
      rwa [List.take_left' (by rw [List.length_drop]; omega),
        List.take_append_of_le_length (by simp)] at htake
    have hfits := List.forall₂_drop (skeleton before).length hbefore
    rw [hplace, List.drop_left, hmoved] at hfits
    exact hfits
  · -- The block of the other pattern is further ahead.
    refine ⟨before', after', moved, rfl, Or.inr hplace, fits_earlier ?_⟩
    have htail : a :: s₂ = (fill f moved ++ [f]) ++ fill f (skeleton after) := by
      have hdrop := congrArg (List.drop (skeleton before').length) hs
      rw [hplace, fill_append, List.append_assoc, List.append_assoc,
        List.drop_left' (length_fill f _), List.drop_left' hlength.symm] at hdrop
      rw [← hdrop, List.append_assoc]
    have hmoved : s₂.take moved.length = (fill f moved ++ [f]).tail := by
      have hdrop := congrArg (fun l => (List.tail l).take moved.length) htail
      simp only [List.tail_cons] at hdrop
      rw [hdrop, List.tail_append_of_ne_nil (by simp), List.take_left' (by simp)]
    have hfits := List.forall₂_take moved.length hafter
    rw [hrest, List.take_left, hmoved] at hfits
    exact hfits

/-! ## A block behind a letter -/

theorem append_of_skeleton {x : α} {gs gs' rest rest' : List (Glob α)} {places : List (Option α)}
    (h : gs' ++ rest' = gs ++ .lit x :: rest)
    (hskeleton : skeleton gs' = skeleton gs ++ some x :: places) :
    ∃ behind, behind ++ rest' = rest ∧ skeleton behind = places := by
  rcases List.append_eq_append_iff.mp h with ⟨excess, rfl, -⟩ | ⟨excess, rfl, hover⟩
  · have hlength := congrArg List.length hskeleton
    simp only [skeleton_append, List.length_append, List.length_cons] at hlength
    omega
  · rw [skeleton_append] at hskeleton
    have hplaces := List.append_cancel_left hskeleton
    cases excess with
    | nil => cases hplaces
    | cons g excess =>
        obtain ⟨rfl, hrest⟩ := List.cons.inj hover
        exact ⟨excess, hrest.symm, (List.cons.inj hplaces).2⟩

theorem not_agree_of_block_behind {allowed : α → Prop} {x f : α}
    {before after front middle back : List (Glob α)} {places : List (Option α)}
    (hagree : Agree allowed (before ++ .block :: after) (front ++ .lit x :: (middle ++ back)))
    (hskeleton : skeleton (before ++ .block :: after) =
      skeleton (front ++ .lit x :: (middle ++ back)))
    (hlits : ∀ a, some a ∈ skeleton (front ++ .lit x :: (middle ++ back)) → allowed a)
    (hf : allowed f) (hx : f ≠ x) (hbefore : skeleton before = skeleton front ++ some x :: places)
    (hplaces : ∀ place ∈ places, place = none) (hmiddle : .block ∉ middle)
    (hback : back = [] ∨ ∃ c rest, back = .lit c :: rest ∧ f ≠ c) : False := by
  obtain ⟨before', after', moved, hgs, hmove, hmoved⟩ :=
    block_of_agree hagree hskeleton hlits hf
  have hletters : ∀ c, f ≠ c → some c ∉ moved := by
    intro c hc hmem
    rcases hmoved _ hmem with h | h
    · cases h
    · exact hc (Option.some.inj h).symm
  obtain ⟨places', hbefore', hplaces'⟩ : ∃ places', skeleton before' = skeleton front ++
      some x :: places' ∧ ∀ c, f ≠ c → some c ∉ places' := by
    rcases hmove with hmove | hmove
    · refine ⟨places ++ moved, by rw [hmove, hbefore, List.append_assoc]; rfl, ?_⟩
      intro c hc hmem
      rcases List.mem_append.mp hmem with hmem | hmem
      · cases hplaces _ hmem
      · exact hletters c hc hmem
    · rw [hbefore] at hmove
      rcases List.append_eq_append_iff.mp hmove with ⟨excess, hover, hrest⟩ | ⟨excess, -, hrest⟩
      · cases excess with
        | nil =>
            rw [List.nil_append] at hrest
            exact absurd (hrest ▸ List.mem_cons_self) (hletters x hx)
        | cons place excess =>
            obtain ⟨rfl, rfl⟩ := List.cons.inj hrest
            refine ⟨excess, hover, fun c _ hmem => ?_⟩
            cases hplaces _ (List.mem_append_left _ hmem)
      · exact absurd (hrest ▸ List.mem_append_right _ List.mem_cons_self) (hletters x hx)
  obtain ⟨behind, hbehind, rfl⟩ := append_of_skeleton hgs.symm hbefore'
  rcases List.append_eq_append_iff.mp hbehind with ⟨excess, rfl, hover⟩ | ⟨excess, rfl, hover⟩
  · -- The block is among the wildcards behind the letter, or begins what follows them.
    cases excess with
    | nil =>
        rcases hback with rfl | ⟨c, rest, rfl, -⟩
        · cases hover
        · cases hover
    | cons g excess =>
        obtain ⟨rfl, -⟩ := List.cons.inj hover
        exact hmiddle (List.mem_append_right _ List.mem_cons_self)
  · -- It is further behind.
    rcases hback with rfl | ⟨c, rest, rfl, hc⟩
    · cases excess <;> cases hover
    · cases excess with
      | nil => cases hover
      | cons g excess =>
          obtain ⟨rfl, -⟩ := List.cons.inj hover
          refine hplaces' c hc ?_
          rw [skeleton_append]
          exact List.mem_append_right _ List.mem_cons_self

end Glob

/-! ## Lists that are cut at separators -/

section Separators

variable {α : Type} {sep : α → Prop} {xs ys xs' ys' : List α}

theorem append_eq_of_countP [DecidablePred sep] (h : xs ++ ys = xs' ++ ys')
    (hcount : xs.countP sep = xs'.countP sep) (hlast : ∀ a ∈ xs.getLast?, sep a)
    (hlast' : ∀ a ∈ xs'.getLast?, sep a) : xs = xs' := by
  have hover : ∀ {xs excess : List α}, xs.countP sep = (xs ++ excess).countP sep →
      (∀ a ∈ (xs ++ excess).getLast?, sep a) → excess = [] := by
    intro xs excess hcount hlast
    by_contra hne
    have hzero : excess.countP sep = 0 := by
      rw [List.countP_append] at hcount
      omega
    rw [List.countP_eq_zero] at hzero
    have hsep := hlast (excess.getLast hne) (by
      rw [List.getLast?_append_of_ne_nil _ hne, List.getLast?_eq_some_getLast hne]
      exact Option.mem_some_self _)
    exact hzero _ (List.getLast_mem hne) (decide_eq_true hsep)
  rcases List.append_eq_append_iff.mp h with ⟨excess, rfl, -⟩ | ⟨excess, rfl, -⟩
  · rw [hover hcount hlast', List.append_nil]
  · rw [hover hcount.symm hlast, List.append_nil]

theorem append_inj_of_separated (h : xs ++ ys = xs' ++ ys') (hxs : ∀ a ∈ xs, ¬ sep a)
    (hxs' : ∀ a ∈ xs', ¬ sep a) (hys : ∀ a ∈ ys.head?, sep a) (hys' : ∀ a ∈ ys'.head?, sep a) :
    xs = xs' := by
  have hover : ∀ {xs excess ys : List α}, (∀ a ∈ xs ++ excess, ¬ sep a) →
      (∀ a ∈ (excess ++ ys).head?, sep a) → excess = [] := by
    intro xs excess ys hnone hhead
    cases excess with
    | nil => rfl
    | cons a excess =>
        exact absurd (hhead a rfl) (hnone a (List.mem_append_right _ List.mem_cons_self))
  rcases List.append_eq_append_iff.mp h with ⟨excess, rfl, rfl⟩ | ⟨excess, rfl, rfl⟩
  · rw [hover hxs' hys, List.append_nil]
  · rw [hover hxs hys', List.append_nil]

end Separators

end BlockyOS.Foundation
