import Mathlib.Data.List.TakeWhile
import Mathlib.Order.Basic

/-!
# Segments between separators

The maximal runs of a list without separators, each with the separators that
border it.  A list is cut into what comes before its first segment, that segment,
and the rest behind its separator.
-/

namespace BlockyOS.Foundation

/-- A run without separators, and the separators beside it; an end of the list is none. -/
structure Segment (α : Type) where
  before : Option α
  text : List α
  behind : Option α
  deriving DecidableEq, Repr

variable {α : Type} (sep : α → Bool)

/-- The segments of what follows `text`, the part of a segment that has been read. -/
def segmentsFrom (before : Option α) (text : List α) : List α → List (Segment α)
  | [] => if text.isEmpty then [] else [⟨before, text, none⟩]
  | a :: rest =>
      if sep a then
        (if text.isEmpty then [] else [⟨before, text, some a⟩]) ++ segmentsFrom (some a) [] rest
      else segmentsFrom before (text ++ [a]) rest

def segments (xs : List α) : List (Segment α) := segmentsFrom sep none [] xs

/-- A list is blank, ends in its only segment, or goes on behind its first one. -/
inductive Cut : List α → Prop
  | blank {seps : List α} (hseps : ∀ a ∈ seps, sep a = true) : Cut seps
  | last {seps text : List α} (hseps : ∀ a ∈ seps, sep a = true) (hne : text ≠ [])
      (htext : ∀ a ∈ text, sep a = false) : Cut (seps ++ text)
  | next {seps text : List α} {a : α} {rest : List α} (hseps : ∀ a ∈ seps, sep a = true)
      (hne : text ≠ []) (htext : ∀ a ∈ text, sep a = false) (ha : sep a = true)
      (h : Cut rest) : Cut (seps ++ (text ++ a :: rest))

variable {sep}

theorem exists_seps (xs : List α) : ∃ seps rest, xs = seps ++ rest ∧
    (∀ a ∈ seps, sep a = true) ∧ ∀ a ∈ rest.head?, sep a = false := by
  refine ⟨xs.takeWhile sep, xs.dropWhile sep, List.takeWhile_append_dropWhile.symm,
    fun a ha => List.mem_takeWhile_imp ha, fun a ha => ?_⟩
  have hhead := List.head?_dropWhile_not sep xs
  rw [ha] at hhead
  simpa using hhead

theorem exists_text (xs : List α) : ∃ text rest, xs = text ++ rest ∧
    (∀ a ∈ text, sep a = false) ∧ ∀ a ∈ rest.head?, sep a = true := by
  obtain ⟨text, rest, rfl, htext, hrest⟩ := @exists_seps α (fun a => !sep a) xs
  refine ⟨text, rest, rfl, fun a ha => ?_, fun a ha => ?_⟩
  · simpa using htext a ha
  · simpa using hrest a ha

theorem cut (xs : List α) : Cut sep xs := by
  generalize hn : xs.length = n
  induction n using Nat.strong_induction_on generalizing xs with
  | h n ih =>
      obtain ⟨seps, body, rfl, hseps, hbody⟩ := @exists_seps α sep xs
      obtain ⟨text, rest, rfl, htext, hrest⟩ := @exists_text α sep body
      cases rest with
      | nil =>
          rw [List.append_nil] at hbody ⊢
          by_cases hne : text = []
          · rw [hne, List.append_nil]
            exact .blank hseps
          · exact .last hseps hne htext
      | cons a rest =>
          have hne : text ≠ [] := by
            rintro rfl
            exact absurd (hrest a rfl) (by rw [hbody a rfl]; decide)
          simp only [List.length_append, List.length_cons] at hn
          exact .next hseps hne htext (hrest a rfl) (ih rest.length (by omega) rest rfl)

section Segments

variable {seps text : List α} (hseps : ∀ a ∈ seps, sep a = true) (hne : text ≠ [])
  (htext : ∀ a ∈ text, sep a = false)

include hseps in
theorem segmentsFrom_seps (before : Option α) (rest : List α) :
    ∃ before', segmentsFrom sep before [] (seps ++ rest) = segmentsFrom sep before' [] rest := by
  induction seps generalizing before with
  | nil => exact ⟨before, rfl⟩
  | cons a seps ih =>
      obtain ⟨ha, hrest⟩ := List.forall_mem_cons.mp hseps
      obtain ⟨before', h⟩ := ih hrest (some a)
      refine ⟨before', ?_⟩
      rw [List.cons_append, segmentsFrom, if_pos ha]
      exact h

include htext in
theorem segmentsFrom_text (before : Option α) (read rest : List α) :
    segmentsFrom sep before read (text ++ rest) = segmentsFrom sep before (read ++ text) rest := by
  induction text generalizing read with
  | nil => rw [List.nil_append, List.append_nil]
  | cons a text ih =>
      obtain ⟨ha, hrest⟩ := List.forall_mem_cons.mp htext
      rw [List.cons_append, segmentsFrom, if_neg (by rw [ha]; decide), ih hrest, List.append_assoc]
      rfl

include hseps in
theorem segmentsFrom_blank (before : Option α) : segmentsFrom sep before [] seps = [] := by
  obtain ⟨before', h⟩ := segmentsFrom_seps hseps before []
  rw [List.append_nil] at h
  rw [h]
  rfl

include hseps hne htext

theorem segmentsFrom_last (before : Option α) : ∃ before',
    segmentsFrom sep before [] (seps ++ text) = [⟨before', text, none⟩] := by
  obtain ⟨before', h⟩ := segmentsFrom_seps hseps before text
  have hread := segmentsFrom_text htext before' [] []
  rw [List.append_nil] at hread
  refine ⟨before', ?_⟩
  rw [h, hread, segmentsFrom, if_neg (by simpa using hne)]
  rfl

theorem segmentsFrom_next (before : Option α) {a : α} (ha : sep a = true) (rest : List α) :
    ∃ before', segmentsFrom sep before [] (seps ++ (text ++ a :: rest)) =
      ⟨before', text, some a⟩ :: segmentsFrom sep (some a) [] rest := by
  obtain ⟨before', h⟩ := segmentsFrom_seps hseps before (text ++ a :: rest)
  refine ⟨before', ?_⟩
  rw [h, segmentsFrom_text htext, segmentsFrom, if_pos ha, if_neg (by simpa using hne)]
  rfl

end Segments

end BlockyOS.Foundation
