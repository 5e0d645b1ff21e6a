import Mathlib.Data.List.Basic

/-!
# Transcripts

What a component answers to the commands that it is given one after another.
Where a relation between the states of two components is kept by every command
and makes them answer alike, no run of commands tells them apart.
-/

namespace BlockyOS.Foundation

section Transcripts

variable {σ τ ω ρ : Type} (step : σ → ω → σ × ρ)

def transcript : σ → List ω → List ρ
  | _, [] => []
  | s, op :: ops => (step s op).2 :: transcript (step s op).1 ops

def stateAfter : σ → List ω → σ
  | s, [] => s
  | s, op :: ops => stateAfter (step s op).1 ops

@[simp] theorem transcript_nil (s : σ) : transcript step s [] = [] := rfl

@[simp] theorem stateAfter_nil (s : σ) : stateAfter step s [] = s := rfl

theorem transcript_cons (s : σ) (op : ω) (ops : List ω) :
    transcript step s (op :: ops) = (step s op).2 :: transcript step (step s op).1 ops := rfl

variable {step}

theorem transcript_eq {step' : τ → ω → τ × ρ} {R : σ → τ → Prop}
    (hstep : ∀ s t op, R s t → (step s op).2 = (step' t op).2 ∧ R (step s op).1 (step' t op).1)
    {s : σ} {t : τ} (hR : R s t) (ops : List ω) :
    transcript step s ops = transcript step' t ops ∧
      R (stateAfter step s ops) (stateAfter step' t ops) := by
  induction ops generalizing s t with
  | nil => exact ⟨rfl, hR⟩
  | cons op ops ih =>
      obtain ⟨hanswer, hnext⟩ := hstep s t op hR
      obtain ⟨hrest, hend⟩ := ih hnext
      rw [transcript_cons, transcript_cons, hanswer, hrest]
      exact ⟨rfl, hend⟩

end Transcripts

end BlockyOS.Foundation
