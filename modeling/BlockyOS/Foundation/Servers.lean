import Mathlib.Data.List.Basic

/-!
# Servers

A server answers requests one after another, and a request may end it in an
error.  Two servers whose states are related answer every sequence of requests
alike when each request keeps the relation.
-/

namespace BlockyOS.Foundation

variable {σ τ ω α ε : Type}

/-- The answers to a sequence of requests, and the state behind them. -/
def serveAll (step : σ → ω → Except ε (σ × α)) : σ → List ω → Except ε (σ × List α)
  | s, [] => .ok (s, [])
  | s, op :: ops =>
      match step s op with
      | .error e => .error e
      | .ok (s, answer) => (serveAll step s ops).map fun r => (r.1, answer :: r.2)

inductive Alike {β : Type} (R : σ → τ → Prop) : Except ε (σ × β) → Except ε (τ × β) → Prop
  | error (e : ε) : Alike R (.error e) (.error e)
  | ok {s : σ} {t : τ} (answer : β) (h : R s t) : Alike R (.ok (s, answer)) (.ok (t, answer))

variable {step : σ → ω → Except ε (σ × α)} {step' : τ → ω → Except ε (τ × α)}
  {R : σ → τ → Prop} {admitted : ω → Prop}

theorem serveAll_alike
    (hstep : ∀ s t op, R s t → admitted op → Alike R (step s op) (step' t op))
    {ops : List ω} (hops : ∀ op ∈ ops, admitted op) {s : σ} {t : τ} (hst : R s t) :
    Alike R (serveAll step s ops) (serveAll step' t ops) := by
  induction ops generalizing s t with
  | nil => exact .ok [] hst
  | cons op ops ih =>
      obtain ⟨hop, hrest⟩ := List.forall_mem_cons.mp hops
      have hfirst := hstep s t op hst hop
      rw [serveAll, serveAll]
      generalize step s op = first at hfirst
      generalize step' t op = first' at hfirst
      cases hfirst with
      | error e => exact .error e
      | ok answer hmid =>
          have hlater := ih hrest hmid
          rename_i s' t'
          dsimp only
          generalize serveAll step s' ops = later at hlater
          generalize serveAll step' t' ops = later' at hlater
          cases hlater with
          | error e => exact .error e
          | ok answers hend => exact .ok (answer :: answers) hend

theorem Alike.answers_eq {β : Type} {r : Except ε (σ × β)} {r' : Except ε (τ × β)}
    (h : Alike R r r') : r.map Prod.snd = r'.map Prod.snd := by
  cases h with
  | error e => rfl
  | ok answers h => rfl

theorem Alike.exists_of_ok {β : Type} {r' : Except ε (τ × β)} {s : σ} {answers : β}
    {r : Except ε (σ × β)} (h : Alike R r r') (hr : r = .ok (s, answers)) : ∃ t, R s t := by
  cases h with
  | error e => cases hr
  | ok answers h =>
      cases hr
      exact ⟨_, h⟩

end BlockyOS.Foundation
