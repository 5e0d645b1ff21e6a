/-!
# Runs of a partial step function

A program takes commands one after another; a command either leads to a next
state or fails, which ends the run.  The rules below lift what one step
preserves to whole runs, and what one step preserves exactly under a condition
to an equivalence about whole runs.
-/

namespace BlockyOS.Foundation

section Runs

variable {σ ω ε : Type} (step : σ → ω → Except ε σ)

def run : σ → List ω → Except ε σ
  | s, [] => .ok s
  | s, op :: ops =>
      match step s op with
      | .ok s' => run s' ops
      | .error e => .error e

@[simp] theorem run_nil (s : σ) : run step s [] = .ok s := rfl

theorem run_cons_ok {s s' : σ} {op : ω} {ops : List ω} :
    run step s (op :: ops) = .ok s' ↔
      ∃ mid, step s op = .ok mid ∧ run step mid ops = .ok s' := by
  rw [run]
  cases hstep : step s op with
  | ok mid => simp
  | error e => simp

theorem run_append_ok {s s' : σ} {ops ops' : List ω} :
    run step s (ops ++ ops') = .ok s' ↔
      ∃ mid, run step s ops = .ok mid ∧ run step mid ops' = .ok s' := by
  induction ops generalizing s with
  | nil => simp
  | cons op ops ih =>
      simp only [List.cons_append, run_cons_ok, ih]
      constructor
      · rintro ⟨first, hfirst, mid, hmid, hrest⟩
        exact ⟨mid, ⟨first, hfirst, hmid⟩, hrest⟩
      · rintro ⟨mid, ⟨first, hfirst, hmid⟩, hrest⟩
        exact ⟨first, hfirst, mid, hmid, hrest⟩

theorem run_append_error {s : σ} {ops ops' : List ω} {e : ε} :
    run step s (ops ++ ops') = .error e ↔
      run step s ops = .error e ∨
        ∃ mid, run step s ops = .ok mid ∧ run step mid ops' = .error e := by
  induction ops generalizing s with
  | nil => simp
  | cons op ops ih =>
      rw [List.cons_append, run, run]
      cases step s op with
      | ok mid => exact ih
      | error e' => simp

theorem ok_of_toOption {α : Type} {r : Except ε α} {a : α} (h : r.toOption = some a) :
    r = .ok a := by
  cases r with
  | error e => cases h
  | ok b => exact congrArg Except.ok (Option.some.inj h)

theorem ok_getD {α : Type} {r : Except ε α} (a : α) (h : r.toOption.isSome) :
    r = .ok (r.toOption.getD a) := by
  cases r with
  | error e => cases h
  | ok b => rfl

theorem map_ok {α β : Type} {f : α → β} {r : Except ε α} {b : β}
    (h : r.map f = .ok b) : ∃ a, r = .ok a ∧ f a = b := by
  cases r with
  | error e => cases h
  | ok a => exact ⟨a, rfl, Except.ok.inj h⟩

theorem exists_map_ok {α β : Type} {f : α → β} {r : Except ε α} {P : β → Prop} :
    (∃ b, r.map f = .ok b ∧ P b) ↔ ∃ a, r = .ok a ∧ P (f a) := by
  constructor
  · rintro ⟨b, hb, hP⟩
    obtain ⟨a, ha, rfl⟩ := map_ok hb
    exact ⟨a, ha, hP⟩
  · rintro ⟨a, rfl, hP⟩
    exact ⟨f a, rfl, hP⟩

theorem bind_ok {α β : Type} {r : Except ε α} {f : α → Except ε β} {b : β}
    (h : r >>= f = .ok b) : ∃ a, r = .ok a ∧ f a = .ok b := by
  cases r with
  | error e => cases h
  | ok a => exact ⟨a, rfl, h⟩

@[simp] theorem ok_bind {α β : Type} (a : α) (f : α → Except ε β) :
    (Except.ok a >>= f) = f a := rfl

@[simp] theorem error_bind {α β : Type} (e : ε) (f : α → Except ε β) :
    ((Except.error e : Except ε α) >>= f) = .error e := rfl

theorem ok_of_eval {α β : Type} {r : Except ε α} {f : α → β} {b : β}
    (h : (r.map f).toOption = some b) : ∃ a, r = .ok a ∧ f a = b := by
  cases r with
  | error e => cases h
  | ok a => exact ⟨a, rfl, Option.some.inj h⟩

/-- Every state the run visits, the first included, satisfies `P`. -/
def Always (P : σ → Prop) : σ → List ω → Prop
  | s, [] => P s
  | s, op :: ops => P s ∧ ∀ s', step s op = .ok s' → Always P s' ops

/-- Every step that the run completes is taken under the condition `C`. -/
def Meets (C : σ → ω → Prop) : σ → List ω → Prop
  | _, [] => True
  | s, op :: ops => ∀ s', step s op = .ok s' → C s op ∧ Meets C s' ops

/-- Every command that the run comes to meets the condition `C`, completed or not. -/
def Each (C : σ → ω → Prop) : σ → List ω → Prop
  | _, [] => True
  | s, op :: ops => C s op ∧ ∀ s', step s op = .ok s' → Each C s' ops

/-- The run comes to its end, and every state it visits, the first included, satisfies `P`. -/
def Throughout (P : σ → Prop) : σ → List ω → Prop
  | s, [] => P s
  | s, op :: ops => P s ∧ ∃ s', step s op = .ok s' ∧ Throughout P s' ops

/-- Every state of the run has the property, and every step that it completes the effect. -/
def Along (P : σ → Prop) (E : σ → ω → σ → Prop) : σ → List ω → Prop
  | s, [] => P s
  | s, op :: ops => P s ∧ ∀ s', step s op = .ok s' → E s op s' ∧ Along P E s' ops

variable {step}

theorem Along.start {P : σ → Prop} {E : σ → ω → σ → Prop} {s : σ} {ops : List ω}
    (h : Along step P E s ops) : P s := by
  cases ops with
  | nil => exact h
  | cons => exact h.1

theorem Always.start {P : σ → Prop} {s : σ} {ops : List ω} (h : Always step P s ops) : P s := by
  cases ops with
  | nil => exact h
  | cons => exact h.1

theorem Always.of_run {P : σ → Prop} {s s' : σ} {ops : List ω}
    (halways : Always step P s ops) (hrun : run step s ops = .ok s') : P s' := by
  induction ops generalizing s with
  | nil =>
      cases hrun
      exact halways
  | cons op ops ih =>
      obtain ⟨mid, hstep, hrest⟩ := (run_cons_ok step).mp hrun
      exact ih (halways.2 mid hstep) hrest

theorem run_invariant {P : σ → Prop}
    (hpreserved : ∀ s op s', P s → step s op = .ok s' → P s')
    {s s' : σ} {ops : List ω} (hs : P s) (hrun : run step s ops = .ok s') :
    P s' := by
  induction ops generalizing s with
  | nil =>
      cases hrun
      exact hs
  | cons op ops ih =>
      obtain ⟨mid, hstep, hrest⟩ := (run_cons_ok step).mp hrun
      exact ih (hpreserved s op mid hs hstep) hrest

theorem run_ne_error {P : σ → Prop} {e : ε} {s : σ} {ops : List ω} (hs : P s)
    (hstep : ∀ s, ∀ op ∈ ops, P s → step s op ≠ .error e)
    (hkeep : ∀ s op s', P s → step s op = .ok s' → P s') : run step s ops ≠ .error e := by
  induction ops generalizing s with
  | nil => simp
  | cons op ops ih =>
      have hfirst := hstep s op (List.mem_cons_self ..) hs
      rw [run]
      cases hresult : step s op with
      | error e' =>
          rw [hresult] at hfirst
          exact hfirst
      | ok mid =>
          exact ih (hkeep s op mid hs hresult)
            fun s' op' hop' => hstep s' op' (List.mem_cons_of_mem _ hop')

theorem Always.mono {P P' : σ → Prop} (himp : ∀ s, P s → P' s) {s : σ} {ops : List ω}
    (h : Always step P s ops) : Always step P' s ops := by
  induction ops generalizing s with
  | nil => exact himp s h
  | cons op ops ih => exact ⟨himp s h.1, fun s' hstep => ih (h.2 s' hstep)⟩

theorem always_of_meets {P : σ → Prop} {C : σ → ω → Prop}
    (hpreserved : ∀ s op s', P s → C s op → step s op = .ok s' → P s')
    {s : σ} {ops : List ω} (hs : P s) (hmeets : Meets step C s ops) :
    Always step P s ops := by
  induction ops generalizing s with
  | nil => exact hs
  | cons op ops ih =>
      refine ⟨hs, fun mid hstep => ?_⟩
      obtain ⟨hcond, hrest⟩ := hmeets mid hstep
      exact ih (hpreserved s op mid hs hcond hstep) hrest

theorem always_iff_meets {P : σ → Prop} {C : σ → ω → Prop}
    (hexact : ∀ s op s', P s → step s op = .ok s' → (P s' ↔ C s op))
    {s : σ} {ops : List ω} (hs : P s) :
    Always step P s ops ↔ Meets step C s ops := by
  constructor
  · intro halways
    induction ops generalizing s with
    | nil => trivial
    | cons op ops ih =>
        intro mid hstep
        have hrest := halways.2 mid hstep
        have hmid : P mid := by
          cases ops with
          | nil => exact hrest
          | cons => exact hrest.1
        exact ⟨(hexact s op mid hs hstep).mp hmid, ih hmid hrest⟩
  · exact always_of_meets
      (fun s op s' hs hcond hstep => (hexact s op s' hs hstep).mpr hcond) hs

theorem along_iff_meets {P : σ → Prop} {E : σ → ω → σ → Prop} {C : σ → ω → Prop}
    (hexact : ∀ s op s', P s → step s op = .ok s' → (P s' ∧ E s op s' ↔ C s op))
    {s : σ} {ops : List ω} (hs : P s) : Along step P E s ops ↔ Meets step C s ops := by
  induction ops generalizing s with
  | nil => exact iff_of_true hs trivial
  | cons op ops ih =>
      constructor
      · rintro ⟨-, hsteps⟩ s' hstep
        obtain ⟨heffect, hrest⟩ := hsteps s' hstep
        have hs' := hrest.start
        exact ⟨(hexact s op s' hs hstep).mp ⟨hs', heffect⟩, (ih hs').mp hrest⟩
      · refine fun hmeets => ⟨hs, fun s' hstep => ?_⟩
        obtain ⟨hcond, hrest⟩ := hmeets s' hstep
        obtain ⟨hs', heffect⟩ := (hexact s op s' hs hstep).mpr hcond
        exact ⟨heffect, (ih hs').mpr hrest⟩

theorem always_iff_meets_under {P I : σ → Prop} {C : σ → ω → Prop}
    (hexact : ∀ s op s', I s → P s → step s op = .ok s' → (P s' ↔ C s op))
    (hkeep : ∀ s op s', I s → P s → step s op = .ok s' → P s' → I s')
    {s : σ} {ops : List ω} (hI : I s) (hP : P s) :
    Always step P s ops ↔ Meets step C s ops := by
  have hboth : Always step (fun s => I s ∧ P s) s ops ↔ Meets step C s ops := by
    refine always_iff_meets (fun s op s' hs hstep => ?_) ⟨hI, hP⟩
    rw [← hexact s op s' hs.1 hs.2 hstep]
    exact ⟨fun h => h.2, fun h => ⟨hkeep s op s' hs.1 hs.2 hstep h, h⟩⟩
  rw [← hboth]
  clear hboth
  induction ops generalizing s with
  | nil => exact ⟨fun h => ⟨hI, h⟩, fun h => h.2⟩
  | cons op ops ih =>
      constructor
      · rintro ⟨_, hrest⟩
        refine ⟨⟨hI, hP⟩, fun s' hstep => ?_⟩
        have hP' : P s' := by
          cases ops with
          | nil => exact hrest s' hstep
          | cons => exact (hrest s' hstep).1
        exact (ih (hkeep s op s' hI hP hstep hP') hP').mp (hrest s' hstep)
      · rintro ⟨_, hrest⟩
        refine ⟨hP, fun s' hstep => ?_⟩
        have hboth' : I s' ∧ P s' := by
          cases ops with
          | nil => exact hrest s' hstep
          | cons => exact (hrest s' hstep).1
        exact (ih hboth'.1 hboth'.2).mpr (hrest s' hstep)

theorem meets_iff_under {I : σ → Prop} {C C' : σ → ω → Prop}
    (hexact : ∀ s op s', I s → step s op = .ok s' → (C s op ↔ C' s op))
    (hkeep : ∀ s op s', I s → C s op → step s op = .ok s' → I s')
    {s : σ} {ops : List ω} (hI : I s) : Meets step C s ops ↔ Meets step C' s ops := by
  induction ops generalizing s with
  | nil => exact .rfl
  | cons op ops ih =>
      constructor
      · intro h s' hstep
        obtain ⟨hcond, hrest⟩ := h s' hstep
        exact ⟨(hexact s op s' hI hstep).mp hcond,
          (ih (hkeep s op s' hI hcond hstep)).mp hrest⟩
      · intro h s' hstep
        obtain ⟨hcond', hrest⟩ := h s' hstep
        have hcond := (hexact s op s' hI hstep).mpr hcond'
        exact ⟨hcond, (ih (hkeep s op s' hI hcond hstep)).mpr hrest⟩

theorem each_iff_under {I : σ → Prop} {C C' : σ → ω → Prop}
    (hexact : ∀ s op, I s → (C s op ↔ C' s op))
    (hkeep : ∀ s op s', I s → C' s op → step s op = .ok s' → I s')
    {s : σ} {ops : List ω} (hI : I s) : Each step C s ops ↔ Each step C' s ops := by
  induction ops generalizing s with
  | nil => exact .rfl
  | cons op ops ih =>
      refine (and_congr_left' (hexact s op hI)).trans (and_congr_right fun hcond => ?_)
      exact forall_congr' fun s' => forall_congr' fun hstep =>
        ih (hkeep s op s' hI hcond hstep)

theorem Throughout.start {P : σ → Prop} {s : σ} {ops : List ω} (h : Throughout step P s ops) :
    P s := by
  cases ops with
  | nil => exact h
  | cons => exact h.1

theorem Throughout.mono {P Q : σ → Prop} (hmono : ∀ s, P s → Q s) {s : σ} {ops : List ω}
    (h : Throughout step P s ops) : Throughout step Q s ops := by
  induction ops generalizing s with
  | nil => exact hmono s h
  | cons op ops ih =>
      obtain ⟨hP, s', hstep, hrest⟩ := h
      exact ⟨hmono s hP, s', hstep, ih hrest⟩

theorem throughout_of_step {P : σ → Prop}
    (hstep : ∀ s op, P s → ∃ s', step s op = .ok s' ∧ P s') {s : σ} (hP : P s) (ops : List ω) :
    Throughout step P s ops := by
  induction ops generalizing s with
  | nil => exact hP
  | cons op ops ih =>
      obtain ⟨s', hs', hP'⟩ := hstep s op hP
      exact ⟨hP, s', hs', ih hP'⟩

theorem each_of_forall {C : σ → ω → Prop} (h : ∀ s op, C s op) (s : σ) (ops : List ω) :
    Each step C s ops := by
  induction ops generalizing s with
  | nil => trivial
  | cons op ops ih => exact ⟨h s op, fun s' _ => ih s'⟩

theorem throughout_iff_each {P I : σ → Prop} {C K : σ → ω → Prop}
    (hexact : ∀ s op, I s → P s → K s op → ((∃ s', step s op = .ok s' ∧ P s') ↔ C s op))
    (hkeep : ∀ s op s', I s → P s → K s op → step s op = .ok s' → P s' → I s')
    {s : σ} {ops : List ω} (hI : I s) (hP : P s) (hK : Each step K s ops) :
    Throughout step P s ops ↔ Each step C s ops := by
  induction ops generalizing s with
  | nil => exact iff_of_true hP trivial
  | cons op ops ih =>
      constructor
      · rintro ⟨-, s', hstep, hrest⟩
        have hP' := hrest.start
        have hI' := hkeep s op s' hI hP hK.1 hstep hP'
        refine ⟨(hexact s op hI hP hK.1).mp ⟨s', hstep, hP'⟩, fun mid hmid => ?_⟩
        obtain rfl := Except.ok.inj (hstep.symm.trans hmid)
        exact (ih hI' hP' (hK.2 s' hstep)).mp hrest
      · rintro ⟨hcond, hrest⟩
        obtain ⟨s', hstep, hP'⟩ := (hexact s op hI hP hK.1).mpr hcond
        have hI' := hkeep s op s' hI hP hK.1 hstep hP'
        exact ⟨hP, s', hstep, (ih hI' hP' (hK.2 s' hstep)).mpr (hrest s' hstep)⟩

theorem throughout_iff_forall {P : σ → Prop} {A : ω → Prop} {s : σ} {ops : List ω} (hP : P s)
    (hexact : ∀ op, (∃ s', step s op = .ok s' ∧ P s') ↔ A op)
    (hstay : ∀ op s', A op → step s op = .ok s' → s' = s) :
    Throughout step P s ops ↔ ∀ op ∈ ops, A op := by
  induction ops with
  | nil => exact iff_of_true hP fun op hop => absurd hop List.not_mem_nil
  | cons op ops ih =>
      rw [List.forall_mem_cons, ← ih]
      constructor
      · rintro ⟨-, s', hstep, hrest⟩
        have hA := (hexact op).mp ⟨s', hstep, hrest.start⟩
        obtain rfl := hstay op s' hA hstep
        exact ⟨hA, hrest⟩
      · rintro ⟨hA, hrest⟩
        obtain ⟨s', hstep, -⟩ := (hexact op).mpr hA
        obtain rfl := hstay op s' hA hstep
        exact ⟨hP, s', hstep, hrest⟩

end Runs

end BlockyOS.Foundation
