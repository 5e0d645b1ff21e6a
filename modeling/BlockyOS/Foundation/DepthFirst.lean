import Mathlib.Data.Finset.Card
import Mathlib.Data.List.Infix

/-!
# Depth-first orders

A graph is walked depth-first from a vertex: every edge is looked at in turn, and
a vertex that was not visited yet is visited at once, with its own edges, before
the next edge.  The order of visits is a log that only grows.  A condition on the
edges, given the log at the time, singles out the graphs whose walk meets it.
-/

namespace BlockyOS.Foundation

section DepthFirst

variable {α ε : Type}

structure Visit (α : Type) where
  vertex : α
  depth : Nat
  deriving DecidableEq, Repr

def Visited (log : List (Visit α)) (v : α) : Prop := ∃ x ∈ log, x.vertex = v

variable (edges : α → List ε) (target : α → ε → α)
variable (Allowed : Nat → Nat → Nat → List (Visit α) → α → ε → Prop)

/--
`Explores from here depth v es log log'`: looking at the edges `es` of `v` extends
the log to `log'`.  `v` was visited at index `here`, from a vertex that was itself
visited at index `from` and lies `depth` below the start.
-/
inductive Explores : Nat → Nat → Nat → α → List ε → List (Visit α) → List (Visit α) → Prop
  | done {parent here depth v log} : Explores parent here depth v [] log log
  | seen {parent here depth v e es log log'} (hseen : Visited log (target v e))
      (hallowed : Allowed parent here depth log v e)
      (hrest : Explores parent here depth v es log log') :
      Explores parent here depth v (e :: es) log log'
  | fresh {parent here depth v e es log mid log'} (hfresh : ¬ Visited log (target v e))
      (hallowed : Allowed parent here depth log v e)
      (hchild : Explores here log.length (depth + 1) (target v e) (edges (target v e))
        (log ++ [⟨target v e, depth + 2⟩]) mid)
      (hrest : Explores parent here depth v es mid log') :
      Explores parent here depth v (e :: es) log log'

variable {edges target Allowed}

theorem Explores.isPrefix {parent here depth : Nat} {v : α} {es : List ε}
    {log log' : List (Visit α)}
    (h : Explores edges target Allowed parent here depth v es log log') : log <+: log' := by
  induction h with
  | done => exact List.prefix_rfl
  | seen _ _ _ ih => exact ih
  | fresh _ _ _ _ ihchild ihrest =>
      exact (List.prefix_append _ _).trans (ihchild.trans ihrest)

theorem Explores.nodup {parent here depth : Nat} {v : α} {es : List ε}
    {log log' : List (Visit α)}
    (h : Explores edges target Allowed parent here depth v es log log')
    (hlog : (log.map Visit.vertex).Nodup) : (log'.map Visit.vertex).Nodup := by
  induction h with
  | done => exact hlog
  | seen _ _ _ ih => exact ih hlog
  | fresh hfresh _ _ _ ihchild ihrest =>
      refine ihrest (ihchild ?_)
      rw [List.map_append, List.map_singleton, List.nodup_append]
      refine ⟨hlog, List.nodup_singleton _, ?_⟩
      intro a ha b hb hab
      obtain ⟨x, hmem, hx⟩ := List.mem_map.mp ha
      refine hfresh ⟨x, hmem, ?_⟩
      rw [hx, hab]
      exact List.mem_singleton.mp hb

/-- The vertices of a finite set that the log does not name. -/
def unvisited [DecidableEq α] (vertices : Finset α) (log : List (Visit α)) : Finset α :=
  vertices.filter fun v => v ∉ log.map Visit.vertex

theorem unvisited_subset [DecidableEq α] (vertices : Finset α) {log log' : List (Visit α)}
    (hinitial : log <+: log') : unvisited vertices log' ⊆ unvisited vertices log := by
  intro v hv
  rw [unvisited, Finset.mem_filter] at hv ⊢
  exact ⟨hv.1, fun hmem => hv.2 ((hinitial.map Visit.vertex).subset hmem)⟩

theorem card_unvisited_lt [DecidableEq α] {vertices : Finset α} {log : List (Visit α)}
    {v : α} (depth : Nat) (hmem : v ∈ vertices) (hfresh : ¬ Visited log v) :
    (unvisited vertices (log ++ [⟨v, depth⟩])).card < (unvisited vertices log).card := by
  refine Finset.card_lt_card ((Finset.ssubset_iff_of_subset
    (unvisited_subset vertices (List.prefix_append _ _))).mpr ⟨v, ?_, ?_⟩)
  · rw [unvisited, Finset.mem_filter]
    refine ⟨hmem, fun h => hfresh ?_⟩
    obtain ⟨x, hx, hv⟩ := List.mem_map.mp h
    exact ⟨x, hx, hv⟩
  · simp [unvisited]

theorem exists_explores [DecidableEq α] {vertices : Finset α}
    (hclosed : ∀ v ∈ vertices, ∀ e ∈ edges v, target v e ∈ vertices)
    (hallowed : ∀ parent here depth log v e, Allowed parent here depth log v e) (count : Nat) :
    ∀ (es : List ε) (parent here depth : Nat) (v : α) (log : List (Visit α)),
      (∀ e ∈ es, target v e ∈ vertices) → (unvisited vertices log).card ≤ count →
      ∃ log', Explores edges target Allowed parent here depth v es log log' := by
  induction count using Nat.strong_induction_on with
  | h count ihcount =>
      intro es
      induction es with
      | nil => exact fun _ _ _ _ log _ _ => ⟨log, .done⟩
      | cons e es ih =>
          intro parent here depth v log hes hcard
          have hrestEdges : ∀ e' ∈ es, target v e' ∈ vertices := fun e' he' =>
            hes e' (List.mem_cons_of_mem _ he')
          by_cases hseen : Visited log (target v e)
          · obtain ⟨log', hrest⟩ := ih parent here depth v log hrestEdges hcard
            exact ⟨log', .seen hseen (hallowed _ _ _ _ _ _) hrest⟩
          · have hmem := hes e List.mem_cons_self
            have hless := card_unvisited_lt (depth + 2) hmem hseen
            obtain ⟨mid, hchild⟩ := ihcount _ (hless.trans_le hcard) (edges (target v e)) here
              log.length (depth + 1) (target v e) (log ++ [⟨target v e, depth + 2⟩])
              (hclosed _ hmem) le_rfl
            have hmid : (unvisited vertices mid).card ≤ count :=
              (Finset.card_le_card (unvisited_subset vertices
                ((List.prefix_append _ _).trans hchild.isPrefix))).trans hcard
            obtain ⟨log', hrest⟩ := ih parent here depth v mid hrestEdges hmid
            exact ⟨log', .fresh hseen (hallowed _ _ _ _ _ _) hchild hrest⟩

end DepthFirst

end BlockyOS.Foundation
