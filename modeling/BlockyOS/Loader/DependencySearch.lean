import BlockyOS.Foundation.Trails
import BlockyOS.Loader.Executables

/-!
# The stacks of the dependency search

`SearchBinary` walks a tree of loaded executables with two arrays of 32 places:
the path to the current node, and for every node on it the dependency to go to
next.  A node is looked at again on every return from a dependency.
-/

namespace BlockyOS.Loader.DependencySearch

open BlockyOS.Foundation
open BlockyOS.HostTool (Fault)

/--
`LoadedPeExecutable`, as the search reads it.  The bases tell nodes of one name
apart, and a slot of the dependencies can be `NULL`.
-/
inductive LoadedPeExecutable where
  | mk (base : Nat) (name : List Char) (dependencies : List (Option LoadedPeExecutable))

namespace LoadedPeExecutable

def name : LoadedPeExecutable → List Char
  | .mk _ name _ => name

def dependencies : LoadedPeExecutable → List (Option LoadedPeExecutable)
  | .mk _ _ dependencies => dependencies

end LoadedPeExecutable

/-! ## The search -/

/-- `Binaries`, `Counter` and `Depth`. -/
structure Stacks where
  binaries : Nat → Option LoadedPeExecutable
  counter : Nat → Nat
  depth : Nat

/-- `Counter[Depth]++`. -/
def Stacks.advance (s : Stacks) : Stacks :=
  { s with counter := Function.update s.counter s.depth (s.counter s.depth + 1) }

def Stacks.enter (s : Stacks) (dependency : LoadedPeExecutable) : Stacks :=
  { s.advance with
    binaries := Function.update s.binaries (s.depth + 1) (some dependency)
    depth := s.depth + 1 }

def Stacks.leave (s : Stacks) : Stacks :=
  { binaries := Function.update s.binaries s.depth none
    counter := Function.update s.counter s.depth 0
    depth := s.depth - 1 }

def searchStep (binary : List Char) (s : Stacks) :
    Stacks ⊕ Except Fault (Option LoadedPeExecutable) :=
  if searchDepth ≤ s.depth then .inr (.ok none)
  else match s.binaries s.depth with
  | none => .inr (.ok none)
  | some node =>
      if node.name = binary then .inr (.ok (some node))
      else match node.dependencies[s.counter s.depth]? with
      | some (some dependency) =>
          -- the place of the dependency is written before `Depth` is compared again
          if s.depth + 1 < searchDepth then .inl (s.enter dependency)
          else .inr (.error .outOfBounds)
      | some none => .inl s.advance
      | none => if 0 < s.depth then .inl s.leave else .inr (.ok none)

def initialStacks (root : LoadedPeExecutable) : Stacks :=
  { binaries := Function.update (fun _ => none) 0 (some root)
    counter := fun _ => 0
    depth := 0 }

/-- `SearchBinary`, given a number of passes. -/
def searchBinary (root : Option LoadedPeExecutable) (binary : Option (List Char)) (fuel : Nat) :
    Option (Except Fault (Option LoadedPeExecutable)) :=
  match root, binary with
  | some root, some binary => follow (searchStep binary) fuel (initialStacks root)
  | _, _ => some (.ok none)

/-! ## What the search is for -/

mutual

/-- The nodes of a tree in pre-order, the root of the tree at `depth`. -/
def preorder (depth : Nat) : LoadedPeExecutable → List (Visit LoadedPeExecutable)
  | .mk base name dependencies =>
      ⟨.mk base name dependencies, depth⟩ :: preorderSlots (depth + 1) dependencies

def preorderSlots (depth : Nat) :
    List (Option LoadedPeExecutable) → List (Visit LoadedPeExecutable)
  | [] => []
  | none :: rest => preorderSlots depth rest
  | some dependency :: rest => preorder depth dependency ++ preorderSlots depth rest

end

/-- The first node of the name in pre-order among those the stacks have a place for. -/
def firstNamed (root : LoadedPeExecutable) (binary : List Char) : Option LoadedPeExecutable :=
  (((preorder 0 root).filter (·.depth < searchDepth)).find?
    (·.vertex.name = binary)).map Visit.vertex

/-- The search ends without a fault and returns that node. -/
def SearchesRight (root : LoadedPeExecutable) (binary : List Char) : Prop :=
  ∃ fuel, searchBinary (some root) (some binary) fuel = some (.ok (firstNamed root binary))

/-- The first node that has the name or that the stacks have no place for. -/
def firstStop (binary : List Char) (visits : List (Visit LoadedPeExecutable)) :
    Option (Visit LoadedPeExecutable) :=
  visits.find? fun x => decide (searchDepth ≤ x.depth) || decide (x.vertex.name = binary)

def stopAnswer (x : Visit LoadedPeExecutable) : Except Fault (Option LoadedPeExecutable) :=
  if searchDepth ≤ x.depth then .error .outOfBounds else .ok (some x.vertex)

theorem firstStop_append (binary : List Char) (xs ys : List (Visit LoadedPeExecutable)) :
    firstStop binary (xs ++ ys) = (firstStop binary xs).or (firstStop binary ys) :=
  List.find?_append

theorem firstStop_of_stop {binary : List Char} {x : Visit LoadedPeExecutable}
    (h : searchDepth ≤ x.depth ∨ x.vertex.name = binary) (xs : List (Visit LoadedPeExecutable)) :
    firstStop binary (x :: xs) = some x :=
  List.find?_cons_of_pos (by simpa using h)

theorem firstStop_of_pass {binary : List Char} {x : Visit LoadedPeExecutable}
    (h : ¬ (searchDepth ≤ x.depth ∨ x.vertex.name = binary))
    (xs : List (Visit LoadedPeExecutable)) :
    firstStop binary (x :: xs) = firstStop binary xs :=
  List.find?_cons_of_neg (by simpa using h)

theorem name_ne_of_firstStop {binary : List Char} {depth : Nat} {node : LoadedPeExecutable}
    (h : firstStop binary (preorder depth node) = none) : node.name ≠ binary := by
  obtain ⟨base, name, dependencies⟩ := node
  intro hname
  rw [preorder, firstStop_of_stop (Or.inr hname)] at h
  cases h

/-! ## Walking a subtree -/

/-- The search comes from `s` to a place where it returns `answer`. -/
def Answers (binary : List Char) (s : Stacks)
    (answer : Except Fault (Option LoadedPeExecutable)) : Prop :=
  ∃ c, Trail (searchStep binary) s c ∧ searchStep binary c = .inr answer

/-- From `s` the search stops at the first stop of `visits`, or gets to `after` past all of them. -/
def Walks (binary : List Char) (s after : Stacks) (visits : List (Visit LoadedPeExecutable)) :
    Prop :=
  (∀ x, firstStop binary visits = some x → Answers binary s (stopAnswer x)) ∧
    (firstStop binary visits = none → Trail (searchStep binary) s after)

section Walking

variable {binary : List Char} {s mid after : Stacks} {xs ys : List (Visit LoadedPeExecutable)}

theorem Answers.head {answer : Except Fault (Option LoadedPeExecutable)}
    (htrail : Trail (searchStep binary) s mid) (h : Answers binary mid answer) :
    Answers binary s answer := by
  obtain ⟨c, hrest, hanswer⟩ := h
  exact ⟨c, htrail.trans hrest, hanswer⟩

theorem Walks.head (hmove : Moves (searchStep binary) s mid) (h : Walks binary mid after xs) :
    Walks binary s after xs :=
  ⟨fun x hx => (h.1 x hx).head (.single hmove), fun hnone => .head hmove (h.2 hnone)⟩

theorem Walks.append (hfirst : Walks binary s mid xs) (hrest : Walks binary mid after ys) :
    Walks binary s after (xs ++ ys) := by
  rw [Walks, firstStop_append]
  cases hstop : firstStop binary xs with
  | some x =>
      refine ⟨fun y hy => ?_, fun hnone => ?_⟩
      · rw [Option.some_or] at hy
        cases hy
        exact hfirst.1 x hstop
      · cases hnone
  | none =>
      rw [Option.none_or]
      have htrail := hfirst.2 hstop
      exact ⟨fun y hy => (hrest.1 y hy).head htrail, fun hnone => htrail.trans (hrest.2 hnone)⟩

end Walking

/-- `node` is the current one, `k` of its slots are done, and nothing is left above it. -/
structure Current (s : Stacks) (node : LoadedPeExecutable) (k : Nat) : Prop where
  depth : s.depth < searchDepth
  binary : s.binaries s.depth = some node
  counter : s.counter s.depth = k
  binariesAbove : ∀ j, s.depth < j → s.binaries j = none
  countersAbove : ∀ j, s.depth < j → s.counter j = 0

/-- The stacks when `k` slots of the current node are done. -/
def Stacks.withCounter (s : Stacks) (k : Nat) : Stacks :=
  { s with counter := Function.update s.counter s.depth k }

@[simp] theorem depth_withCounter (s : Stacks) (k : Nat) : (s.withCounter k).depth = s.depth := rfl

@[simp] theorem withCounter_withCounter (s : Stacks) (k k' : Nat) :
    (s.withCounter k).withCounter k' = s.withCounter k' := by
  simp [Stacks.withCounter]

section Steps

variable {binary : List Char} {s : Stacks} {node : LoadedPeExecutable} {k : Nat}

theorem withCounter_self (h : Current s node k) : s.withCounter k = s := by
  obtain rfl := h.counter
  simp [Stacks.withCounter]

theorem advance_eq (h : Current s node k) : s.advance = s.withCounter (k + 1) := by
  rw [Stacks.advance, h.counter, Stacks.withCounter]

theorem current_withCounter (h : Current s node k) (k' : Nat) :
    Current (s.withCounter k') node k' where
  depth := h.depth
  binary := h.binary
  counter := Function.update_self ..
  binariesAbove := h.binariesAbove
  countersAbove j hj := by
    have hlow : s.depth < j := hj
    simpa [Stacks.withCounter, Function.update_of_ne (Nat.ne_of_gt hlow)] using
      h.countersAbove j hlow

theorem current_enter (h : Current s node k) (hdepth : s.depth + 1 < searchDepth)
    (dependency : LoadedPeExecutable) : Current (s.enter dependency) dependency 0 where
  depth := hdepth
  binary := Function.update_self ..
  counter := by
    simpa [Stacks.enter, Stacks.advance] using h.countersAbove _ (Nat.lt_succ_self _)
  binariesAbove j hj := by
    have hlow : s.depth + 1 < j := hj
    simpa [Stacks.enter, Function.update_of_ne (Nat.ne_of_gt hlow)] using
      h.binariesAbove j (by omega)
  countersAbove j hj := by
    have hlow : s.depth + 1 < j := hj
    have hne : j ≠ s.depth := by omega
    simpa [Stacks.enter, Stacks.advance, Function.update_of_ne hne] using
      h.countersAbove j (by omega)

theorem leave_enter (h : Current s node k) (dependency : LoadedPeExecutable) (k' : Nat) :
    ((s.enter dependency).withCounter k').leave = s.withCounter (k + 1) := by
  have hbinary : s.binaries (s.depth + 1) = none := h.binariesAbove _ (Nat.lt_succ_self _)
  have hcounter : s.counter (s.depth + 1) = 0 := h.countersAbove _ (Nat.lt_succ_self _)
  have hrest : Function.update s.counter s.depth (k + 1) (s.depth + 1) = 0 := by
    rwa [Function.update_of_ne (by omega)]
  simp only [Stacks.enter, Stacks.advance, Stacks.withCounter, Stacks.leave, h.counter,
    Function.update_idem, Nat.add_sub_cancel]
  rw [← hbinary, ← hrest, Function.update_eq_self, Function.update_eq_self]

theorem searchStep_named (h : Current s node k) (hname : node.name = binary) :
    searchStep binary s = .inr (.ok (some node)) := by
  rw [searchStep, if_neg (Nat.not_le_of_lt h.depth), h.binary]
  exact if_pos hname

variable (h : Current s node k) (hname : node.name ≠ binary)

include h hname

theorem searchStep_dependency {dependency : LoadedPeExecutable}
    (hslot : node.dependencies[k]? = some (some dependency)) :
    searchStep binary s =
      if s.depth + 1 < searchDepth then .inl (s.enter dependency)
      else .inr (.error .outOfBounds) := by
  rw [searchStep, if_neg (Nat.not_le_of_lt h.depth), h.binary]
  simp only [if_neg hname, h.counter, hslot]

theorem searchStep_null (hslot : node.dependencies[k]? = some none) :
    searchStep binary s = .inl (s.withCounter (k + 1)) := by
  rw [searchStep, if_neg (Nat.not_le_of_lt h.depth), h.binary]
  simp only [if_neg hname, h.counter, hslot, advance_eq h]

theorem searchStep_done (hslot : node.dependencies[k]? = none) :
    searchStep binary s = if 0 < s.depth then .inl s.leave else .inr (.ok none) := by
  rw [searchStep, if_neg (Nat.not_le_of_lt h.depth), h.binary]
  simp only [if_neg hname, h.counter, hslot]

theorem walks_tooDeep {dependency : LoadedPeExecutable} {after : Stacks}
    (hslot : node.dependencies[k]? = some (some dependency))
    (hdepth : ¬ s.depth + 1 < searchDepth) :
    Walks binary s after (preorder (s.depth + 1) dependency) := by
  obtain ⟨base, name, dependencies⟩ := dependency
  have hlimit := Nat.le_of_not_lt hdepth
  rw [Walks, preorder, firstStop_of_stop (Or.inl hlimit)]
  refine ⟨fun x hx => ⟨s, .refl, ?_⟩, fun hnone => by cases hnone⟩
  cases hx
  rw [searchStep_dependency h hname hslot, if_neg hdepth, stopAnswer, if_pos hlimit]

end Steps

mutual

theorem walk_node (binary : List Char) :
    ∀ (node : LoadedPeExecutable) {s : Stacks}, Current s node 0 →
      Walks binary s (s.withCounter node.dependencies.length) (preorder s.depth node)
  | .mk base name dependencies, s, h => by
      have hdepth := Nat.not_le_of_lt h.depth
      rw [preorder, Walks]
      by_cases hstop : searchDepth ≤ s.depth ∨ name = binary
      · have hname := hstop.resolve_left hdepth
        rw [firstStop_of_stop (by exact hstop)]
        refine ⟨fun x hx => ⟨s, .refl, ?_⟩, fun hnone => by cases hnone⟩
        cases hx
        rw [searchStep_named h hname, stopAnswer, if_neg hdepth]
      · rw [firstStop_of_pass (by exact hstop)]
        exact walk_slots binary dependencies [] h (not_or.mp hstop).2 rfl

theorem walk_slots (binary : List Char) :
    ∀ (rest : List (Option LoadedPeExecutable)) (done : List (Option LoadedPeExecutable))
      {s : Stacks} {node : LoadedPeExecutable}, Current s node done.length →
      node.name ≠ binary → node.dependencies = done ++ rest →
      Walks binary s (s.withCounter node.dependencies.length) (preorderSlots (s.depth + 1) rest)
  | [], done, s, node, h, hname, hslots => by
      rw [hslots, List.append_nil, withCounter_self h, preorderSlots]
      exact ⟨fun x hx => (by cases hx), fun _ => .refl⟩
  | none :: rest, done, s, node, h, hname, hslots => by
      have hmove := searchStep_null h hname (by simp [hslots])
      have hrest := walk_slots binary rest (done ++ [none])
        (by simpa using current_withCounter h (done.length + 1)) hname (by simpa using hslots)
      rw [preorderSlots]
      apply Walks.head hmove
      simpa using hrest
  | some dependency :: rest, done, s, node, h, hname, hslots => by
      have hslot : node.dependencies[done.length]? = some (some dependency) := by simp [hslots]
      have hrest := walk_slots binary rest (done ++ [some dependency])
        (by simpa using current_withCounter h (done.length + 1)) hname (by simpa using hslots)
      rw [depth_withCounter, withCounter_withCounter] at hrest
      rw [preorderSlots]
      by_cases hdepth : s.depth + 1 < searchDepth
      · have hmove := searchStep_dependency h hname hslot
        rw [if_pos hdepth] at hmove
        have henter := current_enter h hdepth dependency
        have hchild := walk_node binary dependency henter
        refine Walks.append
          ⟨fun x hx => (hchild.1 x hx).head (.single hmove), fun hnone => ?_⟩ hrest
        -- past its slots the dependency is compared once more, and left
        have hback : searchStep binary
              ((s.enter dependency).withCounter dependency.dependencies.length) =
            .inl (s.withCounter (done.length + 1)) := by
          have hother := name_ne_of_firstStop hnone
          rw [searchStep_done (current_withCounter henter _) hother (by simp), leave_enter h]
          exact if_pos (Nat.succ_pos _)
        exact .head hmove ((hchild.2 hnone).tail hback)
      · exact Walks.append (walks_tooDeep h hname hslot hdepth) hrest

end

theorem current_initialStacks (root : LoadedPeExecutable) :
    Current (initialStacks root) root 0 where
  depth := Nat.zero_lt_succ 31
  binary := by simp [initialStacks]
  counter := rfl
  binariesAbove j hj := by
    have hpos : 0 < j := hj
    simp [initialStacks, Nat.ne_of_gt hpos]
  countersAbove _ _ := rfl

theorem searchBinary_ends (root : LoadedPeExecutable) (binary : List Char) :
    ∃ fuel, searchBinary (some root) (some binary) fuel =
      some ((firstStop binary (preorder 0 root)).elim (.ok none) stopAnswer) := by
  have hcurrent := current_initialStacks root
  have hwalk := walk_node binary root hcurrent
  apply follow_eq_some_iff.mpr
  change Walks binary (initialStacks root) _ (preorder 0 root) at hwalk
  cases hstop : firstStop binary (preorder 0 root) with
  | some x => exact hwalk.1 x hstop
  | none =>
      refine ⟨_, hwalk.2 hstop, ?_⟩
      rw [searchStep_done (current_withCounter hcurrent _) (name_ne_of_firstStop hstop) (by simp)]
      rfl

/-! ## When the search is right -/

theorem firstNamed_eq {root : LoadedPeExecutable} {binary : List Char}
    (h : ∀ x, firstStop binary (preorder 0 root) = some x → x.depth < searchDepth) :
    firstNamed root binary = (firstStop binary (preorder 0 root)).map Visit.vertex := by
  rw [firstNamed, List.find?_filter]
  congr 1
  cases hstop : firstStop binary (preorder 0 root) with
  | none =>
      rw [firstStop, List.find?_eq_none] at hstop
      apply List.find?_eq_none.mpr
      intro x hx
      have := hstop x hx
      grind
  | some x =>
      have hx := h x hstop
      rw [firstStop, List.find?_eq_some_iff_append] at hstop
      apply List.find?_eq_some_iff_append.mpr
      obtain ⟨hmeets, before, rest, hsplit, hbefore⟩ := hstop
      refine ⟨by grind, before, rest, hsplit, fun y hy => ?_⟩
      have := hbefore y hy
      grind

/--
The search is right exactly when the first node that has the name or lies below
the last place of the stacks is one that the stacks have a place for: on its way
to a deeper one it writes past their end.
-/
theorem searchesRight_iff (root : LoadedPeExecutable) (binary : List Char) :
    SearchesRight root binary ↔
      ∀ x, firstStop binary (preorder 0 root) = some x → x.depth < searchDepth := by
  obtain ⟨fuel, hends⟩ := searchBinary_ends root binary
  constructor
  · rintro ⟨fuel', hright⟩ x hstop
    have hsame := follow_unique hends hright
    rw [hstop] at hsame
    by_contra hdeep
    rw [Option.elim_some, stopAnswer, if_pos (Nat.le_of_not_lt hdeep)] at hsame
    cases hsame
  · intro hshallow
    refine ⟨fuel, hends.trans ?_⟩
    rw [firstNamed_eq hshallow]
    cases hstop : firstStop binary (preorder 0 root) with
    | none => rfl
    | some x =>
        have hdepth := hshallow x hstop
        rw [Option.elim_some, stopAnswer, if_neg (Nat.not_le_of_lt hdepth)]
        rfl

/-- A node with a chain of `n` more below it. -/
def chain (name : List Char) : Nat → LoadedPeExecutable
  | 0 => .mk 0 name []
  | n + 1 => .mk (n + 1) name [some (chain name n)]

/-- A library loaded beside a chain that is too long for the stacks. -/
def sampleTree : LoadedPeExecutable :=
  .mk 40 ['k'] [none, some (chain ['a'] 31), some (.mk 50 ['b'] [])]

theorem not_searchesRight_sampleTree : ¬ SearchesRight sampleTree ['b'] := by
  rintro ⟨fuel', hright⟩
  obtain ⟨fuel, hends⟩ := searchBinary_ends sampleTree ['b']
  have hsame := follow_unique hends hright
  have hdeep : ((firstStop ['b'] (preorder 0 sampleTree)).map Visit.depth) = some 32 := by
    decide +kernel
  obtain ⟨x, hstop, hx⟩ := Option.map_eq_some_iff.mp hdeep
  rw [hstop, Option.elim_some, stopAnswer, if_pos (by rw [hx]; decide)] at hsame
  cases hsame

end BlockyOS.Loader.DependencySearch
