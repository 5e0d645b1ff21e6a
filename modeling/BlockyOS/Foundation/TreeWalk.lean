import Mathlib.Data.List.Basic

/-!
# Resumable walks over trees

A recursive walk can be kept as a stack of frames, one for each branch that is
open: the branch and the entries of it that are still to come.  The moves such a
stack makes one at a time are the moves of the recursive walk in their order, so
a walk can stop at any of them and be taken up again.
-/

namespace BlockyOS.Foundation

section TreeWalk

variable {α : Type}

/-- The entries of a branch in order; an entry that is a branch has its own. -/
inductive Forest (α : Type) where
  | nil
  | leaf (label : α) (rest : Forest α)
  | branch (label : α) (entries rest : Forest α)
  deriving DecidableEq, Repr

structure Node (α : Type) where
  isBranch : Bool
  label : α
  deriving DecidableEq, Repr

/-- Every entry, each branch before its own entries. -/
def Forest.preorder : Forest α → List (Node α)
  | .nil => []
  | .leaf a rest => ⟨false, a⟩ :: rest.preorder
  | .branch a entries rest => ⟨true, a⟩ :: (entries.preorder ++ rest.preorder)

def Forest.closings : Forest α → List α
  | .nil => []
  | .leaf _ rest => rest.closings
  | .branch a entries rest => entries.closings ++ a :: rest.closings

/-- `finish` closes the branch the walk started from, `leave` any other. -/
inductive Move (α : Type) where
  | visit (node : Node α)
  | leave (label : α)
  | finish (label : α)

def Forest.moves : Forest α → List (Move α)
  | .nil => []
  | .leaf a rest => .visit ⟨false, a⟩ :: rest.moves
  | .branch a entries rest => .visit ⟨true, a⟩ :: (entries.moves ++ .leave a :: rest.moves)

def Move.visited : Move α → Option (Node α)
  | .visit node => some node
  | .leave _ | .finish _ => none

theorem Forest.visited_moves (t : Forest α) : t.moves.filterMap Move.visited = t.preorder := by
  induction t with
  | nil => rfl
  | leaf a rest ih => simp [moves, preorder, Move.visited, ih]
  | branch a entries rest ihe ihr =>
      simp [moves, preorder, Move.visited, List.filterMap_cons, ihe, ihr]

structure Frame (α : Type) where
  owner : α
  rest : Forest α

def closing (a : α) : List (Frame α) → Move α
  | [] => .finish a
  | _ :: _ => .leave a

def pending : List (Frame α) → List (Move α)
  | [] => []
  | f :: fs => f.rest.moves ++ closing f.owner fs :: pending fs

@[simp] theorem pending_closed (a : α) (fs : List (Frame α)) :
    pending (⟨a, .nil⟩ :: fs) = closing a fs :: pending fs := rfl

@[simp] theorem pending_leaf (a b : α) (rest : Forest α) (fs : List (Frame α)) :
    pending (⟨a, .leaf b rest⟩ :: fs) = .visit ⟨false, b⟩ :: pending (⟨a, rest⟩ :: fs) :=
  rfl

@[simp] theorem pending_branch (a b : α) (entries rest : Forest α) (fs : List (Frame α)) :
    pending (⟨a, .branch b entries rest⟩ :: fs) =
      .visit ⟨true, b⟩ :: pending (⟨b, entries⟩ :: ⟨a, rest⟩ :: fs) := by
  simp [pending, Forest.moves, closing]

theorem pending_start (a : α) (entries : Forest α) :
    pending [⟨a, entries⟩] = entries.moves ++ [.finish a] := rfl

end TreeWalk

end BlockyOS.Foundation
