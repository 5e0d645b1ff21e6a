import BlockyOS.Foundation.Bytes
import BlockyOS.Foundation.Runs

/-!
# Writes into a bounded memory

A write overwrites a range of the memory, or fails where the range is not inside.
It leaves its bytes in the range, and everything apart from the range as it was.
-/

namespace BlockyOS.Foundation

section Patches

variable {α ε : Type} (fault : ε)

def patchAt (memory : List α) (off : Nat) (bytes : List α) : Except ε (List α) :=
  if off + bytes.length ≤ memory.length then .ok (splice memory off bytes) else .error fault

/-- The ranges of these lengths at `a` and `b` have nothing in common. -/
def RangesApart (a n b m : Nat) : Prop := a + n ≤ b ∨ b + m ≤ a

theorem RangesApart.symm {a n b m : Nat} (h : RangesApart a n b m) : RangesApart b m a n :=
  Or.symm h

variable {fault} {memory memory' bytes : List α} {off : Nat}

theorem patchAt_ok_iff :
    patchAt fault memory off bytes = .ok memory' ↔
      off + bytes.length ≤ memory.length ∧ splice memory off bytes = memory' := by
  rw [patchAt]
  split
  · next hinside => simp [hinside]
  · next houtside => simp [houtside]

variable (h : patchAt fault memory off bytes = .ok memory')

include h

theorem length_of_patchAt : memory'.length = memory.length := by
  obtain ⟨hinside, rfl⟩ := patchAt_ok_iff.mp h
  exact length_splice _ hinside

theorem getElem?_of_patchAt {k : Nat} (hk : k < bytes.length) :
    memory'[off + k]? = bytes[k]? := by
  obtain ⟨hinside, rfl⟩ := patchAt_ok_iff.mp h
  rw [getElem?_splice _ hinside, if_pos (by omega), Nat.add_sub_cancel_left]

theorem slice_of_patchAt : slice memory' off bytes.length = bytes := by
  obtain ⟨hinside, rfl⟩ := patchAt_ok_iff.mp h
  have hwhole := @slice_splice_inside _ memory off bytes hinside 0 bytes.length (by omega)
  rwa [Nat.add_zero, slice_full] at hwhole

theorem slice_of_patchAt_apart {a n : Nat} (ha : RangesApart off bytes.length a n) :
    slice memory' a n = slice memory a n := by
  obtain ⟨hinside, rfl⟩ := patchAt_ok_iff.mp h
  exact slice_splice_outside _ hinside ha.symm

end Patches

end BlockyOS.Foundation
