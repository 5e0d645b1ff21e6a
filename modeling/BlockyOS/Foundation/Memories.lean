import BlockyOS.Foundation.Bytes
import BlockyOS.Foundation.Loops

/-!
# Memories

A memory that has a byte at every address.  Integers are loaded from it at any
alignment, and a block of it is filled from a source of bytes, at once or piece by
piece, or with given bytes from its start on.
-/

namespace BlockyOS.Foundation

abbrev Memory := Nat → UInt8

/-- The little-endian integer of `width` bytes at `off`. -/
def loadLe (width : Nat) (m : Memory) (off : Nat) : Nat :=
  leNat ((List.range width).map fun k => m (off + k))

theorem loadLe_eq_iff {width : Nat} {m m' : Memory} {off : Nat} :
    loadLe width m off = loadLe width m' off ↔
      ∀ k, off ≤ k → k < off + width → m k = m' k := by
  constructor
  · intro h k hle hlt
    have hbytes := congrArg (leBytes width) h
    have hload : ∀ p : Memory,
        leBytes width (loadLe width p off) = (List.range width).map fun k => p (off + k) := by
      intro p
      have hback := leBytes_leNat ((List.range width).map fun k => p (off + k))
      rwa [List.length_map, List.length_range] at hback
    rw [hload m, hload m'] at hbytes
    have hk := List.map_eq_map_iff.mp hbytes (k - off) (List.mem_range.mpr (by omega))
    rwa [Nat.add_sub_cancel' hle] at hk
  · intro h
    rw [loadLe, loadLe]
    refine congrArg leNat (List.map_congr_left fun k hk => ?_)
    exact h (off + k) (Nat.le_add_right off k)
      (Nat.add_lt_add_left (List.mem_range.mp hk) off)

section Memories

variable (m : Memory) (p n : Nat) (source : Memory)

/-- The memory with the `n` bytes from `p` on replaced by the first ones of the source. -/
def fillFrom : Memory := fun a => if p ≤ a ∧ a < p + n then source (a - p) else m a

@[simp] theorem fillFrom_zero : fillFrom m p 0 source = m := by
  funext a
  exact if_neg (by omega)

theorem fillFrom_inside {k : Nat} (hk : k < n) : fillFrom m p n source (p + k) = source k := by
  rw [fillFrom, if_pos (by omega), Nat.add_sub_cancel_left]

theorem fillFrom_outside {a : Nat} (ha : a < p ∨ p + n ≤ a) : fillFrom m p n source a = m a :=
  if_neg (by omega)

theorem fillFrom_congr {source' : Memory} (h : ∀ k < n, source k = source' k) :
    fillFrom m p n source = fillFrom m p n source' := by
  funext a
  rw [fillFrom, fillFrom]
  split
  · exact h _ (by omega)
  · rfl

theorem fillFrom_append (k : Nat) :
    fillFrom (fillFrom m p n source) (p + n) k (fun i => source (n + i)) =
      fillFrom m p (n + k) source := by
  funext a
  rw [fillFrom, fillFrom, fillFrom]
  by_cases hlow : a < p + n
  · have hsame : (p ≤ a ∧ a < p + n) ↔ (p ≤ a ∧ a < p + (n + k)) :=
      and_congr_right fun _ => by omega
    rw [if_neg (by omega)]
    simp only [hsame]
  · by_cases hhigh : a < p + n + k
    · have hindex : n + (a - (p + n)) = a - p := by omega
      rw [if_pos (by omega), if_pos (by omega), hindex]
    · rw [if_neg (by omega), if_neg (by omega), if_neg (by omega)]

theorem sweep_fillFrom {σ : Type} {memoryOf : σ → Memory} {I : σ → Prop} {turn : Nat → σ → σ}
    {w count first : Nat} {s : σ} (hI : I s)
    (hs : memoryOf s = fillFrom m p (w * first) source)
    (hturn : ∀ k s, first ≤ k → k < first + count → I s →
      memoryOf s = fillFrom m p (w * k) source → I (turn k s) ∧
        memoryOf (turn k s) =
          fillFrom (memoryOf s) (p + w * k) w fun i => source (w * k + i)) :
    I (sweep turn count first s) ∧
      memoryOf (sweep turn count first s) = fillFrom m p (w * (first + count)) source := by
  refine sweep_invariant (P := fun k s => I s ∧ memoryOf s = fillFrom m p (w * k) source)
    ⟨hI, hs⟩ ?_
  rintro k s hle hlt ⟨hI, hs⟩
  obtain ⟨hkeep, hfill⟩ := hturn k s hle hlt hI hs
  refine ⟨hkeep, ?_⟩
  rw [hfill, hs, fillFrom_append, Nat.mul_succ]

end Memories

/-! ## Writing from the start -/

section Written

variable (m : Memory) (bytes : Bytes)

/-- The memory with these bytes at its start. -/
def written : Memory := fun k => bytes[k]?.getD (m k)

theorem written_of_lt {k : Nat} (h : k < bytes.length) : written m bytes k = bytes[k] := by
  rw [written, List.getElem?_eq_getElem h, Option.getD_some]

theorem written_of_le {k : Nat} (h : bytes.length ≤ k) : written m bytes k = m k := by
  rw [written, List.getElem?_eq_none h, Option.getD_none]

theorem update_written (c : UInt8) :
    Function.update (written m bytes) bytes.length c = written m (bytes ++ [c]) := by
  funext k
  rcases Nat.lt_trichotomy k bytes.length with hlt | rfl | hgt
  · rw [Function.update_of_ne (by omega), written, written, List.getElem?_append_left hlt]
  · rw [Function.update_self, written, List.getElem?_concat_length, Option.getD_some]
  · rw [Function.update_of_ne (by omega), written_of_le _ _ (by omega),
      written_of_le _ _ (by rw [List.length_append, List.length_singleton]; omega)]

def writtenString : Memory := Function.update (written m bytes) bytes.length 0

theorem writtenString_of_lt {k : Nat} (h : k < bytes.length) :
    writtenString m bytes k = bytes[k] := by
  rw [writtenString, Function.update_of_ne (Nat.ne_of_lt h), written_of_lt _ _ h]

@[simp] theorem writtenString_length : writtenString m bytes bytes.length = 0 :=
  Function.update_self ..

theorem writtenString_of_gt {k : Nat} (h : bytes.length < k) : writtenString m bytes k = m k := by
  rw [writtenString, Function.update_of_ne (Nat.ne_of_gt h), written_of_le _ _ (Nat.le_of_lt h)]

end Written

end BlockyOS.Foundation
