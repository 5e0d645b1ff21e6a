import BlockyOS.Foundation.Bytes

/-!
# Machine words in byte strings

Words of any width that are put together from the bytes of a string, least
significant first, and taken apart into bytes again.
-/

namespace BlockyOS.Foundation

def loadBytes (w n : Nat) (p : Bytes) : BitVec w :=
  (List.range n).foldl (fun word i => word ||| (p.getD i 0).toBitVec.setWidth w <<< (8 * i)) 0#w

def storeBytes {w : Nat} (n : Nat) (word : BitVec w) : Bytes :=
  (List.range n).map fun i => UInt8.ofBitVec ((word >>> (8 * i)).setWidth 8)

theorem getLsbD_loadBytes {w : Nat} (n : Nat) (p : Bytes) {j : Nat} (hj : j < w) :
    (loadBytes w n p).getLsbD j =
      (decide (j < 8 * n) && (p.getD (j / 8) 0).toBitVec.getLsbD (j % 8)) := by
  induction n with
  | zero => simp [loadBytes]
  | succ n ih =>
      rw [loadBytes, List.range_succ, List.foldl_append, ← loadBytes]
      simp only [List.foldl_cons, List.foldl_nil, BitVec.getLsbD_or, ih,
        BitVec.getLsbD_shiftLeft, BitVec.getLsbD_setWidth]
      have hnarrow : j - 8 * n < w := by omega
      by_cases hlow : j < 8 * n
      · have hnext : j < 8 * (n + 1) := by omega
        simp [hlow, hnext]
      · by_cases hnext : j < 8 * (n + 1)
        · have hdiv : j / 8 = n := by omega
          have hmod : j % 8 = j - 8 * n := by omega
          simp [hlow, hnext, hj, hnarrow, hdiv, hmod]
        · have hhigh : ¬ j - 8 * n < 8 := by omega
          have hzero : (p.getD n 0).toBitVec.getLsbD (j - 8 * n) = false :=
            BitVec.getLsbD_of_ge _ _ (by omega)
          simp only [hlow, hnext, hzero]
          simp

@[simp] theorem length_storeBytes {w : Nat} (n : Nat) (word : BitVec w) :
    (storeBytes n word).length = n := by
  simp [storeBytes]

theorem getD_storeBytes {w : Nat} {n i : Nat} (word : BitVec w) (hi : i < n) :
    (storeBytes n word).getD i 0 = UInt8.ofBitVec ((word >>> (8 * i)).setWidth 8) := by
  simp [storeBytes, hi]

theorem loadBytes_append {w n : Nat} {p : Bytes} (hp : p.length = n) (q : Bytes) :
    loadBytes w n (p ++ q) = loadBytes w n p := by
  apply BitVec.eq_of_getLsbD_eq
  intro j hj
  rw [getLsbD_loadBytes n _ hj, getLsbD_loadBytes n _ hj]
  by_cases hinside : j < 8 * n
  · have hdiv : j / 8 < p.length := by omega
    rw [List.getD_eq_getElem?_getD, List.getElem?_append_left hdiv, ← List.getD_eq_getElem?_getD]
  · simp [hinside]

theorem loadBytes_storeBytes {w n : Nat} (word : BitVec w) (hw : w = 8 * n) :
    loadBytes w n (storeBytes n word) = word := by
  apply BitVec.eq_of_getLsbD_eq
  intro j hj
  have hdiv : j / 8 < n := by omega
  have hinside : j < 8 * n := by omega
  have hmod : j % 8 < 8 := Nat.mod_lt _ (by decide)
  have hsplit : 8 * (j / 8) + j % 8 = j := Nat.div_add_mod j 8
  rw [getLsbD_loadBytes n _ hj, getD_storeBytes word hdiv]
  simp [hinside, hmod, hsplit]

end BlockyOS.Foundation
