import BlockyOS.Foundation.Memories

/-!
# Comparing memory

`memcmp` compares words of eight bytes and rescans the first word that differs.
Both loops only look for the first byte that differs, so that together they are
the loop over all bytes.
-/

namespace BlockyOS.Libcrt

open BlockyOS.Foundation

/-! ## The function -/

/-- What the loops over bytes return at `j`, if they do. -/
def difference (a b : Memory) (j : Nat) : Option Int :=
  if a j ≠ b j then some ((a j).toNat - (b j).toNat) else none

/-- `memcmp` on the bytes from two pointers on. -/
def memcmp (a b : Memory) (len : Nat) : Int :=
  let chunks := len / 8
  let words := fun i =>
    if loadLe 8 a (i * 8) ≠ loadLe 8 b (i * 8) then search (difference a b) 8 (i * 8) else none
  ((search words chunks 0).or (search (difference a b) (len - chunks * 8) (chunks * 8))).getD 0

/-- The loop over all bytes. -/
def memcmpBytes (a b : Memory) (len : Nat) : Int := (search (difference a b) len 0).getD 0

variable {a b : Memory} {len : Nat}

/-! ## Words -/

theorem difference_eq_none_iff {j : Nat} : difference a b j = none ↔ a j = b j := by
  rw [difference]
  split
  · next hne => exact iff_of_false (Option.some_ne_none _) hne
  · next heq => exact iff_of_true rfl (Decidable.not_not.mp heq)

theorem loadLe_eq_iff_search {off : Nat} :
    loadLe 8 a off = loadLe 8 b off ↔ search (difference a b) 8 off = none := by
  rw [loadLe_eq_iff, search_eq_none_iff]
  exact forall_congr' fun k => imp_congr_right fun _ => imp_congr_right fun _ =>
    difference_eq_none_iff.symm

theorem search_words {chunks : Nat} :
    search (fun i => if loadLe 8 a (i * 8) ≠ loadLe 8 b (i * 8) then
      search (difference a b) 8 (i * 8) else none) chunks 0 =
      search (difference a b) (chunks * 8) 0 := by
  have hblocks := @search_blocks _ (difference a b) 8 chunks 0
  rw [Nat.zero_mul] at hblocks
  rw [← hblocks]
  refine search_congr fun i _ _ => ?_
  split
  · rfl
  · next hequal => exact (loadLe_eq_iff_search.mp (Decidable.not_not.mp hequal)).symm

theorem memcmp_eq_memcmpBytes : memcmp a b len = memcmpBytes a b len := by
  have hlen : len / 8 * 8 + (len - len / 8 * 8) = len := by omega
  have hsplit := @search_add _ (difference a b) (len / 8 * 8) (len - len / 8 * 8) 0
  rw [hlen, Nat.zero_add] at hsplit
  rw [memcmp, memcmpBytes, search_words, hsplit]

/-! ## The first byte that differs -/

theorem memcmpBytes_of_equal (h : ∀ i < len, a i = b i) : memcmpBytes a b len = 0 := by
  have hnone : search (difference a b) len 0 = none :=
    search_eq_none_iff.mpr fun i _ hi => difference_eq_none_iff.mpr (h i (by omega))
  rw [memcmpBytes, hnone, Option.getD_none]

theorem memcmpBytes_of_first {i : Nat} (hi : i < len) (hne : a i ≠ b i)
    (hbefore : ∀ j < i, a j = b j) :
    memcmpBytes a b len = (a i).toNat - (b i).toNat := by
  have hsome : search (difference a b) len 0 ≠ none := by
    intro hnone
    exact hne (difference_eq_none_iff.mp
      (search_eq_none_iff.mp hnone i (Nat.zero_le i) (by omega)))
  obtain ⟨d, hd⟩ := Option.ne_none_iff_exists'.mp hsome
  obtain ⟨k, -, -, hk, hfirst⟩ := search_eq_some hd
  have hsame : k = i := by
    rcases Nat.lt_trichotomy k i with hlt | heq | hgt
    · rw [difference_eq_none_iff.mpr (hbefore k hlt)] at hk
      cases hk
    · exact heq
    · exact absurd (difference_eq_none_iff.mp (hfirst i (Nat.zero_le i) hgt)) hne
  rw [hsame, difference, if_pos hne] at hk
  rw [memcmpBytes, hd, Option.getD_some]
  exact (Option.some.inj hk).symm

theorem memcmpBytes_eq_zero_iff : memcmpBytes a b len = 0 ↔ ∀ i < len, a i = b i := by
  constructor
  · intro hzero
    by_contra hnot
    push Not at hnot
    have hexists : ∃ i, i < len ∧ a i ≠ b i := hnot
    classical
    have hvalue := memcmpBytes_of_first (Nat.find_spec hexists).1 (Nat.find_spec hexists).2
      fun j hj => by
        have hmin := Nat.find_min hexists hj
        exact Decidable.not_not.mp fun hne =>
          hmin ⟨Nat.lt_trans hj (Nat.find_spec hexists).1, hne⟩
    rw [hzero] at hvalue
    exact (Nat.find_spec hexists).2 (UInt8.toNat_inj.mp (by omega))
  · exact memcmpBytes_of_equal

/--
`memcmp` is zero exactly when the first `len` bytes agree, and else the difference of
the first bytes that do not, as the loop over all bytes has it.
-/
theorem memcmp_correct (a b : Memory) (len : Nat) :
    (memcmp a b len = 0 ↔ ∀ i < len, a i = b i) ∧
      (∀ i < len, a i ≠ b i → (∀ j < i, a j = b j) →
        memcmp a b len = (a i).toNat - (b i).toNat) ∧
      memcmp a b len = memcmpBytes a b len := by
  rw [memcmp_eq_memcmpBytes]
  exact ⟨memcmpBytes_eq_zero_iff,
    fun i hi hne hbefore => memcmpBytes_of_first hi hne hbefore, rfl⟩

end BlockyOS.Libcrt
