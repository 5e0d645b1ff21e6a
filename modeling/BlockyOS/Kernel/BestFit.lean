import BlockyOS.Foundation.Minima
import BlockyOS.Kernel.PageAlloc

/-!
# The search for free memory

`QueryFreeMemory` without an input address, with the words of the C code: the
place of the best entry so far is a signed 32-bit number, `-1` where there is
none, and sizes are compared by what they exceed the request by.
-/

namespace BlockyOS.Kernel

open BlockyOS.Foundation
open BlockyOS.HostTool (Fault)

/-- The conversion to `int32_t`. -/
def int32 (n : Nat) : Int := (n : Int).bmod (2 ^ 32)

theorem int32_of_lt {n : Nat} (h : n < 2 ^ 31) : int32 n = n := by
  have hlt : (n : Int) < 2147483648 := by exact_mod_cast h
  exact Int.bmod_eq_of_le (show -2147483648 ≤ (n : Int) by omega)
    (show (n : Int) < 2147483648 from hlt)

theorem u64_add_mul (a b k : Nat) : u64 (a + u64 b * k) = u64 (a + b * k) := by
  rw [u64, u64, u64, Nat.add_mod, Nat.mod_mul_mod, ← Nat.add_mod]

namespace AllocState

/-! ## The search -/

/-- `SD[i]`, where `SD` starts at entry `first` of the pool. -/
def listEntry (s : AllocState) (first : Nat) (i : Int) :
    Except Fault MemoryRangeSubDescriptor :=
  if 0 ≤ first + i then .ok (s.table.subDescriptors (first + i).toNat)
  else .error .outOfBounds

/-- `LowestDiffN` once an entry of `size` pages that is not valid was looked at. -/
def lowestDiff (s : AllocState) (first noPages cc size : Nat) (lowestDiffN : Int) :
    Except Fault Int :=
  if noPages ≤ size then
    match s.listEntry first lowestDiffN with
    | .error e => .error e
    | .ok low =>
        .ok (if u32sub size noPages < u32sub low.noPages noPages then int32 cc
          else lowestDiffN)
  else .ok lowestDiffN

/-- The first loop over a list, from entry `cc` on. -/
def fitLoop (s : AllocState) (first noPages : Nat) : Nat → Nat → Int → Except Fault Int
  | 0, _, _ => .error .hang
  | fuel + 1, cc, lowestDiffN =>
      let d := s.table.subDescriptors (first + cc)
      if d.endOfList then .ok lowestDiffN
      else if d.valid then fitLoop s first noPages fuel (cc + 1) lowestDiffN
      else if lowestDiffN = -1 then
        match s.lowestDiff first noPages cc d.noPages
            (if noPages ≤ d.noPages then int32 cc else -1) with
        | .error e => .error e
        | .ok lowestDiffN => fitLoop s first noPages fuel (cc + 1) lowestDiffN
      else
        match s.listEntry first lowestDiffN with
        | .error e => .error e
        | .ok low =>
            if u32sub low.noPages noPages = 0 then .ok lowestDiffN
            else
              match s.lowestDiff first noPages cc d.noPages lowestDiffN with
              | .error e => .error e
              | .ok lowestDiffN => fitLoop s first noPages fuel (cc + 1) lowestDiffN

/-- The second loop: the pages of the entries in front of `lowestDiffN`. -/
def offsetLoop (s : AllocState) (first lowestDiffN : Nat) : Nat → Nat → Nat → Except Fault Nat
  | 0, _, _ => .error .hang
  | fuel + 1, cc, offset =>
      let d := s.table.subDescriptors (first + cc)
      if !d.endOfList && cc < lowestDiffN then
        offsetLoop s first lowestDiffN fuel (cc + 1) (u64 (offset + d.noPages))
      else .ok offset

def rangeLoop (s : AllocState) (fuel noPages : Nat) : List Nat → Except Fault Nat
  | [] => .ok 0
  | cc :: rest =>
      let r := s.table.descriptors cc
      if r.subDescriptorIndex = invalidSubDescriptorIndex then
        rangeLoop s fuel noPages rest
      else
        match s.fitLoop r.subDescriptorIndex noPages fuel 0 (-1) with
        | .error e => .error e
        | .ok lowestDiffN =>
            if lowestDiffN = -1 then rangeLoop s fuel noPages rest
            else
              -- the comparison with `cc_` takes the place for an unsigned number
              match s.offsetLoop r.subDescriptorIndex (lowestDiffN % 2 ^ 64).toNat
                  fuel 0 0 with
              | .error e => .error e
              | .ok offset => .ok (u64 (r.physical + offset * pageSize))

/-- `QueryFreeMemory(Physical, NoPages)`, the input address not enabled. -/
def queryFreeMemoryAt (s : AllocState) (fuel physical noPages : Nat) : Except Fault Nat :=
  if s.covers physical then s.rangeLoop fuel noPages (List.range s.totalDescriptors)
  else .ok 0

/-! ## One list -/

/-- Entry `i` of the list is free and has the pages. -/
def Fits (s : AllocState) (first noPages i : Nat) : Prop :=
  (s.table.subDescriptors (first + i)).valid = false ∧
    noPages ≤ (s.table.subDescriptors (first + i)).noPages

/-- The pages of entry `i` of the list. -/
def pagesAt (s : AllocState) (first i : Nat) : Nat :=
  (s.table.subDescriptors (first + i)).noPages

/-- The list that starts at an entry has `n` entries in front of its end. -/
structure ListOf (s : AllocState) (first n : Nat) : Prop where
  inList : ∀ i < n, (s.table.subDescriptors (first + i)).endOfList = false
  ends : (s.table.subDescriptors (first + n)).endOfList = true

abbrev BestEntry (s : AllocState) (first noPages n m : Nat) : Prop :=
  FirstLeast (s.Fits first noPages) (s.pagesAt first) n m

/-- What `LowestDiffN` says about the entries in front of `n`. -/
def LowestOf (s : AllocState) (first noPages n : Nat) (lowestDiffN : Int) : Prop :=
  (lowestDiffN = -1 ∧ ∀ i < n, ¬ s.Fits first noPages i) ∨
    ∃ m : Nat, lowestDiffN = m ∧ s.BestEntry first noPages n m

section Lists

variable {s : AllocState} {first noPages n : Nat}

theorem listEntry_place (m : Nat) :
    s.listEntry first m = .ok (s.table.subDescriptors (first + m)) := by
  rw [listEntry, if_pos (by omega)]
  congr 2

theorem lowestOf_skip {cc : Nat} {lowestDiffN : Int}
    (h : s.LowestOf first noPages cc lowestDiffN) (hfits : ¬ s.Fits first noPages cc) :
    s.LowestOf first noPages (cc + 1) lowestDiffN :=
  firstLeast_skip hfits h

theorem u32sub_fits {a : Nat} (ha : a < 2 ^ 14) (hle : noPages ≤ a) :
    u32sub a noPages = a - noPages := by
  have hword : u32 noPages = noPages := u32_of_lt (by omega)
  rw [u32sub, hword, u32]
  omega

variable (hcounts : ∀ i, (s.table.subDescriptors i).noPages < 2 ^ 14)

include hcounts

theorem lowestDiff_fits {cc m : Nat} (hfits : s.Fits first noPages cc)
    (hm : s.Fits first noPages m) :
    s.lowestDiff first noPages cc (s.table.subDescriptors (first + cc)).noPages m =
      .ok (if s.pagesAt first cc < s.pagesAt first m then int32 cc else m) := by
  have hsize := u32sub_fits (hcounts _) hfits.2
  have hlow := u32sub_fits (hcounts _) hm.2
  have hle := hm.2
  have hle' := hfits.2
  rw [lowestDiff, if_pos hle', listEntry_place]
  simp only [hsize, hlow, pagesAt]
  congr 1
  exact if_congr (by omega) rfl rfl

theorem lowestDiff_first {cc : Nat}
    (hfree : (s.table.subDescriptors (first + cc)).valid = false)
    (hnone : ∀ i < cc, ¬ s.Fits first noPages i)
    (hplace : s.BestEntry first noPages (cc + 1) cc → cc < 2 ^ 31) :
    ∃ lowest, s.lowestDiff first noPages cc (s.table.subDescriptors (first + cc)).noPages
        (if noPages ≤ (s.table.subDescriptors (first + cc)).noPages then int32 cc else -1) =
        .ok lowest ∧ s.LowestOf first noPages (cc + 1) lowest := by
  by_cases hsize : noPages ≤ (s.table.subDescriptors (first + cc)).noPages
  · have hfits : s.Fits first noPages cc := ⟨hfree, hsize⟩
    have hbest : s.BestEntry first noPages (cc + 1) cc := firstLeast_of_none hnone hfits
    rw [if_pos hsize, int32_of_lt (hplace hbest), lowestDiff_fits hcounts hfits hfits,
      if_neg (Nat.lt_irrefl _)]
    exact ⟨cc, rfl, Or.inr ⟨cc, rfl, hbest⟩⟩
  · rw [if_neg hsize, lowestDiff, if_neg hsize]
    exact ⟨-1, rfl, lowestOf_skip (Or.inl ⟨rfl, hnone⟩) fun hfits => hsize hfits.2⟩

theorem lowestDiff_next {cc m : Nat}
    (hfree : (s.table.subDescriptors (first + cc)).valid = false)
    (hbest : s.BestEntry first noPages cc m)
    (hplace : s.BestEntry first noPages (cc + 1) cc → cc < 2 ^ 31) :
    ∃ lowest, s.lowestDiff first noPages cc
        (s.table.subDescriptors (first + cc)).noPages m = .ok lowest ∧
        s.LowestOf first noPages (cc + 1) lowest := by
  by_cases hsize : noPages ≤ (s.table.subDescriptors (first + cc)).noPages
  · have hfits : s.Fits first noPages cc := ⟨hfree, hsize⟩
    rw [lowestDiff_fits hcounts hfits hbest.holds]
    by_cases hlt : s.pagesAt first cc < s.pagesAt first m
    · have hbest' : s.BestEntry first noPages (cc + 1) cc := hbest.replace hfits hlt
      rw [if_pos hlt, int32_of_lt (hplace hbest')]
      exact ⟨cc, rfl, Or.inr ⟨cc, rfl, hbest'⟩⟩
    · rw [if_neg hlt]
      exact ⟨m, rfl, Or.inr ⟨m, rfl, hbest.keep fun _ => Nat.not_lt.mp hlt⟩⟩
  · rw [lowestDiff, if_neg hsize]
    exact ⟨m, rfl, lowestOf_skip (Or.inr ⟨m, rfl, hbest⟩) fun hfits => hsize hfits.2⟩

theorem fitLoop_spec (hlist : s.ListOf first n)
    (hplaces : ∀ k ≤ n, ∀ m, s.BestEntry first noPages k m → m < 2 ^ 31) (fuel cc : Nat)
    (lowestDiffN : Int) (hcc : cc ≤ n) (hfuel : n - cc < fuel)
    (hlowest : s.LowestOf first noPages cc lowestDiffN) :
    ∃ lowest, s.fitLoop first noPages fuel cc lowestDiffN = .ok lowest ∧
      s.LowestOf first noPages n lowest := by
  induction fuel generalizing cc lowestDiffN with
  | zero => exact absurd hfuel (Nat.not_lt_zero _)
  | succ fuel ih =>
      rw [fitLoop]
      by_cases hend : cc = n
      · subst hend
        rw [if_pos hlist.ends]
        exact ⟨lowestDiffN, rfl, hlowest⟩
      · have hlt : cc < n := Nat.lt_of_le_of_ne hcc hend
        have hplace := hplaces (cc + 1) hlt cc
        rw [if_neg (by rw [hlist.inList cc hlt]; exact Bool.false_ne_true)]
        by_cases hvalid : (s.table.subDescriptors (first + cc)).valid = true
        · rw [if_pos hvalid]
          refine ih _ _ hlt (by omega) (lowestOf_skip hlowest fun hfits => ?_)
          rw [hfits.1] at hvalid
          cases hvalid
        · rw [if_neg hvalid]
          have hfree := Bool.eq_false_of_not_eq_true hvalid
          rcases hlowest with ⟨rfl, hnone⟩ | ⟨m, rfl, hbest⟩
          · obtain ⟨lowest, hrun, hlowest⟩ := lowestDiff_first hcounts hfree hnone hplace
            rw [if_pos rfl, hrun]
            exact ih _ _ hlt (by omega) hlowest
          · rw [if_neg (by omega), listEntry_place]
            simp only
            rw [u32sub_fits (hcounts _) hbest.holds.2]
            have hle := hbest.holds.2
            split
            case isTrue hexact =>
              refine ⟨m, rfl, Or.inr ⟨m, rfl, hbest.extend hcc fun i hi => ?_⟩⟩
              have hle' := hi.2
              simp only [pagesAt]
              omega
            case isFalse =>
              obtain ⟨lowest, hrun, hlowest⟩ := lowestDiff_next hcounts hfree hbest hplace
              rw [hrun]
              exact ih _ _ hlt (by omega) hlowest

omit hcounts

theorem pagesBefore_first : s.pagesBefore first (first + 0) = 0 := by
  rw [pagesBefore, Nat.add_zero, Nat.sub_self]
  rfl

theorem pagesBefore_succ (m : Nat) :
    s.pagesBefore first (first + (m + 1)) =
      s.pagesBefore first (first + m) + s.pagesAt first m := by
  simp only [pagesBefore, Nat.add_sub_cancel_left, List.range_succ, List.map_append,
    List.sum_append, List.map_cons, List.map_nil, List.sum_singleton, pagesAt]

theorem offsetLoop_spec {m : Nat} (hlist : s.ListOf first n) (hm : m ≤ n) (fuel cc : Nat)
    (hcc : cc ≤ m) (hfuel : m - cc < fuel) :
    s.offsetLoop first m fuel cc (u64 (s.pagesBefore first (first + cc))) =
      .ok (u64 (s.pagesBefore first (first + m))) := by
  induction fuel generalizing cc with
  | zero => exact absurd hfuel (Nat.not_lt_zero _)
  | succ fuel ih =>
      rw [offsetLoop]
      by_cases hend : cc = m
      · subst hend
        rw [if_neg (by simp)]
      · have hlt : cc < m := Nat.lt_of_le_of_ne hcc hend
        have hoffset : u64 (u64 (s.pagesBefore first (first + cc)) + s.pagesAt first cc) =
            u64 (s.pagesBefore first (first + (cc + 1))) := by
          rw [pagesBefore_succ]
          exact Nat.mod_add_mod _ _ _
        have hopen := hlist.inList cc (by omega)
        rw [if_pos (by rw [hopen]; simpa using hlt)]
        rw [pagesAt] at hoffset
        rw [hoffset]
        exact ih (cc + 1) hlt (by omega)

end Lists

end AllocState

/-! ## All ranges -/

/-- A table whose ranges have lists with an end; the counts of entries are 14 bits wide. -/
structure ListedTable where
  state : AllocState
  length : Nat → Nat
  counts : ∀ i, (state.table.subDescriptors i).noPages < 2 ^ 14
  lists : ∀ cc < state.totalDescriptors,
    (state.table.descriptors cc).subDescriptorIndex ≠ invalidSubDescriptorIndex →
      state.ListOf (state.table.descriptors cc).subDescriptorIndex (length cc)

namespace ListedTable

variable (t : ListedTable)

/-- The entry that the list of a range starts at. -/
def first (cc : Nat) : Nat := (t.state.table.descriptors cc).subDescriptorIndex

/-- The range has a list. -/
def Listed (cc : Nat) : Prop :=
  cc < t.state.totalDescriptors ∧ t.first cc ≠ invalidSubDescriptorIndex

def Fits (noPages cc : Nat) : Nat → Prop := t.state.Fits (t.first cc) noPages

def HasFit (noPages cc : Nat) : Prop := ∃ i < t.length cc, t.Fits noPages cc i

/-- The range is the first one with a free entry of the pages. -/
structure FirstRange (noPages cc : Nat) : Prop where
  listed : t.Listed cc
  fit : t.HasFit noPages cc
  before : ∀ cc' < cc, t.Listed cc' → ¬ t.HasFit noPages cc'

/-- The first of the smallest entries that fit in the list of a range. -/
abbrev Best (noPages cc m : Nat) : Prop :=
  t.state.BestEntry (t.first cc) noPages (t.length cc) m

/-- Where entry `i` of a range begins in physical memory. -/
def address (cc i : Nat) : Nat :=
  (t.state.table.descriptors cc).physical +
    t.state.pagesBefore (t.first cc) (t.first cc + i) * pageSize

/--
`NULL` stands for no free entry of the pages in any range; otherwise the result
is where a smallest such entry of the first range that has one begins.
-/
structure FindsBest (noPages : Nat) (result : Except Fault Nat) : Prop where
  null : result = .ok 0 ↔ ∀ cc, t.Listed cc → ¬ t.HasFit noPages cc
  best : ∀ cc, t.FirstRange noPages cc →
    ∃ m, Least (t.Fits noPages cc) (t.state.pagesAt (t.first cc)) (t.length cc) m ∧
      result = .ok (t.address cc m)

variable {t} {fuel noPages : Nat}

theorem fitLoop_listed {cc : Nat} (hlisted : t.Listed cc) (hfuel : t.length cc < fuel)
    (hplaces : ∀ m, t.Best noPages cc m → m < 2 ^ 31) :
    ∃ lowest, t.state.fitLoop (t.first cc) noPages fuel 0 (-1) = .ok lowest ∧
      t.state.LowestOf (t.first cc) noPages (t.length cc) lowest := by
  refine AllocState.fitLoop_spec t.counts (t.lists cc hlisted.1 hlisted.2)
    (fun k hk m hm => ?_) fuel 0 (-1) (Nat.zero_le _) hfuel
    (Or.inl ⟨rfl, fun i hi => absurd hi (Nat.not_lt_zero i)⟩)
  -- a place that the loop keeps for a while lies in front of the one it ends with
  rcases exists_firstLeast_or_none (t.Fits noPages cc) (t.state.pagesAt (t.first cc))
    (t.length cc) with hnone | ⟨m', hm'⟩
  · exact absurd hm.holds (hnone m (Nat.lt_of_lt_of_le hm.lt hk))
  · exact Nat.lt_of_le_of_lt (hm.mono hm' hk) (hplaces m' hm')

theorem rangeLoop_skip {cc : Nat} (rest : List Nat) (hcc : cc < t.state.totalDescriptors)
    (hfuel : t.length cc < fuel) (hnone : t.Listed cc → ¬ t.HasFit noPages cc) :
    t.state.rangeLoop fuel noPages (cc :: rest) = t.state.rangeLoop fuel noPages rest := by
  rw [AllocState.rangeLoop]
  by_cases hlist : t.first cc = invalidSubDescriptorIndex
  · exact if_pos hlist
  · have hempty := hnone ⟨hcc, hlist⟩
    obtain ⟨lowest, hrun, hlowest⟩ := fitLoop_listed ⟨hcc, hlist⟩ hfuel
      (fun m hm => absurd ⟨m, hm.lt, hm.holds⟩ hempty)
    rcases hlowest with ⟨rfl, -⟩ | ⟨m, -, hm⟩
    · rw [first] at hlist hrun
      simp only [if_neg hlist, hrun, if_true]
    · exact absurd ⟨m, hm.lt, hm.holds⟩ hempty

theorem rangeLoop_hit {cc m : Nat} (rest : List Nat) (hlisted : t.Listed cc)
    (hfuel : t.length cc < fuel) (hbest : t.Best noPages cc m) (hplace : m < 2 ^ 31) :
    t.state.rangeLoop fuel noPages (cc :: rest) = .ok (u64 (t.address cc m)) := by
  obtain ⟨lowest, hrun, hlowest⟩ := fitLoop_listed hlisted hfuel
    (fun m' hm' => by rwa [hm'.unique hbest])
  rcases hlowest with ⟨-, hnone⟩ | ⟨m', rfl, hm'⟩
  · exact absurd hbest.holds (hnone m hbest.lt)
  · obtain rfl := hm'.unique hbest
    have hplaceWord : ((m' : Int) % 2 ^ 64).toNat = m' := by
      have hlt : (m' : Int) < 2 ^ 64 := by omega
      rw [Int.emod_eq_of_lt (by omega) hlt, Int.toNat_natCast]
    have hoffset := AllocState.offsetLoop_spec (m := m') (t.lists cc hlisted.1 hlisted.2)
      hm'.lt.le fuel 0 (Nat.zero_le _) (by have hlt := hm'.lt; omega)
    rw [AllocState.pagesBefore_first, show u64 0 = 0 from rfl] at hoffset
    have hlist := hlisted.2
    rw [first] at hlist hrun
    rw [AllocState.rangeLoop]
    simp only [if_neg hlist, hrun, if_neg (show ¬ (m' : Int) = -1 by omega), hplaceWord, hoffset,
      address, first]
    rw [u64_add_mul]

theorem rangeLoop_none (hfuel : ∀ cc, t.length cc < fuel) (ranges : List Nat)
    (hranges : ∀ cc ∈ ranges, cc < t.state.totalDescriptors ∧
      (t.Listed cc → ¬ t.HasFit noPages cc)) :
    t.state.rangeLoop fuel noPages ranges = .ok 0 := by
  induction ranges with
  | nil => rfl
  | cons cc rest ih =>
      obtain ⟨hcc, hnone⟩ := hranges cc List.mem_cons_self
      rw [rangeLoop_skip rest hcc (hfuel cc) hnone]
      exact ih fun cc' hcc' => hranges cc' (List.mem_cons_of_mem _ hcc')

theorem rangeLoop_first {cc m : Nat} (hfuel : ∀ cc, t.length cc < fuel)
    (hfirst : t.FirstRange noPages cc) (hbest : t.Best noPages cc m) (hplace : m < 2 ^ 31)
    (ranges rest : List Nat) (hranges : ∀ cc' ∈ ranges, cc' < cc) :
    t.state.rangeLoop fuel noPages (ranges ++ cc :: rest) = .ok (u64 (t.address cc m)) := by
  induction ranges with
  | nil => exact rangeLoop_hit rest hfirst.listed (hfuel cc) hbest hplace
  | cons cc' ranges ih =>
      have hlt := hranges cc' List.mem_cons_self
      rw [List.cons_append, rangeLoop_skip _ (hlt.trans hfirst.listed.1) (hfuel cc')
        (hfirst.before cc' hlt)]
      exact ih fun i hi => hranges i (List.mem_cons_of_mem _ hi)

theorem exists_first_or_none (t : ListedTable) (noPages : Nat) :
    (∀ cc, t.Listed cc → ¬ t.HasFit noPages cc) ∨
      ∃ cc m, t.FirstRange noPages cc ∧ t.Best noPages cc m := by
  rcases exists_firstLeast_or_none (fun cc => t.Listed cc ∧ t.HasFit noPages cc) id
    t.state.totalDescriptors with hnone | ⟨cc, hcc⟩
  · exact Or.inl fun cc hlisted hfit => hnone cc hlisted.1 ⟨hlisted, hfit⟩
  · have hfirst : t.FirstRange noPages cc := by
      refine ⟨hcc.holds.1, hcc.holds.2, fun cc' hlt hlisted hfit => ?_⟩
      exact absurd (hcc.le cc' (hlt.trans hcc.lt) ⟨hlisted, hfit⟩) (Nat.not_le.mpr hlt)
    obtain ⟨i, hi, hfits⟩ := hcc.holds.2
    rcases exists_firstLeast_or_none (t.Fits noPages cc) (t.state.pagesAt (t.first cc))
      (t.length cc) with hnone | ⟨m, hm⟩
    · exact absurd hfits (hnone i hi)
    · exact Or.inr ⟨cc, m, hfirst, hm⟩

theorem range_split {cc n : Nat} (h : cc < n) :
    ∃ rest, List.range n = List.range cc ++ cc :: rest := by
  obtain ⟨k, rfl⟩ := Nat.exists_eq_add_of_lt h
  refine ⟨(List.range k).map fun i => cc + (i + 1), ?_⟩
  rw [Nat.add_assoc, List.range_add, List.range_succ_eq_map]
  simp

theorem FirstRange.unique {cc cc' : Nat} (h : t.FirstRange noPages cc)
    (h' : t.FirstRange noPages cc') : cc = cc' := by
  rcases Nat.lt_trichotomy cc cc' with hlt | heq | hgt
  · exact absurd h.fit (h'.before cc hlt h.listed)
  · exact heq
  · exact absurd h'.fit (h.before cc' hgt h'.listed)

theorem address_mono (cc : Nat) {m m' : Nat} (h : m ≤ m') : t.address cc m ≤ t.address cc m' := by
  induction m' with
  | zero => rw [Nat.le_zero.mp h]
  | succ m' ih =>
      rcases Nat.le_succ_iff.mp h with hle | rfl
      · refine (ih hle).trans ?_
        rw [address, address, AllocState.pagesBefore_succ]
        exact Nat.add_le_add_left (Nat.mul_le_mul_right _ (Nat.le_add_right _ _)) _
      · exact Nat.le_refl _

/--
Where the place of the best entry fits a signed word, the search is right exactly
if there is nothing to be found, or the table covers the address that was passed
and the best entry neither begins at address zero, which means `NULL`, nor past
the last address.
-/
theorem findsBest_iff (t : ListedTable) (fuel physical noPages : Nat)
    (hfuel : ∀ cc, t.length cc < fuel)
    (hplaces : ∀ cc m, t.FirstRange noPages cc → t.Best noPages cc m → m < 2 ^ 31) :
    t.FindsBest noPages (t.state.queryFreeMemoryAt fuel physical noPages) ↔
      (∀ cc, t.Listed cc → ¬ t.HasFit noPages cc) ∨
        t.state.covers physical = true ∧
          ∀ cc m, t.FirstRange noPages cc → t.Best noPages cc m →
            0 < t.address cc m ∧ t.address cc m < 2 ^ 64 := by
  rcases exists_first_or_none t noPages with hnone | ⟨cc, m, hfirst, hbest⟩
  · refine iff_of_true ⟨iff_of_true ?_ hnone, fun cc hfirst => ?_⟩ (Or.inl hnone)
    · rw [AllocState.queryFreeMemoryAt]
      split
      · exact rangeLoop_none hfuel _ fun cc hcc => ⟨List.mem_range.mp hcc, hnone cc⟩
      · rfl
    · exact absurd hfirst.fit (hnone cc hfirst.listed)
  · have hsome : ¬ ∀ cc, t.Listed cc → ¬ t.HasFit noPages cc :=
      fun hnone => hnone cc hfirst.listed hfirst.fit
    rw [or_iff_right hsome, AllocState.queryFreeMemoryAt]
    by_cases hcovers : t.state.covers physical = true
    · have hplace := hplaces cc m hfirst hbest
      obtain ⟨rest, hsplit⟩ := range_split hfirst.listed.1
      have hrun := rangeLoop_first hfuel hfirst hbest hplace (List.range cc) rest
        fun cc' hcc' => List.mem_range.mp hcc'
      rw [if_pos hcovers, hsplit, hrun]
      constructor
      · rintro ⟨hnull, hfinds⟩
        refine ⟨hcovers, fun cc' m' hfirst' hbest' => ?_⟩
        obtain rfl := hfirst.unique hfirst'
        obtain rfl := hbest.unique hbest'
        obtain ⟨k, hk, haddress⟩ := hfinds cc hfirst
        have heq : u64 (t.address cc m) = t.address cc k := Except.ok.inj haddress
        have hmk : m ≤ k := by
          by_contra hlt
          exact absurd (hk.le m hbest.lt hbest.holds)
            (Nat.not_le.mpr (hbest.first k (Nat.not_le.mp hlt) hk.holds))
        have hle := address_mono (t := t) cc hmk
        have hword := u64_lt (t.address cc m)
        refine ⟨Nat.pos_of_ne_zero fun hzero => hsome (hnull.mp ?_), by omega⟩
        rw [hzero]
        rfl
      · rintro ⟨-, hrange⟩
        obtain ⟨hpos, hlt⟩ := hrange cc m hfirst hbest
        rw [u64_of_lt hlt]
        refine ⟨iff_of_false (fun hzero => ?_) hsome, fun cc' hfirst' => ?_⟩
        · exact absurd (Except.ok.inj hzero) hpos.ne'
        · obtain rfl := hfirst.unique hfirst'
          exact ⟨m, hbest.toLeast, rfl⟩
    · rw [if_neg hcovers]
      refine iff_of_false (fun h => hsome (h.null.mp rfl)) fun h => hcovers h.1

/-! ## One free range -/

def singleRange (physical : Nat) : AllocState where
  table :=
    { descriptors := fun _ => ⟨physical, 0, 4, 7⟩
      indexes := fun _ => 0
      subDescriptors := fun i =>
        ⟨i != 0, false, if i = 0 then 4 else 0,
          ⟨0, 0, 0, 0, 0, false, false, false, false, false⟩, 0⟩ }
  descriptorsAt := 0
  indexesAt := 0
  subDescriptorsAt := 0
  totalDescriptors := 1
  totalSubDescriptors := 2
  memoryMaxPages := 1024

theorem singleRange_counts (physical i : Nat) :
    ((singleRange physical).table.subDescriptors i).noPages < 2 ^ 14 := by
  simp only [singleRange]
  split <;> omega

theorem singleRange_lists (physical cc : Nat) :
    (singleRange physical).ListOf ((singleRange physical).table.descriptors cc).subDescriptorIndex
      1 := by
  refine ⟨fun i hi => ?_, rfl⟩
  obtain rfl := Nat.lt_one_iff.mp hi
  rfl

/-- The table of a range of four free pages, which has one entry. -/
def singleTable (physical : Nat) : ListedTable where
  state := singleRange physical
  length _ := 1
  counts := singleRange_counts physical
  lists cc _ _ := singleRange_lists physical cc

theorem singleTable_firstRange (physical : Nat) : (singleTable physical).FirstRange 1 0 where
  listed := ⟨Nat.one_pos, show 0 ≠ invalidSubDescriptorIndex by decide⟩
  fit := ⟨0, Nat.one_pos, rfl, show 1 ≤ 4 by decide⟩
  before cc hcc := absurd hcc (Nat.not_lt_zero cc)

theorem findsBest_iff_singleTable :
    (singleTable 4096).FindsBest 1 ((singleTable 4096).state.queryFreeMemoryAt 2 0 1) := by
  have hzero : ∀ {cc m}, (singleTable 4096).Best 1 cc m → m = 0 :=
    fun hbest => Nat.lt_one_iff.mp hbest.lt
  refine (findsBest_iff (singleTable 4096) 2 0 1 (fun _ => Nat.lt_succ_self 1)
    fun cc m _ hbest => ?_).mpr (Or.inr ⟨rfl, fun cc m _ hbest => ?_⟩)
  · rw [hzero hbest]
    exact Nat.two_pow_pos 31
  · rw [hzero hbest, address, AllocState.pagesBefore_first, Nat.zero_mul, Nat.add_zero]
    exact (show 0 < 4096 ∧ 4096 < 2 ^ 64 by decide)

/-- The first page of physical memory is found at address zero. -/
theorem not_findsBest_singleTable :
    ¬ (singleTable 0).FindsBest 1 ((singleTable 0).state.queryFreeMemoryAt 2 0 1) := by
  intro h
  have hrun : ((singleTable 0).state.queryFreeMemoryAt 2 0 1).toOption = some 0 := by
    decide +kernel
  have hfirst := singleTable_firstRange 0
  refine h.null.mp ?_ 0 hfirst.listed hfirst.fit
  cases hquery : (singleTable 0).state.queryFreeMemoryAt 2 0 1 with
  | error e =>
      rw [hquery] at hrun
      cases hrun
  | ok address =>
      rw [hquery] at hrun
      exact congrArg Except.ok (Option.some.inj hrun)

end ListedTable

end BlockyOS.Kernel
