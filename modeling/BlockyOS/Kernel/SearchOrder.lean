import BlockyOS.Foundation.Odometer
import BlockyOS.Kernel.AllocInit
import BlockyOS.Kernel.PageOwnership

/-!
# The order of the search of `AllocatePages`

The coordinates that the loop looks at while it is refused everywhere.  For small
pages they are the readings of an odometer.  The test for a carry into `L2` does
not ask which index was moved, so that the two other classes move `L2` each time.
-/

namespace BlockyOS.Kernel

open BlockyOS.Foundation

/-! ## The coordinates of a class -/

structure OnLevel (level5 : Bool) (nBytes : Nat) (c : PageCoordinate) : Prop where
  enableL1 : c.enableL1 = (PageCoordinate.enabled level5 nBytes).enableL1
  enableL2 : c.enableL2 = (PageCoordinate.enabled level5 nBytes).enableL2
  enableL3 : c.enableL3 = true
  enableL4 : c.enableL4 = true
  enableL5 : c.enableL5 = level5
  small : c.l1 < 512 ∧ c.l2 < 512 ∧ c.l3 < 512 ∧ c.l4 < 512 ∧ c.l5 < 512
  l1 : pageSize2 ≤ nBytes → c.l1 = 0
  l2 : pageSize3 ≤ nBytes → c.l2 = 0
  l5 : level5 = false → c.l5 = 0

namespace PageCoordinate

variable {level5 : Bool} {nBytes : Nat} {c : PageCoordinate}

def indices (level5 : Bool) (c : PageCoordinate) : List Nat :=
  if level5 then [c.l1, c.l2, c.l3, c.l4, c.l5] else [c.l1, c.l2, c.l3, c.l4]

def indexCount (level5 : Bool) : Nat := if level5 then 5 else 4

/-! ### The top of the loop -/

theorem step_of_small (h : nBytes < pageSize2) : step nBytes c = { c with l1 := next c.l1 } := by
  have hlarge : ¬ pageSize3 ≤ nBytes := fun h3 =>
    Nat.lt_irrefl _ (Nat.lt_of_lt_of_le h (Nat.le_trans (by decide) h3))
  rw [step, if_neg hlarge, if_neg (Nat.not_le.mpr h)]

theorem step_of_medium (h : pageSize2 ≤ nBytes) (h3 : nBytes < pageSize3) :
    step nBytes c = { c with l2 := next c.l2 } := by
  rw [step, if_neg (Nat.not_le.mpr h3), if_pos h]

theorem step_of_large (h : pageSize3 ≤ nBytes) : step nBytes c = { c with l3 := next c.l3 } :=
  if_pos h

theorem advance_flags (level5 : Bool) (nBytes : Nat) (c : PageCoordinate) :
    (advance level5 nBytes c).enableL1 = c.enableL1 ∧
      (advance level5 nBytes c).enableL2 = c.enableL2 ∧
      (advance level5 nBytes c).enableL3 = c.enableL3 ∧
      (advance level5 nBytes c).enableL4 = c.enableL4 ∧
      (advance level5 nBytes c).enableL5 = c.enableL5 := by
  simp only [advance, carryL5, carryL4, carryL3, carryL2, step]
  split_ifs <;> exact ⟨rfl, rfl, rfl, rfl, rfl⟩

theorem advance_l5 (nBytes : Nat) (c : PageCoordinate) : (advance false nBytes c).l5 = c.l5 := by
  simp only [advance, carryL5, carryL4, carryL3, carryL2, step, Bool.false_eq_true, false_and,
    if_false]
  split_ifs <;> rfl

theorem indices_advance (level5 : Bool) (h : nBytes < pageSize2) (c : PageCoordinate) :
    indices level5 (advance level5 nBytes c) = tick 512 (indices level5 c) := by
  have hnext : ∀ index, (index + 1) % 512 = next index := fun _ => rfl
  rw [advance, step_of_small h]
  cases level5 <;>
  · simp only [indices, Bool.false_eq_true, if_true, if_false, tick, hnext, carryL2, carryL3,
      carryL4, carryL5, false_and, true_and]
    by_cases h1 : next c.l1 = 0
    · by_cases h2 : next c.l2 = 0
      · by_cases h3 : next c.l3 = 0
        · by_cases h4 : next c.l4 = 0 <;> simp [h1, h2, h3, h4]
        · simp [h1, h2, h3]
      · simp [h1, h2]
    · simp [h1]

end PageCoordinate

open PageCoordinate (advance enabled indices indexCount)

namespace OnLevel

variable {level5 : Bool} {nBytes : Nat} {c c' : PageCoordinate}

theorem enabled (level5 : Bool) (nBytes : Nat) :
    OnLevel level5 nBytes (PageCoordinate.enabled level5 nBytes) where
  enableL1 := rfl
  enableL2 := rfl
  enableL3 := rfl
  enableL4 := rfl
  enableL5 := rfl
  small := ⟨Nat.zero_lt_succ _, Nat.zero_lt_succ _, Nat.zero_lt_succ _, Nat.zero_lt_succ _,
    Nat.zero_lt_succ _⟩
  l1 _ := rfl
  l2 _ := rfl
  l5 _ := rfl

theorem reading (h : OnLevel level5 nBytes c) :
    Reading 512 (indexCount level5) (indices level5 c) := by
  obtain ⟨h1, h2, h3, h4, h5⟩ := h.small
  cases level5 with
  | true => exact ⟨rfl, by simp [indices, h1, h2, h3, h4, h5]⟩
  | false => exact ⟨rfl, by simp [indices, h1, h2, h3, h4]⟩

theorem eq_of_indices (h : OnLevel level5 nBytes c) (h' : OnLevel level5 nBytes c')
    (hindices : indices level5 c = indices level5 c') : c = c' := by
  have h1 := h.enableL1.trans h'.enableL1.symm
  have h2 := h.enableL2.trans h'.enableL2.symm
  have h3 := h.enableL3.trans h'.enableL3.symm
  have h4 := h.enableL4.trans h'.enableL4.symm
  have h5 := h.enableL5.trans h'.enableL5.symm
  have htop : level5 = false → c.l5 = c'.l5 := fun hlevel => (h.l5 hlevel).trans (h'.l5 hlevel).symm
  clear h h'
  obtain ⟨l1, l2, l3, l4, l5, e1, e2, e3, e4, e5⟩ := c
  obtain ⟨k1, k2, k3, k4, k5, f1, f2, f3, f4, f5⟩ := c'
  cases level5 with
  | true =>
      simp only [indices, if_true, List.cons.injEq, and_true] at hindices
      simp only [PageCoordinate.mk.injEq]
      exact ⟨hindices.1, hindices.2.1, hindices.2.2.1, hindices.2.2.2.1, hindices.2.2.2.2, h1, h2,
        h3, h4, h5⟩
  | false =>
      simp only [indices, Bool.false_eq_true, if_false, List.cons.injEq, and_true] at hindices
      simp only [PageCoordinate.mk.injEq]
      exact ⟨hindices.1, hindices.2.1, hindices.2.2.1, hindices.2.2.2, htop rfl, h1, h2, h3, h4,
        h5⟩

theorem advance (hsmall : nBytes < pageSize2) (h : OnLevel level5 nBytes c) :
    OnLevel level5 nBytes (PageCoordinate.advance level5 nBytes c) := by
  obtain ⟨h1, h2, h3, h4, h5⟩ := PageCoordinate.advance_flags level5 nBytes c
  have hlt := tick_lt (by decide) h.reading.lt
  rw [← PageCoordinate.indices_advance level5 hsmall] at hlt
  have htop : level5 = false → (PageCoordinate.advance level5 nBytes c).l5 = 0 := by
    rintro rfl
    rw [PageCoordinate.advance_l5]
    exact h.l5 rfl
  refine ⟨h1.trans h.enableL1, h2.trans h.enableL2, h3.trans h.enableL3, h4.trans h.enableL4,
    h5.trans h.enableL5, ?_, fun hmedium => absurd hsmall (Nat.not_lt.mpr hmedium),
    fun hlarge => absurd hsmall (Nat.not_lt.mpr (Nat.le_trans (by decide) hlarge)), htop⟩
  cases level5 with
  | true =>
      simpa [indices] using hlt
  | false =>
      have hzero := htop rfl
      have hfour : ∀ index ∈ [_, _, _, _], index < 512 := hlt
      simp only [List.mem_cons, List.not_mem_nil, or_false, forall_eq_or_imp, forall_eq] at hfour
      rw [hzero]
      exact ⟨hfour.1, hfour.2.1, hfour.2.2.1, hfour.2.2.2, by decide⟩

end OnLevel

/-! ## The search -/

def examined (E : PagingEnv) (base nBytes flags key : Nat) :
    Nat → PageCoordinate → PagingState → List PageCoordinate
  | 0, _, _ => []
  | n + 1, c, s =>
      c.advance E.level5 nBytes ::
        match s.turn E base nBytes flags key (c.advance E.level5 nBytes) with
        | .ok (.again c s) => examined E base nBytes flags key n c s
        | _ => []

/-- No slot is accepted: every turn goes on with what it was given. -/
def Refuses (E : PagingEnv) (base nBytes flags key : Nat) (s : PagingState) : Prop :=
  ∀ k, s.turn E base nBytes flags key
      ((advance E.level5 nBytes)^[k + 1] (enabled E.level5 nBytes)) =
    .ok (.again ((advance E.level5 nBytes)^[k + 1] (enabled E.level5 nBytes)) s)

/-- Every coordinate of the class once before any comes again, and only those. -/
structure Covers (E : PagingEnv) (base nBytes flags key : Nat) (s : PagingState) : Prop where
  visits : ∃ n, (examined E base nBytes flags key n (enabled E.level5 nBytes) s).Nodup ∧
    ∀ c, OnLevel E.level5 nBytes c →
      c ∈ examined E base nBytes flags key n (enabled E.level5 nBytes) s
  lower : ∀ n, ∀ c ∈ examined E base nBytes flags key n (enabled E.level5 nBytes) s,
    OnLevel E.level5 nBytes c

section Search

variable {E : PagingEnv} {base nBytes flags key : Nat} {s : PagingState}

theorem examined_of_refuses (h : Refuses E base nBytes flags key s) (n : Nat) :
    examined E base nBytes flags key n (enabled E.level5 nBytes) s =
      (List.range n).map fun k =>
        (advance E.level5 nBytes)^[k + 1] (enabled E.level5 nBytes) := by
  have hfrom : ∀ n j, examined E base nBytes flags key n
      ((advance E.level5 nBytes)^[j] (enabled E.level5 nBytes)) s =
        (List.range n).map fun k =>
          (advance E.level5 nBytes)^[j + k + 1] (enabled E.level5 nBytes) := by
    intro n
    induction n with
    | zero => exact fun _ => rfl
    | succ n ih =>
        intro j
        rw [examined, ← Function.iterate_succ_apply' (advance E.level5 nBytes), h j]
        simp only [ih (j + 1), List.range_succ_eq_map, List.map_cons, List.map_map]
        refine congrArg (List.cons _) (List.map_congr_left fun k _ => ?_)
        rw [Function.comp_apply, Nat.succ_eq_add_one, Nat.add_assoc j 1 k, Nat.add_comm 1 k]
  rw [← Function.iterate_zero_apply (advance E.level5 nBytes) (enabled E.level5 nBytes), hfrom n 0]
  simp only [Nat.zero_add, Function.iterate_zero, id_eq]

/-! ### Small pages -/

theorem onLevel_iterate (hsmall : nBytes < pageSize2) (level5 : Bool) (k : Nat) :
    OnLevel level5 nBytes ((advance level5 nBytes)^[k] (enabled level5 nBytes)) := by
  induction k with
  | zero => exact .enabled level5 nBytes
  | succ k ih =>
      rw [Function.iterate_succ_apply']
      exact ih.advance hsmall

theorem indices_iterate (hsmall : nBytes < pageSize2) (level5 : Bool) (c : PageCoordinate)
    (k : Nat) : indices level5 ((advance level5 nBytes)^[k] c) =
      (tick 512)^[k] (indices level5 c) := by
  induction k with
  | zero => rfl
  | succ k ih =>
      rw [Function.iterate_succ_apply', Function.iterate_succ_apply',
        PageCoordinate.indices_advance level5 hsmall, ih]

theorem covers_of_small (h : Refuses E base nBytes flags key s) (hsmall : nBytes < pageSize2) :
    Covers E base nBytes flags key s := by
  have hfirst := ((OnLevel.enabled E.level5 nBytes).advance hsmall).reading
  have hturn : ((List.range (512 ^ indexCount E.level5)).map fun k =>
      (advance E.level5 nBytes)^[k + 1] (enabled E.level5 nBytes)).map (indices E.level5) =
        fullTurn 512 (indexCount E.level5)
          (indices E.level5 (advance E.level5 nBytes (enabled E.level5 nBytes))) := by
    rw [fullTurn, List.map_map]
    refine List.map_congr_left fun k _ => ?_
    rw [Function.comp_apply, Function.iterate_succ_apply, indices_iterate hsmall]
  have honly : ∀ n, ∀ c ∈ examined E base nBytes flags key n (enabled E.level5 nBytes) s,
      OnLevel E.level5 nBytes c := by
    intro n c hc
    rw [examined_of_refuses h] at hc
    obtain ⟨k, -, rfl⟩ := List.mem_map.mp hc
    exact onLevel_iterate hsmall E.level5 (k + 1)
  refine ⟨⟨512 ^ indexCount E.level5, ?_, ?_⟩, honly⟩
  · rw [examined_of_refuses h]
    refine List.Nodup.of_map (indices E.level5) ?_
    rw [hturn]
    exact hfirst.nodup_fullTurn (by decide)
  · intro c hc
    have hmem := hfirst.mem_fullTurn (by decide) hc.reading
    rw [← hturn, ← examined_of_refuses h] at hmem
    obtain ⟨c', hc', hindices⟩ := List.mem_map.mp hmem
    rwa [← (honly _ c' hc').eq_of_indices hc hindices]

/-! ### Larger pages -/

theorem advance_medium (hmedium : pageSize2 ≤ nBytes) (hlarge : nBytes < pageSize3)
    (level5 : Bool) {c : PageCoordinate} (hl1 : c.l1 = 0) :
    (advance level5 nBytes c).l1 = 0 ∧
      (advance level5 nBytes c).l2 = PageCoordinate.next (PageCoordinate.next c.l2) := by
  rw [advance, PageCoordinate.step_of_medium hmedium hlarge]
  simp only [PageCoordinate.carryL5, PageCoordinate.carryL4, PageCoordinate.carryL3,
    PageCoordinate.carryL2, if_pos hl1]
  split_ifs <;> exact ⟨hl1, rfl⟩

theorem medium_iterate (hmedium : pageSize2 ≤ nBytes) (hlarge : nBytes < pageSize3)
    (level5 : Bool) (k : Nat) :
    ((advance level5 nBytes)^[k] (enabled level5 nBytes)).l1 = 0 ∧
      ((advance level5 nBytes)^[k] (enabled level5 nBytes)).l2 % 2 = 0 := by
  induction k with
  | zero => exact ⟨rfl, rfl⟩
  | succ k ih =>
      obtain ⟨hl1, hl2⟩ := advance_medium hmedium hlarge level5 ih.1
      rw [Function.iterate_succ_apply']
      refine ⟨hl1, ?_⟩
      have heven := ih.2
      rw [hl2, PageCoordinate.next, PageCoordinate.next]
      omega

theorem not_covers_of_medium (h : Refuses E base nBytes flags key s)
    (hmedium : pageSize2 ≤ nBytes) (hlarge : nBytes < pageSize3) :
    ¬ Covers E base nBytes flags key s := by
  rintro ⟨⟨n, -, hall⟩, -⟩
  have hzero := OnLevel.enabled E.level5 nBytes
  have hone : 1 < 512 := by decide
  have hodd : OnLevel E.level5 nBytes { enabled E.level5 nBytes with l2 := 1 } :=
    { hzero with
      small := ⟨hzero.small.1, hone, hzero.small.2.2⟩
      l2 := fun h3 => absurd hlarge (Nat.not_lt.mpr h3) }
  have hmem := hall _ hodd
  rw [examined_of_refuses h] at hmem
  obtain ⟨k, -, hk⟩ := List.mem_map.mp hmem
  have heven := (medium_iterate hmedium hlarge E.level5 (k + 1)).2
  rw [hk] at heven
  cases heven

theorem not_covers_of_large (h : Refuses E base nBytes flags key s)
    (hlarge : pageSize3 ≤ nBytes) : ¬ Covers E base nBytes flags key s := by
  rintro ⟨-, hlower⟩
  have hl2 : (advance E.level5 nBytes (enabled E.level5 nBytes)).l2 = 1 := by
    rw [advance, PageCoordinate.step_of_large hlarge]
    cases E.level5 <;> rfl
  have hmem : advance E.level5 nBytes (enabled E.level5 nBytes) ∈
      examined E base nBytes flags key 1 (enabled E.level5 nBytes) s := by
    rw [examined_of_refuses h]
    exact List.mem_cons_self
  have hzero := (hlower 1 _ hmem).l2 hlarge
  rw [hl2] at hzero
  cases hzero

/-- The search covers the coordinates of its class for pages of 4 KB alone. -/
theorem searchCovers_iff (h : Refuses E base nBytes flags key s) :
    Covers E base nBytes flags key s ↔ nBytes < pageSize2 := by
  constructor
  · intro hcovers
    rcases Nat.lt_or_ge nBytes pageSize2 with hsmall | hmedium
    · exact hsmall
    · rcases Nat.lt_or_ge nBytes pageSize3 with hlarge | hlarge
      · exact absurd hcovers (not_covers_of_medium h hmedium hlarge)
      · exact absurd hcovers (not_covers_of_large h hlarge)
  · exact covers_of_small h

end Search

/-! ### A tree without a free slot -/

/-- Every word of memory is an entry that is present. -/
def fullState : PagingState :=
  ⟨⟨zeroTable, 0, 0, 0, 0, 0, 0⟩, fun _ => 1⟩

theorem taken_fullState (a memoryBit : Nat) :
    PagingState.taken (fullState.word a) memoryBit = true := by
  have hpresent : present 1 = true := by decide
  change (present 1 || bits 1 memoryBit 1 = 1) = true
  rw [hpresent, Bool.true_or]

theorem touchable_fullState (table memoryBit : Nat) {index : Nat} (h : index < 512) :
    fullState.touchable table index memoryBit = false := by
  have hcount : 512 - index = (511 - index) + 1 := by omega
  rw [PagingState.touchable, hcount, PagingState.touchableFrom, taken_fullState]
  rfl

theorem fillTable_fullState (E : PagingEnv) (flags entry : Nat) (c back : PageCoordinate) :
    fullState.fillTable E flags entry c back = .ok (.again c fullState) := by
  rw [PagingState.fillTable, taken_fullState]
  rfl

theorem turn_fullState (E : PagingEnv) (base nBytes flags key : Nat) {c : PageCoordinate}
    (h : c.Bounded) :
    fullState.turn E base nBytes flags key c = .ok (.again c fullState) := by
  rw [PagingState.turn]
  split
  · split
    · exact fillTable_fullState E flags _ c _
    · rfl
  · exact fillTable_fullState E flags _ c _
  · rw [PagingState.fillDirectory, touchable_fullState _ _ h.l3]
    rfl
  · rw [PagingState.fillDirectory, touchable_fullState _ _ h.l2]
    rfl
  · rw [PagingState.fillPageTable, touchable_fullState _ _ h.l1, if_neg]
    exact fun h => absurd h.2 (by decide)
  · rfl

theorem refuses_fullState (E : PagingEnv) (base nBytes flags key : Nat) :
    Refuses E base nBytes flags key fullState := by
  have hbounded : ∀ k,
      ((advance E.level5 nBytes)^[k] (enabled E.level5 nBytes)).Bounded := by
    intro k
    induction k with
    | zero => exact ⟨Nat.zero_lt_succ _, Nat.zero_lt_succ _, Nat.zero_lt_succ _⟩
    | succ k ih =>
        rw [Function.iterate_succ_apply']
        exact ih.advance E.level5 nBytes
  exact fun k => turn_fullState E base nBytes flags key (hbounded (k + 1))

theorem searchCovers_fullState : Covers identityEnv 0 4096 0 0 fullState :=
  (searchCovers_iff (refuses_fullState identityEnv 0 4096 0 0)).mpr (by decide)

/-- For 2 MB half of the directory entries are never looked at. -/
theorem not_searchCovers_fullState : Refuses identityEnv 0 0x200000 0 0 fullState ∧
    ¬ Covers identityEnv 0 0x200000 0 0 fullState :=
  ⟨refuses_fullState identityEnv 0 0x200000 0 0,
    not_covers_of_medium (refuses_fullState identityEnv 0 0x200000 0 0) (by decide) (by decide)⟩

end BlockyOS.Kernel
