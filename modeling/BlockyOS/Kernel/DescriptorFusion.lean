import BlockyOS.Kernel.DescriptorRepair
import Mathlib.Algebra.Order.BigOperators.Group.List
import Mathlib.Data.Finset.Card

/-!
# Fusing free blocks

`fusememory` with the answer it gives.  Its first walk adds up sizes along the
chain by subtracting them from zero, and its second one starts only at a
descriptor whose flags hold every bit but the used one.
-/

namespace BlockyOS.Kernel

open BlockyOS.Foundation
open BlockyOS.HostTool (Fault)

namespace MemPool

/-! ## The two walks -/

/-- `targetflags` of the only caller, `~memdesc_e__used`. -/
def notUsed : BitVec 32 := ~~~memdescUsed

/--
The second walk: a pass ends with `ndescs--`, which leaves the counter for the
field in front of it.
-/
def fuseLoop (mp : MemPool) (chainstart : Nat) (targetflags : BitVec 32) :
    Except Fault (Bool × MemPool) :=
  if (mp.next chainstart).isSome ∧ flagCheck (mp.desc chainstart).flags targetflags then
    .error .outOfBounds
  else .ok (false, mp)

/-- `fusememory` with the value it returns. -/
def fuses (mp : MemPool) (chainstart targetbytes : Nat) (targetflags : BitVec 32) :
    Except Fault (Bool × MemPool) :=
  match mp.metbytes targetflags (mp.nDescriptors + 1) chainstart 0 with
  | .error e => .error e
  | .ok met =>
      if met < targetbytes then .ok (false, mp)
      else
        match mp.fuseLoop chainstart targetflags with
        | .error e => .error e
        | .ok (out, mp) =>
            match mp.fixmdarray with
            | .error e => .error e
            | .ok mp => .ok (out, mp)

/-! ## The second walk where it starts -/

/-- The descriptors, the places that `ndescs` moved back, and `totalNAllocations`. -/
structure Join where
  descs : List MemDesc
  ndescs : Nat
  total : Nat

/--
The copy of `table[index + 1]` and the descriptors behind it one place to the
front; the element `table[i]` is the slot `nDescriptors - 1 - i`.
-/
def closeUp (mp : MemPool) (temp : Nat → Bool) (descs : List MemDesc) (count index : Nat) :
    Except Fault (List MemDesc) :=
  let alen := u64 (u64sub count index * sizeofMemdesc)
  let blen := u64 (u64sub count (index + 1) * sizeofMemdesc)
  let moved := blen / sizeofMemdesc
  let slot := mp.nDescriptors - 1 - index
  if alen < blen || !temp blen then .ok descs
  else if mp.nDescriptors < index + 1 + moved then .error .outOfBounds
  else
    .ok (descs.mapIdx fun i d =>
      if slot < i + moved ∧ i ≤ slot then descs.getD (i - 1) d else d)

/-- The body of a pass at the descriptor in `slot`, and whether the walk goes on behind it. -/
def joinPass (mp : MemPool) (temp : Nat → Bool) (chainstart : Nat) (j : Join) (slot : Nat) :
    Except Fault (Join × Bool) :=
  let first := j.descs.getD chainstart ⟨0, 0, 0, none⟩
  let d := j.descs.getD slot ⟨0, 0, 0, none⟩
  let descs := j.descs.set chainstart { first with nbytes := u64 (first.nbytes + d.nbytes) }
  let index := mp.nDescriptors - 1 - slot
  match mp.countAt j.ndescs with
  | .error e => .error e
  | .ok count =>
      -- the bytes up to the descriptor are compared with a count of descriptors
      if index * sizeofMemdesc < count + 1 then
        match mp.closeUp temp descs count index with
        | .error e => .error e
        | .ok descs => .ok (⟨descs, j.ndescs + 1, u64sub j.total 1⟩, true)
      else .ok (⟨descs, j.ndescs + 1, j.total⟩, false)

/-- The loop at the descriptor in `slot`; each pass lets `ndescs` point one field further back. -/
def joinLoop (mp : MemPool) (temp : Nat → Bool) (chainstart : Nat) (targetflags : BitVec 32) :
    Nat → Join → Nat → Except Fault Join
  | 0, _, _ => .error .hang
  | passes + 1, j, slot =>
      match (j.descs.getD slot ⟨0, 0, 0, none⟩).next with
      | none => .ok j
      | some next =>
          if flagCheck (j.descs.getD slot ⟨0, 0, 0, none⟩).flags targetflags then
            match mp.joinPass temp chainstart j slot with
            | .error e => .error e
            | .ok (j, true) => joinLoop mp temp chainstart targetflags passes j next
            | .ok (j, false) => .ok j
          else .ok j

/--
`fusememory` with any flags, and the number of allocations behind it.  No pass
comes behind the third one, for which the counter is the base of the pool.
-/
def fusememoryWith (mp : MemPool) (temp : Nat → Bool) (chainstart targetbytes : Nat)
    (targetflags : BitVec 32) (total : Nat) : Except Fault (MemPool × Nat) :=
  match mp.metbytes targetflags (mp.nDescriptors + 1) chainstart 0 with
  | .error e => .error e
  | .ok met =>
      if met < targetbytes then .ok (mp, total)
      else
        match mp.joinLoop temp chainstart targetflags 4 ⟨mp.descs, 0, total⟩ chainstart with
        | .error e => .error e
        | .ok j =>
            match mp.countAt j.ndescs with
            | .error e => .error e
            | .ok count =>
                match mp.fixLoop temp (count - 1) ⟨j.descs, 0, j.ndescs⟩ with
                | .error e => .error e
                | .ok r => .ok ({ mp with descs := r.descs }, j.total)

def Joins (mp : MemPool) (chainstart targetbytes : Nat) (targetflags : BitVec 32) : Prop :=
  (mp.next chainstart).isSome ∧ flagCheck (mp.desc chainstart).flags targetflags = true ∧
    ∃ met, mp.metbytes targetflags (mp.nDescriptors + 1) chainstart 0 = .ok met ∧
      targetbytes ≤ met

variable {mp : MemPool}

theorem joinLoop_stops {temp : Nat → Bool} {chainstart passes total : Nat}
    {targetflags : BitVec 32}
    (h : ¬ ((mp.next chainstart).isSome ∧
      flagCheck (mp.desc chainstart).flags targetflags = true)) :
    mp.joinLoop temp chainstart targetflags (passes + 1) ⟨mp.descs, 0, total⟩ chainstart =
      .ok ⟨mp.descs, 0, total⟩ := by
  have hdesc : mp.descs.getD chainstart ⟨0, 0, 0, none⟩ = mp.desc chainstart := rfl
  rw [joinLoop]
  simp only [hdesc]
  rw [next] at h
  cases hnext : (mp.desc chainstart).next with
  | none => rfl
  | some slot =>
      rw [hnext] at h
      exact if_neg fun hcheck => h ⟨rfl, hcheck⟩

/-! ## The sum of the first walk -/

/-- Each descriptor is linked as `fixmdarray` links it. -/
def NextClosest (mp : MemPool) : Prop :=
  ∀ slot < mp.nDescriptors, mp.next slot = mp.closest slot

/-- The sizes along the chain, as far as the flags hold the target's. -/
def flaggedBytes (mp : MemPool) (targetflags : BitVec 32) : Nat → Nat → Nat
  | 0, _ => 0
  | fuel + 1, slot =>
      match mp.next slot with
      | none => mp.nbytes slot
      | some slot' =>
          if flagCheck (mp.desc slot').flags targetflags then
            mp.nbytes slot + flaggedBytes mp targetflags fuel slot'
          else mp.nbytes slot

def higher (mp : MemPool) (slot : Nat) : Finset Nat :=
  (Finset.range mp.nDescriptors).filter fun i => mp.ptr slot < mp.ptr i

theorem higher_card_le (mp : MemPool) (slot : Nat) : (mp.higher slot).card ≤ mp.nDescriptors :=
  (Finset.card_filter_le _ _).trans (Nat.le_of_eq (Finset.card_range _))

section Chain

variable (hwords : mp.Words) (hnext : mp.NextClosest)

include hwords hnext

theorem next_higher {slot slot' : Nat} (hslot : slot < mp.nDescriptors)
    (h : mp.next slot = some slot') :
    slot' < mp.nDescriptors ∧ (mp.higher slot').card < (mp.higher slot).card := by
  rw [hnext slot hslot] at h
  rcases closest_spec hwords.ptr slot with ⟨hnone, -⟩ | ⟨m, hsome, hleast⟩
  · rw [hnone] at h
    cases h
  · obtain rfl := Option.some.inj (hsome.symm.trans h)
    have hfront := hleast.holds.1
    refine ⟨hleast.lt, Finset.card_lt_card ?_⟩
    rw [Finset.ssubset_iff_of_subset]
    · exact ⟨m, Finset.mem_filter.mpr ⟨Finset.mem_range.mpr hleast.lt, hfront⟩,
        fun hm => Nat.lt_irrefl _ (Finset.mem_filter.mp hm).2⟩
    · intro i hi
      obtain ⟨hrange, hlt⟩ := Finset.mem_filter.mp hi
      exact Finset.mem_filter.mpr ⟨hrange, hfront.trans hlt⟩

omit hwords hnext in
theorem u64sub_u64sub (a b d : Nat) : u64sub (u64sub a b) d = u64sub a (b + d) := by
  simp only [u64sub, u64]
  omega

theorem metbytes_eq (targetflags : BitVec 32) (fuel slot met : Nat)
    (hslot : slot < mp.nDescriptors) (hfuel : (mp.higher slot).card < fuel) :
    mp.metbytes targetflags fuel slot met =
      .ok (u64sub met (mp.flaggedBytes targetflags fuel slot)) := by
  induction fuel generalizing slot met with
  | zero => exact absurd hfuel (Nat.not_lt_zero _)
  | succ fuel ih =>
      rw [metbytes, flaggedBytes]
      cases hlink : mp.next slot with
      | none => rfl
      | some slot' =>
          obtain ⟨hslot', hless⟩ := next_higher hwords hnext hslot hlink
          simp only
          split
          · rw [ih slot' _ hslot' (by omega), u64sub_u64sub]
          · rfl

end Chain

/-! ## What fusing should do -/

def total (mp : MemPool) (slots : List Nat) : Nat := (slots.map mp.nbytes).sum

/--
The slots of the unused descriptors behind `chainstart`, each of which begins
where the one before it ends, as far as there are any.
-/
structure FreeRun (mp : MemPool) (chainstart : Nat) (slots : List Nat) : Prop where
  laid : Laid mp.ptr mp.nbytes (mp.ptr chainstart) (chainstart :: slots)
    (mp.ptr chainstart + mp.total (chainstart :: slots))
  nodup : (chainstart :: slots).Nodup
  unused : ∀ slot ∈ slots, slot < mp.nDescriptors ∧ mp.unused slot = true
  maximal : ∀ slot < mp.nDescriptors, slot ∉ chainstart :: slots → mp.unused slot = true →
    mp.ptr slot ≠ mp.ptr chainstart + mp.total (chainstart :: slots)

/-- `chainstart` and the unused descriptors adjacent after it have the bytes. -/
def Joinable (mp : MemPool) (chainstart targetbytes : Nat) : Prop :=
  ∃ slots, mp.FreeRun chainstart slots ∧ targetbytes ≤ mp.total (chainstart :: slots)

/-- The pool with the descriptors of some slots joined to `chainstart`, apart from links. -/
structure Fused (mp : MemPool) (chainstart : Nat) (slots : List Nat) (mp' : MemPool) :
    Prop where
  base : mp'.base = mp.base
  nblocks : mp'.nblocks = mp.nblocks
  kept : mp'.descs.map MemDesc.unlinked =
    ((List.range mp.nDescriptors).filter (· ∉ slots)).map fun slot =>
      if slot = chainstart then
        { (mp.desc slot).unlinked with nbytes := mp.total (chainstart :: slots) }
      else (mp.desc slot).unlinked

/-- Blocks that suffice are joined and the answer is yes; otherwise nothing happens. -/
structure FusesRight (mp : MemPool) (chainstart targetbytes : Nat)
    (result : Except Fault (Bool × MemPool)) : Prop where
  joins : mp.Joinable chainstart targetbytes → ∃ slots mp', mp.FreeRun chainstart slots ∧
    result = .ok (true, mp') ∧ mp.Fused chainstart slots mp'
  refuses : ¬ mp.Joinable chainstart targetbytes → result = .ok (false, mp)

theorem fuses_false {mp' : MemPool} {chainstart targetbytes : Nat} {targetflags : BitVec 32}
    {out : Bool} (h : mp.fuses chainstart targetbytes targetflags = .ok (out, mp')) :
    out = false := by
  rw [fuses] at h
  split at h
  case h_1 => cases h
  case h_2 =>
    split at h
    · cases h
      rfl
    · rw [fuseLoop] at h
      split at h
      case h_1 => cases h
      case h_2 hpass =>
        split at h
        case h_1 => cases h
        case h_2 =>
          cases h
          split at hpass
          · cases hpass
          · cases hpass
            rfl

theorem fixmdarray_linked_iff (hnext : mp.NextClosest) :
    mp.fixmdarray = .ok mp ↔
      ∀ slot, slot + 1 < mp.nDescriptors → mp.nbytes slot ≠ 0 := by
  constructor
  · intro hfix
    exact (fixmdarray_ok hfix).1
  · intro hsizes
    rw [(repairArray_eq (fun _ => true) hsizes).2]
    congr 1
    refine ext_desc rfl rfl (mp.linkUpTo_count _) fun slot hslot => ?_
    rw [desc_linkUpTo mp _ hslot]
    split
    · rw [← hnext slot hslot]
      rfl
    · rfl

/--
In a linked pool, `fusememory` does what it should exactly if the blocks do not
suffice, and either the negated sum of the first walk is below the target, or
the second walk does not start and no descriptor but the newest is empty.
-/
theorem fusesRight_iff (mp : MemPool) (chainstart targetbytes : Nat) (hwords : mp.Words)
    (hnext : mp.NextClosest) (hstart : chainstart < mp.nDescriptors) :
    mp.FusesRight chainstart targetbytes (mp.fuses chainstart targetbytes notUsed) ↔
      ¬ mp.Joinable chainstart targetbytes ∧
        (u64sub 0 (mp.flaggedBytes notUsed (mp.nDescriptors + 1) chainstart) < targetbytes ∨
          ¬ ((mp.next chainstart).isSome ∧ flagCheck (mp.desc chainstart).flags notUsed) ∧
            ∀ slot, slot + 1 < mp.nDescriptors → mp.nbytes slot ≠ 0) := by
  have hmet := metbytes_eq hwords hnext notUsed (mp.nDescriptors + 1) chainstart 0 hstart
    (Nat.lt_succ_of_le (mp.higher_card_le chainstart))
  have hsame : mp.fuses chainstart targetbytes notUsed = .ok (false, mp) ↔
      u64sub 0 (mp.flaggedBytes notUsed (mp.nDescriptors + 1) chainstart) < targetbytes ∨
        ¬ ((mp.next chainstart).isSome ∧ flagCheck (mp.desc chainstart).flags notUsed) ∧
          ∀ slot, slot + 1 < mp.nDescriptors → mp.nbytes slot ≠ 0 := by
    rw [← fixmdarray_linked_iff hnext, fuses, hmet]
    simp only
    split
    case isTrue hlt => exact iff_of_true rfl (Or.inl hlt)
    case isFalse hge =>
      rw [or_iff_right hge, fuseLoop]
      by_cases hpass : (mp.next chainstart).isSome ∧
          flagCheck (mp.desc chainstart).flags notUsed
      · rw [if_pos hpass]
        exact iff_of_false (fun h => by cases h) fun h => h.1 hpass
      · rw [if_neg hpass, and_iff_right hpass]
        cases hfix : mp.fixmdarray with
        | error e =>
            simp only [hfix]
            exact iff_of_false (fun h => by cases h) fun h => by cases h
        | ok mp' =>
            simp only [hfix]
            constructor
            · intro h
              rw [(Prod.mk.inj (Except.ok.inj h)).2]
            · intro h
              rw [Except.ok.inj h]
  rw [← hsame]
  constructor
  · intro h
    have hnot : ¬ mp.Joinable chainstart targetbytes := by
      intro hjoin
      obtain ⟨slots, mp', -, hrun, -⟩ := h.joins hjoin
      cases fuses_false hrun
    exact ⟨hnot, h.refuses hnot⟩
  · rintro ⟨hnot, hrun⟩
    exact ⟨fun hjoin => absurd hjoin hnot, fun _ => hrun⟩

/-! ### Small pools -/

theorem not_joinable {chainstart targetbytes : Nat} (hstart : chainstart < mp.nDescriptors)
    (hless : mp.total (List.range mp.nDescriptors) < targetbytes) :
    ¬ mp.Joinable chainstart targetbytes := by
  rintro ⟨slots, hrun, hle⟩
  have hsubset : chainstart :: slots ⊆ List.range mp.nDescriptors := by
    intro slot hslot
    rw [List.mem_range]
    rcases List.mem_cons.mp hslot with rfl | hslot
    · exact hstart
    · exact (hrun.unused slot hslot).1
  obtain ⟨slots', hperm, hsub⟩ := hrun.nodup.subperm hsubset
  have heq : mp.total slots' = mp.total (chainstart :: slots) := (hperm.map mp.nbytes).sum_nat
  have hbound : mp.total slots' ≤ mp.total (List.range mp.nDescriptors) :=
    (hsub.map mp.nbytes).sum_le_sum fun _ _ => Nat.zero_le _
  omega

theorem nextClosest_twoDescs : (twoDescs 8).NextClosest :=
  (by decide +kernel : ∀ slot < 2, (twoDescs 8).next slot = (twoDescs 8).closest slot)

theorem fusesRight_iff_twoDescs :
    (twoDescs 8).FusesRight 1 100 ((twoDescs 8).fuses 1 100 notUsed) := by
  refine (fusesRight_iff (twoDescs 8) 1 100 twoDescs_words nextClosest_twoDescs
    (by decide)).mpr
      ⟨not_joinable (by decide) (by decide), Or.inr ⟨by decide, fun slot hslot => ?_⟩⟩
  obtain rfl : slot = 0 := Nat.lt_one_iff.mp (Nat.lt_of_succ_lt_succ hslot)
  decide

def emptyBehind : MemPool := ⟨65536, 16, [⟨65544, 0, 0, none⟩, ⟨65536, 8, 0, some 0⟩]⟩

/--
Two free blocks of 8 bytes that touch are not joined for 16 bytes; and next to an
empty descriptor a request that cannot be met runs out of the counter.
-/
theorem not_fusesRight_twoDescs :
    ¬ (twoDescs 8).FusesRight 0 16 ((twoDescs 8).fuses 0 16 notUsed) ∧
      ¬ emptyBehind.FusesRight 1 100 (emptyBehind.fuses 1 100 notUsed) := by
  constructor
  · intro h
    have hrun : (twoDescs 8).FreeRun 0 [1] :=
      ⟨⟨rfl, rfl, rfl⟩, by decide, by decide, by decide⟩
    obtain ⟨slots, mp', -, htrue, -⟩ := h.joins ⟨[1], hrun, by decide⟩
    cases fuses_false htrue
  · intro h
    have hrun := h.refuses (not_joinable (by decide) (by decide))
    have hfault : (emptyBehind.fuses 1 100 notUsed).toOption.isNone := by decide +kernel
    rw [hrun] at hfault
    cases hfault

end MemPool

end BlockyOS.Kernel
