import BlockyOS.Foundation.Minima
import BlockyOS.Kernel.HeapPool

/-!
# The repair of the descriptor array

`fixmdarray` with its two pointers.  `ndescs--` moves the pointer to the counter
of the pool back instead of lowering the counter, and later reads go through the
moved pointer.
-/

namespace BlockyOS.Kernel

open BlockyOS.Foundation
open BlockyOS.HostTool (Fault)

/-- Where `fixmdarray` is: the descriptors, the places `md` moved on and `ndescs` back. -/
structure Repair where
  descs : List MemDesc
  md : Nat
  ndescs : Nat

def MemDesc.unlinked (d : MemDesc) : MemDesc := { d with next := none }

namespace MemPool

/-! ## The loop -/

/-- `*ndescs`: the fields of a pool in front of the counter are `nblocks` and `base`. -/
def countAt (mp : MemPool) : Nat → Except Fault Nat
  | 0 => .ok mp.nDescriptors
  | 1 => .ok mp.nblocks
  | 2 => .ok mp.base
  | _ => .error .outOfBounds

/--
`memmove_s(md + 1, alen, md, blen)`.  The element `md[i]` is the slot
`nDescriptors - 1 - (md + i)`; `temp` tells whether the pages for the copy are there.
-/
def memmove_s (mp : MemPool) (temp : Nat → Bool) (r : Repair) (alen blen : Nat) :
    Except Fault (List MemDesc) :=
  let moved := blen / sizeofMemdesc
  if alen < blen || !temp blen then .ok r.descs
  else if mp.nDescriptors < r.md + 1 + moved then .error .outOfBounds
  else
    .ok (r.descs.mapIdx fun slot d =>
      if mp.nDescriptors - 1 - (r.md + moved) ≤ slot ∧ slot < mp.nDescriptors - 1 - r.md then
        r.descs.getD (slot + 1) d
      else d)

/-- The slots of `md[count - 1]` down to `md[0]`. -/
def slotsFrom (mp : MemPool) (r : Repair) (count : Nat) : List Nat :=
  (List.range count).reverse.map fun i => mp.nDescriptors - 1 - (r.md + i)

/-- The inner loop: the closest of the descriptors `md[count - 1]` to `md[0]`. -/
def nextSlot (mp : MemPool) (r : Repair) (count slot : Nat) : Option Nat :=
  ((mp.slotsFrom r count).foldl ({ mp with descs := r.descs }.nearer slot) (none, 2 ^ 64 - 1)).1

/-- The body of the loop at `md[cc]`. -/
def fixOne (mp : MemPool) (temp : Nat → Bool) (r : Repair) (cc : Nat) : Except Fault Repair :=
  let slot := mp.nDescriptors - 1 - (r.md + cc)
  if mp.nDescriptors ≤ r.md + cc then .error .outOfBounds
  else
    match mp.countAt r.ndescs with
    | .error e => .error e
    | .ok count =>
        let d := r.descs.getD slot ⟨0, 0, 0, none⟩
        if d.nbytes = 0 then
          match mp.memmove_s temp r (u64 (sizeofMemdesc * count))
              (u64 (sizeofMemdesc * u64sub count cc)) with
          | .error e => .error e
          | .ok descs => .ok ⟨descs, r.md + 1, r.ndescs + 1⟩
        else if mp.nDescriptors < r.md + count then .error .outOfBounds
        else
          .ok { r with descs := r.descs.set slot { d with next := mp.nextSlot r count slot } }

/-- The loop from `md[cc]` down to `md[1]`. -/
def fixLoop (mp : MemPool) (temp : Nat → Bool) : Nat → Repair → Except Fault Repair
  | 0, r => .ok r
  | cc + 1, r =>
      match mp.fixOne temp r (cc + 1) with
      | .error e => .error e
      | .ok r => fixLoop mp temp cc r

/-- `fixmdarray(mp, &mp->nDescriptors)`: the counter itself is never written. -/
def repairArray (mp : MemPool) (temp : Nat → Bool) : Except Fault MemPool :=
  match mp.fixLoop temp (mp.nDescriptors - 1) ⟨mp.descs, 0, 0⟩ with
  | .error e => .error e
  | .ok r => .ok { mp with descs := r.descs }

/-! ### The count stays -/

variable {mp : MemPool} {temp : Nat → Bool}

theorem memmove_s_length {r : Repair} {alen blen : Nat} {descs : List MemDesc}
    (h : mp.memmove_s temp r alen blen = .ok descs) : descs.length = r.descs.length := by
  rw [memmove_s] at h
  split at h
  · rw [← Except.ok.inj h]
  · split at h
    · cases h
    · rw [← Except.ok.inj h]
      exact List.length_mapIdx

theorem fixOne_length {r r' : Repair} {cc : Nat} (h : mp.fixOne temp r cc = .ok r') :
    r'.descs.length = r.descs.length := by
  rw [fixOne] at h
  split at h
  case isTrue => cases h
  case isFalse =>
    cases hcount : mp.countAt r.ndescs with
    | error e =>
        rw [hcount] at h
        cases h
    | ok count =>
        rw [hcount] at h
        simp only at h
        split at h
        case isTrue =>
          split at h
          case h_1 => cases h
          case h_2 descs hmove =>
            rw [← Except.ok.inj h]
            exact memmove_s_length hmove
        case isFalse =>
          split at h
          case isTrue => cases h
          case isFalse =>
            rw [← Except.ok.inj h]
            exact List.length_set

theorem fixLoop_length {cc : Nat} {r r' : Repair} (h : mp.fixLoop temp cc r = .ok r') :
    r'.descs.length = r.descs.length := by
  induction cc generalizing r with
  | zero =>
      cases h
      rfl
  | succ cc ih =>
      rw [fixLoop] at h
      cases hone : mp.fixOne temp r (cc + 1) with
      | error e =>
          rw [hone] at h
          cases h
      | ok r₁ =>
          rw [hone] at h
          exact (ih h).trans (fixOne_length hone)

theorem repairArray_count {mp' : MemPool} (h : mp.repairArray temp = .ok mp') :
    mp'.nDescriptors = mp.nDescriptors := by
  rw [repairArray] at h
  split at h
  case h_1 => cases h
  case h_2 r hloop =>
    cases h
    exact fixLoop_length hloop

/-! ### Without empty descriptors -/

/-- The descriptors of the first `count` slots linked to the closest one, the others as they are. -/
def linkUpTo (mp : MemPool) (count : Nat) : MemPool :=
  { mp with
    descs := mp.descs.mapIdx fun slot d =>
      if slot < count then { d with next := mp.closest slot } else d }

theorem linkUpTo_count (mp : MemPool) (count : Nat) :
    (mp.linkUpTo count).nDescriptors = mp.nDescriptors := List.length_mapIdx

theorem desc_linkUpTo (mp : MemPool) (count : Nat) {slot : Nat} (hslot : slot < mp.nDescriptors) :
    (mp.linkUpTo count).desc slot =
      if slot < count then { mp.desc slot with next := mp.closest slot } else mp.desc slot := by
  have hslot' : slot < (mp.linkUpTo count).descs.length := by
    rw [show (mp.linkUpTo count).descs.length = mp.nDescriptors from mp.linkUpTo_count count]
    exact hslot
  rw [desc_of_lt hslot', desc_of_lt (show slot < mp.descs.length from hslot)]
  exact List.getElem_mapIdx

theorem linkUpTo_place (mp : MemPool) (count : Nat) :
    (mp.linkUpTo count).ptr = mp.ptr ∧ (mp.linkUpTo count).nbytes = mp.nbytes := by
  have hdesc : ∀ slot, (mp.linkUpTo count).ptr slot = mp.ptr slot ∧
      (mp.linkUpTo count).nbytes slot = mp.nbytes slot := by
    intro slot
    rcases Nat.lt_or_ge slot mp.nDescriptors with hslot | hslot
    · rw [ptr, nbytes, ptr, nbytes, desc_linkUpTo mp _ hslot]
      split <;> exact ⟨rfl, rfl⟩
    · rw [ptr, nbytes, ptr, nbytes, desc_of_le hslot,
        desc_of_le (by rw [linkUpTo_count]; exact hslot)]
      exact ⟨rfl, rfl⟩
  exact ⟨funext fun slot => (hdesc slot).1, funext fun slot => (hdesc slot).2⟩

theorem linkUpTo_zero (mp : MemPool) : mp.linkUpTo 0 = mp := by
  refine ext_desc rfl rfl (mp.linkUpTo_count 0) fun slot hslot => ?_
  rw [desc_linkUpTo mp _ hslot, if_neg (Nat.not_lt_zero _)]

theorem slotsFrom_start (descs : List MemDesc) :
    mp.slotsFrom ⟨descs, 0, 0⟩ mp.nDescriptors = List.range mp.nDescriptors := by
  apply List.ext_getElem (by simp [slotsFrom])
  intro i hi hi'
  have hlt : i < mp.nDescriptors := by simpa using hi'
  simp only [slotsFrom, List.getElem_map, List.getElem_reverse, List.getElem_range,
    List.length_range]
  omega

theorem nextSlot_start (mp mp' : MemPool) (hbase : mp'.base = mp.base)
    (hblocks : mp'.nblocks = mp.nblocks) (hcount : mp'.nDescriptors = mp.nDescriptors)
    (slot : Nat) : mp.nextSlot ⟨mp'.descs, 0, 0⟩ mp.nDescriptors slot = mp'.closest slot := by
  have hpool : ({ mp with descs := mp'.descs } : MemPool) = mp' := by
    cases mp'
    cases mp
    simp only at hbase hblocks
    rw [hbase, hblocks]
  rw [nextSlot, slotsFrom_start, hpool, closest, hcount]

theorem linkUpTo_set (mp : MemPool) (slot : Nat) :
    (mp.linkUpTo slot).descs.set slot { mp.desc slot with next := mp.closest slot } =
      (mp.linkUpTo (slot + 1)).descs := by
  apply List.ext_getElem (by simp [linkUpTo])
  intro i hi hi'
  have hlt : i < mp.descs.length := by simpa [linkUpTo] using hi'
  rw [List.getElem_set]
  simp only [linkUpTo, List.getElem_mapIdx]
  by_cases heq : slot = i
  · subst heq
    rw [if_pos rfl, if_pos (Nat.lt_succ_self slot), desc_of_lt hlt]
  · rw [if_neg heq]
    exact if_congr (by omega) rfl rfl

theorem fixOne_link {cc slot : Nat} (hcc : 0 < cc) (hn : cc + slot + 1 = mp.nDescriptors)
    (hsize : mp.nbytes slot ≠ 0) :
    mp.fixOne temp ⟨(mp.linkUpTo slot).descs, 0, 0⟩ cc =
      .ok ⟨(mp.linkUpTo (slot + 1)).descs, 0, 0⟩ := by
  have hslot : slot < mp.nDescriptors := by omega
  have hindex : mp.nDescriptors - 1 - (0 + cc) = slot := by omega
  have hplace := mp.linkUpTo_place slot
  have hnext : mp.nextSlot ⟨(mp.linkUpTo slot).descs, 0, 0⟩ mp.nDescriptors slot =
      mp.closest slot := by
    rw [mp.nextSlot_start (mp.linkUpTo slot) rfl rfl (mp.linkUpTo_count slot),
      closest_congr (mp.linkUpTo_count slot) hplace.1 hplace.2]
  have hdesc : (mp.linkUpTo slot).descs.getD slot ⟨0, 0, 0, none⟩ = mp.desc slot := by
    have hlinked := mp.desc_linkUpTo slot hslot
    rw [if_neg (Nat.lt_irrefl _)] at hlinked
    exact hlinked
  have hbytes : (mp.desc slot).nbytes ≠ 0 := hsize
  rw [fixOne]
  dsimp only
  rw [hindex, hdesc, if_neg (by omega), show mp.countAt 0 = .ok mp.nDescriptors from rfl]
  dsimp only
  rw [if_neg hbytes, if_neg (by omega), hnext, linkUpTo_set]

theorem fixLoop_link (temp : Nat → Bool) (cc slot : Nat) (hn : cc + slot + 1 = mp.nDescriptors)
    (hsizes : ∀ slot, slot + 1 < mp.nDescriptors → mp.nbytes slot ≠ 0) :
    mp.fixLoop temp cc ⟨(mp.linkUpTo slot).descs, 0, 0⟩ =
      .ok ⟨(mp.linkUpTo (mp.nDescriptors - 1)).descs, 0, 0⟩ := by
  induction cc generalizing slot with
  | zero =>
      rw [fixLoop, show mp.nDescriptors - 1 = slot by omega]
  | succ cc ih =>
      rw [fixLoop, fixOne_link (Nat.succ_pos cc) hn (hsizes slot (by omega))]
      exact ih _ (by omega)

/-- Where no descriptor but the newest is empty, the loop is the repair of the heap's model. -/
theorem repairArray_eq (temp : Nat → Bool)
    (hsizes : ∀ slot, slot + 1 < mp.nDescriptors → mp.nbytes slot ≠ 0) :
    mp.repairArray temp = mp.fixmdarray ∧
      mp.fixmdarray = .ok (mp.linkUpTo (mp.nDescriptors - 1)) := by
  have hfix : mp.fixmdarray = .ok (mp.linkUpTo (mp.nDescriptors - 1)) := by
    rw [fixmdarray, if_neg]
    · rw [linkUpTo]
      congr 3
      funext slot d
      exact if_congr (by omega) rfl rfl
    · rw [List.any_eq_true]
      rintro ⟨slot, hslot, hzero⟩
      have hlt := List.mem_range.mp hslot
      exact hsizes slot (by omega) (by simpa using hzero)
  refine ⟨?_, hfix⟩
  rw [hfix, repairArray]
  by_cases hempty : mp.nDescriptors = 0
  · rw [hempty]
    have hnone := mp.linkUpTo_zero
    rw [hnone]
    rfl
  · have hn : (mp.nDescriptors - 1) + 0 + 1 = mp.nDescriptors := by omega
    have hloop := fixLoop_link temp (mp.nDescriptors - 1) 0 hn hsizes
    rw [linkUpTo_zero] at hloop
    rw [hloop]
    rfl

/-! ### The closest descriptor -/

/-- What `fixmdarray` takes for a descriptor behind the one at `slot`. -/
def Behind (mp : MemPool) (slot slot' : Nat) : Prop :=
  mp.ptr slot < mp.ptr slot' ∧ u64 (mp.ptr slot + mp.nbytes slot) ≤ mp.ptr slot'

theorem nearer_behind {slot slot' : Nat} (best : Option Nat × Nat) (h : mp.Behind slot slot') :
    mp.nearer slot best slot' =
      if best.2 < mp.ptr slot' - u64 (mp.ptr slot + mp.nbytes slot) then best
      else (some slot', mp.ptr slot' - u64 (mp.ptr slot + mp.nbytes slot)) := by
  obtain ⟨hfront, hend⟩ := h
  rw [nearer, if_neg (by omega)]
  exact if_congr (or_iff_right (Nat.not_lt.mpr hend)) rfl rfl

theorem nearer_not_behind {slot slot' : Nat} (best : Option Nat × Nat)
    (h : ¬ mp.Behind slot slot') : mp.nearer slot best slot' = best := by
  rw [nearer]
  by_cases hfront : mp.ptr slot' = mp.ptr slot ∨ mp.ptr slot' < mp.ptr slot
  · exact if_pos hfront
  · rw [if_neg hfront]
    refine if_pos (Or.inl (Nat.not_le.mp fun hend => h ⟨by omega, hend⟩))

theorem foldl_nearer (hwords : ∀ slot, mp.ptr slot < 2 ^ 64) (slot count : Nat) :
    ((List.range count).foldl (mp.nearer slot) (none, 2 ^ 64 - 1) = (none, 2 ^ 64 - 1) ∧
        ∀ i < count, ¬ mp.Behind slot i) ∨
      ∃ m, (List.range count).foldl (mp.nearer slot) (none, 2 ^ 64 - 1) =
          (some m, mp.ptr m - u64 (mp.ptr slot + mp.nbytes slot)) ∧
        Least (mp.Behind slot) mp.ptr count m := by
  induction count with
  | zero => exact Or.inl ⟨rfl, fun i hi => absurd hi (Nat.not_lt_zero i)⟩
  | succ count ih =>
      rw [List.range_succ, List.foldl_append, List.foldl_cons, List.foldl_nil]
      by_cases hbehind : mp.Behind slot count
      · right
        rw [nearer_behind _ hbehind]
        rcases ih with ⟨hrun, hnone⟩ | ⟨m, hrun, hleast⟩
        · have hword := hwords count
          rw [hrun, if_neg (by simp only; omega)]
          exact ⟨count, rfl, (firstLeast_of_none hnone hbehind).toLeast⟩
        · have hend := hbehind.2
          have hend' := hleast.holds.2
          rw [hrun]
          simp only
          split
          case isTrue hfar => exact ⟨m, rfl, hleast.keep fun _ => by omega⟩
          case isFalse hnear => exact ⟨count, rfl, hleast.replace hbehind (by omega)⟩
      · rw [nearer_not_behind _ hbehind]
        rcases ih with ⟨hrun, hnone⟩ | ⟨m, hrun, hleast⟩
        · exact Or.inl ⟨hrun, Nat.forall_lt_succ_right.mpr ⟨hnone, hbehind⟩⟩
        · exact Or.inr ⟨m, hrun, hleast.keep fun h => absurd h hbehind⟩

theorem closest_spec (hwords : ∀ slot, mp.ptr slot < 2 ^ 64) (slot : Nat) :
    (mp.closest slot = none ∧ ∀ i < mp.nDescriptors, ¬ mp.Behind slot i) ∨
      ∃ m, mp.closest slot = some m ∧ Least (mp.Behind slot) mp.ptr mp.nDescriptors m := by
  rcases foldl_nearer hwords slot mp.nDescriptors with ⟨hrun, hnone⟩ | ⟨m, hrun, hleast⟩
  · exact Or.inl ⟨by rw [closest, hrun], hnone⟩
  · exact Or.inr ⟨m, by rw [closest, hrun], hleast⟩

/-! ## What a repair should do -/

/-- The slot is that of a descriptor with the least `ptr` from `stop` on, if there is one. -/
def Nearest (mp : MemPool) (stop : Nat) : Option Nat → Prop
  | none => ∀ i < mp.nDescriptors, mp.ptr i < stop
  | some m => Least (fun i => stop ≤ mp.ptr i) mp.ptr mp.nDescriptors m

/--
The descriptors that have bytes are left, in their order and with their fields,
and each is linked to the nearest one from its end on.
-/
structure Repaired (mp mp' : MemPool) : Prop where
  base : mp'.base = mp.base
  nblocks : mp'.nblocks = mp.nblocks
  kept : mp'.descs.map MemDesc.unlinked =
    (mp.descs.filter fun d => d.nbytes ≠ 0).map MemDesc.unlinked
  linked : ∀ slot < mp'.nDescriptors,
    mp'.Nearest (mp'.ptr slot + mp'.nbytes slot) (mp'.next slot)

def FixesArray (mp : MemPool) (temp : Nat → Bool) : Prop :=
  ∃ mp', mp.repairArray temp = .ok mp' ∧ mp.Repaired mp'

/-- The fields of the descriptors are 64-bit words. -/
structure Words (mp : MemPool) : Prop where
  ptr : ∀ slot, mp.ptr slot < 2 ^ 64
  nbytes : ∀ slot, mp.nbytes slot < 2 ^ 64

/-- The links of the heap's repair are right unless the end of a descriptor wraps. -/
theorem nearest_closest_iff (hwords : mp.Words) {slot : Nat} (hsize : mp.nbytes slot ≠ 0) :
    mp.Nearest (mp.ptr slot + mp.nbytes slot) (mp.closest slot) ↔
      mp.ptr slot + mp.nbytes slot < 2 ^ 64 ∨
        ∀ i < mp.nDescriptors, mp.ptr i ≤ mp.ptr slot := by
  have hptr := hwords.ptr slot
  have hnbytes := hwords.nbytes slot
  by_cases hfits : mp.ptr slot + mp.nbytes slot < 2 ^ 64
  · have hbehind : mp.Behind slot = fun i => mp.ptr slot + mp.nbytes slot ≤ mp.ptr i := by
      funext i
      rw [Behind, u64_of_lt hfits]
      exact propext ⟨fun h => h.2, fun h => ⟨by omega, h⟩⟩
    refine iff_of_true ?_ (Or.inl hfits)
    rcases closest_spec hwords.ptr slot with ⟨hnone, hall⟩ | ⟨m, hsome, hleast⟩
    · rw [hnone]
      intro i hi
      have hnot := hall i hi
      rw [hbehind] at hnot
      exact Nat.not_le.mp hnot
    · rw [hsome, Nearest, ← hbehind]
      exact hleast
  · -- nothing lies behind an end past the last address
    have hend : u64 (mp.ptr slot + mp.nbytes slot) ≤ mp.ptr slot := by
      rw [u64]
      omega
    rw [or_iff_right hfits]
    rcases closest_spec hwords.ptr slot with ⟨hnone, hall⟩ | ⟨m, hsome, hleast⟩
    · rw [hnone]
      refine iff_of_true (fun i _ => ?_) fun i hi => ?_
      · have hword := hwords.ptr i
        omega
      · by_contra hlt
        exact hall i hi ⟨by omega, by omega⟩
    · rw [hsome]
      have hword := hwords.ptr m
      refine iff_of_false (fun hnear => ?_) fun hall => ?_
      · have hle : mp.ptr slot + mp.nbytes slot ≤ mp.ptr m := hnear.holds
        omega
      · exact absurd (hall m hleast.lt) (Nat.not_le.mpr hleast.holds.1)

theorem nearest_congr {mp mp' : MemPool} (hcount : mp'.nDescriptors = mp.nDescriptors)
    (hptr : mp'.ptr = mp.ptr) (stop : Nat) (next : Option Nat) :
    mp'.Nearest stop next ↔ mp.Nearest stop next := by
  cases next with
  | none => rw [Nearest, Nearest, hcount, hptr]
  | some m => rw [Nearest, Nearest, hcount, hptr]

theorem unlinked_linkUpTo (mp : MemPool) (count : Nat) :
    (mp.linkUpTo count).descs.map MemDesc.unlinked = mp.descs.map MemDesc.unlinked := by
  apply List.ext_getElem (by simp [linkUpTo])
  intro i hi hi'
  simp only [linkUpTo, List.getElem_map, List.getElem_mapIdx]
  split <;> rfl

/--
`fixmdarray` repairs exactly the arrays without an empty descriptor in which the
newest descriptor, which it passes over, is linked right already, and in which
only the descriptor with the highest address may end past the last one.
-/
theorem fixesArray_iff (mp : MemPool) (temp : Nat → Bool) (hwords : mp.Words) :
    mp.FixesArray temp ↔
      (∀ d ∈ mp.descs, d.nbytes ≠ 0) ∧
        (∀ slot, slot + 1 = mp.nDescriptors →
          mp.Nearest (mp.ptr slot + mp.nbytes slot) (mp.next slot)) ∧
        ∀ slot, slot + 1 < mp.nDescriptors → mp.ptr slot + mp.nbytes slot < 2 ^ 64 ∨
          ∀ i < mp.nDescriptors, mp.ptr i ≤ mp.ptr slot := by
  have hnext : ∀ slot, slot < mp.nDescriptors →
      (mp.linkUpTo (mp.nDescriptors - 1)).next slot =
        if slot + 1 < mp.nDescriptors then mp.closest slot else mp.next slot := by
    intro slot hslot
    rw [next, desc_linkUpTo mp _ hslot]
    split
    case isTrue hlt => rw [if_pos (by omega)]
    case isFalse hge =>
      rw [if_neg (by omega)]
      rfl
  have hplace := mp.linkUpTo_place (mp.nDescriptors - 1)
  have hcount := mp.linkUpTo_count (mp.nDescriptors - 1)
  constructor
  · rintro ⟨mp', hrun, hrepaired⟩
    have hsizes : ∀ d ∈ mp.descs, d.nbytes ≠ 0 := by
      have hlen : (mp.descs.filter fun d => d.nbytes ≠ 0).length = mp.descs.length := by
        have hkept := congrArg List.length hrepaired.kept
        rw [List.length_map, List.length_map] at hkept
        exact hkept.symm.trans (repairArray_count hrun)
      intro d hd
      simpa using List.length_filter_eq_length_iff.mp hlen d hd
    have hslots : ∀ slot, slot < mp.nDescriptors → mp.nbytes slot ≠ 0 :=
      fun slot hslot => hsizes _ (desc_mem hslot)
    obtain ⟨heq, hfix⟩ := repairArray_eq temp fun slot hslot => hslots slot (by omega)
    obtain rfl : mp.linkUpTo (mp.nDescriptors - 1) = mp' :=
      Except.ok.inj (hfix.symm.trans (heq.symm.trans hrun))
    have hlinked : ∀ slot < mp.nDescriptors, mp.Nearest (mp.ptr slot + mp.nbytes slot)
        (if slot + 1 < mp.nDescriptors then mp.closest slot else mp.next slot) := by
      intro slot hslot
      have hnear := hrepaired.linked slot (by rw [hcount]; exact hslot)
      rwa [nearest_congr hcount hplace.1, hplace.1, hplace.2, hnext slot hslot] at hnear
    refine ⟨hsizes, fun slot hslot => ?_, fun slot hslot => ?_⟩
    · have hnear := hlinked slot (by omega)
      rwa [if_neg (by omega)] at hnear
    · have hnear := hlinked slot (by omega)
      rw [if_pos hslot] at hnear
      exact (nearest_closest_iff hwords (hslots slot (by omega))).mp hnear
  · rintro ⟨hsizes, hnewest, holder⟩
    have hslots : ∀ slot, slot < mp.nDescriptors → mp.nbytes slot ≠ 0 :=
      fun slot hslot => hsizes _ (desc_mem hslot)
    obtain ⟨heq, hfix⟩ := repairArray_eq temp fun slot hslot => hslots slot (by omega)
    refine ⟨_, heq.trans hfix, rfl, rfl, ?_, fun slot hslot => ?_⟩
    · rw [unlinked_linkUpTo, List.filter_eq_self.mpr fun d hd => by simpa using hsizes d hd]
    · rw [hcount] at hslot
      rw [nearest_congr hcount hplace.1, hplace.1, hplace.2, hnext slot hslot]
      split
      case isTrue hlt =>
        exact (nearest_closest_iff hwords (hslots slot hslot)).mpr (holder slot hlt)
      case isFalse hge => exact hnewest slot (by omega)

/-! ### Two descriptors -/

/-- A block of 8 bytes with a descriptor of `nbytes` bytes in front of it. -/
def twoDescs (nbytes : Nat) : MemPool :=
  ⟨65536, 16, [⟨65536, nbytes, 0, some 1⟩, ⟨65536 + nbytes, 8, 0, none⟩]⟩

theorem twoDescs_words : (twoDescs 8).Words := by
  have hslot : ∀ slot, slot < 2 → (twoDescs 8).ptr slot < 2 ^ 64 ∧
      (twoDescs 8).nbytes slot < 2 ^ 64 := by
    decide
  have hnone : ∀ slot, ¬ slot < 2 → (twoDescs 8).desc slot = ⟨0, 0, 0, none⟩ :=
    fun slot hslot => desc_of_le (Nat.not_lt.mp hslot)
  constructor
  · intro slot
    by_cases hlt : slot < 2
    · exact (hslot slot hlt).1
    · rw [ptr, hnone slot hlt]
      exact Nat.two_pow_pos 64
  · intro slot
    by_cases hlt : slot < 2
    · exact (hslot slot hlt).2
    · rw [nbytes, hnone slot hlt]
      exact Nat.two_pow_pos 64

theorem fixesArray_iff_twoDescs : (twoDescs 8).FixesArray fun _ => true := by
  refine (fixesArray_iff (twoDescs 8) (fun _ => true) twoDescs_words).mpr
    ⟨by decide, fun slot hslot => ?_, fun slot hslot => Or.inl ?_⟩
  · obtain rfl : slot = 1 := Nat.succ.inj hslot
    exact (by decide : ∀ i < 2, (twoDescs 8).ptr i < 65552)
  · exact (by decide : ∀ i < 2, (twoDescs 8).ptr i + (twoDescs 8).nbytes i < 2 ^ 64) slot
      (Nat.lt_of_succ_lt hslot)

/-- The counter still says two after the empty descriptor was removed. -/
theorem not_fixesArray_twoDescs : ¬ (twoDescs 0).FixesArray fun _ => true := by
  rintro ⟨mp', hrun, hrepaired⟩
  have hcount := repairArray_count hrun
  have hkept := congrArg List.length hrepaired.kept
  rw [List.length_map] at hkept
  rw [nDescriptors, hkept] at hcount
  exact absurd hcount (by decide)

end MemPool

end BlockyOS.Kernel
