import BlockyOS.Kernel.Heap

/-!
# What the heap does to one pool

In a pool as the allocator builds it, the descriptors cut the front of the pool
into blocks without a gap, each linked to the one behind it.  The repair then
changes nothing, the chain ends at the last block, and the used size is the sum
of the sizes.
-/

namespace BlockyOS.Kernel

open BlockyOS.Foundation
open BlockyOS.HostTool (Fault)

namespace MemPool

/-! ## Descriptors of a changed pool -/

theorem desc_of_lt {mp : MemPool} {slot : Nat} (h : slot < mp.descs.length) :
    mp.desc slot = mp.descs[slot] := by
  rw [desc, List.getD_eq_getElem?_getD, List.getElem?_eq_getElem h, Option.getD_some]

theorem desc_of_le {mp : MemPool} {slot : Nat} (h : mp.nDescriptors ≤ slot) :
    mp.desc slot = ⟨0, 0, 0, none⟩ := by
  rw [desc, List.getD_eq_getElem?_getD, List.getElem?_eq_none h, Option.getD_none]

theorem desc_mem {mp : MemPool} {slot : Nat} (h : slot < mp.nDescriptors) :
    mp.desc slot ∈ mp.descs := by
  rw [desc_of_lt h]
  exact List.getElem_mem h

theorem mem_iff_desc {mp : MemPool} {d : MemDesc} :
    d ∈ mp.descs ↔ ∃ slot, slot < mp.nDescriptors ∧ mp.desc slot = d := by
  rw [List.mem_iff_getElem]
  constructor
  · rintro ⟨slot, hslot, hd⟩
    exact ⟨slot, hslot, (desc_of_lt hslot).trans hd⟩
  · rintro ⟨slot, hslot, hd⟩
    exact ⟨slot, hslot, (desc_of_lt hslot).symm.trans hd⟩

theorem ext_desc {mp mp' : MemPool} (hbase : mp'.base = mp.base)
    (hblocks : mp'.nblocks = mp.nblocks) (hcount : mp'.nDescriptors = mp.nDescriptors)
    (hdesc : ∀ slot, slot < mp.nDescriptors → mp'.desc slot = mp.desc slot) : mp' = mp := by
  have hdescs : mp'.descs = mp.descs := by
    apply List.ext_getElem hcount
    intro slot hslot' hslot
    rw [← desc_of_lt hslot', ← desc_of_lt hslot]
    exact hdesc slot hslot
  cases mp
  cases mp'
  simp only at hbase hblocks hdescs
  rw [hbase, hblocks, hdescs]

theorem setUsed_of_flags {mp : MemPool} {slot : Nat} (h : (mp.desc slot).flags = 0) :
    mp.setUsed slot = mp := by
  have hsame : { mp.desc slot with flags := flagSet (mp.desc slot).flags memdescUsed } =
      mp.desc slot := by
    rw [h, flagSet_zero, ← h]
  rw [setUsed, hsame, setDesc]
  by_cases hslot : slot < mp.descs.length
  · rw [desc_of_lt hslot, List.set_getElem_self]
  · rw [List.set_eq_of_length_le (Nat.not_lt.mp hslot)]

/-! ## The closest descriptor -/

theorem foldl_nearer_skip (mp : MemPool) (slot : Nat) (l : List Nat)
    (best : Option Nat × Nat)
    (h : ∀ slot' ∈ l, mp.ptr slot' ≤ mp.ptr slot ∨
      mp.ptr slot' < u64 (mp.ptr slot + mp.nbytes slot) ∨
      best.2 < mp.ptr slot' - u64 (mp.ptr slot + mp.nbytes slot)) :
    l.foldl (mp.nearer slot) best = best := by
  induction l with
  | nil => rfl
  | cons slot' l ih =>
      have hskip : mp.nearer slot best slot' = best := by
        rw [nearer]
        by_cases hfront : mp.ptr slot' = mp.ptr slot ∨ mp.ptr slot' < mp.ptr slot
        · exact if_pos hfront
        · have hbehind := (h slot' List.mem_cons_self).resolve_left (by omega)
          simp only [if_neg hfront]
          exact if_pos hbehind
      rw [List.foldl_cons, hskip]
      exact ih fun i hi => h i (List.mem_cons_of_mem _ hi)

theorem foldl_nearer_hit {mp : MemPool} {slot next : Nat} {l : List Nat} (hmem : next ∈ l)
    (hend : mp.ptr next = u64 (mp.ptr slot + mp.nbytes slot))
    (hbehind : mp.ptr slot < mp.ptr next)
    (honly : ∀ slot' ∈ l, mp.ptr slot' = mp.ptr next → slot' = next)
    (best : Option Nat × Nat) :
    (l.foldl (mp.nearer slot) best).1 = some next := by
  have hnext : ∀ best, mp.nearer slot best next = (some next, 0) := by
    intro best
    rw [nearer, if_neg (by omega), if_neg (by omega), ← hend, Nat.sub_self]
  obtain ⟨l₁, l₂, rfl⟩ := List.append_of_mem hmem
  rw [List.foldl_append, List.foldl_cons, hnext]
  have hkeep : ∀ l' : List Nat, (∀ slot' ∈ l', mp.ptr slot' = mp.ptr next → slot' = next) →
      l'.foldl (mp.nearer slot) (some next, 0) = (some next, 0) := by
    intro l' honly'
    induction l' with
    | nil => rfl
    | cons slot' l' ih =>
        rw [List.foldl_cons]
        by_cases heq : mp.ptr slot' = mp.ptr next
        · rw [honly' slot' List.mem_cons_self heq, hnext]
          exact ih fun i hi => honly' i (List.mem_cons_of_mem _ hi)
        · have hskip := foldl_nearer_skip mp slot [slot'] (some next, 0)
            (fun i hi => by
              obtain rfl := List.mem_singleton.mp hi
              simp only
              omega)
          rw [show mp.nearer slot (some next, 0) slot' = (some next, 0) from hskip]
          exact ih fun i hi => honly' i (List.mem_cons_of_mem _ hi)
  rw [hkeep l₂ fun i hi => honly i (by simp [hi])]

/-! ## Pools in order -/

def top (mp : MemPool) : Nat := mp.base + ((List.range mp.nDescriptors).map mp.nbytes).sum

structure Arranged (mp : MemPool) (order : List Nat) : Prop where
  perm : order.Perm (List.range mp.nDescriptors)
  laid : Laid mp.ptr mp.nbytes mp.base order mp.top
  lastEmpty : ∀ slot, slot + 1 = mp.nDescriptors → mp.nbytes slot = 0 →
    order.getLast? = some slot

section Arranged

variable {mp : MemPool} {order : List Nat} (h : mp.Arranged order)

include h

theorem Arranged.mem_iff (slot : Nat) : slot ∈ order ↔ slot < mp.nDescriptors := by
  rw [h.perm.mem_iff, List.mem_range]

theorem Arranged.nodup : order.Nodup := h.perm.nodup_iff.mpr List.nodup_range

theorem Arranged.length : order.length = mp.nDescriptors := by
  rw [h.perm.length_eq, List.length_range]

theorem Arranged.bounds {slot : Nat} (hslot : slot < mp.nDescriptors) :
    mp.base ≤ mp.ptr slot ∧ mp.ptr slot + mp.nbytes slot ≤ mp.top :=
  h.laid.bounds ((h.mem_iff slot).mpr hslot)

theorem Arranged.other {pre post : List Nat} {slot i : Nat} (horder : order = pre ++ slot :: post)
    (hi : i ∈ pre ++ post) : i ≠ slot ∧ i < mp.nDescriptors := by
  subst horder
  constructor
  · rintro rfl
    exact (List.nodup_cons.mp (List.nodup_middle.mp h.nodup)).1 hi
  · rw [← h.mem_iff]
    rcases List.mem_append.mp hi with hi | hi
    · exact List.mem_append_left _ hi
    · exact List.mem_append_right _ (List.mem_cons_of_mem _ hi)

/--
Where every descriptor but the newest has a size, the closest descriptor is the
one behind in the order.
-/
theorem Arranged.closest_eq (htop : mp.top < 2 ^ 64)
    (hsize : ∀ slot, slot + 1 < mp.nDescriptors → mp.nbytes slot ≠ 0)
    {pre post : List Nat} {slot : Nat} (horder : order = pre ++ slot :: post)
    (hslot : slot + 1 < mp.nDescriptors) : mp.closest slot = post.head? := by
  subst horder
  have hend : u64 (mp.ptr slot + mp.nbytes slot) = mp.ptr slot + mp.nbytes slot := by
    have hle := (h.bounds (show slot < mp.nDescriptors by omega)).2
    exact u64_of_lt (by omega)
  have hpositive := hsize slot hslot
  obtain ⟨hpre, hpost⟩ := laid_split.mp h.laid
  have hbefore : ∀ slot' ∈ pre, mp.ptr slot' + mp.nbytes slot' ≤ mp.ptr slot :=
    fun slot' hslot' => (hpre.bounds hslot').2
  cases post with
  | nil =>
      have hskip := foldl_nearer_skip mp slot
        (List.range mp.nDescriptors) (none, 2 ^ 64 - 1) (fun slot' hslot' => by
          have hmem := (h.mem_iff slot').mpr (List.mem_range.mp hslot')
          rcases List.mem_append.mp hmem with hin | hin
          · have hle := hbefore slot' hin
            omega
          · obtain rfl := List.mem_singleton.mp hin
            exact Or.inl (Nat.le_refl _))
      rw [closest, hskip]
      rfl
  | cons next post =>
      obtain ⟨hstart, hrest⟩ := hpost
      have hmem : next ∈ List.range mp.nDescriptors :=
        List.mem_range.mpr ((h.mem_iff next).mp (by simp))
      refine foldl_nearer_hit hmem (by rw [hend, hstart]) (by omega) (fun slot' hslot' heq => ?_) _
      have hin := (h.mem_iff slot').mpr (List.mem_range.mp hslot')
      rcases List.mem_append.mp hin with hin | hin
      · have hle := hbefore slot' hin
        omega
      · rcases List.mem_cons.mp hin with rfl | hin
        · omega
        · rcases List.mem_cons.mp hin with rfl | hin
          · rfl
          · -- only an empty newest descriptor starts where another one does, and it is last
            have hle := (hrest.bounds hin).1
            have hempty : mp.nbytes next = 0 := by omega
            have hnewest : next + 1 = mp.nDescriptors := by
              by_contra hne
              have hlt := List.mem_range.mp hmem
              exact hsize next (by omega) hempty
            have hlast := h.lastEmpty next hnewest hempty
            have hnodup := h.nodup
            obtain ⟨post, last, rfl⟩ := (List.eq_nil_or_concat post).resolve_left
              (List.ne_nil_of_mem hin)
            simp only [List.concat_eq_append, ← List.cons_append, ← List.append_assoc,
              List.getLast?_concat, Option.some.injEq] at hlast
            subst hlast
            have htail := (List.nodup_cons.mp (List.nodup_append.mp hnodup).2.1).2
            exact absurd (by simp) (List.nodup_cons.mp htail).1

end Arranged

theorem top_eq_of_laid {mp : MemPool} {order : List Nat} {b : Nat}
    (hperm : order.Perm (List.range mp.nDescriptors))
    (hlaid : Laid mp.ptr mp.nbytes mp.base order b) : b = mp.top := by
  rw [hlaid.end_eq, top, (hperm.map mp.nbytes).sum_nat]

/--
A pool as the allocator keeps it: arranged and linked, nothing marked as in use,
and room for one descriptor behind the blocks.
-/
structure WellFormed (mp : MemPool) : Prop where
  arranged : ∃ order, mp.Arranged order ∧ Linked mp.next order
  flags : ∀ slot, (mp.desc slot).flags = 0
  room : 0 < mp.nDescriptors → mp.top + sizeofMemdesc ≤ mp.base + mp.bytes
  base : 8 ∣ mp.base
  sizes : ∀ slot, 8 ∣ mp.nbytes slot
  fits : mp.base + mp.bytes < 2 ^ 64

theorem top_empty {mp : MemPool} (h : mp.nDescriptors = 0) : mp.top = mp.base := by
  rw [top, h]
  rfl

theorem WellFormed.top_le {mp : MemPool} (h : mp.WellFormed) :
    mp.top ≤ mp.base + mp.bytes := by
  by_cases hempty : mp.nDescriptors = 0
  · rw [top_empty hempty]
    omega
  · have hroom := h.room (by omega)
    omega

theorem WellFormed.top_lt {mp : MemPool} (h : mp.WellFormed) : mp.top < 2 ^ 64 := by
  have hfits := h.fits
  have hle := h.top_le
  omega

theorem WellFormed.bounds {mp : MemPool} (h : mp.WellFormed) {slot : Nat}
    (hslot : slot < mp.nDescriptors) :
    mp.base ≤ mp.ptr slot ∧ mp.ptr slot + mp.nbytes slot ≤ mp.top := by
  obtain ⟨order, harranged, -⟩ := h.arranged
  exact harranged.bounds hslot

theorem WellFormed.disjoint {mp : MemPool} (h : mp.WellFormed) {slot slot' : Nat}
    (hslot : slot < mp.nDescriptors) (hslot' : slot' < mp.nDescriptors) (hne : slot ≠ slot') :
    mp.ptr slot + mp.nbytes slot ≤ mp.ptr slot' ∨
      mp.ptr slot' + mp.nbytes slot' ≤ mp.ptr slot := by
  obtain ⟨order, harranged, -⟩ := h.arranged
  exact harranged.laid.disjoint ((harranged.mem_iff slot).mpr hslot)
    ((harranged.mem_iff slot').mpr hslot') hne

theorem WellFormed.setUsed {mp : MemPool} (h : mp.WellFormed) (slot : Nat) :
    mp.setUsed slot = mp := setUsed_of_flags (h.flags slot)

theorem WellFormed.unused {mp : MemPool} (h : mp.WellFormed) (slot : Nat) :
    mp.unused slot = true := by
  rw [MemPool.unused, h.flags, flagCheck_zero]
  rfl

/-! ## Repair -/

theorem fixmdarray_ok {mp mp' : MemPool} (h : mp.fixmdarray = .ok mp') :
    (∀ slot, slot + 1 < mp.nDescriptors → mp.nbytes slot ≠ 0) ∧
      mp'.base = mp.base ∧ mp'.nblocks = mp.nblocks ∧
      mp'.nDescriptors = mp.nDescriptors ∧
      ∀ slot, slot < mp.nDescriptors → mp'.desc slot =
        if slot + 1 < mp.nDescriptors then { mp.desc slot with next := mp.closest slot }
        else mp.desc slot := by
  unfold fixmdarray at h
  split at h
  case isTrue => cases h
  case isFalse hsizes =>
    cases h
    have hcount : (mp.descs.mapIdx fun slot d =>
        if slot + 1 < mp.nDescriptors then { d with next := mp.closest slot } else d).length =
        mp.descs.length := List.length_mapIdx
    refine ⟨fun slot hslot hzero => hsizes ?_, rfl, rfl, hcount, fun slot hslot => ?_⟩
    · rw [List.any_eq_true]
      exact ⟨slot, List.mem_range.mpr (by omega), by simp [hzero]⟩
    · have hlen : slot < mp.descs.length := hslot
      rw [desc_of_lt (by rw [hcount]; exact hlen), List.getElem_mapIdx, desc_of_lt hlen]

theorem closest_congr {mp mp' : MemPool} (hcount : mp'.nDescriptors = mp.nDescriptors)
    (hptr : mp'.ptr = mp.ptr) (hnbytes : mp'.nbytes = mp.nbytes) (slot : Nat) :
    mp'.closest slot = mp.closest slot := by
  have hnearer : mp'.nearer slot = mp.nearer slot := by
    funext best slot'
    rw [nearer, nearer, hptr, hnbytes]
  rw [closest, closest, hcount, hnearer]

theorem WellFormed.closest_eq {mp : MemPool} (h : mp.WellFormed)
    (hsizes : ∀ slot, slot + 1 < mp.nDescriptors → mp.nbytes slot ≠ 0) {slot : Nat}
    (hslot : slot + 1 < mp.nDescriptors) : mp.closest slot = mp.next slot := by
  obtain ⟨order, harranged, hlinked⟩ := h.arranged
  obtain ⟨pre, post, horder⟩ :=
    List.append_of_mem ((harranged.mem_iff slot).mpr (by omega))
  rw [harranged.closest_eq h.top_lt hsizes horder hslot,
    linked_iff.mp hlinked pre slot post horder]

theorem WellFormed.fixmdarray {mp mp' : MemPool} (h : mp.WellFormed)
    (hfix : mp.fixmdarray = .ok mp') : mp' = mp := by
  obtain ⟨hsizes, hbase, hblocks, hcount, hdesc⟩ := fixmdarray_ok hfix
  refine ext_desc hbase hblocks hcount fun slot hslot => ?_
  rw [hdesc slot hslot]
  split
  case isFalse => rfl
  case isTrue hnewest =>
    rw [h.closest_eq hsizes hnewest]
    rfl

/-! ## A new descriptor -/

/-- The array grows by `e` while the descriptor in `slot` becomes `d`. -/
def grow (mp : MemPool) (slot : Nat) (d e : MemDesc) : MemPool :=
  { mp with descs := mp.descs.set slot d ++ [e] }

@[simp] theorem nDescriptors_grow (mp : MemPool) (slot : Nat) (d e : MemDesc) :
    (mp.grow slot d e).nDescriptors = mp.nDescriptors + 1 := by
  simp [grow, nDescriptors]

@[simp] theorem base_grow (mp : MemPool) (slot : Nat) (d e : MemDesc) :
    (mp.grow slot d e).base = mp.base := rfl

@[simp] theorem bytes_grow (mp : MemPool) (slot : Nat) (d e : MemDesc) :
    (mp.grow slot d e).bytes = mp.bytes := rfl

theorem desc_grow_last (mp : MemPool) (slot : Nat) (d e : MemDesc) :
    (mp.grow slot d e).desc mp.nDescriptors = e := by
  simp [grow, desc, nDescriptors]

theorem desc_grow_same {mp : MemPool} {slot : Nat} (hslot : slot < mp.nDescriptors)
    (d e : MemDesc) : (mp.grow slot d e).desc slot = d := by
  have hlen : slot < mp.descs.length := hslot
  simp [grow, desc, List.getElem?_append_left, hlen]

theorem desc_grow_other {mp : MemPool} {slot slot' : Nat} (hslot' : slot' ≠ slot)
    (hlast : slot' ≠ mp.nDescriptors) (d e : MemDesc) :
    (mp.grow slot d e).desc slot' = mp.desc slot' := by
  rcases Nat.lt_or_gt_of_ne hlast with hlt | hgt
  · have hlen : slot' < mp.descs.length := hlt
    simp [grow, desc, List.getElem?_append_left, hlen, List.getElem_set_ne hslot'.symm]
  · rw [desc_of_le (Nat.le_of_lt hgt), desc_of_le (by rw [nDescriptors_grow]; omega)]

end MemPool

end BlockyOS.Kernel
