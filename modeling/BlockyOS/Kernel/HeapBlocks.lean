import BlockyOS.Kernel.HeapPool

/-!
# Cutting blocks and adding blocks

The two ways in which the descriptor array of a pool grows: `fragmemory` cuts a
block in two, and `allocatedesc` puts a new block behind the last one.
-/

namespace BlockyOS.Kernel

open BlockyOS.Foundation
open BlockyOS.HostTool (Fault)

theorem roundup_align {a : Nat} (ha : a < 2 ^ 64) (h : allocAlign ∣ a) :
    roundup a allocAlign = a := by
  have hdvd : 8 ∣ a := h
  exact roundup_of_dvd (by rw [allocAlign]; omega) (by decide) h

theorem align_dvd_roundup (a : Nat) : allocAlign ∣ roundup a allocAlign := by
  unfold roundup u64 allocAlign
  omega

namespace MemPool

/-! ## Cutting a block -/

section Cut

variable {mp : MemPool} {slot k : Nat}

/-- The block in `slot` cut to `k` bytes, its descriptor linked to `link`. -/
def cutLinked (mp : MemPool) (slot k : Nat) (link : Option Nat) : MemPool :=
  mp.grow slot { mp.desc slot with nbytes := k, next := link }
    ⟨mp.ptr slot + k, mp.nbytes slot - k, 0, mp.next slot⟩

/-- The block in `slot` cut to `k` bytes and linked to the rest of it. -/
def cut (mp : MemPool) (slot k : Nat) : MemPool := mp.cutLinked slot k (some mp.nDescriptors)

theorem desc_cut_other (link : Option Nat) {i : Nat} (hne : i ≠ slot)
    (hlast : i ≠ mp.nDescriptors) : (mp.cutLinked slot k link).desc i = mp.desc i :=
  desc_grow_other hne hlast _ _

theorem desc_cut_front (link : Option Nat) (hslot : slot < mp.nDescriptors) :
    (mp.cutLinked slot k link).desc slot =
      { mp.desc slot with nbytes := k, next := link } :=
  desc_grow_same hslot _ _

theorem desc_cut_rest (link : Option Nat) :
    (mp.cutLinked slot k link).desc mp.nDescriptors =
      ⟨mp.ptr slot + k, mp.nbytes slot - k, 0, mp.next slot⟩ :=
  desc_grow_last _ _ _ _

theorem next_cut_rest (link : Option Nat) :
    (mp.cutLinked slot k link).next mp.nDescriptors = mp.next slot := by
  rw [next, desc_cut_rest]

theorem next_cut_front (link : Option Nat) (hslot : slot < mp.nDescriptors) :
    (mp.cutLinked slot k link).next slot = link := by
  rw [next, desc_cut_front link hslot]

theorem next_cut_other (link : Option Nat) {i : Nat} (hne : i ≠ slot)
    (hlast : i ≠ mp.nDescriptors) : (mp.cutLinked slot k link).next i = mp.next i := by
  rw [next, desc_cut_other link hne hlast]
  rfl

/-- Old descriptors keep their start, and all but the one cut keep their size. -/
theorem cut_old (link : Option Nat) {i : Nat} (hi : i < mp.nDescriptors) :
    (mp.cutLinked slot k link).ptr i = mp.ptr i ∧
      (i ≠ slot → (mp.cutLinked slot k link).nbytes i = mp.nbytes i) := by
  by_cases hne : i = slot
  · subst hne
    rw [ptr, desc_cut_front link hi]
    exact ⟨rfl, fun h => absurd rfl h⟩
  · rw [ptr, nbytes, desc_cut_other link hne (by omega)]
    exact ⟨rfl, fun _ => rfl⟩

theorem arranged_cut {pre post : List Nat} (h : mp.Arranged (pre ++ slot :: post))
    (hk : k < mp.nbytes slot) (link : Option Nat) :
    (mp.cutLinked slot k link).Arranged (pre ++ slot :: mp.nDescriptors :: post) ∧
      (mp.cutLinked slot k link).top = mp.top := by
  have hslot : slot < mp.nDescriptors := (h.mem_iff slot).mp (by simp)
  have hold : ∀ i ∈ pre ++ post, (mp.cutLinked slot k link).ptr i = mp.ptr i ∧
      (mp.cutLinked slot k link).nbytes i = mp.nbytes i := by
    intro i hi
    obtain ⟨hne, hlt⟩ := h.other rfl hi
    have hkeep := @cut_old mp slot k link i hlt
    exact ⟨hkeep.1, hkeep.2 hne⟩
  have hfront : (mp.cutLinked slot k link).ptr slot = mp.ptr slot ∧
      (mp.cutLinked slot k link).nbytes slot = k := by
    rw [ptr, nbytes, desc_cut_front link hslot]
    exact ⟨rfl, rfl⟩
  have hrest : (mp.cutLinked slot k link).ptr mp.nDescriptors = mp.ptr slot + k ∧
      (mp.cutLinked slot k link).nbytes mp.nDescriptors = mp.nbytes slot - k := by
    rw [ptr, nbytes, desc_cut_rest link]
    exact ⟨rfl, rfl⟩
  have hperm : (pre ++ slot :: mp.nDescriptors :: post).Perm
      (List.range (mp.cutLinked slot k link).nDescriptors) := by
    have hmiddle : (pre ++ slot :: mp.nDescriptors :: post).Perm
        (mp.nDescriptors :: (pre ++ slot :: post)) := by
      have hstep := @List.perm_middle Nat mp.nDescriptors (pre ++ [slot]) post
      simpa using hstep
    rw [cutLinked, nDescriptors_grow, List.range_succ]
    exact hmiddle.trans ((h.perm.cons _).trans (List.perm_append_singleton _ _).symm)
  have hlaid : Laid (mp.cutLinked slot k link).ptr (mp.cutLinked slot k link).nbytes
      (mp.cutLinked slot k link).base (pre ++ slot :: mp.nDescriptors :: post) mp.top :=
    h.laid.cut hold hfront.1 (by rw [hrest.1, hfront.2])
      (by rw [hfront.2, hrest.2]; omega)
  have htop := top_eq_of_laid hperm hlaid
  refine ⟨⟨hperm, by rw [← htop]; exact hlaid, fun i hi hzero => ?_⟩, htop.symm⟩
  obtain rfl : i = mp.nDescriptors := by
    rw [cutLinked, nDescriptors_grow] at hi
    omega
  rw [hrest.2] at hzero
  omega

theorem WellFormed.cut (h : mp.WellFormed) (hslot : slot < mp.nDescriptors)
    (hk : k < mp.nbytes slot) (halign : 8 ∣ k) : (mp.cut slot k).WellFormed := by
  obtain ⟨order, harranged, hlinked⟩ := h.arranged
  obtain ⟨pre, post, rfl⟩ := List.append_of_mem ((harranged.mem_iff slot).mpr hslot)
  obtain ⟨harranged', htop⟩ := arranged_cut harranged hk (some mp.nDescriptors)
  have hlinked' : Linked (mp.cut slot k).next (pre ++ slot :: mp.nDescriptors :: post) := by
    refine hlinked.cut (fun i hi => ?_) ?_ ?_
    · obtain ⟨hne, hlt⟩ := harranged.other rfl hi
      exact next_cut_other _ hne (by omega)
    · exact next_cut_front _ hslot
    · exact next_cut_rest _
  refine ⟨⟨_, harranged', hlinked'⟩, fun i => ?_, fun _ => ?_, h.base, fun i => ?_, h.fits⟩
  · by_cases hlast : i = mp.nDescriptors
    · subst hlast
      exact congrArg MemDesc.flags (desc_cut_rest _)
    · by_cases hne : i = slot
      · subst hne
        exact (congrArg MemDesc.flags (desc_cut_front _ hslot)).trans (h.flags i)
      · exact (congrArg MemDesc.flags (desc_cut_other _ hne hlast)).trans (h.flags i)
  · have hroom := h.room (by omega)
    have hsame : (mp.cut slot k).top = mp.top := htop
    rw [hsame]
    exact hroom
  · by_cases hlast : i = mp.nDescriptors
    · subst hlast
      rw [show (mp.cut slot k).nbytes mp.nDescriptors = mp.nbytes slot - k from
        congrArg MemDesc.nbytes (desc_cut_rest _)]
      exact Nat.dvd_sub (h.sizes slot) halign
    · by_cases hne : i = slot
      · subst hne
        rw [show (mp.cut i k).nbytes i = k from
          congrArg MemDesc.nbytes (desc_cut_front _ hslot)]
        exact halign
      · rw [show (mp.cut slot k).nbytes i = mp.nbytes i from
          congrArg MemDesc.nbytes (desc_cut_other _ hne hlast)]
        exact h.sizes i

theorem WellFormed.fragmemory {mp' : MemPool} {nbytes : Nat} (h : mp.WellFormed)
    (hslot : slot < mp.nDescriptors) (hcan : mp.canFragment slot nbytes = true)
    (hfrag : mp.fragmemory slot nbytes = .ok mp') :
    mp' = mp.cut slot (fragSize nbytes) ∧ fragSize nbytes ≠ 0 := by
  have hk : fragSize nbytes < mp.nbytes slot := of_decide_eq_true hcan
  have hbounds := h.bounds hslot
  have hptr : u64 (mp.ptr slot + fragSize nbytes) = mp.ptr slot + fragSize nbytes := by
    have htop := h.top_lt
    exact u64_of_lt (by omega)
  rw [MemPool.fragmemory, if_pos hcan, hptr] at hfrag
  obtain ⟨hsizes, hbase, hblocks, hcount, hdesc⟩ :=
    @fixmdarray_ok (mp.cutLinked slot (fragSize nbytes) (some 0)) _ hfrag
  have hnumber : ∀ link, (mp.cutLinked slot (fragSize nbytes) link).nDescriptors =
      mp.nDescriptors + 1 := fun _ => nDescriptors_grow _ _ _ _
  have hnonzero : fragSize nbytes ≠ 0 := by
    have hfront : (mp.cutLinked slot (fragSize nbytes) (some 0)).nbytes slot =
        fragSize nbytes := congrArg MemDesc.nbytes (desc_cut_front _ hslot)
    rw [← hfront]
    exact hsizes slot (by rw [hnumber]; omega)
  have hwell : (mp.cut slot (fragSize nbytes)).WellFormed := by
    refine h.cut hslot hk ?_
    rw [fragSize]
    split
    · exact align_dvd_roundup nbytes
    · exact Nat.dvd_zero 8
  have hblock : ∀ i, { (mp.cutLinked slot (fragSize nbytes) (some 0)).desc i with
      next := (mp.cut slot (fragSize nbytes)).next i } =
      (mp.cut slot (fragSize nbytes)).desc i := by
    intro i
    by_cases hlast : i = mp.nDescriptors
    · subst hlast
      rw [MemPool.cut, desc_cut_rest, next_cut_rest, desc_cut_rest]
    · by_cases hne : i = slot
      · subst hne
        rw [MemPool.cut, desc_cut_front _ hslot, next_cut_front _ hslot, desc_cut_front _ hslot]
      · rw [MemPool.cut, desc_cut_other _ hne hlast, next_cut_other _ hne hlast,
          desc_cut_other _ hne hlast]
        rfl
  have hptr : (mp.cutLinked slot (fragSize nbytes) (some 0)).ptr =
      (mp.cut slot (fragSize nbytes)).ptr := by
    funext i
    rw [MemPool.ptr, MemPool.ptr, ← hblock i]
  have hnbytes : (mp.cutLinked slot (fragSize nbytes) (some 0)).nbytes =
      (mp.cut slot (fragSize nbytes)).nbytes := by
    funext i
    rw [MemPool.nbytes, MemPool.nbytes, ← hblock i]
  have hcount' : (mp.cutLinked slot (fragSize nbytes) (some 0)).nDescriptors =
      (mp.cut slot (fragSize nbytes)).nDescriptors := by
    rw [hnumber, MemPool.cut, hnumber]
  refine ⟨?_, hnonzero⟩
  refine ext_desc hbase hblocks (hcount.trans hcount') fun i hi => ?_
  rw [hdesc i (by rw [hcount']; exact hi)]
  split
  case isTrue hnewest =>
    have hsizes' : ∀ j, j + 1 < (mp.cut slot (fragSize nbytes)).nDescriptors →
        (mp.cut slot (fragSize nbytes)).nbytes j ≠ 0 := by
      intro j hj
      rw [← hnbytes]
      exact hsizes j (by rw [hcount']; exact hj)
    rw [closest_congr hcount' hptr hnbytes,
      hwell.closest_eq hsizes' (by rw [← hcount']; exact hnewest), hblock]
  case isFalse hnewest =>
    obtain rfl : i = mp.nDescriptors := by
      rw [hnumber] at hnewest
      rw [MemPool.cut, hnumber] at hi
      omega
    rw [desc_cut_rest, MemPool.cut, desc_cut_rest]

end Cut

/-! ## The chain and the used size -/

theorem chaintip_eq {mp : MemPool} {post : List Nat} :
    ∀ {pre : List Nat} {slot fuel : Nat}, Linked mp.next (pre ++ slot :: post) →
      post.length < fuel → mp.chaintip fuel slot = .ok (post.getLastD slot) := by
  induction post with
  | nil =>
      intro pre slot fuel hlinked hfuel
      obtain ⟨fuel, rfl⟩ := Nat.exists_eq_succ_of_ne_zero (Nat.ne_of_gt hfuel)
      rw [chaintip, linked_iff.mp hlinked pre slot [] rfl]
      rfl
  | cons next post ih =>
      intro pre slot fuel hlinked hfuel
      obtain ⟨fuel, rfl⟩ := Nat.exists_eq_succ_of_ne_zero (Nat.ne_of_gt (Nat.zero_lt_of_lt hfuel))
      rw [chaintip, linked_iff.mp hlinked pre slot (next :: post) rfl]
      rw [List.length_cons] at hfuel
      rw [List.getLastD_cons]
      exact @ih (pre ++ [slot]) next fuel (by simpa using hlinked) (by omega)

theorem metbytes_ok {mp : MemPool} {targetflags : BitVec 32} {post : List Nat} :
    ∀ {pre : List Nat} {slot fuel met : Nat}, Linked mp.next (pre ++ slot :: post) →
      post.length < fuel → ∃ met', mp.metbytes targetflags fuel slot met = .ok met' := by
  induction post with
  | nil =>
      intro pre slot fuel met hlinked hfuel
      obtain ⟨fuel, rfl⟩ := Nat.exists_eq_succ_of_ne_zero (Nat.ne_of_gt hfuel)
      rw [metbytes, linked_iff.mp hlinked pre slot [] rfl]
      exact ⟨_, rfl⟩
  | cons next post ih =>
      intro pre slot fuel met hlinked hfuel
      obtain ⟨fuel, rfl⟩ := Nat.exists_eq_succ_of_ne_zero (Nat.ne_of_gt (Nat.zero_lt_of_lt hfuel))
      rw [metbytes, linked_iff.mp hlinked pre slot (next :: post) rfl]
      rw [List.length_cons] at hfuel
      simp only [List.head?_cons]
      split
      · exact @ih (pre ++ [slot]) next fuel _ (by simpa using hlinked) (by omega)
      · exact ⟨_, rfl⟩

theorem WellFormed.metbytes {mp : MemPool} (h : mp.WellFormed) {slot : Nat}
    (hslot : slot < mp.nDescriptors) (targetflags : BitVec 32) :
    ∃ met, mp.metbytes targetflags (mp.nDescriptors + 1) slot 0 = .ok met := by
  obtain ⟨order, harranged, hlinked⟩ := h.arranged
  obtain ⟨pre, post, rfl⟩ := List.append_of_mem ((harranged.mem_iff slot).mpr hslot)
  have hlength := harranged.length
  rw [List.length_append, List.length_cons] at hlength
  exact metbytes_ok hlinked (by omega)

structure IsTip (mp : MemPool) (tip : Nat) : Prop where
  lt : tip < mp.nDescriptors
  ends : mp.ptr tip + mp.nbytes tip = mp.top
  unique : ∀ slot, slot < mp.nDescriptors → (mp.next slot = none ↔ slot = tip)

theorem WellFormed.chaintip {mp : MemPool} (h : mp.WellFormed) (hn : mp.nDescriptors ≠ 0) :
    ∃ tip, mp.IsTip tip ∧ mp.chaintip mp.nDescriptors (mp.nDescriptors - 1) = .ok tip := by
  obtain ⟨order, harranged, hlinked⟩ := h.arranged
  obtain ⟨pre, post, horder⟩ := List.append_of_mem
    ((harranged.mem_iff (mp.nDescriptors - 1)).mpr (by omega))
  have hlength := harranged.length
  rw [horder, List.length_append, List.length_cons] at hlength
  have hchain := @chaintip_eq mp post pre (mp.nDescriptors - 1) mp.nDescriptors
    (by rw [← horder]; exact hlinked) (by omega)
  refine ⟨_, ?_, hchain⟩
  generalize htip : post.getLastD (mp.nDescriptors - 1) = tip
  have hlast : order.getLast? = some tip := by
    rw [horder, List.getLast?_append, List.getLast?_cons, ← List.getLastD_eq_getLast?, htip]
    rfl
  obtain ⟨front, rfl⟩ := List.getLast?_eq_some_iff.mp hlast
  have hend := (laid_split.mp harranged.laid).2
  refine ⟨(harranged.mem_iff tip).mp (by simp), hend, fun slot hslot => ⟨fun hnone => ?_, ?_⟩⟩
  · obtain ⟨front', heq⟩ := hlinked.last_of_none ((harranged.mem_iff slot).mpr hslot) hnone
    have hsame := congrArg List.getLast? heq
    rw [List.getLast?_concat, List.getLast?_concat] at hsame
    exact (Option.some.inj hsame).symm
  · rintro rfl
    exact linked_iff.mp hlinked front slot [] rfl

theorem u64sub_self {a : Nat} (h : a < 2 ^ 64) : u64sub a a = 0 := by
  rw [u64sub_of_le h (Nat.le_refl a), Nat.sub_self]

theorem WellFormed.paddedSize {mp : MemPool} (h : mp.WellFormed) {slot : Nat}
    (hslot : slot < mp.nDescriptors) : mp.paddedSize slot = mp.nbytes slot := by
  have hbounds := h.bounds hslot
  have htop := h.top_lt
  rw [MemPool.paddedSize]
  cases hnext : mp.next slot with
  | none => rfl
  | some slot' =>
      obtain ⟨order, harranged, hlinked⟩ := h.arranged
      have hstart := (hlinked.start_next harranged.laid
        ((harranged.mem_iff slot).mpr hslot) hnext).2
      simp only
      rw [u64_of_lt (by omega), hstart, u64sub_self (by omega), Nat.add_zero]

theorem WellFormed.memusedsize {mp : MemPool} (h : mp.WellFormed) :
    mp.memusedsize = mp.top - mp.base := by
  have hsizes : (List.range mp.nDescriptors).map mp.paddedSize =
      (List.range mp.nDescriptors).map mp.nbytes :=
    List.map_congr_left fun slot hslot => h.paddedSize (List.mem_range.mp hslot)
  have htop := h.top_lt
  rw [MemPool.memusedsize, hsizes]
  rw [top] at htop ⊢
  rw [u64_of_lt (by omega), Nat.add_sub_cancel_left]

theorem WellFormed.align_top {mp : MemPool} (h : mp.WellFormed) : 8 ∣ mp.top := by
  refine Nat.dvd_add h.base ?_
  generalize List.range mp.nDescriptors = slots
  induction slots with
  | nil => exact Nat.dvd_zero 8
  | cons slot slots ih =>
      rw [List.map_cons, List.sum_cons]
      exact Nat.dvd_add (h.sizes slot) ih

/-! ## Adding a block -/

section Extend

variable {mp : MemPool} {tip nbytes : Nat}

/-- A block of `nbytes` put at the top, with the tip linked to it. -/
def extend (mp : MemPool) (tip nbytes : Nat) : MemPool :=
  mp.grow tip { mp.desc tip with next := some mp.nDescriptors } ⟨mp.top, nbytes, 0, none⟩

theorem desc_extend_last : (mp.extend tip nbytes).desc mp.nDescriptors =
    ⟨mp.top, nbytes, 0, none⟩ := desc_grow_last _ _ _ _

theorem extend_old {i : Nat} (hi : i < mp.nDescriptors) :
    (mp.extend tip nbytes).ptr i = mp.ptr i ∧ (mp.extend tip nbytes).nbytes i = mp.nbytes i ∧
      ((mp.extend tip nbytes).desc i).flags = (mp.desc i).flags ∧
      (mp.extend tip nbytes).next i =
        if i = tip then some mp.nDescriptors else mp.next i := by
  by_cases hne : i = tip
  · subst hne
    rw [if_pos rfl, ptr, MemPool.nbytes, next, extend, desc_grow_same hi]
    exact ⟨rfl, rfl, rfl, rfl⟩
  · rw [if_neg hne, ptr, MemPool.nbytes, next, extend, desc_grow_other hne (by omega)]
    exact ⟨rfl, rfl, rfl, rfl⟩

theorem WellFormed.extend (h : mp.WellFormed) (htip : mp.nDescriptors ≠ 0 → mp.IsTip tip)
    (halign : 8 ∣ nbytes)
    (hroom : mp.top + nbytes + sizeofMemdesc ≤ mp.base + mp.bytes) :
    (mp.extend tip nbytes).WellFormed ∧ (mp.extend tip nbytes).top = mp.top + nbytes := by
  obtain ⟨order, harranged, hlinked⟩ := h.arranged
  have hcount : (mp.extend tip nbytes).nDescriptors = mp.nDescriptors + 1 :=
    nDescriptors_grow _ _ _ _
  have hlast : (mp.extend tip nbytes).ptr mp.nDescriptors = mp.top ∧
      (mp.extend tip nbytes).nbytes mp.nDescriptors = nbytes := by
    rw [ptr, MemPool.nbytes, desc_extend_last]
    exact ⟨rfl, rfl⟩
  have hperm : (order ++ [mp.nDescriptors]).Perm
      (List.range (mp.extend tip nbytes).nDescriptors) := by
    rw [hcount, List.range_succ]
    exact harranged.perm.append_right _
  have hlaid : Laid (mp.extend tip nbytes).ptr (mp.extend tip nbytes).nbytes
      (mp.extend tip nbytes).base (order ++ [mp.nDescriptors]) (mp.top + nbytes) := by
    refine laid_append.mpr ⟨mp.top, harranged.laid.congr fun i hi => ?_, hlast.1, ?_⟩
    · have hkeep := @extend_old mp tip nbytes i ((harranged.mem_iff i).mp hi)
      exact ⟨hkeep.1, hkeep.2.1⟩
    · rw [hlast.2]
      rfl
  have htop := top_eq_of_laid hperm hlaid
  have hlinked' : Linked (mp.extend tip nbytes).next (order ++ [mp.nDescriptors]) := by
    refine hlinked.snoc (fun i hi => ?_) ?_
    · have hlt := (harranged.mem_iff i).mp hi
      rw [(extend_old hlt).2.2.2]
      have hunique := (htip (by omega)).unique i hlt
      by_cases hown : i = tip
      · rw [if_pos hown, if_pos (hunique.mpr hown)]
      · rw [if_neg hown, if_neg fun hnone => hown (hunique.mp hnone)]
    · rw [next, desc_extend_last]
  refine ⟨⟨⟨_, ⟨hperm, by rw [← htop]; exact hlaid, fun i hi _ => ?_⟩, hlinked'⟩, fun i => ?_,
    fun _ => ?_, h.base, fun i => ?_, h.fits⟩, htop.symm⟩
  · obtain rfl : i = mp.nDescriptors := by omega
    exact List.getLast?_concat
  · by_cases hi : i = mp.nDescriptors
    · subst hi
      rw [desc_extend_last]
    · by_cases hlt : i < mp.nDescriptors
      · rw [(extend_old hlt).2.2.1]
        exact h.flags i
      · rw [desc_of_le (by omega)]
  · rw [← htop]
    exact hroom
  · by_cases hi : i = mp.nDescriptors
    · subst hi
      rw [hlast.2]
      exact halign
    · by_cases hlt : i < mp.nDescriptors
      · rw [(extend_old hlt).2.1]
        exact h.sizes i
      · rw [MemPool.nbytes, desc_of_le (by omega)]
        exact Nat.dvd_zero 8

theorem WellFormed.allocatedesc {r : Option MemPool} (h : mp.WellFormed)
    (hnbytes : nbytes < 2 ^ 64) (halign : 8 ∣ nbytes)
    (halloc : mp.allocatedesc nbytes = .ok r) :
    (mp.admits nbytes = false ∧ r = none) ∨
      (mp.admits nbytes = true ∧ ∃ tip, (mp.nDescriptors ≠ 0 → mp.IsTip tip) ∧
        r = some (mp.extend tip nbytes)) := by
  have hfits := h.fits
  rw [MemPool.allocatedesc, roundup_align hnbytes halign] at halloc
  by_cases hadmits : mp.admits nbytes = true
  · rw [if_pos hadmits] at halloc
    refine Or.inr ⟨hadmits, ?_⟩
    by_cases hn : mp.nDescriptors = 0
    · simp only [if_pos hn] at halloc
      cases halloc
      refine ⟨0, fun hne => absurd hn hne, ?_⟩
      have hbase : roundup mp.base allocAlign = mp.base := roundup_align (by omega) h.base
      have hnil : mp.descs = [] := List.length_eq_zero_iff.mp hn
      rw [MemPool.extend, grow, placeAfter, hbase, top_empty hn, hnil]
      rfl
    · obtain ⟨tip, htip, hchain⟩ := h.chaintip hn
      simp only [if_neg hn, hchain] at halloc
      cases halloc
      refine ⟨tip, fun _ => htip, ?_⟩
      have hplace : mp.placeAfter (some tip) = mp.top := by
        have hroom := h.room (by omega)
        have hbounds := h.bounds htip.lt
        rw [sizeofMemdesc] at hroom
        rw [placeAfter, if_pos (by omega), htip.ends, u64_of_lt h.top_lt,
          roundup_align h.top_lt h.align_top]
      rw [MemPool.extend, grow, hplace]
  · rw [if_neg hadmits] at halloc
    cases halloc
    exact Or.inl ⟨by simpa using hadmits, rfl⟩

end Extend

end MemPool

end BlockyOS.Kernel
