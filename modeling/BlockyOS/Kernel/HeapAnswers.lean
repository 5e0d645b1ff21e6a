import BlockyOS.Kernel.HeapTaking

/-!
# Requests that come back

In well-formed pools without empty blocks a request comes back when one of the
pools gives something for it that is not a block cut to nothing: for a further
pool the array of pools would have to grow.
-/

namespace BlockyOS.Kernel

open BlockyOS.Foundation
open BlockyOS.HostTool (Fault)

/-! ## One pool -/

namespace MemPool

def Sized (mp : MemPool) : Prop := ∀ slot, slot < mp.nDescriptors → mp.nbytes slot ≠ 0

theorem sized_empty {mp : MemPool} (h : mp.descs = []) : mp.Sized := by
  intro slot hslot
  rw [nDescriptors, h] at hslot
  cases hslot

theorem fixmdarray_answers {mp : MemPool}
    (h : ∀ slot, slot + 1 < mp.nDescriptors → mp.nbytes slot ≠ 0) :
    ∃ mp', mp.fixmdarray = .ok mp' := by
  rw [fixmdarray, if_neg]
  · exact ⟨_, rfl⟩
  · intro hany
    obtain ⟨slot, hslot, hzero⟩ := List.any_eq_true.mp hany
    have hlt := List.mem_range.mp hslot
    exact h slot (by omega) (beq_iff_eq.mp hzero)

section Sized

variable {E : HeapEnv} {mp : MemPool} {slot k : Nat} (h : mp.WellFormed) (hsized : mp.Sized)

include h hsized

theorem fixmdarray_eq : mp.fixmdarray = .ok mp := by
  obtain ⟨mp', hfix⟩ := @fixmdarray_answers mp fun slot hslot => hsized slot (by omega)
  obtain rfl := h.fixmdarray hfix
  exact hfix

theorem fusememory_eq (hslot : slot < mp.nDescriptors) (target : Nat) :
    mp.fusememory slot target (~~~memdescUsed) = .ok mp := by
  have hcheck : flagCheck (mp.desc slot).flags (~~~memdescUsed) = false := by
    rw [h.flags, flagCheck_zero]
    decide
  obtain ⟨met, hmet⟩ := h.metbytes hslot (~~~memdescUsed)
  simp only [fusememory, hmet, hcheck]
  split
  · rfl
  · simpa using fixmdarray_eq h hsized

omit h in
theorem sized_cut (hslot : slot < mp.nDescriptors) (hk : k < mp.nbytes slot) (hnonzero : k ≠ 0)
    (link : Option Nat) : (mp.cutLinked slot k link).Sized := by
  intro i hi
  rw [cutLinked, nDescriptors_grow] at hi
  by_cases hlast : i = mp.nDescriptors
  · subst hlast
    rw [nbytes, desc_cut_rest]
    exact Nat.sub_ne_zero_of_lt hk
  · by_cases hfront : i = slot
    · subst hfront
      rw [nbytes, desc_cut_front link hslot]
      exact hnonzero
    · rw [(cut_old link (by omega)).2 hfront]
      exact hsized i (by omega)

theorem fragmemory_answers (hslot : slot < mp.nDescriptors)
    (hcan : mp.canFragment slot k = true) (hnonzero : fragSize k ≠ 0) :
    ∃ mp', mp.fragmemory slot k = .ok mp' := by
  have hk : fragSize k < mp.nbytes slot := of_decide_eq_true hcan
  have hptr : u64 (mp.ptr slot + fragSize k) = mp.ptr slot + fragSize k := by
    have hbounds := h.bounds hslot
    have htop := h.top_lt
    exact u64_of_lt (by omega)
  have hsized' := sized_cut hsized hslot hk hnonzero (some 0)
  rw [fragmemory, if_pos hcan, hptr]
  exact @fixmdarray_answers (mp.cutLinked slot (fragSize k) (some 0))
    fun i hi => hsized' i (by omega)

omit h in
theorem sized_extend {tip : Nat} (hnonzero : k ≠ 0) : (mp.extend tip k).Sized := by
  intro i hi
  rw [extend, nDescriptors_grow] at hi
  by_cases hlast : i = mp.nDescriptors
  · subst hlast
    rw [nbytes, desc_extend_last]
    exact hnonzero
  · rw [(extend_old (by omega)).2.1]
    exact hsized i (by omega)

omit h in
theorem takes_sized {c : Choice} {block : Nat} {mp' : MemPool} (hnonzero : k ≠ 0)
    (htakes : Takes mp k c block mp') : mp'.Sized := by
  cases htakes with
  | reuse => exact hsized
  | fragment hslot hsize _ => exact sized_cut hsized hslot hsize hnonzero _
  | fresh => exact sized_extend hsized hnonzero

omit hsized in
theorem allocatedesc_answers (nbytes : Nat) : ∃ r, mp.allocatedesc nbytes = .ok r := by
  rw [allocatedesc]
  simp only
  by_cases hadmits : mp.admits (roundup nbytes allocAlign) = true
  · rw [if_pos hadmits]
    by_cases hn : mp.nDescriptors = 0
    · rw [if_pos hn]
      exact ⟨_, rfl⟩
    · obtain ⟨tip, -, hchain⟩ := h.chaintip hn
      rw [if_neg hn, hchain]
      exact ⟨_, rfl⟩
  · rw [if_neg hadmits]
    exact ⟨_, rfl⟩

section Requests

variable (hlt : k < 2 ^ 64) (halign : 8 ∣ k)

include hlt halign

theorem scanPool_answers (slots : List Nat) (hslots : ∀ slot ∈ slots, slot < mp.nDescriptors)
    (hcut : ∀ slot, slots.find? (fun slot => mp.unused slot &&
        (E.overFragMul (mp.nbytes slot) k || decide (k ≤ mp.nbytes slot))) = some slot →
      E.overFragMul (mp.nbytes slot) k = true → k ≠ 0) :
    ∃ a, Heap.scanPool E k slots mp = .ok a := by
  induction slots with
  | nil => exact ⟨_, rfl⟩
  | cons slot slots ih =>
      have hslot := hslots slot List.mem_cons_self
      rw [Heap.scanPool, if_pos (h.unused slot)]
      by_cases hover : E.overFragMul (mp.nbytes slot) k = true
      · have hsize := E.lt_of_over hover
        have hfragsize := fragSize_of_align hlt halign
        have hcan : mp.canFragment slot k = true := by
          rw [canFragment, hfragsize]
          exact decide_eq_true hsize
        have hnonzero := hcut slot
          (List.find?_cons_of_pos (by simp [h.unused, hover])) hover
        obtain ⟨mp', hfrag⟩ :=
          fragmemory_answers h hsized hslot hcan (by rw [hfragsize]; exact hnonzero)
        rw [if_pos hover, hfrag]
        exact ⟨_, rfl⟩
      · rw [if_neg hover]
        by_cases hsize : k ≤ mp.nbytes slot
        · rw [if_pos hsize]
          exact ⟨_, rfl⟩
        · rw [if_neg hsize, fusememory_eq h hsized hslot]
          rw [List.find?_cons_of_neg (by simp [hover, hsize])] at hcut
          exact ih (fun i hi => hslots i (List.mem_cons_of_mem _ hi)) hcut

theorem tryPool_answers (hcut : ∀ slot, mp.choose E k = some (.fragment slot) → k ≠ 0) :
    ∃ a, Heap.tryPool E k mp = .ok a := by
  rw [Heap.tryPool]
  cases hquery : mp.querydescu k with
  | some slot => exact ⟨_, rfl⟩
  | none =>
      obtain ⟨a, hscan⟩ := @scanPool_answers E mp k h hsized hlt halign
        (List.range mp.nDescriptors) (fun slot hslot => List.mem_range.mp hslot)
        fun slot hfind hover => hcut slot (by simp only [choose, hquery, hfind, if_pos hover])
      have hspec := scanPool_ok h hlt halign (List.range mp.nDescriptors)
        (fun slot hslot => List.mem_range.mp hslot) hscan
      obtain ⟨ablock, apool, acounted⟩ := a
      simp only [hscan]
      cases ablock with
      | some block => exact ⟨_, rfl⟩
      | none =>
          have hpool : apool = mp := by
            split at hspec
            · exact hspec.2
            · obtain ⟨block, hblock, -⟩ := hspec
              cases hblock
          subst hpool
          obtain ⟨r, halloc⟩ := allocatedesc_answers h k
          simp only [halloc]
          cases r with
          | none => exact ⟨_, rfl⟩
          | some mp' => exact ⟨_, rfl⟩

end Requests

end Sized

end MemPool

/-! ## All pools -/

section Pools

variable {E : HeapEnv} {k : Nat} (hlt : k < 2 ^ 64) (halign : 8 ∣ k)

include hlt halign

theorem tryPools_answers (total : Nat) (pools : List MemPool)
    (hpools : ∀ mp ∈ pools, mp.WellFormed ∧ mp.Sized)
    (hcut : ∀ mp, (pools.find? fun mp => (mp.choose E k).isSome) = some mp →
      ∀ slot, mp.choose E k = some (.fragment slot) → k ≠ 0) :
    ∃ r, Heap.tryPools E k total pools = .ok r := by
  induction pools with
  | nil => exact ⟨_, rfl⟩
  | cons mp pools ih =>
      obtain ⟨hwell, hsized⟩ := hpools mp List.mem_cons_self
      have hrepair : Heap.repair total mp = .ok mp := by
        rw [Heap.repair]
        split
        · exact MemPool.fixmdarray_eq hwell hsized
        · rfl
      obtain ⟨a, hattempt⟩ := @MemPool.tryPool_answers E mp k hwell hsized hlt halign
        fun slot hchoose => hcut mp (List.find?_cons_of_pos (by simp [hchoose])) slot hchoose
      have hspec := MemPool.tryPool_ok hwell hlt halign hattempt
      obtain ⟨ablock, apool, acounted⟩ := a
      rw [Heap.tryPools, hrepair]
      simp only [hattempt]
      cases ablock with
      | some block => exact ⟨_, rfl⟩
      | none =>
          have hnone : mp.choose E k = none := by
            split at hspec
            · assumption
            · obtain ⟨block, hblock, -⟩ := hspec
              cases hblock
          rw [List.find?_cons_of_neg (by simp [hnone])] at hcut
          obtain ⟨r, hrest⟩ := ih (fun mp hmp => hpools mp (List.mem_cons_of_mem _ hmp)) hcut
          obtain ⟨block, pools', total'⟩ := r
          simp only [hrest]
          exact ⟨_, rfl⟩

theorem tryPools_served (total : Nat) {pools : List MemPool} {mp : MemPool}
    (hpools : ∀ mp ∈ pools, mp.WellFormed ∧ mp.Sized)
    (hfind : (pools.find? fun mp => (mp.choose E k).isSome) = some mp)
    (hcut : ∀ slot, mp.choose E k = some (.fragment slot) → k ≠ 0) :
    ∃ ptr r, Heap.tryPools E k total pools = .ok (some ptr, r) := by
  obtain ⟨⟨block, r⟩, htry⟩ := @tryPools_answers E k hlt halign total pools hpools
    fun other hother => by
      rw [hfind] at hother
      rw [← Option.some.inj hother]
      exact hcut
  rcases tryPools_ok hlt halign (fun mp hmp => (hpools mp hmp).1) htry with
    ⟨-, -, hnone⟩ | ⟨ptr, rfl, -⟩
  · have hsome := List.find?_some hfind
    rw [hnone mp (List.mem_of_find?_eq_some hfind)] at hsome
    cases hsome
  · exact ⟨ptr, r, htry⟩

end Pools

/-! ## `mmalloc` -/

/-- Well-formed pools without empty blocks. -/
structure PoolsSized (pools : List MemPool) : Prop where
  wellFormed : PoolsWellFormed pools
  sized : ∀ mp ∈ pools, mp.Sized

theorem PoolsSized.each {pools : List MemPool} (h : PoolsSized pools) :
    ∀ mp ∈ pools, mp.WellFormed ∧ mp.Sized :=
  fun mp hmp => ⟨h.wellFormed.each mp hmp, h.sized mp hmp⟩

/-- A block is not cut to nothing. -/
def Choice.Possible (nbytes : Nat) (c : Choice) : Prop := ∀ slot, c = .fragment slot → nbytes ≠ 0

theorem possible_of_ne {nbytes : Nat} (h : nbytes ≠ 0) (c : Choice) : c.Possible nbytes :=
  fun _ _ => h

section Requests

variable {E : HeapEnv} {h : Heap} {nbytes : Nat}

theorem mmalloc_serves (hsized : PoolsSized h.pools) (hnonzero : nbytes ≠ 0)
    (hchoice : FirstChoice E h.pools (roundup nbytes allocAlign)
      fun _ c => c.Possible (roundup nbytes allocAlign)) :
    ∃ ptr h', h.mmalloc E nbytes = .ok (some ptr, h') := by
  obtain ⟨mp, c, hfind, hc, hpossible⟩ := hchoice
  have hne : h.pools ≠ [] := List.ne_nil_of_mem (List.mem_of_find?_eq_some hfind)
  obtain ⟨ptr, ⟨pools, total⟩, htry⟩ := tryPools_served (roundup_lt_size nbytes)
    (align_dvd_roundup nbytes) h.totalNAllocations hsized.each hfind fun slot hslot =>
      hpossible slot (Option.some.inj (hc.symm.trans hslot))
  exact ⟨ptr, _, mmalloc_ok_iff.mpr (Or.inr ⟨hnonzero, hne, ptr, pools, total, htry, rfl⟩)⟩

end Requests

end BlockyOS.Kernel
