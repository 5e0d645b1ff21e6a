import BlockyOS.Foundation.Firsts
import BlockyOS.Kernel.HeapLayout

/-!
# Handing memory back

`mfree` looks for a used descriptor that contains the pointer, pool by pool, and
hands the pointer to `FreePages` if there is none and the last pool it looked at
does not contain the pointer either.
-/

namespace BlockyOS.Kernel

open BlockyOS.Foundation
open BlockyOS.HostTool (Fault)

/-! ## The search -/

structure FirstIn (p : MemDesc → Bool) (pools : List MemPool) (pool slot : Nat)
    (mp : MemPool) (d : MemDesc) : Prop where
  inPools : FirstAt (fun mp => mp.descs.any p) pools pool mp
  inPool : FirstAt p mp.descs slot d

theorem none_or_exists_firstIn (p : MemDesc → Bool) (pools : List MemPool) :
    (∀ mp ∈ pools, ∀ d ∈ mp.descs, p d = false) ∨
      ∃ pool slot mp d, FirstIn p pools pool slot mp d := by
  rcases none_or_exists_firstAt (fun mp : MemPool => mp.descs.any p) pools with
    hnone | ⟨pool, mp, hpool⟩
  · refine Or.inl fun mp hmp d hd => ?_
    exact Bool.eq_false_of_not_eq_true (List.any_eq_false.mp (hnone mp hmp) d hd)
  · rcases none_or_exists_firstAt p mp.descs with hnone | ⟨slot, d, hslot⟩
    · have hany := hpool.holds
      rw [List.any_eq_false.mpr fun d hd => by simp [hnone d hd]] at hany
      cases hany
    · exact Or.inr ⟨pool, slot, mp, d, hpool, hslot⟩

namespace Heap

def released (d : MemDesc) : MemDesc := { d with flags := flagUnset d.flags memdescUsed }

variable {ptr : Nat}

theorem freeDescs_none {descs : List MemDesc} (h : ∀ d ∈ descs, freesDesc ptr d = false) :
    freeDescs ptr descs = none := by
  induction descs with
  | nil => rfl
  | cons d descs ih =>
      rw [freeDescs, h d List.mem_cons_self, ih fun e he => h e (List.mem_cons_of_mem d he)]
      rfl

theorem freeDescs_first {descs : List MemDesc} {slot : Nat} {d : MemDesc}
    (h : FirstAt (freesDesc ptr) descs slot d) :
    freeDescs ptr descs = some (descs.set slot (released d)) := by
  induction descs generalizing slot with
  | nil => cases h.get
  | cons e descs ih =>
      rw [freeDescs]
      rcases firstAt_cons_iff.mp h with ⟨rfl, rfl, he⟩ | ⟨k, rfl, he, h⟩
      · rw [he]
        rfl
      · rw [he, ih h]
        rfl

theorem freePools_none {pools : List MemPool}
    (h : ∀ mp ∈ pools, ∀ d ∈ mp.descs, freesDesc ptr d = false) :
    freePools ptr pools = none := by
  induction pools with
  | nil => rfl
  | cons mp pools ih =>
      rw [freePools, freeDescs_none (h mp List.mem_cons_self),
        ih fun other hother => h other (List.mem_cons_of_mem mp hother)]
      rfl

theorem freePools_first {pools : List MemPool} {pool slot : Nat} {mp : MemPool} {d : MemDesc}
    (h : FirstIn (freesDesc ptr) pools pool slot mp d) :
    freePools ptr pools =
      some (pools.set pool { mp with descs := mp.descs.set slot (released d) }) := by
  obtain ⟨hpool, hslot⟩ := h
  induction pools generalizing pool with
  | nil => cases hpool.get
  | cons other pools ih =>
      rw [freePools]
      rcases firstAt_cons_iff.mp hpool with ⟨rfl, rfl, -⟩ | ⟨k, rfl, hany, hpool⟩
      · rw [freeDescs_first hslot]
        rfl
      · have hnone : freeDescs ptr other.descs = none :=
          freeDescs_none fun d hd =>
            Bool.eq_false_of_not_eq_true (List.any_eq_false.mp hany d hd)
        rw [hnone]
        simp only
        rw [ih hpool]
        rfl

/-! ## What freeing should do -/

/-- The bytes of a descriptor. -/
def Holds (d : MemDesc) (ptr : Nat) : Prop := d.ptr ≤ ptr ∧ ptr < d.ptr + d.nbytes

def Live (d : MemDesc) : Prop :=
  flagCheck d.flags memdescUsed = true ∧ flagCheck d.flags memdescNofree = false

def InPool (mp : MemPool) (ptr : Nat) : Prop := mp.base ≤ ptr ∧ ptr < mp.base + mp.bytes

structure Owner (h : Heap) (ptr pool slot : Nat) (mp : MemPool) (d : MemDesc) : Prop where
  pool : h.pools[pool]? = some mp
  slot : mp.descs[slot]? = some d
  start : d.ptr = ptr
  live : Live d

/--
The call returns; the start of a live block clears the used flag of that block; a
pointer into a pool that no live block contains changes nothing; and pages are
freed only for pointers outside every pool.
-/
structure FreesOwner (h : Heap) (ptr : Nat) (result : Except Fault Heap) : Prop where
  returns : ∃ h', result = .ok h'
  owner : ∀ {pool slot mp d}, h.Owner ptr pool slot mp d →
    result = .ok { h with
      pools := h.pools.set pool { mp with descs := mp.descs.set slot (released d) } }
  inside : (∃ mp ∈ h.pools, InPool mp ptr) →
    (∀ mp ∈ h.pools, ∀ d ∈ mp.descs, Live d → ¬ Holds d ptr) → result = .ok h
  pages : ∀ h', result = .ok h' → h'.freedPages ≠ h.freedPages →
    ∀ mp ∈ h'.pools, ¬ InPool mp ptr

/-! ## What it does -/

variable {E : HeapEnv} {h : Heap}

theorem freesDesc_iff {d : MemDesc} :
    freesDesc ptr d = true ↔ d.ptr ≤ ptr ∧ ptr < u64 (d.ptr + d.nbytes) ∧ Live d := by
  simp only [freesDesc, Live, Bool.and_eq_true, decide_eq_true_eq, Bool.not_eq_true']
  tauto

theorem holds_of_freesDesc {d : MemDesc} (hd : freesDesc ptr d = true) :
    Live d ∧ Holds d ptr := by
  obtain ⟨hstart, hend, hlive⟩ := freesDesc_iff.mp hd
  exact ⟨hlive, hstart, Nat.lt_of_lt_of_le hend (Nat.mod_le _ _)⟩

theorem released_ne {d : MemDesc} (hd : Live d) : released d ≠ d := by
  intro heq
  have hused : flagCheck (released d).flags memdescUsed = true := by
    rw [heq]
    exact hd.1
  have hcleared : flagUnset d.flags memdescUsed &&& memdescUsed = 0 := by
    rw [flagUnset, BitVec.and_assoc, BitVec.and_comm (~~~memdescUsed), BitVec.and_not_self]
    exact BitVec.and_zero
  rw [flagCheck, released, hcleared] at hused
  exact absurd hused (by decide)

theorem mfree_null : h.mfree E 0 = .ok h := if_pos rfl

theorem mfree_first (hptr : ptr ≠ 0) {pool slot : Nat} {mp : MemPool} {d : MemDesc}
    (hfirst : FirstIn (freesDesc ptr) h.pools pool slot mp d) :
    h.mfree E ptr = .ok { h with
      pools := h.pools.set pool { mp with descs := mp.descs.set slot (released d) } } := by
  have hne : h.pools ≠ [] := List.ne_nil_of_mem hfirst.inPools.mem
  rw [mfree, if_neg hptr, if_neg hne, freePools_first hfirst]

theorem mfree_none (hptr : ptr ≠ 0) (hne : h.pools ≠ [])
    (hnone : ∀ mp ∈ h.pools, ∀ d ∈ mp.descs, freesDesc ptr d = false) :
    h.mfree E ptr = .ok { h with
      freedPages := if h.inLastPool ptr then h.freedPages else ptr :: h.freedPages } := by
  rw [mfree, if_neg hptr, if_neg hne, freePools_none hnone]

def cell (pools : List MemPool) (pool slot : Nat) : Option MemDesc :=
  pools[pool]?.bind fun mp => mp.descs[slot]?

theorem cell_set_same {pools : List MemPool} {pool slot : Nat} {mp : MemPool} {d : MemDesc}
    (d' : MemDesc) (hpool : pools[pool]? = some mp) (hslot : mp.descs[slot]? = some d) :
    cell (pools.set pool { mp with descs := mp.descs.set slot d' }) pool slot = some d' := by
  have hlt := (List.getElem?_eq_some_iff.mp hpool).1
  have hlt' := (List.getElem?_eq_some_iff.mp hslot).1
  rw [cell, List.getElem?_set_self hlt]
  exact List.getElem?_set_self hlt'

theorem cell_set_other {pools : List MemPool} {pool slot pool' slot' : Nat} {mp : MemPool}
    {d' : MemDesc} (hpool : pools[pool]? = some mp) (hne : ¬ (pool' = pool ∧ slot' = slot)) :
    cell (pools.set pool { mp with descs := mp.descs.set slot d' }) pool' slot' =
      cell pools pool' slot' := by
  have hlt := (List.getElem?_eq_some_iff.mp hpool).1
  rw [cell, cell]
  by_cases heq : pool' = pool
  · subst heq
    rw [List.getElem?_set_self hlt, hpool]
    exact List.getElem?_set_ne fun heq => hne ⟨rfl, heq.symm⟩
  · rw [List.getElem?_set_ne fun h => heq h.symm]

/--
There are pools; the block that starts at the pointer is the first one found; and
a pointer into a pool that no descriptor found contains lies in the last pool.
-/
structure ReleaseClear (h : Heap) (ptr : Nat) : Prop where
  pools : ptr ≠ 0 → h.pools ≠ []
  first : ∀ {pool slot mp d}, h.Owner ptr pool slot mp d →
    ptr ≠ 0 ∧ FirstIn (freesDesc ptr) h.pools pool slot mp d
  last : ptr ≠ 0 → (∀ mp ∈ h.pools, ∀ d ∈ mp.descs, freesDesc ptr d = false) →
    (∃ mp ∈ h.pools, InPool mp ptr) → h.inLastPool ptr = true

theorem firstIn_of_owner {pool slot : Nat} {mp : MemPool} {d : MemDesc}
    (howner : h.Owner ptr pool slot mp d)
    (hresult : h.mfree E ptr = .ok { h with
      pools := h.pools.set pool { mp with descs := mp.descs.set slot (released d) } }) :
    ptr ≠ 0 ∧ FirstIn (freesDesc ptr) h.pools pool slot mp d := by
  have hcell := cell_set_same (released d) howner.pool howner.slot
  have hold : cell h.pools pool slot = some d := by
    rw [cell, howner.pool]
    exact howner.slot
  have hpools : ∀ {h' : Heap}, h.mfree E ptr = .ok h' → h'.pools ≠ h.pools := by
    intro h' hfree heq
    rw [hresult] at hfree
    obtain rfl := Except.ok.inj hfree
    simp only at heq
    rw [heq, hold] at hcell
    exact released_ne howner.live (Option.some.inj hcell).symm
  have hptr : ptr ≠ 0 := by
    rintro rfl
    exact hpools mfree_null rfl
  refine ⟨hptr, ?_⟩
  rcases none_or_exists_firstIn (freesDesc ptr) h.pools with
    hnone | ⟨pool', slot', mp', d', hfirst⟩
  · have hne := List.ne_nil_of_mem (List.mem_of_getElem? howner.pool)
    exact (hpools (mfree_none hptr hne hnone) rfl).elim
  · by_cases hsame : pool' = pool ∧ slot' = slot
    · obtain ⟨rfl, rfl⟩ := hsame
      obtain rfl := Option.some.inj (hfirst.inPools.get.symm.trans howner.pool)
      obtain rfl := Option.some.inj (hfirst.inPool.get.symm.trans howner.slot)
      exact hfirst
    · -- another descriptor is released, which the wanted result leaves alone
      exfalso
      have heq := congrArg Heap.pools
        (Except.ok.inj ((mfree_first hptr hfirst).symm.trans hresult))
      have hfound := cell_set_same (released d') hfirst.inPools.get hfirst.inPool.get
      simp only at heq
      rw [heq, cell_set_other howner.pool hsame, cell,
        hfirst.inPools.get] at hfound
      have hget := hfirst.inPool.get
      exact released_ne (holds_of_freesDesc hfirst.inPool.holds).1
        (Option.some.inj (hfound.symm.trans hget))

/-- `mfree` releases only the owner exactly when its search is clear. -/
theorem freesOwner_iff (E : HeapEnv) (h : Heap) (ptr : Nat) :
    h.FreesOwner ptr (h.mfree E ptr) ↔ h.ReleaseClear ptr := by
  constructor
  · rintro ⟨hreturns, howner, -, hpages⟩
    have hpools := mfree_returns_iff.mp hreturns
    refine ⟨hpools.resolve_left, fun ho => firstIn_of_owner ho (howner ho),
      fun hptr hnone hin => ?_⟩
    by_contra hlast
    have hfree := mfree_none (E := E) hptr (hpools.resolve_left hptr) hnone
    rw [if_neg hlast] at hfree
    obtain ⟨mp, hmp, hinside⟩ := hin
    exact hpages _ hfree (List.cons_ne_self _ _) mp hmp hinside
  · rintro ⟨hpools, hfirst, hlast⟩
    refine ⟨mfree_returns_iff.mpr (or_iff_not_imp_left.mpr hpools), fun ho => ?_,
      fun hin hnone => ?_, fun h' hfree hgrown => ?_⟩
    · obtain ⟨hptr, hfound⟩ := hfirst ho
      exact mfree_first hptr hfound
    · obtain ⟨mp, hmp, hin⟩ := hin
      by_cases hptr : ptr = 0
      · rw [hptr]
        exact mfree_null
      · have hne := List.ne_nil_of_mem hmp
        have hsearch : ∀ mp ∈ h.pools, ∀ d ∈ mp.descs, freesDesc ptr d = false := by
          intro mp hmp d hd
          refine Bool.eq_false_of_not_eq_true fun hd' => ?_
          obtain ⟨hlive, hholds⟩ := holds_of_freesDesc hd'
          exact hnone mp hmp d hd hlive hholds
        rw [mfree_none hptr hne hsearch, if_pos (hlast hptr hsearch ⟨mp, hmp, hin⟩)]
    · by_cases hptr : ptr = 0
      · rw [hptr, mfree_null] at hfree
        rw [← Except.ok.inj hfree] at hgrown
        exact absurd rfl hgrown
      · rcases none_or_exists_firstIn (freesDesc ptr) h.pools with
          hnone | ⟨pool, slot, mp, d, hfound⟩
        · rw [mfree_none hptr (hpools hptr) hnone] at hfree
          obtain rfl := Except.ok.inj hfree
          intro mp hmp hin
          rw [if_pos (hlast hptr hnone ⟨mp, hmp, hin⟩)] at hgrown
          exact hgrown rfl
        · rw [mfree_first hptr hfound] at hfree
          rw [← Except.ok.inj hfree] at hgrown
          exact absurd rfl hgrown

/-! ### Two pools -/

def freedTwice : Heap :=
  ⟨[⟨65536, 16, [⟨65536, 8, 0, none⟩]⟩, ⟨131072, 16, []⟩], 1, []⟩

/-- The second call of `mfree` for a block of the first pool frees its pages. -/
theorem not_freesOwner_freedTwice :
    ¬ freedTwice.FreesOwner 65536 (freedTwice.mfree sampleHeapEnv 65536) := by
  intro h
  have hsame := h.inside ⟨⟨65536, 16, [⟨65536, 8, 0, none⟩]⟩, by decide, by decide, by decide⟩
    fun mp hmp d hd hlive _ => ?_
  · have hfreed : ((freedTwice.mfree sampleHeapEnv 65536).map fun h => h.freedPages).toOption =
        some [65536] := by
      decide +kernel
    rw [hsame] at hfreed
    cases hfreed
  · have hunused : ∀ mp ∈ freedTwice.pools, ∀ d ∈ mp.descs,
        flagCheck d.flags memdescUsed = false := by
      decide
    have hused := hlive.1
    rw [hunused mp hmp d hd] at hused
    cases hused

end Heap

end BlockyOS.Kernel
