import BlockyOS.Kernel.HeapBlocks

/-!
# What one request takes

`mmalloc` asks one pool after the other.  In well-formed pools its repairs and
its attempts at fusing change nothing, and what it takes is told by `choose`: a
descriptor as it is, one that is cut, or a new one.
-/

namespace BlockyOS.Kernel

open BlockyOS.Foundation
open BlockyOS.HostTool (Fault)

/-! ## One pool -/

inductive Choice where
  | reuse (slot : Nat)
  | fragment (slot : Nat)
  | fresh
  deriving DecidableEq

def MemPool.choose (E : HeapEnv) (mp : MemPool) (nbytes : Nat) : Option Choice :=
  match mp.querydescu nbytes with
  | some slot => some (.reuse slot)
  | none =>
      match (List.range mp.nDescriptors).find? fun slot => mp.unused slot &&
          (E.overFragMul (mp.nbytes slot) nbytes || decide (nbytes ≤ mp.nbytes slot)) with
      | some slot =>
          some (if E.overFragMul (mp.nbytes slot) nbytes then .fragment slot
            else .reuse slot)
      | none => if mp.admits nbytes then some .fresh else none

/-- The block handed out for a choice, and the pool after it. -/
inductive Takes (mp : MemPool) (nbytes : Nat) : Choice → Nat → MemPool → Prop
  | reuse {slot : Nat} (hslot : slot < mp.nDescriptors) (hsize : nbytes ≤ mp.nbytes slot) :
      Takes mp nbytes (.reuse slot) (mp.ptr slot) mp
  | fragment {slot : Nat} (hslot : slot < mp.nDescriptors)
      (hsize : nbytes < mp.nbytes slot) (hnonzero : nbytes ≠ 0) :
      Takes mp nbytes (.fragment slot) (mp.ptr slot) (mp.cut slot nbytes)
  | fresh {tip : Nat} (htip : mp.nDescriptors ≠ 0 → mp.IsTip tip) :
      Takes mp nbytes .fresh mp.top (mp.extend tip nbytes)

namespace MemPool

theorem fragSize_of_align {nbytes : Nat} (hlt : nbytes < 2 ^ 64) (halign : 8 ∣ nbytes) :
    fragSize nbytes = nbytes := by
  rw [fragSize]
  split
  · exact roundup_align hlt halign
  · omega

theorem WellFormed.fusememory {mp mp' : MemPool} (h : mp.WellFormed) {slot target : Nat}
    {flags : BitVec 32} (hfuse : mp.fusememory slot target flags = .ok mp') : mp' = mp := by
  rw [MemPool.fusememory] at hfuse
  split at hfuse
  · cases hfuse
  · split at hfuse
    · cases hfuse
      rfl
    · split at hfuse
      · cases hfuse
      · exact h.fixmdarray hfuse

section Requests

variable {E : HeapEnv} {mp : MemPool} {nbytes : Nat} (h : mp.WellFormed)
  (hlt : nbytes < 2 ^ 64) (halign : 8 ∣ nbytes)

include h hlt halign

theorem scanPool_ok (slots : List Nat) {a : Heap.Attempt}
    (hslots : ∀ slot ∈ slots, slot < mp.nDescriptors)
    (hscan : Heap.scanPool E nbytes slots mp = .ok a) :
    match slots.find? fun slot => mp.unused slot &&
        (E.overFragMul (mp.nbytes slot) nbytes || decide (nbytes ≤ mp.nbytes slot)) with
    | none => a.block = none ∧ a.pool = mp
    | some slot => ∃ block, a.block = some block ∧ Takes mp nbytes
        (if E.overFragMul (mp.nbytes slot) nbytes then .fragment slot else .reuse slot)
        block a.pool := by
  induction slots with
  | nil =>
      cases hscan
      exact ⟨rfl, rfl⟩
  | cons slot slots ih =>
      have hslot := hslots slot List.mem_cons_self
      rw [Heap.scanPool, if_pos (h.unused slot)] at hscan
      by_cases hover : E.overFragMul (mp.nbytes slot) nbytes = true
      · have hsize := E.lt_of_over hover
        have hcan : mp.canFragment slot nbytes = true := by
          rw [canFragment, fragSize_of_align hlt halign]
          exact decide_eq_true hsize
        rw [if_pos hover] at hscan
        rw [List.find?_cons_of_pos (by simp [h.unused, hover])]
        simp only [if_pos hover]
        cases hfrag : mp.fragmemory slot nbytes with
        | error e =>
            rw [hfrag] at hscan
            cases hscan
        | ok mp' =>
            obtain ⟨rfl, hnonzero⟩ := h.fragmemory hslot hcan hfrag
            rw [fragSize_of_align hlt halign] at hfrag hnonzero
            have hwell := h.cut hslot hsize halign
            simp only [hfrag] at hscan
            rw [hwell.setUsed] at hscan
            cases hscan
            have hptr : (mp.cut slot nbytes).ptr slot = mp.ptr slot := (cut_old _ hslot).1
            exact ⟨_, rfl, by rw [hptr]; exact .fragment hslot hsize hnonzero⟩
      · rw [if_neg hover] at hscan
        by_cases hsize : nbytes ≤ mp.nbytes slot
        · rw [if_pos hsize, h.setUsed] at hscan
          cases hscan
          rw [List.find?_cons_of_pos (by simp [h.unused, hsize])]
          simp only [if_neg hover]
          exact ⟨_, rfl, .reuse hslot hsize⟩
        · rw [if_neg hsize] at hscan
          rw [List.find?_cons_of_neg (by simp [hover, hsize])]
          cases hfuse : mp.fusememory slot nbytes (~~~memdescUsed) with
          | error e =>
              rw [hfuse] at hscan
              cases hscan
          | ok mp' =>
              obtain rfl := h.fusememory hfuse
              rw [hfuse] at hscan
              exact ih (fun i hi => hslots i (List.mem_cons_of_mem _ hi)) hscan

theorem tryPool_ok {a : Heap.Attempt} (htry : Heap.tryPool E nbytes mp = .ok a) :
    match mp.choose E nbytes with
    | none => a.block = none ∧ a.pool = mp
    | some c => ∃ block, a.block = some block ∧ Takes mp nbytes c block a.pool := by
  rw [Heap.tryPool] at htry
  rw [choose]
  cases hquery : mp.querydescu nbytes with
  | some slot =>
      simp only [hquery] at htry
      rw [h.setUsed] at htry
      cases htry
      have hslot := List.mem_range.mp (List.mem_of_find?_eq_some hquery)
      have hsize := List.find?_some hquery
      simp only [Bool.and_eq_true, beq_iff_eq] at hsize
      exact ⟨_, rfl, .reuse hslot (Nat.le_of_eq hsize.2.symm)⟩
  | none =>
      simp only [hquery] at htry
      cases hscan : Heap.scanPool E nbytes (List.range mp.nDescriptors) mp with
      | error e =>
          rw [hscan] at htry
          cases htry
      | ok a' =>
          have hspec := scanPool_ok h hlt halign (List.range mp.nDescriptors)
            (fun slot hslot => List.mem_range.mp hslot) hscan
          rw [hscan] at htry
          split at hspec
          case h_2 slot hfind =>
            obtain ⟨block, hblock, htakes⟩ := hspec
            obtain ⟨ablock, apool, acounted⟩ := a'
            obtain rfl : ablock = some block := hblock
            cases htry
            simp only [hfind]
            exact ⟨block, rfl, htakes⟩
          case h_1 hfind =>
            obtain ⟨hblock, hpool⟩ := hspec
            obtain ⟨ablock, apool, acounted⟩ := a'
            obtain rfl : ablock = none := hblock
            obtain rfl : apool = mp := hpool
            simp only [hfind]
            simp only at htry
            cases halloc : apool.allocatedesc nbytes with
            | error e =>
                rw [halloc] at htry
                cases htry
            | ok r =>
                rw [halloc] at htry
                rcases h.allocatedesc hlt halign halloc with
                  ⟨hadmits, rfl⟩ | ⟨hadmits, tip, htip, rfl⟩
                · cases htry
                  rw [hadmits]
                  exact ⟨rfl, rfl⟩
                · have hused : (apool.extend tip nbytes).setUsed apool.nDescriptors =
                      apool.extend tip nbytes :=
                    setUsed_of_flags (by rw [desc_extend_last])
                  simp only [hused] at htry
                  cases htry
                  rw [hadmits]
                  have hptr : (apool.extend tip nbytes).ptr apool.nDescriptors = apool.top := by
                    rw [ptr, desc_extend_last]
                  exact ⟨_, rfl, by rw [hptr]; exact .fresh htip⟩

end Requests

theorem WellFormed.repair {mp mp' : MemPool} (h : mp.WellFormed) {total : Nat}
    (hrepair : Heap.repair total mp = .ok mp') : mp' = mp := by
  rw [Heap.repair] at hrepair
  split at hrepair
  · exact h.fixmdarray hrepair
  · cases hrepair
    rfl

end MemPool

/-! ## All pools -/

def Serves (E : HeapEnv) (pools : List MemPool) (nbytes block : Nat)
    (pools' : List MemPool) : Prop :=
  ∃ pre mp post c mp', pools = pre ++ mp :: post ∧
    (∀ mp ∈ pre, mp.choose E nbytes = none) ∧ mp.choose E nbytes = some c ∧
    Takes mp nbytes c block mp' ∧ pools' = pre ++ mp' :: post

theorem find_serving {E : HeapEnv} {nbytes : Nat} {pre : List MemPool} {mp : MemPool}
    {c : Choice} (post : List MemPool) (hpre : ∀ mp ∈ pre, mp.choose E nbytes = none)
    (hc : mp.choose E nbytes = some c) :
    (pre ++ mp :: post).find? (fun mp => (mp.choose E nbytes).isSome) = some mp := by
  rw [List.find?_append, List.find?_eq_none.mpr fun mp hmp => by simp [hpre mp hmp],
    Option.none_or, List.find?_cons_of_pos (by simp [hc])]

def FirstChoice (E : HeapEnv) (pools : List MemPool) (nbytes : Nat)
    (P : MemPool → Choice → Prop) : Prop :=
  ∃ mp c, pools.find? (fun mp => (mp.choose E nbytes).isSome) = some mp ∧
    mp.choose E nbytes = some c ∧ P mp c

theorem FirstChoice.mono {E : HeapEnv} {pools : List MemPool} {nbytes : Nat}
    {P Q : MemPool → Choice → Prop} (h : FirstChoice E pools nbytes P)
    (himp : ∀ mp c, P mp c → Q mp c) : FirstChoice E pools nbytes Q := by
  obtain ⟨mp, c, hfind, hc, hP⟩ := h
  exact ⟨mp, c, hfind, hc, himp mp c hP⟩

theorem firstChoice_append_iff {E : HeapEnv} {nbytes : Nat} {pre post : List MemPool}
    {mp : MemPool} {c : Choice} {P : MemPool → Choice → Prop}
    (hpre : ∀ mp ∈ pre, mp.choose E nbytes = none) (hc : mp.choose E nbytes = some c) :
    FirstChoice E (pre ++ mp :: post) nbytes P ↔ P mp c := by
  have hfind := find_serving post hpre hc
  constructor
  · rintro ⟨mp', c', hfind', hc', hP⟩
    obtain rfl := Option.some.inj (hfind.symm.trans hfind')
    obtain rfl := Option.some.inj (hc.symm.trans hc')
    exact hP
  · intro hP
    exact ⟨mp, c, hfind, hc, hP⟩

theorem tryPools_ok {E : HeapEnv} {nbytes total : Nat} (hlt : nbytes < 2 ^ 64)
    (halign : 8 ∣ nbytes) :
    ∀ {pools pools' : List MemPool} {block : Option Nat} {total' : Nat},
      (∀ mp ∈ pools, mp.WellFormed) →
      Heap.tryPools E nbytes total pools = .ok (block, pools', total') →
      (block = none ∧ pools' = pools ∧ ∀ mp ∈ pools, mp.choose E nbytes = none) ∨
        ∃ ptr, block = some ptr ∧ Serves E pools nbytes ptr pools' := by
  intro pools
  induction pools with
  | nil =>
      intro pools' block total' _ htry
      cases htry
      exact Or.inl ⟨rfl, rfl, fun mp hmp => by cases hmp⟩
  | cons mp pools ih =>
      intro pools' block total' hwell htry
      have hmp := hwell mp List.mem_cons_self
      rw [Heap.tryPools] at htry
      cases hrepair : Heap.repair total mp with
      | error e =>
          rw [hrepair] at htry
          cases htry
      | ok mp' =>
          obtain rfl := hmp.repair hrepair
          simp only [hrepair] at htry
          cases hattempt : Heap.tryPool E nbytes mp' with
          | error e =>
              rw [hattempt] at htry
              cases htry
          | ok a =>
              have hspec := MemPool.tryPool_ok hmp hlt halign hattempt
              obtain ⟨ablock, apool, acounted⟩ := a
              rw [hattempt] at htry
              split at hspec
              case h_2 c hchoose =>
                obtain ⟨ptr, hblock, htakes⟩ := hspec
                obtain rfl : ablock = some ptr := hblock
                cases htry
                exact Or.inr ⟨ptr, rfl, [], mp', pools, c, apool, rfl,
                  fun _ hmp => absurd hmp List.not_mem_nil, hchoose, htakes, rfl⟩
              case h_1 hchoose =>
                obtain ⟨hblock, hpool⟩ := hspec
                obtain rfl : ablock = none := hblock
                obtain rfl : apool = mp' := hpool
                simp only at htry
                cases hrest : Heap.tryPools E nbytes total pools with
                | error e =>
                    rw [hrest] at htry
                    cases htry
                | ok r =>
                    obtain ⟨rblock, rpools, rtotal⟩ := r
                    rw [hrest] at htry
                    cases htry
                    rcases ih (fun mp hmp => hwell mp (List.mem_cons_of_mem _ hmp)) hrest with
                      ⟨hnone, hsame, hall⟩ | ⟨ptr, hsome, pre, mp, post, c, mp'', rfl, hpre,
                        hc, htakes, rfl⟩
                    · refine Or.inl ⟨hnone, by rw [hsame], fun mp hmp => ?_⟩
                      rcases List.mem_cons.mp hmp with rfl | hmp
                      · exact hchoose
                      · exact hall mp hmp
                    · refine Or.inr ⟨ptr, hsome, apool :: pre, mp, post, c, mp'', rfl,
                        fun mp hmp => ?_, hc, htakes, rfl⟩
                      rcases List.mem_cons.mp hmp with rfl | hmp
                      · exact hchoose
                      · exact hpre mp hmp

/-! ## The allocator -/

/-- Well-formed pools on disjoint page ranges, none of them at `NULL`. -/
structure PoolsWellFormed (pools : List MemPool) : Prop where
  each : ∀ mp ∈ pools, mp.WellFormed
  nonzero : ∀ mp ∈ pools, mp.base ≠ 0
  apart : pools.Pairwise fun p q => p.base + p.bytes ≤ q.base ∨ q.base + q.bytes ≤ p.base

theorem allocatepool_grown {E : HeapEnv} {h : Heap} (hne : h.pools ≠ []) (nblocks : Nat) :
    Heap.allocatepool E h nblocks = .error .noValue := if_neg hne

theorem allocatepools_second {E : HeapEnv} {nblocks npools : Nat} {h h' : Heap} :
    Heap.allocatepools E nblocks (npools + 2) h ≠ .ok h' := by
  intro halloc
  rw [Heap.allocatepools] at halloc
  split at halloc
  case h_1 => cases halloc
  case h_2 mid hmid =>
    have hne : mid.pools ≠ [] := by
      rw [Heap.allocatepool] at hmid
      split at hmid
      case isFalse => cases hmid
      case isTrue =>
        split at hmid
        · cases hmid
        · cases hmid
          exact List.cons_ne_nil _ _
    rw [Heap.allocatepools, allocatepool_grown hne] at halloc
    cases halloc

theorem initastate_ok_iff {E : HeapEnv} {h h' : Heap} {nblocks : Nat} :
    Heap.initastate E h nblocks dPools = .ok h' ↔ h.pools ≠ [] ∧ h' = h := by
  rw [Heap.initastate]
  split
  case isTrue hnil =>
    refine iff_of_false ?_ fun hok => hok.1 hnil
    exact @allocatepools_second E nblocks 30 _ h'
  case isFalse hne =>
    constructor
    · intro hinit
      exact ⟨hne, (Except.ok.inj hinit).symm⟩
    · rintro ⟨-, rfl⟩
      rfl

theorem tryPools_length {E : HeapEnv} {nbytes total total' : Nat} {pools pools' : List MemPool}
    {block : Option Nat}
    (htry : Heap.tryPools E nbytes total pools = .ok (block, pools', total')) :
    pools'.length = pools.length := by
  induction pools generalizing block pools' total' with
  | nil =>
      cases htry
      rfl
  | cons mp pools ih =>
      rw [Heap.tryPools] at htry
      split at htry
      · cases htry
      · split at htry
        · cases htry
        · cases htry
          rfl
        · split at htry
          · cases htry
          · rename_i hrest
            cases htry
            exact congrArg Nat.succ (ih hrest)

theorem roundup_lt_size (a : Nat) : roundup a allocAlign < 2 ^ 64 := u64_lt _

theorem mmalloc_ok_iff {E : HeapEnv} {h : Heap} {nbytes : Nat} {r : Option Nat × Heap} :
    h.mmalloc E nbytes = .ok r ↔
      (nbytes = 0 ∧ r = (none, h)) ∨
      (nbytes ≠ 0 ∧ h.pools ≠ [] ∧ ∃ ptr pools total,
        Heap.tryPools E (roundup nbytes allocAlign) h.totalNAllocations h.pools =
          .ok (some ptr, pools, total) ∧
        r = (some ptr, { h with pools := pools, totalNAllocations := total })) := by
  rw [Heap.mmalloc, Heap.mmallocPasses]
  by_cases hzero : nbytes = 0
  · rw [if_pos hzero]
    constructor
    · intro hr
      exact Or.inl ⟨hzero, (Except.ok.inj hr).symm⟩
    · rintro (⟨-, rfl⟩ | ⟨hnonzero, -⟩)
      · rfl
      · exact absurd hzero hnonzero
  rw [if_neg hzero]
  simp only
  constructor
  · intro hr
    refine Or.inr ⟨hzero, ?_⟩
    split at hr
    case h_1 => cases hr
    case h_2 h₁ hinit =>
      obtain ⟨hne, rfl⟩ := initastate_ok_iff.mp hinit
      split at hr
      case h_1 => cases hr
      case h_2 ptr pools total htry =>
        exact ⟨hne, ptr, pools, total, htry, (Except.ok.inj hr).symm⟩
      case h_3 pools total htry =>
        have hlength := tryPools_length htry
        have hne' : pools ≠ [] := by
          rintro rfl
          exact hne (List.length_eq_zero_iff.mp hlength.symm)
        rw [@allocatepool_grown E { h₁ with pools := pools, totalNAllocations := total } hne']
          at hr
        cases hr
  · rintro (⟨hz, -⟩ | ⟨-, hne, ptr, pools, total, htry, rfl⟩)
    · exact absurd hz hzero
    · rw [initastate_ok_iff.mpr ⟨hne, rfl⟩]
      simp only [htry]

theorem mmalloc_null {E : HeapEnv} {h : Heap} : h.mmalloc E 0 = .ok (none, h) := rfl

theorem mmalloc_ok {E : HeapEnv} {h h' : Heap} {nbytes : Nat} {block : Option Nat}
    (hwell : PoolsWellFormed h.pools) (hmalloc : h.mmalloc E nbytes = .ok (block, h')) :
    (nbytes = 0 ∧ block = none ∧ h' = h) ∨
      (nbytes ≠ 0 ∧ ∃ ptr, block = some ptr ∧
        Serves E h.pools (roundup nbytes allocAlign) ptr h'.pools) := by
  rcases mmalloc_ok_iff.mp hmalloc with
    ⟨hzero, hr⟩ | ⟨hnonzero, -, ptr, pools, total, htry, hr⟩
  · obtain ⟨rfl, rfl⟩ := Prod.mk.inj hr
    exact Or.inl ⟨hzero, rfl, rfl⟩
  · obtain ⟨rfl, rfl⟩ := Prod.mk.inj hr
    rcases tryPools_ok (roundup_lt_size nbytes) (align_dvd_roundup nbytes) hwell.each htry with
      ⟨hnone, -⟩ | ⟨ptr', hptr, hserves⟩
    · cases hnone
    · obtain rfl := Option.some.inj hptr
      exact Or.inr ⟨hnonzero, ptr, rfl, hserves⟩

theorem mmalloc_none {E : HeapEnv} {h h' : Heap} {nbytes : Nat}
    (hmalloc : h.mmalloc E nbytes = .ok (none, h')) : nbytes = 0 ∧ h' = h := by
  rcases mmalloc_ok_iff.mp hmalloc with ⟨hzero, hr⟩ | ⟨-, -, ptr, pools, total, -, hr⟩
  · exact ⟨hzero, (Prod.mk.inj hr).2⟩
  · cases hr

theorem mmalloc_pools {E : HeapEnv} {h h' : Heap} {nbytes ptr : Nat}
    (hmalloc : h.mmalloc E nbytes = .ok (some ptr, h')) : h.pools ≠ [] ∧ h'.pools ≠ [] := by
  rcases mmalloc_ok_iff.mp hmalloc with ⟨-, hr⟩ | ⟨-, hne, ptr', pools, total, htry, hr⟩
  · cases hr
  · obtain ⟨-, rfl⟩ := Prod.mk.inj hr
    refine ⟨hne, ?_⟩
    rintro rfl
    exact hne (List.length_eq_zero_iff.mp (tryPools_length htry).symm)

theorem freeDescs_unused {ptr : Nat} {descs : List MemDesc}
    (h : ∀ d ∈ descs, d.flags = 0) : Heap.freeDescs ptr descs = none := by
  induction descs with
  | nil => rfl
  | cons d descs ih =>
      have hkept : Heap.freesDesc ptr d = false := by
        rw [Heap.freesDesc, h d List.mem_cons_self, flagCheck_zero, flagCheck_zero]
        simp [memdescUsed]
      rw [Heap.freeDescs, hkept, ih fun e he => h e (List.mem_cons_of_mem d he)]
      rfl

theorem freePools_unused {ptr : Nat} {pools : List MemPool}
    (h : ∀ mp ∈ pools, ∀ slot, (mp.desc slot).flags = 0) :
    Heap.freePools ptr pools = none := by
  induction pools with
  | nil => rfl
  | cons mp pools ih =>
      have hflags : ∀ d ∈ mp.descs, d.flags = 0 := by
        intro d hd
        obtain ⟨slot, -, rfl⟩ := MemPool.mem_iff_desc.mp hd
        exact h mp List.mem_cons_self slot
      rw [Heap.freePools, freeDescs_unused hflags,
        ih fun other hother => h other (List.mem_cons_of_mem mp hother)]
      rfl

theorem mfree_unused {E : HeapEnv} {h h' : Heap} {ptr : Nat} (hne : h.pools ≠ [])
    (hflags : ∀ mp ∈ h.pools, ∀ slot, (mp.desc slot).flags = 0)
    (hfree : Heap.mfree E h ptr = .ok h') : h'.pools = h.pools := by
  rw [Heap.mfree] at hfree
  split at hfree
  · cases hfree
    rfl
  · rw [freePools_unused hflags] at hfree
    cases hfree
    rfl

theorem mfree_ok {E : HeapEnv} {h h' : Heap} {ptr : Nat} (hwell : PoolsWellFormed h.pools)
    (hfree : Heap.mfree E h ptr = .ok h') : h'.pools = h.pools := by
  by_cases hnil : h.pools = []
  · rw [Heap.mfree] at hfree
    split at hfree
    case isTrue =>
      cases hfree
      rfl
    case isFalse =>
      split at hfree
      case h_1 => cases hfree
      case h_2 h₁ hinit => exact absurd hnil (initastate_ok_iff.mp hinit).1
  · exact mfree_unused hnil (fun mp hmp => (hwell.each mp hmp).flags) hfree

theorem mfree_returns_iff {E : HeapEnv} {h : Heap} {ptr : Nat} :
    (∃ h', h.mfree E ptr = .ok h') ↔ ptr = 0 ∨ h.pools ≠ [] := by
  rw [Heap.mfree]
  by_cases hptr : ptr = 0
  · rw [if_pos hptr]
    exact iff_of_true ⟨_, rfl⟩ (Or.inl hptr)
  rw [if_neg hptr, or_iff_right hptr]
  by_cases hnil : h.pools = []
  · rw [if_pos hnil]
    refine iff_of_false ?_ fun hne => hne hnil
    rintro ⟨h', hfree⟩
    split at hfree
    case h_1 => cases hfree
    case h_2 h₁ hinit => exact (initastate_ok_iff.mp hinit).1 hnil
  · rw [if_neg hnil]
    cases Heap.freePools ptr h.pools with
    | none => exact iff_of_true ⟨_, rfl⟩ hnil
    | some pools => exact iff_of_true ⟨_, rfl⟩ hnil

end BlockyOS.Kernel
