import BlockyOS.Kernel.HeapContents
import BlockyOS.Kernel.HeapSafety

/-!
# Sizes of blocks

A block is as large as what was asked for unless one of the sums and products on
the way to it was too large for a word.
-/

namespace BlockyOS.Kernel

open BlockyOS.Foundation
open BlockyOS.HostTool (Fault)

/-! ## One request -/

/-- A descriptor at `out` describes at least `n` bytes, which lie in its pool. -/
def Heap.Covers (h : Heap) (out n : Nat) : Prop :=
  ∃ mp ∈ h.pools, ∃ slot, slot < mp.nDescriptors ∧ mp.ptr slot = out ∧
    n ≤ mp.nbytes slot ∧ mp.base ≤ out ∧ out + mp.nbytes slot ≤ mp.base + mp.bytes

/--
The size that is looked for was not rounded to zero, and for a new descriptor the
sum that `allocatedesc` compares is no larger than a word.
-/
def Choice.Exact (mp : MemPool) (nbytes : Nat) (c : Choice) : Prop :=
  nbytes ≠ 0 ∧ (c = .fresh → mp.memusedsize + nbytes + sizeofMemdesc < 2 ^ 64)

/-- The condition on `mmalloc`: what the first pool that gives anything takes is exact. -/
def Heap.MallocExact (E : HeapEnv) (h : Heap) (n : Nat) : Prop :=
  n ≠ 0 → FirstChoice E h.pools (searched n) fun mp c => c.Exact mp (searched n)

theorem le_searched {n : Nat} (hn : n < 2 ^ 64) (hk : searched n ≠ 0) : n ≤ searched n := by
  rw [searched, u64_of_lt hn, roundup, allocAlign] at hk ⊢
  simp only [u64] at hk ⊢
  omega

theorem Heap.Covers.le {h : Heap} {out n : Nat} (hcovers : h.Covers out n) :
    n ≤ 2 ^ 64 - blockSize := by
  obtain ⟨mp, -, slot, -, -, hsize, habove, hbelow⟩ := hcovers
  have hbytes := mp.bytes_le
  omega

section Takes

variable {E : HeapEnv} {pre post : List MemPool} {mp mp' : MemPool} {c : Choice}
  {block n nbytes : Nat} (hpools : PoolsWellFormed (pre ++ mp :: post))
  (hasked : Asked n nbytes)

include hpools

theorem room_of_exact (hadmits : mp.admits nbytes = true)
    (hexact : mp.memusedsize + nbytes + sizeofMemdesc < 2 ^ 64) :
    mp.top + nbytes + sizeofMemdesc ≤ mp.base + mp.bytes := by
  have hwell := hpools.each mp (by simp)
  have hbound : u64 (mp.memusedsize + nbytes + sizeofMemdesc) ≤ mp.bytes :=
    of_decide_eq_true hadmits
  have hbase : mp.base ≤ mp.top := Nat.le_add_right _ _
  rw [u64_of_lt hexact, hwell.memusedsize] at hbound
  omega

include hasked

theorem exact_of_covers {tip total : Nat} {freed : List Nat} (hadmits : mp.admits nbytes = true)
    (hcovers : Heap.Covers ⟨pre ++ mp.extend tip nbytes :: post, total, freed⟩ mp.top n) :
    mp.memusedsize + nbytes + sizeofMemdesc < 2 ^ 64 := by
  have hwell := hpools.each mp (by simp)
  have hbytes := mp.bytes_le
  have hused := hwell.memusedsize
  have hbase : mp.base ≤ mp.top := Nat.le_add_right _ _
  obtain ⟨other, hother, j, hj, hptr, hsize, -, hbelow⟩ := hcovers
  obtain ⟨rfl, rfl⟩ := slot_of_fresh hpools hasked hadmits hother hj hptr hsize
  have hplace : (mp.extend tip nbytes).base + (mp.extend tip nbytes).bytes =
      mp.base + mp.bytes := rfl
  rw [MemPool.nbytes_extend_last, hplace] at hbelow
  rw [sizeofMemdesc]
  simp only [blockSize] at hbytes
  have hpos := hasked.pos
  omega

theorem takes_covers_iff {total : Nat} {freed : List Nat}
    (hadmits : c = .fresh → mp.admits nbytes = true) (hcover : nbytes ≠ 0 → n ≤ nbytes)
    (htakes : Takes mp nbytes c block mp') :
    Heap.Covers ⟨pre ++ mp' :: post, total, freed⟩ block n ↔ c.Exact mp nbytes := by
  have hwell := hpools.each mp (by simp)
  have hpos := hasked.pos
  constructor
  · intro hcovers
    have hle := hcovers.le
    have hcover' := hasked.covers
    simp only [blockSize] at hle
    refine ⟨by omega, ?_⟩
    rintro rfl
    cases htakes with
    | fresh => exact exact_of_covers hpools hasked (hadmits rfl) hcovers
  · intro hexact
    have hsize := hcover hexact.1
    cases htakes with
    | reuse hslot hsize' =>
        rename_i slot
        have hrange := hpools.slot_range (by simp) hslot
        exact ⟨mp, by simp, slot, hslot, rfl, by omega, hrange⟩
    | fragment hslot hsize' hnonzero =>
        rename_i slot
        have hrange := hpools.slot_range (by simp) hslot
        have hcount : (mp.cut slot nbytes).nDescriptors = mp.nDescriptors + 1 :=
          MemPool.nDescriptors_grow _ _ _ _
        have hfront : (mp.cut slot nbytes).nbytes slot = nbytes := by
          rw [MemPool.nbytes, MemPool.cut, MemPool.desc_cut_front _ hslot]
        have hplace : (mp.cut slot nbytes).base = mp.base ∧
            (mp.cut slot nbytes).bytes = mp.bytes := ⟨rfl, rfl⟩
        refine ⟨mp.cut slot nbytes, by simp, slot, by omega, (MemPool.cut_old _ hslot).1, ?_⟩
        rw [hfront, hplace.1, hplace.2]
        omega
    | fresh htip =>
        rename_i tip
        have hroom := room_of_exact hpools (hadmits rfl) (hexact.2 rfl)
        have hcount : (mp.extend tip nbytes).nDescriptors = mp.nDescriptors + 1 :=
          MemPool.nDescriptors_grow _ _ _ _
        have hptr : (mp.extend tip nbytes).ptr mp.nDescriptors = mp.top := by
          rw [MemPool.ptr, MemPool.desc_extend_last]
        have hplace : (mp.extend tip nbytes).base = mp.base ∧
            (mp.extend tip nbytes).bytes = mp.bytes := ⟨rfl, rfl⟩
        have hbase : mp.base ≤ mp.top := Nat.le_add_right _ _
        refine ⟨mp.extend tip nbytes, by simp, mp.nDescriptors, by omega, hptr, ?_⟩
        rw [MemPool.nbytes_extend_last, hplace.1, hplace.2]
        omega

theorem takes_exact_wellFormed (hadmits : c = .fresh → mp.admits nbytes = true)
    (htakes : Takes mp nbytes c block mp') (hexact : c.Exact mp nbytes) :
    PoolsWellFormed (pre ++ mp' :: post) := by
  have hwell := hpools.each mp (by simp)
  cases htakes with
  | reuse => exact hpools
  | fragment hslot hsize _ => exact hpools.replace (hwell.cut hslot hsize hasked.align) rfl rfl
  | fresh htip =>
      have hroom := room_of_exact hpools (hadmits rfl) (hexact.2 rfl)
      exact hpools.replace (hwell.extend htip hasked.align hroom).1 rfl rfl

end Takes

section Calls

variable {E : HeapEnv} {h h' : Heap} (hsized : PoolsSized h.pools)

include hsized

theorem mmalloc_covers_iff {n out : Nat} (hn : n < 2 ^ 64)
    (hmalloc : h.mmalloc E n = .ok (some out, h')) :
    (h'.Covers out n ↔ h.MallocExact E n) ∧
      (h.MallocExact E n → PoolsSized h'.pools) := by
  rcases mmalloc_ok hsized.wellFormed hmalloc with ⟨-, hnone, -⟩ | ⟨hnonzero, ptr, hptr, hserves⟩
  · cases hnone
  obtain rfl := Option.some.inj hptr
  have hword : u64 n = n := u64_of_lt hn
  have hsearched : searched n = roundup n allocAlign := by rw [searched, hword]
  have hasked := asked_searched (show u64 n ≠ 0 by rw [hword]; exact hnonzero)
  rw [← hsearched] at hserves
  obtain ⟨pre, mp, post, c, mp', hsplit, hpre, hc, htakes, hafter⟩ := hserves
  have hadmits : c = .fresh → mp.admits (searched n) = true := by
    rintro rfl
    exact choose_fresh_admits hc
  rw [Heap.MallocExact, imp_iff_right hnonzero]
  rw [hsplit] at hsized ⊢
  rw [firstChoice_append_iff hpre hc]
  have hiff := @takes_covers_iff pre post mp mp' c out n (searched n) hsized.wellFormed hasked
    h'.totalNAllocations h'.freedPages hadmits (le_searched hn) htakes
  rw [← hafter] at hiff
  refine ⟨hiff, fun hexact => ?_⟩
  rw [hafter]
  exact ⟨takes_exact_wellFormed hsized.wellFormed hasked hadmits htakes hexact,
    forall_mem_replace hsized.sized
      (MemPool.takes_sized (hsized.sized mp (by simp)) hexact.1 htakes)⟩

theorem mmalloc_gives_iff {n : Nat} (hn : n < 2 ^ 64) :
    (∃ r, h.mmalloc E n = .ok r ∧ ∀ out, r.1 = some out → r.2.Covers out n) ↔
      h.MallocExact E n := by
  constructor
  · rintro ⟨⟨block, h'⟩, hmalloc, hcovers⟩ hnonzero
    cases block with
    | none => exact absurd (mmalloc_none hmalloc).1 hnonzero
    | some out =>
        exact (mmalloc_covers_iff hsized hn hmalloc).1.mp (hcovers out rfl) hnonzero
  · intro hexact
    by_cases hzero : n = 0
    · subst hzero
      exact ⟨_, mmalloc_null, fun out hout => by cases hout⟩
    · obtain ⟨out, h', hmalloc⟩ := mmalloc_serves hsized hzero (by
        have hchoice := hexact hzero
        rw [searched, u64_of_lt hn] at hchoice
        exact hchoice.mono fun mp c hc => possible_of_ne hc.1 c)
      refine ⟨_, hmalloc, fun out' hout => ?_⟩
      obtain rfl := Option.some.inj hout
      exact (mmalloc_covers_iff hsized hn hmalloc).1.mpr hexact

theorem mmalloc_sized {n : Nat} {block : Option Nat} (hn : n < 2 ^ 64)
    (hexact : h.MallocExact E n) (hmalloc : h.mmalloc E n = .ok (block, h')) :
    PoolsSized h'.pools := by
  cases block with
  | none =>
      rw [(mmalloc_none hmalloc).2]
      exact hsized
  | some out => exact (mmalloc_covers_iff hsized hn hmalloc).2 hexact

theorem mfree_sized {ptr : Nat} (hfree : h.mfree E ptr = .ok h') : PoolsSized h'.pools := by
  rw [mfree_ok hsized.wellFormed hfree]
  exact hsized

end Calls

/-! ## Runs -/

namespace Heap

/-- One call of the heap's callers. -/
def serve (E : HeapEnv) (h : Heap) : HeapRequest → Except Fault Heap
  | .mmalloc nbytes => (h.mmalloc E nbytes.toNat).map Prod.snd
  | .mcalloc nItems itemSize => (h.mcalloc E nItems.toNat itemSize.toNat).map Prod.snd
  | .mrealloc ptr new => (h.mrealloc E ptr new.toNat).map Prod.snd
  | .mfree ptr => h.mfree E ptr

/-- `mmalloc` returns, and never hands out a block of fewer bytes than were asked for. -/
def MallocGives (E : HeapEnv) (h : Heap) (n : Nat) : Prop :=
  ∃ r, h.mmalloc E n = .ok r ∧ ∀ out, r.1 = some out → r.2.Covers out n

/--
`mcalloc` returns, either `NULL` with memory as it was or a block of the exact
product whose bytes are zero.
-/
def CallocGives (E : HeapEnv) (h : Heap) (nItems itemSize : Nat) : Prop :=
  ∀ bytes : Contents, ∃ block s', HeapMem.mcalloc E ⟨h, bytes⟩ nItems itemSize = .ok (block, s') ∧
    match block with
    | none => s' = ⟨h, bytes⟩
    | some out => s'.heap.Covers out (nItems * itemSize) ∧
        ∀ i < nItems * itemSize, s'.bytes (out + i) = 0

/-- Whether `mrealloc` comes to its call of `mmalloc`. -/
def Reallocates (h : Heap) (ptr new : Nat) : Prop :=
  ptr = 0 ∨ new ≠ 0 ∧ h.originalSize ptr ≠ 0

/-- What the sizes of one call have to be like. -/
def GivesSize (E : HeapEnv) (h : Heap) : HeapRequest → Prop
  | .mmalloc nbytes => h.MallocGives E nbytes.toNat
  | .mcalloc nItems itemSize => h.CallocGives E nItems.toNat itemSize.toNat
  | .mrealloc ptr new => h.Reallocates ptr new.toNat → h.MallocGives E new.toNat
  | .mfree _ => True

/-- The product wraps around to zero, or does not wrap around and its request is exact. -/
def CallocExact (E : HeapEnv) (h : Heap) (nItems itemSize : Nat) : Prop :=
  u64 (nItems * itemSize) = 0 ∨
    nItems * itemSize < 2 ^ 64 ∧ h.MallocExact E (nItems * itemSize)

/-- The condition on one call. -/
def SizeExact (E : HeapEnv) (h : Heap) : HeapRequest → Prop
  | .mmalloc nbytes => h.MallocExact E nbytes.toNat
  | .mcalloc nItems itemSize => h.CallocExact E nItems.toNat itemSize.toNat
  | .mrealloc ptr new => h.Reallocates ptr new.toNat → h.MallocExact E new.toNat
  | .mfree _ => True

section Calls

variable {E : HeapEnv} {h h' : Heap} (hsized : PoolsSized h.pools)

theorem memset_zero_length (bytes : Contents) (buffer : Nat) (val : UInt8) :
    memset bytes buffer val 0 = bytes := by
  funext a
  exact if_neg (by omega)

theorem mcalloc_eq (bytes : Contents) (nItems itemSize : Nat) {block : Option Nat}
    (hmalloc : h.mmalloc E (u64 (nItems * itemSize)) = .ok (block, h')) :
    HeapMem.mcalloc E ⟨h, bytes⟩ nItems itemSize =
      .ok (block, ⟨h', memset bytes (block.getD 0) 0 (u64 (nItems * itemSize))⟩) := by
  simp only [HeapMem.mcalloc, HeapMem.mmalloczero, hmalloc]

include hsized

theorem mcalloc_gives_iff {nItems itemSize : Nat} :
    h.CallocGives E nItems itemSize ↔ h.CallocExact E nItems itemSize := by
  by_cases hzero : u64 (nItems * itemSize) = 0
  · refine iff_of_true (fun bytes => ?_) (Or.inl hzero)
    have hmalloc : h.mmalloc E (u64 (nItems * itemSize)) = .ok (none, h) := by
      rw [hzero, mmalloc_null]
    refine ⟨none, _, mcalloc_eq bytes nItems itemSize hmalloc, ?_⟩
    simp only [hzero, memset_zero_length]
  · rw [CallocExact, or_iff_right hzero]
    constructor
    · intro hgives
      obtain ⟨block, s', hcalloc, hblock⟩ := hgives fun _ => 1
      have hmalloc := HeapMem.mmalloczero_heap hcalloc
      cases block with
      | none => exact absurd (mmalloc_none hmalloc).1 hzero
      | some out =>
          have hcovers := hblock.1
          have hle := hcovers.le
          simp only [blockSize] at hle
          have hfits : nItems * itemSize < 2 ^ 64 := by omega
          rw [u64_of_lt hfits] at hmalloc
          exact ⟨hfits, (mmalloc_covers_iff hsized hfits hmalloc).1.mp hcovers⟩
    · rintro ⟨hfits, hexact⟩ bytes
      have hword := u64_of_lt hfits
      obtain ⟨⟨block, h'⟩, hmalloc, hcovers⟩ := (mmalloc_gives_iff hsized hfits).mpr hexact
      rw [hword] at hzero
      cases block with
      | none => exact absurd (mmalloc_none hmalloc).1 hzero
      | some out =>
          rw [← hword] at hmalloc
          refine ⟨some out, _, mcalloc_eq bytes nItems itemSize hmalloc, hcovers out rfl,
            fun i hi => ?_⟩
          rw [hword]
          exact if_pos ⟨Nat.le_add_right _ _, Nat.add_lt_add_left hi _⟩

omit hsized in
theorem mallocExact_initial {n : Nat} : Heap.initial.MallocExact E n ↔ n = 0 := by
  rw [MallocExact]
  constructor
  · intro hexact
    by_contra hnonzero
    obtain ⟨mp, c, hfind, -⟩ := hexact hnonzero
    cases hfind
  · intro hzero hnonzero
    exact absurd hzero hnonzero

theorem givesSize_iff (r : HeapRequest) : h.GivesSize E r ↔ h.SizeExact E r := by
  cases r with
  | mmalloc nbytes => exact mmalloc_gives_iff hsized nbytes.isLt
  | mcalloc nItems itemSize => exact mcalloc_gives_iff hsized
  | mrealloc ptr new => exact imp_congr_right fun _ => mmalloc_gives_iff hsized new.isLt
  | mfree ptr => exact Iff.rfl

theorem mrealloc_sized {ptr new : Nat} {block : Option Nat} (hnew : new < 2 ^ 64)
    (hexact : h.Reallocates ptr new → h.MallocExact E new)
    (hrealloc : h.mrealloc E ptr new = .ok (block, h')) : PoolsSized h'.pools := by
  by_cases hptr : ptr = 0
  · rw [Heap.mrealloc, if_pos hptr] at hrealloc
    exact mmalloc_sized hsized hnew (hexact (Or.inl hptr)) hrealloc
  by_cases hzero : new = 0
  · rw [Heap.mrealloc, if_neg hptr, if_pos hzero] at hrealloc
    cases hfree : h.mfree E ptr with
    | error e =>
        rw [hfree] at hrealloc
        cases hrealloc
    | ok h₁ =>
        rw [hfree] at hrealloc
        cases hrealloc
        exact mfree_sized hsized hfree
  by_cases hsize : h.originalSize ptr = 0
  · rw [Heap.mrealloc, if_neg hptr, if_neg hzero, if_pos hsize] at hrealloc
    cases hrealloc
    exact hsized
  obtain ⟨out, h₁, h₂, heq, hmalloc, -, hsame⟩ :=
    (mrealloc_moves_iff hsized hptr hzero hsize).mp hrealloc
  obtain ⟨-, rfl⟩ := Prod.mk.inj heq
  rw [hsame]
  exact mmalloc_sized hsized hnew (hexact (Or.inr ⟨hzero, hsize⟩)) hmalloc

theorem serve_sized {r : HeapRequest} (hexact : h.SizeExact E r)
    (hserve : h.serve E r = .ok h') : PoolsSized h'.pools := by
  cases r with
  | mmalloc nbytes =>
      obtain ⟨⟨block, h₁⟩, hmalloc, rfl⟩ := map_ok hserve
      exact mmalloc_sized hsized nbytes.isLt hexact hmalloc
  | mcalloc nItems itemSize =>
      obtain ⟨⟨block, h₁⟩, hcalloc, rfl⟩ := map_ok hserve
      rw [Heap.mcalloc] at hcalloc
      rcases hexact with hzero | ⟨hfits, hexact⟩
      · rw [hzero] at hcalloc
        cases hcalloc
        exact hsized
      · rw [u64_of_lt hfits] at hcalloc
        exact mmalloc_sized hsized hfits hexact hcalloc
  | mrealloc ptr new =>
      obtain ⟨⟨block, h₁⟩, hrealloc, rfl⟩ := map_ok hserve
      exact mrealloc_sized hsized new.isLt hexact hrealloc
  | mfree ptr => exact mfree_sized hsized hserve

end Calls

/--
In every run of a heap, the sizes of the blocks are as they have to be at each call
that the run comes to if and only if each of these calls is exact; and from the
zero state, a call that asks for anything is not exact.
-/
theorem givesSize_each_iff (E : HeapEnv) (requests : List HeapRequest) :
    (∀ h : Heap, PoolsSized h.pools →
      (Each (serve E) (GivesSize E) h requests ↔ Each (serve E) (SizeExact E) h requests)) ∧
    ∀ nbytes nItems itemSize,
      (SizeExact E .initial (.mmalloc nbytes) ↔ nbytes.toNat = 0) ∧
      (SizeExact E .initial (.mcalloc nItems itemSize) ↔
        u64 (nItems.toNat * itemSize.toNat) = 0) := by
  refine ⟨fun h hsized => ?_, fun nbytes nItems itemSize => ⟨?_, ?_⟩⟩
  · exact each_iff_under (I := fun h : Heap => PoolsSized h.pools)
      (fun _ r hsized => givesSize_iff hsized r)
      (fun _ _ _ hsized hexact hserve => serve_sized hsized hexact hserve) hsized
  · exact mallocExact_initial
  · rw [SizeExact, CallocExact]
    refine or_iff_left_of_imp fun ⟨hfits, hexact⟩ => ?_
    rw [mallocExact_initial.mp hexact]
    rfl

theorem givesSize_each_iff_onePool :
    Each (serve sampleHeapEnv) (GivesSize sampleHeapEnv) onePool [.mmalloc 8] := by
  refine ((givesSize_each_iff sampleHeapEnv _).1 onePool onePool_sized).mpr
    ⟨fun _ => ⟨⟨65536, 16, []⟩, .fresh, by decide +kernel, by decide +kernel, by decide, ?_⟩,
      fun _ _ => trivial⟩
  intro _
  decide +kernel

/-- `2 ^ 61 + 1` items of eight bytes get a block of eight bytes. -/
theorem not_givesSize_product :
    ¬ Each (serve sampleHeapEnv) (GivesSize sampleHeapEnv) onePool
      [.mcalloc 0x2000000000000001 8] := by
  rintro ⟨hgives, -⟩
  obtain ⟨block, s', hcalloc, hblock⟩ := hgives fun _ => 0
  have heval : ((onePool.mcalloc sampleHeapEnv (0x2000000000000001 : BitVec 64).toNat
      (8 : BitVec 64).toNat).map Prod.fst).toOption = some (some 65536) := by
    decide +kernel
  have hmalloc := HeapMem.mmalloczero_heap hcalloc
  rw [Heap.mcalloc, hmalloc] at heval
  obtain rfl : block = some 65536 := Option.some.inj heval
  have hle := hblock.1.le
  exact absurd hle (by decide)

end Heap

end BlockyOS.Kernel
