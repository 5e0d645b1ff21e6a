import BlockyOS.Kernel.HeapOwnership

/-!
# Runs of the heap

Callers ask for blocks and hand them back.  The blocks that they hold stay safe
exactly when each request finds what it takes clear.
-/

namespace BlockyOS.Kernel

open BlockyOS.Foundation
open BlockyOS.HostTool (Fault)

/-! ## One call -/

/-- The size that `mmalloc` looks for when `requested` bytes are asked for. -/
def searched (requested : Nat) : Nat := roundup (u64 requested) allocAlign

theorem asked_searched {requested : Nat} (h : u64 requested ≠ 0) :
    Asked requested (searched requested) := by
  refine ⟨Nat.pos_of_ne_zero fun hzero => h (by rw [hzero]; rfl), roundup_lt_size _,
    align_dvd_roundup _, ?_, ?_⟩
  · rw [searched, roundup, allocAlign]
    simp only [u64]
    omega
  · rw [searched, roundup, allocAlign]
    simp only [u64]
    omega

/--
The size that is looked for covers the request, and what the first pool that
gives anything takes is clear.
-/
def RequestClear (E : HeapEnv) (pools : List MemPool) (live : List Block)
    (requested : Nat) : Prop :=
  u64 requested ≠ 0 → requested ≤ searched requested ∧
    FirstChoice E pools (searched requested) fun mp c => c.Clear mp live (searched requested)

/-- The blocks that are held once `mmalloc` has returned. -/
def handOut (live : List Block) (requested : Nat) : Option Nat → List Block
  | none => live
  | some ptr => live ++ [⟨ptr, requested⟩]

/-- The blocks that are held once one was handed back; `NULL` is no block. -/
def release (live : List Block) (ptr : Nat) : List Block :=
  if ptr = 0 then live else live.filter fun b => b.ptr ≠ ptr

/-- The blocks that are held once `mrealloc` has returned. -/
def reallocated (live : List Block) (ptr new : Nat) : Option Nat → List Block
  | none => if new = 0 then release live ptr else live
  | some out => release live ptr ++ [⟨out, new⟩]

theorem release_sublist (live : List Block) (ptr : Nat) : (release live ptr).Sublist live := by
  rw [release]
  split
  · exact List.Sublist.refl live
  · exact List.filter_sublist

@[simp] theorem release_null (live : List Block) : release live 0 = live := rfl

theorem reallocated_null (live : List Block) (new : Nat) (block : Option Nat) :
    reallocated live 0 new block = handOut live new block := by
  cases block with
  | none => exact ite_self live
  | some out => rfl

theorem MemPool.WellFormed.flags_taken {mp mp' : MemPool} (h : mp.WellFormed)
    {c : Choice} {nbytes block : Nat} (halign : 8 ∣ nbytes)
    (htakes : Takes mp nbytes c block mp') : ∀ slot, (mp'.desc slot).flags = 0 := by
  cases htakes with
  | reuse => exact h.flags
  | fragment hslot hsize _ => exact (h.cut hslot hsize halign).flags
  | fresh =>
      rename_i tip htip
      have hcount : (mp.extend tip nbytes).nDescriptors = mp.nDescriptors + 1 :=
        MemPool.nDescriptors_grow _ _ _ _
      intro slot
      rcases Nat.lt_trichotomy slot mp.nDescriptors with hlt | rfl | hgt
      · rw [(MemPool.extend_old hlt).2.2.1]
        exact h.flags slot
      · rw [MemPool.desc_extend_last]
      · rw [MemPool.desc_of_le (by omega)]

theorem choose_fresh_admits {E : HeapEnv} {mp : MemPool} {nbytes : Nat}
    (h : mp.choose E nbytes = some .fresh) : mp.admits nbytes = true := by
  rw [MemPool.choose] at h
  split at h
  · cases h
  · split at h
    · split at h <;> cases h
    · split at h
      · assumption
      · cases h

section Calls

variable {E : HeapEnv} {h h' : Heap} {live : List Block} (hsized : PoolsSized h.pools)
  (hsafe : BlocksSafe h.pools live) (hlive : ∀ b ∈ live, 0 < b.requested)

include hsized hsafe hlive

theorem serves_safe {requested ptr : Nat} {pools' : List MemPool} (hnonzero : u64 requested ≠ 0)
    (hserves : Serves E h.pools (searched requested) ptr pools') :
    (BlocksSafe pools' (live ++ [⟨ptr, requested⟩]) ↔
        requested ≤ searched requested ∧
          FirstChoice E h.pools (searched requested) fun mp c =>
            c.Clear mp live (searched requested)) ∧
      (BlocksSafe pools' (live ++ [⟨ptr, requested⟩]) → PoolsSized pools') := by
  have hasked := asked_searched hnonzero
  obtain ⟨pre, mp, post, c, mp', hsplit, hpre, hc, htakes, rfl⟩ := hserves
  have hadmits : c = .fresh → mp.admits (searched requested) = true := by
    rintro rfl
    exact choose_fresh_admits hc
  rw [hsplit] at hsized hsafe ⊢
  have hiff := takes_safe_iff hsized.wellFormed hsafe hlive hasked hadmits htakes
  rw [firstChoice_append_iff hpre hc]
  refine ⟨hiff, fun hafter => ?_⟩
  have hcovers := (hiff.mp hafter).1
  have hpos := hasked.pos
  exact ⟨takes_keeps_wellFormed hsized.wellFormed hsafe hlive hasked hadmits htakes hafter,
    forall_mem_replace hsized.sized
      (MemPool.takes_sized (hsized.sized mp (by simp)) (by omega) htakes)⟩

theorem mmalloc_safe_iff (requested : Nat) :
    ((∃ r, h.mmalloc E (u64 requested) = .ok r ∧
        BlocksSafe r.2.pools (handOut live requested r.1)) ↔
      RequestClear E h.pools live requested) ∧
    ∀ r, h.mmalloc E (u64 requested) = .ok r →
      BlocksSafe r.2.pools (handOut live requested r.1) → PoolsSized r.2.pools := by
  by_cases hzero : u64 requested = 0
  · have hmalloc : h.mmalloc E (u64 requested) = .ok (none, h) := by rw [hzero, mmalloc_null]
    refine ⟨iff_of_true ⟨_, hmalloc, hsafe⟩ fun hne => absurd hzero hne, fun r hr _ => ?_⟩
    obtain rfl := Except.ok.inj (hmalloc.symm.trans hr)
    exact hsized
  have hserved : ∀ r, h.mmalloc E (u64 requested) = .ok r → ∃ ptr, r.1 = some ptr ∧
      Serves E h.pools (searched requested) ptr r.2.pools := by
    intro r hr
    rcases mmalloc_ok hsized.wellFormed hr with ⟨hz, -⟩ | ⟨-, ptr, hblock, hserves⟩
    · exact absurd hz hzero
    · exact ⟨ptr, hblock, hserves⟩
  refine ⟨⟨?_, fun hclear => ?_⟩, ?_⟩
  · rintro ⟨⟨block, h'⟩, hr, hafter⟩ -
    obtain ⟨ptr, rfl, hserves⟩ := hserved _ hr
    exact (serves_safe hsized hsafe hlive hzero hserves).1.mp hafter
  · obtain ⟨hcovers, hchoice⟩ := hclear hzero
    have hpos := (asked_searched hzero).pos
    have hne : searched requested ≠ 0 := by omega
    obtain ⟨ptr, h', hmalloc⟩ := mmalloc_serves hsized hzero
      (hchoice.mono fun mp c _ => possible_of_ne hne c)
    obtain ⟨ptr', hptr, hserves⟩ := hserved _ hmalloc
    obtain rfl := Option.some.inj hptr
    exact ⟨_, hmalloc, (serves_safe hsized hsafe hlive hzero hserves).1.mpr ⟨hcovers, hchoice⟩⟩
  · rintro ⟨block, h'⟩ hr hafter
    obtain ⟨ptr, rfl, hserves⟩ := hserved _ hr
    exact (serves_safe hsized hsafe hlive hzero hserves).2 hafter

omit hsafe hlive in
theorem mmalloc_some {nbytes ptr : Nat} (hmalloc : h.mmalloc E nbytes = .ok (some ptr, h')) :
    h'.pools ≠ [] ∧ ∀ mp ∈ h'.pools, ∀ slot, (mp.desc slot).flags = 0 := by
  have hwell := hsized.wellFormed
  rcases mmalloc_ok hwell hmalloc with ⟨-, hnone, -⟩ | ⟨-, _, -, hserves⟩
  · cases hnone
  · obtain ⟨pre, mp, post, c, mp', hsplit, -, -, htakes, hafter⟩ := hserves
    rw [hsplit] at hwell
    have hmp := hwell.each mp (by simp)
    rw [hafter]
    exact ⟨by simp, forall_mem_replace (fun other hother => (hwell.each other hother).flags)
      (hmp.flags_taken (align_dvd_roundup nbytes) htakes)⟩

omit hsafe hlive in
theorem mmalloc_mfree {nbytes ptr out : Nat} (hmalloc : h.mmalloc E nbytes = .ok (some out, h')) :
    ∃ h₂, h'.mfree E ptr = .ok h₂ ∧ h₂.pools = h'.pools := by
  obtain ⟨hne, hflags⟩ := mmalloc_some hsized hmalloc
  obtain ⟨h₂, hfree⟩ := mfree_returns_iff.mpr (Or.inr hne)
  exact ⟨h₂, hfree, mfree_unused hne hflags hfree⟩

omit hsafe hlive in
/-- The call of `mmalloc` decides, since `mfree` changes no pool. -/
theorem mrealloc_moves_iff {ptr new : Nat} (hptr : ptr ≠ 0) (hnew : new ≠ 0)
    (hsize : h.originalSize ptr ≠ 0) {r : Option Nat × Heap} :
    h.mrealloc E ptr new = .ok r ↔ ∃ out h₁ h₂, r = (some out, h₂) ∧
      h.mmalloc E new = .ok (some out, h₁) ∧ h₁.mfree E ptr = .ok h₂ ∧ h₂.pools = h₁.pools := by
  rw [Heap.mrealloc, if_neg hptr, if_neg hnew, if_neg hsize]
  cases hmalloc : h.mmalloc E new with
  | error e =>
      refine iff_of_false (fun h => by cases h) ?_
      rintro ⟨out, h₁, h₂, -, hok, -⟩
      cases hok
  | ok r₁ =>
      obtain ⟨block, h₁⟩ := r₁
      cases block with
      | none => exact absurd (mmalloc_none hmalloc).1 hnew
      | some out =>
          obtain ⟨h₂, hfree, hsame⟩ := @mmalloc_mfree E h h₁ hsized new ptr out hmalloc
          simp only [hfree]
          constructor
          · intro hr
            exact ⟨out, h₁, h₂, (Except.ok.inj hr).symm, rfl, hfree, hsame⟩
          · rintro ⟨out', h₁', h₂', rfl, hok, hfree', -⟩
            obtain ⟨hout, rfl⟩ := Prod.mk.inj (Except.ok.inj hok)
            obtain rfl := Option.some.inj hout
            obtain rfl := Except.ok.inj (hfree.symm.trans hfree')
            rfl

theorem mrealloc_safe_iff {ptr new : Nat} (hnew : new < 2 ^ 64)
    (hpools : ptr = 0 ∨ h.pools ≠ []) :
    ((∃ r, h.mrealloc E ptr new = .ok r ∧
        BlocksSafe r.2.pools (reallocated live ptr new r.1)) ↔
      ((ptr = 0 ∨ h.originalSize ptr ≠ 0) → RequestClear E h.pools (release live ptr) new)) ∧
    ∀ r, h.mrealloc E ptr new = .ok r →
      BlocksSafe r.2.pools (reallocated live ptr new r.1) → PoolsSized r.2.pools := by
  have hword : u64 new = new := u64_of_lt hnew
  have hreleased := hsafe.sublist (release_sublist live ptr)
  have hlive' : ∀ b ∈ release live ptr, 0 < b.requested :=
    fun b hb => hlive b ((release_sublist live ptr).subset hb)
  by_cases hptr : ptr = 0
  · subst hptr
    have hsame : h.mrealloc E 0 new = h.mmalloc E (u64 new) := by
      rw [hword]
      exact if_pos rfl
    simp only [hsame, reallocated_null, release_null, true_or, true_imp_iff]
    exact mmalloc_safe_iff hsized hsafe hlive new
  by_cases hzero : new = 0
  · subst hzero
    obtain ⟨h₂, hfree⟩ := mfree_returns_iff.mpr hpools
    have hkept := mfree_ok hsized.wellFormed hfree
    have hresult : h.mrealloc E ptr 0 = .ok (none, h₂) := by
      rw [Heap.mrealloc, if_neg hptr, if_pos rfl, hfree]
    refine ⟨iff_of_true ⟨_, hresult, ?_⟩ fun _ hnonzero => absurd rfl hnonzero, fun r hr _ => ?_⟩
    · rw [hkept]
      exact hreleased
    · obtain rfl := Except.ok.inj (hresult.symm.trans hr)
      rw [hkept]
      exact hsized
  by_cases hsize : h.originalSize ptr = 0
  · have hresult : h.mrealloc E ptr new = .ok (none, h) := by
      rw [Heap.mrealloc, if_neg hptr, if_neg hzero, if_pos hsize]
    refine ⟨iff_of_true ⟨_, hresult, ?_⟩ fun hreason => absurd hsize (hreason.resolve_left hptr),
      fun r hr _ => ?_⟩
    · rw [reallocated, if_neg hzero]
      exact hsafe
    · obtain rfl := Except.ok.inj (hresult.symm.trans hr)
      exact hsized
  rw [imp_iff_right (Or.inr hsize)]
  obtain ⟨hexact, hkeep⟩ := @mmalloc_safe_iff E h _ hsized hreleased hlive' new
  rw [hword] at hexact hkeep
  have hcalls := @mrealloc_moves_iff E h hsized ptr new hptr hzero hsize
  refine ⟨⟨?_, fun hclear => ?_⟩, ?_⟩
  · rintro ⟨r, hr, hafter⟩
    obtain ⟨out, h₁, h₂, rfl, hmalloc, -, hsame⟩ := hcalls.mp hr
    rw [hsame] at hafter
    exact hexact.mp ⟨_, hmalloc, hafter⟩
  · obtain ⟨⟨block, h₁⟩, hmalloc, hafter⟩ := hexact.mpr hclear
    cases block with
    | none => exact absurd (mmalloc_none hmalloc).1 hzero
    | some out =>
        obtain ⟨h₂, hfree, hsame⟩ := @mmalloc_mfree E h h₁ hsized new ptr out hmalloc
        refine ⟨_, hcalls.mpr ⟨out, h₁, h₂, rfl, hmalloc, hfree, hsame⟩, ?_⟩
        rw [hsame]
        exact hafter
  · intro r hr hafter
    obtain ⟨out, h₁, h₂, rfl, hmalloc, -, hsame⟩ := hcalls.mp hr
    rw [hsame] at hafter ⊢
    exact hkeep _ hmalloc hafter

end Calls

/-! ## Runs -/

/-- The calls of a heap's callers; sizes are 64-bit words. -/
inductive HeapRequest where
  | mmalloc (nbytes : BitVec 64)
  | mcalloc (nItems itemSize : BitVec 64)
  | mrealloc (ptr : Nat) (new : BitVec 64)
  | mfree (ptr : Nat)

/-- The heap, and the blocks that were handed out and not handed back. -/
structure HeapSession where
  heap : Heap
  live : List Block

namespace HeapSession

def initial : HeapSession := ⟨Heap.initial, []⟩

/-- Callers pass `NULL` or the address of a block that they hold. -/
def owns (s : HeapSession) (ptr : Nat) : Bool :=
  ptr == 0 || s.live.any fun b => b.ptr == ptr

def request (E : HeapEnv) (s : HeapSession) : HeapRequest → Except Fault HeapSession
  | .mmalloc nbytes =>
      (s.heap.mmalloc E nbytes.toNat).map fun r =>
        ⟨r.2, handOut s.live nbytes.toNat r.1⟩
  | .mcalloc nItems itemSize =>
      (s.heap.mcalloc E nItems.toNat itemSize.toNat).map fun r =>
        ⟨r.2, handOut s.live (nItems.toNat * itemSize.toNat) r.1⟩
  | .mrealloc ptr new =>
      if s.owns ptr then
        (s.heap.mrealloc E ptr new.toNat).map fun r =>
          ⟨r.2, reallocated s.live ptr new.toNat r.1⟩
      else .error .outOfBounds
  | .mfree ptr =>
      if s.owns ptr then (s.heap.mfree E ptr).map fun h => ⟨h, release s.live ptr⟩
      else .error .outOfBounds

/--
The blocks that are held do not meet, each has the bytes that were asked for,
and each lies in the data area of a pool.
-/
def Safe (s : HeapSession) : Prop := BlocksSafe s.heap.pools s.live

/-- The condition on one call. -/
def Clear (E : HeapEnv) (s : HeapSession) : HeapRequest → Prop
  | .mmalloc nbytes => RequestClear E s.heap.pools s.live nbytes.toNat
  | .mcalloc nItems itemSize =>
      RequestClear E s.heap.pools s.live (nItems.toNat * itemSize.toNat)
  | .mrealloc ptr new =>
      s.owns ptr = true ∧ ((ptr = 0 ∨ s.heap.originalSize ptr ≠ 0) →
        RequestClear E s.heap.pools (release s.live ptr) new.toNat)
  | .mfree ptr => s.owns ptr = true

/-- What every run keeps beside its safety. -/
structure Sound (s : HeapSession) : Prop where
  pools : PoolsSized s.heap.pools
  live : ∀ b ∈ s.live, 0 < b.requested

theorem Safe.pools_of_owns {s : HeapSession} (hsafe : s.Safe) {ptr : Nat}
    (howns : s.owns ptr = true) : ptr = 0 ∨ s.heap.pools ≠ [] := by
  rw [owns, Bool.or_eq_true, beq_iff_eq, List.any_eq_true] at howns
  refine howns.imp_right ?_
  rintro ⟨b, hb, -⟩
  obtain ⟨mp, hmp, -⟩ := hsafe.held b hb
  exact List.ne_nil_of_mem hmp

theorem handOut_pos {E : HeapEnv} {h : Heap} {live : List Block} {requested : Nat}
    {r : Option Nat × Heap} (hlive : ∀ b ∈ live, 0 < b.requested)
    (hmalloc : h.mmalloc E (u64 requested) = .ok r) :
    ∀ b ∈ handOut live requested r.1, 0 < b.requested := by
  obtain ⟨block, h'⟩ := r
  cases block with
  | none => exact hlive
  | some ptr =>
      have hnonzero : u64 requested ≠ 0 := by
        intro hzero
        rw [hzero, mmalloc_null] at hmalloc
        cases hmalloc
      intro b hb
      rcases List.mem_append.mp hb with hb | hb
      · exact hlive b hb
      · obtain rfl := List.mem_singleton.mp hb
        exact (asked_searched hnonzero).pos

theorem reallocated_pos {live : List Block} {ptr new : Nat} {block : Option Nat}
    (hlive : ∀ b ∈ live, 0 < b.requested) (hnew : block.isSome → 0 < new) :
    ∀ b ∈ reallocated live ptr new block, 0 < b.requested := by
  have hreleased : ∀ b ∈ release live ptr, 0 < b.requested :=
    fun b hb => hlive b ((release_sublist live ptr).subset hb)
  cases block with
  | none =>
      rw [reallocated]
      split
      · exact hreleased
      · exact hlive
  | some out =>
      intro b hb
      rcases List.mem_append.mp hb with hb | hb
      · exact hreleased b hb
      · obtain rfl := List.mem_singleton.mp hb
        exact hnew rfl

theorem mrealloc_new_pos {E : HeapEnv} {h h' : Heap} {ptr new : Nat} {block : Option Nat}
    (hrealloc : h.mrealloc E ptr new = .ok (block, h')) (hblock : block.isSome) :
    0 < new := by
  by_contra hzero
  obtain rfl : new = 0 := by omega
  rw [Heap.mrealloc] at hrealloc
  split at hrealloc
  · have hnone : h.mmalloc E 0 = .ok (none, h) := rfl
    rw [hnone] at hrealloc
    cases hrealloc
    cases hblock
  · rw [if_pos rfl] at hrealloc
    split at hrealloc
    · cases hrealloc
    · cases hrealloc
      cases hblock

def RequestExact (E : HeapEnv) (s : HeapSession) (r : HeapRequest) : Prop :=
  ((∃ s', s.request E r = .ok s' ∧ s'.Safe) ↔ s.Clear E r) ∧
    ∀ s', s.request E r = .ok s' → s'.Safe → s'.Sound

theorem asks_exact {E : HeapEnv} {s : HeapSession} (hsound : s.Sound) (hsafe : s.Safe)
    (requested : Nat) :
    ((∃ s', ((s.heap.mmalloc E (u64 requested)).map fun r =>
        (⟨r.2, handOut s.live requested r.1⟩ : HeapSession)) = .ok s' ∧ s'.Safe) ↔
      RequestClear E s.heap.pools s.live requested) ∧
    ∀ s', ((s.heap.mmalloc E (u64 requested)).map fun r =>
        (⟨r.2, handOut s.live requested r.1⟩ : HeapSession)) = .ok s' → s'.Safe → s'.Sound := by
  obtain ⟨hexact, hkeep⟩ :=
    @mmalloc_safe_iff E s.heap s.live hsound.pools hsafe hsound.live requested
  refine ⟨exists_map_ok.trans hexact, fun s' hrequest hafter => ?_⟩
  obtain ⟨r, hmalloc, rfl⟩ := map_ok hrequest
  exact ⟨hkeep r hmalloc hafter, handOut_pos hsound.live hmalloc⟩

theorem request_exact {E : HeapEnv} {s : HeapSession} (hsound : s.Sound) (hsafe : s.Safe)
    (r : HeapRequest) : RequestExact E s r := by
  cases r with
  | mmalloc nbytes =>
      have hexact := @asks_exact E s hsound hsafe nbytes.toNat
      rw [u64_of_lt nbytes.isLt] at hexact
      exact hexact
  | mcalloc nItems itemSize => exact asks_exact hsound hsafe (nItems.toNat * itemSize.toNat)
  | mrealloc ptr new =>
      rw [RequestExact, request, Clear]
      by_cases howns : s.owns ptr = true
      · obtain ⟨hexact, hkeep⟩ := @mrealloc_safe_iff E s.heap s.live hsound.pools hsafe
          hsound.live ptr new.toNat new.isLt (hsafe.pools_of_owns howns)
        rw [if_pos howns, and_iff_right howns]
        refine ⟨exists_map_ok.trans hexact, fun s' hrequest hafter => ?_⟩
        obtain ⟨⟨block, h'⟩, hrealloc, rfl⟩ := map_ok hrequest
        exact ⟨hkeep _ hrealloc hafter,
          reallocated_pos hsound.live (mrealloc_new_pos hrealloc)⟩
      · rw [if_neg howns]
        refine ⟨iff_of_false ?_ fun hclear => howns hclear.1, fun s' hrequest => by cases hrequest⟩
        rintro ⟨s', hrequest, -⟩
        cases hrequest
  | mfree ptr =>
      rw [RequestExact, request, Clear]
      by_cases howns : s.owns ptr = true
      · have hsub := release_sublist s.live ptr
        obtain ⟨h', hfree⟩ := (@mfree_returns_iff E s.heap ptr).mpr (hsafe.pools_of_owns howns)
        have hkept := mfree_ok hsound.pools.wellFormed hfree
        have hafter : BlocksSafe h'.pools (release s.live ptr) := by
          rw [hkept]
          exact hsafe.sublist hsub
        rw [if_pos howns, hfree]
        refine ⟨iff_of_true ⟨_, rfl, hafter⟩ howns, fun s' hrequest _ => ?_⟩
        obtain rfl := Except.ok.inj hrequest
        exact ⟨by rw [hkept]; exact hsound.pools, fun b hb => hsound.live b (hsub.subset hb)⟩
      · rw [if_neg howns]
        refine ⟨iff_of_false ?_ howns, fun s' hrequest => by cases hrequest⟩
        rintro ⟨s', hrequest, -⟩
        cases hrequest

end HeapSession

/-- The calls that ask for nothing and hand back nothing. -/
def HeapRequest.AsksNothing : HeapRequest → Prop
  | .mmalloc nbytes => nbytes.toNat = 0
  | .mcalloc nItems itemSize => u64 (nItems.toNat * itemSize.toNat) = 0
  | .mrealloc ptr new => ptr = 0 ∧ new.toNat = 0
  | .mfree ptr => ptr = 0

namespace HeapSession

theorem owns_initial {ptr : Nat} : initial.owns ptr = true ↔ ptr = 0 := by
  rw [owns, Bool.or_eq_true, beq_iff_eq]
  exact or_iff_left fun h => by cases h

theorem request_initial {E : HeapEnv} {r : HeapRequest} (hasks : r.AsksNothing) :
    initial.request E r = .ok initial := by
  cases r with
  | mmalloc nbytes =>
      rw [HeapRequest.AsksNothing] at hasks
      rw [request, hasks]
      rfl
  | mcalloc nItems itemSize =>
      rw [HeapRequest.AsksNothing] at hasks
      rw [request, Heap.mcalloc, hasks]
      rfl
  | mrealloc ptr new =>
      obtain ⟨rfl, hnew⟩ := hasks
      rw [request, if_pos (owns_initial.mpr rfl), hnew]
      rfl
  | mfree ptr =>
      obtain rfl : ptr = 0 := hasks
      rfl

theorem asksNothing_of_initial {E : HeapEnv} {r : HeapRequest} {s' : HeapSession}
    (hrequest : initial.request E r = .ok s') : r.AsksNothing := by
  cases r with
  | mmalloc nbytes =>
      obtain ⟨r, hmalloc, -⟩ := map_ok hrequest
      exact mmalloc_initial.mp ⟨r, hmalloc⟩
  | mcalloc nItems itemSize =>
      obtain ⟨r, hmalloc, -⟩ := map_ok hrequest
      exact mmalloc_initial.mp ⟨r, hmalloc⟩
  | mrealloc ptr new =>
      rw [request] at hrequest
      split at hrequest
      case isFalse => cases hrequest
      case isTrue howns =>
        obtain rfl := owns_initial.mp howns
        obtain ⟨r, hmalloc, -⟩ := map_ok hrequest
        exact ⟨rfl, mmalloc_initial.mp ⟨r, hmalloc⟩⟩
  | mfree ptr =>
      rw [request] at hrequest
      split at hrequest
      case isFalse => cases hrequest
      case isTrue howns => exact owns_initial.mp howns

end HeapSession

/--
From the zero state only calls that ask for nothing return.  In a heap that has its
pools, calls return and leave the blocks that callers hold safe if and only if every
call that hands out a block takes a descriptor that is nobody's, of a size that
covers the request, and leaves every block that is held below the array as it is
then.
-/
theorem heapSafe_always_iff (E : HeapEnv) (requests : List HeapRequest) :
    (Throughout (HeapSession.request E) HeapSession.Safe .initial requests ↔
      ∀ r ∈ requests, r.AsksNothing) ∧
    ∀ s : HeapSession, s.Sound → s.Safe →
      (Throughout (HeapSession.request E) HeapSession.Safe s requests ↔
        Each (HeapSession.request E) (HeapSession.Clear E) s requests) := by
  constructor
  · have hsafe : HeapSession.initial.Safe := BlocksSafe.nil []
    refine throughout_iff_forall hsafe (fun r => ⟨?_, fun hasks => ?_⟩)
      fun r s' hasks hrequest => ?_
    · rintro ⟨s', hrequest, -⟩
      exact HeapSession.asksNothing_of_initial hrequest
    · exact ⟨_, HeapSession.request_initial hasks, hsafe⟩
    · exact Except.ok.inj (hrequest.symm.trans (HeapSession.request_initial hasks))
  · intro s hsound hsafe
    exact throughout_iff_each (I := HeapSession.Sound) (K := fun _ _ => True)
      (fun _ r hsound hsafe _ => (HeapSession.request_exact hsound hsafe r).1)
      (fun _ r s' hsound hsafe _ => (HeapSession.request_exact hsound hsafe r).2 s')
      hsound hsafe (each_of_forall (fun _ _ => trivial) s requests)

/-! ### One pool -/

/-- The heap with one pool, with nothing held. -/
def onePoolSession : HeapSession := ⟨onePool, []⟩

theorem onePoolSession_sound : onePoolSession.Sound :=
  ⟨onePool_sized, fun _ hb => absurd hb List.not_mem_nil⟩

theorem heapSafe_always_iff_onePool :
    Throughout (HeapSession.request sampleHeapEnv) HeapSession.Safe onePoolSession
      [.mmalloc 8] := by
  refine ((heapSafe_always_iff sampleHeapEnv _).2 onePoolSession onePoolSession_sound
    (BlocksSafe.nil _)).mpr ⟨fun _ => ⟨by decide, ?_⟩, fun _ _ => trivial⟩
  refine ⟨⟨65536, 16, []⟩, .fresh, by decide +kernel, by decide +kernel, ?_⟩
  exact (by decide +kernel : 65536 + searched 8 + 1 * sizeofMemdesc ≤ 65536 + 65536)

/--
From the zero state the first request does not come back; and in a heap with one
pool the used flag is never set, so the second request gets the block of the first.
-/
theorem not_heapSafe_sample :
    ¬ Throughout (HeapSession.request sampleHeapEnv) HeapSession.Safe .initial [.mmalloc 8] ∧
      ∃ s', run (HeapSession.request sampleHeapEnv) onePoolSession [.mmalloc 8, .mmalloc 8] =
        .ok s' ∧ s'.live = [⟨65536, 8⟩, ⟨65536, 8⟩] ∧ ¬ s'.Safe := by
  constructor
  · rintro ⟨-, s', hrequest, -⟩
    exact absurd (HeapSession.asksNothing_of_initial hrequest)
      (show ¬ (8 : BitVec 64).toNat = 0 by decide)
  · have heval : ((run (HeapSession.request sampleHeapEnv) onePoolSession
        [.mmalloc 8, .mmalloc 8]).map HeapSession.live).toOption =
          some [⟨65536, 8⟩, ⟨65536, 8⟩] := by
      decide +kernel
    obtain ⟨s, hrun, hlive⟩ := ok_of_eval heval
    refine ⟨s, hrun, hlive, fun hsafe => ?_⟩
    have hapart := hsafe.apart
    rw [hlive, List.pairwise_pair] at hapart
    exact absurd hapart (show ¬ (65536 + 8 ≤ 65536 ∨ 65536 + 8 ≤ 65536) by decide)

end BlockyOS.Kernel
