import BlockyOS.Foundation.Runs
import BlockyOS.Kernel.DescriptorFusion
import BlockyOS.Kernel.HeapAnswers

/-!
# Data and descriptors of a pool

The data of a pool grows up and its descriptor array grows down.  They stay
apart as long as each new descriptor finds room behind the last block.
-/

namespace BlockyOS.Kernel

open BlockyOS.Foundation
open BlockyOS.HostTool (Fault)

/-! ## One pool -/

/--
Every descriptor's bytes end at or below the start of the array,
`base + nblocks * BLOCKSIZE - nDescriptors * sizeof(memdesc_t)`.
-/
def MemPool.DataBelow (mp : MemPool) : Prop :=
  ∀ slot, slot < mp.nDescriptors →
    mp.ptr slot + mp.nbytes slot + mp.nDescriptors * sizeofMemdesc ≤ mp.base + mp.bytes

def Choice.Fits (mp : MemPool) (nbytes : Nat) : Choice → Prop
  | .reuse _ => True
  | .fragment _ => mp.top + (mp.nDescriptors + 1) * sizeofMemdesc ≤ mp.base + mp.bytes
  | .fresh =>
      mp.top + nbytes + (mp.nDescriptors + 1) * sizeofMemdesc ≤ mp.base + mp.bytes

namespace MemPool

theorem dataBelow_empty {mp : MemPool} (h : mp.descs = []) : mp.DataBelow := by
  intro slot hslot
  rw [nDescriptors, h] at hslot
  cases hslot

theorem wellFormed_empty {base nblocks : Nat} (halign : 8 ∣ base)
    (hfits : base + u64 (nblocks * blockSize) < 2 ^ 64) :
    (⟨base, nblocks, []⟩ : MemPool).WellFormed where
  arranged := ⟨[], ⟨List.Perm.refl _, rfl, fun slot hslot => by cases hslot⟩, trivial⟩
  flags := fun _ => rfl
  room := fun hn => absurd hn (Nat.lt_irrefl 0)
  base := halign
  sizes := fun _ => Nat.dvd_zero 8
  fits := hfits

theorem fusememoryWith_eq {mp : MemPool} (h : mp.WellFormed) (hsized : mp.Sized)
    {temp : Nat → Bool} {slot targetbytes total : Nat} {targetflags : BitVec 32}
    (hslot : slot < mp.nDescriptors) (hjoins : ¬ mp.Joins slot targetbytes targetflags) :
    mp.fusememoryWith temp slot targetbytes targetflags total = .ok (mp, total) := by
  obtain ⟨met, hmet⟩ := h.metbytes hslot targetflags
  rw [fusememoryWith, hmet]
  simp only
  split
  case isTrue => rfl
  case isFalse hge =>
    rw [joinLoop_stops fun hstarts => hjoins ⟨hstarts.1, hstarts.2, met, hmet, Nat.not_lt.mp hge⟩]
    have hrepair : mp.repairArray temp = .ok mp :=
      (repairArray_eq temp fun i hi => hsized i (by omega)).1.trans (fixmdarray_eq h hsized)
    have hcount : mp.countAt 0 = .ok mp.nDescriptors := rfl
    rw [repairArray] at hrepair
    simp only [hcount]
    cases hloop : mp.fixLoop temp (mp.nDescriptors - 1) ⟨mp.descs, 0, 0⟩ with
    | error e =>
        rw [hloop] at hrepair
        cases hrepair
    | ok r =>
        rw [hloop] at hrepair
        exact congrArg (fun mp => Except.ok (mp, total)) (Except.ok.inj hrepair)

theorem WellFormed.dataBelow_iff {mp : MemPool} (h : mp.WellFormed)
    (hn : mp.nDescriptors ≠ 0) :
    mp.DataBelow ↔ mp.top + mp.nDescriptors * sizeofMemdesc ≤ mp.base + mp.bytes := by
  constructor
  · intro hbelow
    obtain ⟨tip, htip, -⟩ := h.chaintip hn
    rw [← htip.ends]
    exact hbelow tip htip.lt
  · intro htop slot hslot
    have hbounds := h.bounds hslot
    omega

theorem WellFormed.dataBelow_cut_iff {mp : MemPool} (h : mp.WellFormed) {slot k : Nat}
    (hslot : slot < mp.nDescriptors) (hk : k < mp.nbytes slot) (halign : 8 ∣ k) :
    (mp.cut slot k).DataBelow ↔
      mp.top + (mp.nDescriptors + 1) * sizeofMemdesc ≤ mp.base + mp.bytes := by
  obtain ⟨order, harranged, -⟩ := h.arranged
  obtain ⟨pre, post, rfl⟩ := List.append_of_mem ((harranged.mem_iff slot).mpr hslot)
  have htop : (mp.cut slot k).top = mp.top := (arranged_cut harranged hk _).2
  have hcount : (mp.cut slot k).nDescriptors = mp.nDescriptors + 1 :=
    nDescriptors_grow _ _ _ _
  rw [(h.cut hslot hk halign).dataBelow_iff (by omega), htop, hcount]
  exact Iff.rfl

theorem WellFormed.dataBelow_extend_iff {mp : MemPool} (h : mp.WellFormed)
    {tip nbytes : Nat} :
    (mp.extend tip nbytes).DataBelow ↔
      mp.top + nbytes + (mp.nDescriptors + 1) * sizeofMemdesc ≤ mp.base + mp.bytes := by
  have hcount : (mp.extend tip nbytes).nDescriptors = mp.nDescriptors + 1 :=
    nDescriptors_grow _ _ _ _
  have hlast : (mp.extend tip nbytes).ptr mp.nDescriptors = mp.top ∧
      (mp.extend tip nbytes).nbytes mp.nDescriptors = nbytes := by
    rw [ptr, MemPool.nbytes, desc_extend_last]
    exact ⟨rfl, rfl⟩
  constructor
  · intro hbelow
    have hnew := hbelow mp.nDescriptors (by omega)
    rw [hlast.1, hlast.2, hcount] at hnew
    exact hnew
  · intro hroom slot hslot
    have hplace : (mp.extend tip nbytes).base + (mp.extend tip nbytes).bytes =
        mp.base + mp.bytes := rfl
    rw [hcount, hplace]
    by_cases hnew : slot = mp.nDescriptors
    · subst hnew
      rw [hlast.1, hlast.2]
      exact hroom
    · have hlt : slot < mp.nDescriptors := by omega
      have hbounds := h.bounds hlt
      rw [(extend_old hlt).1, (extend_old hlt).2.1]
      omega

end MemPool

section Takes

variable {mp mp' : MemPool} {nbytes block : Nat} {c : Choice} (h : mp.WellFormed)
  (halign : 8 ∣ nbytes) (ht : Takes mp nbytes c block mp')

include h halign ht

theorem takes_wellFormed (hfits : c.Fits mp nbytes) : mp'.WellFormed := by
  cases ht with
  | reuse => exact h
  | fragment hslot hsize => exact h.cut hslot hsize halign
  | fresh htip =>
      have hroom : mp.top + nbytes + (mp.nDescriptors + 1) * sizeofMemdesc ≤
          mp.base + mp.bytes := hfits
      rw [sizeofMemdesc] at hroom
      exact (h.extend htip halign (by rw [sizeofMemdesc]; omega)).1

theorem takes_dataBelow_iff (hbelow : mp.DataBelow) : mp'.DataBelow ↔ c.Fits mp nbytes := by
  cases ht with
  | reuse => exact ⟨fun _ => trivial, fun _ => hbelow⟩
  | fragment hslot hsize => exact h.dataBelow_cut_iff hslot hsize halign
  | fresh => exact h.dataBelow_extend_iff

omit h halign in
theorem takes_range : mp'.base = mp.base ∧ mp'.bytes = mp.bytes := by
  cases ht <;> exact ⟨rfl, rfl⟩

end Takes

/-! ## Requests -/

def RequestFits (E : HeapEnv) (pools : List MemPool) (nbytes : Nat) : Prop :=
  FirstChoice E pools nbytes fun mp c => c.Fits mp nbytes

theorem dataBelow_replace_iff {pre post : List MemPool} {mp mp' : MemPool}
    (hbelow : ∀ other ∈ pre ++ mp :: post, other.DataBelow) :
    (∀ other ∈ pre ++ mp' :: post, other.DataBelow) ↔ mp'.DataBelow := by
  constructor
  · intro h
    exact h mp' (by simp)
  · exact forall_mem_replace hbelow

theorem PoolsWellFormed.replace {pre post : List MemPool} {mp mp' : MemPool}
    (h : PoolsWellFormed (pre ++ mp :: post)) (hmp' : mp'.WellFormed)
    (hbase : mp'.base = mp.base) (hbytes : mp'.bytes = mp.bytes) :
    PoolsWellFormed (pre ++ mp' :: post) := by
  refine ⟨forall_mem_replace h.each hmp', forall_mem_replace h.nonzero ?_, ?_⟩
  · rw [hbase]
    exact h.nonzero mp (by simp)
  · have hapart := h.apart
    rw [List.pairwise_append, List.pairwise_cons] at hapart ⊢
    obtain ⟨hpre, ⟨hmp, hpost⟩, hacross⟩ := hapart
    refine ⟨hpre, ⟨fun other hother => ?_, hpost⟩, fun first hfirst other hother => ?_⟩
    · rw [hbase, hbytes]
      exact hmp other hother
    · rcases List.mem_cons.mp hother with rfl | hother
      · rw [hbase, hbytes]
        exact hacross first hfirst mp List.mem_cons_self
      · exact hacross first hfirst other (List.mem_cons_of_mem _ hother)

theorem serves_dataBelow {E : HeapEnv} {pools pools' : List MemPool} {nbytes block : Nat}
    (halign : 8 ∣ nbytes) (hnonzero : nbytes ≠ 0) (hsized : PoolsSized pools)
    (hbelow : ∀ mp ∈ pools, mp.DataBelow) (hserves : Serves E pools nbytes block pools') :
    ((∀ mp ∈ pools', mp.DataBelow) ↔ RequestFits E pools nbytes) ∧
      ((∀ mp ∈ pools', mp.DataBelow) → PoolsSized pools') := by
  obtain ⟨pre, mp, post, c, mp', rfl, hpre, hc, htakes, rfl⟩ := hserves
  have hwell := hsized.wellFormed.each mp (by simp)
  have hexact := takes_dataBelow_iff hwell halign htakes (hbelow mp (by simp))
  rw [RequestFits, firstChoice_append_iff hpre hc, dataBelow_replace_iff hbelow]
  refine ⟨hexact, fun hafter => ?_⟩
  obtain ⟨hbase, hbytes⟩ := takes_range htakes
  exact ⟨hsized.wellFormed.replace (takes_wellFormed hwell halign htakes (hexact.mp hafter))
      hbase hbytes,
    forall_mem_replace hsized.sized
      (MemPool.takes_sized (hsized.sized mp (by simp)) hnonzero htakes)⟩

/-! ## Runs -/

/-- The calls that change pools. -/
inductive HeapCall where
  | mmalloc (nbytes : Nat)
  | mfree (ptr : Nat)
  | fragmemory (pool slot nbytes : Nat)
  | fusememory (pool slot targetbytes : Nat) (targetflags : BitVec 32)

/-- `fragmemory`, and the number of allocations behind it. -/
def MemPool.fragmemoryWith (mp : MemPool) (slot nbytes total : Nat) :
    Except Fault (MemPool × Nat) :=
  (mp.fragmemory slot nbytes).map fun mp' =>
    (mp', if mp.canFragment slot nbytes then u64 (total + 1) else total)

/-- A change of the pool at an index and of `totalNAllocations`, for a descriptor of its array. -/
def Heap.onPool (h : Heap) (pool slot : Nat) (f : MemPool → Nat → Except Fault (MemPool × Nat)) :
    Except Fault Heap :=
  match h.pools[pool]? with
  | none => .error .outOfBounds
  | some mp =>
      if slot < mp.nDescriptors then
        (f mp h.totalNAllocations).map fun r =>
          { h with pools := h.pools.set pool r.1, totalNAllocations := r.2 }
      else .error .outOfBounds

def Heap.call (E : HeapEnv) (h : Heap) : HeapCall → Except Fault Heap
  | .mmalloc nbytes => (h.mmalloc E nbytes).map Prod.snd
  | .mfree ptr => h.mfree E ptr
  | .fragmemory pool slot nbytes =>
      h.onPool pool slot fun mp total => mp.fragmemoryWith slot nbytes total
  | .fusememory pool slot targetbytes targetflags =>
      h.onPool pool slot fun mp total =>
        mp.fusememoryWith E.temporary slot targetbytes targetflags total

/--
The calls that leave the pointer to the counter where it is: no block is cut to
nothing, and `fusememory` does not start to join.
-/
def KeepsCounter (h : Heap) : HeapCall → Prop
  | .mmalloc nbytes => nbytes ≠ 0 → roundup nbytes allocAlign ≠ 0
  | .mfree _ => True
  | .fragmemory _ _ nbytes => MemPool.fragSize nbytes ≠ 0
  | .fusememory pool slot targetbytes targetflags =>
      ∀ mp, h.pools[pool]? = some mp → ¬ mp.Joins slot targetbytes targetflags

/-- The condition on one call. -/
def CallFits (E : HeapEnv) (h : Heap) : HeapCall → Prop
  | .mmalloc nbytes => nbytes ≠ 0 → RequestFits E h.pools (roundup nbytes allocAlign)
  | .mfree ptr => ptr = 0 ∨ h.pools ≠ []
  | .fragmemory pool slot nbytes =>
      ∃ mp, h.pools[pool]? = some mp ∧ slot < mp.nDescriptors ∧
        (mp.canFragment slot nbytes = true →
          (Choice.fragment slot).Fits mp (MemPool.fragSize nbytes))
  | .fusememory pool slot _ _ => ∃ mp, h.pools[pool]? = some mp ∧ slot < mp.nDescriptors

/-- The calls that ask for nothing. -/
def HeapCall.AsksNothing : HeapCall → Prop
  | .mmalloc nbytes => nbytes = 0
  | .mfree ptr => ptr = 0
  | .fragmemory .. => False
  | .fusememory .. => False

/-- The data of every pool ends below its descriptors. -/
def Heap.DataBelow (h : Heap) : Prop := ∀ mp ∈ h.pools, mp.DataBelow

theorem onPool_ok_iff {h h' : Heap} {pool slot : Nat}
    {f : MemPool → Nat → Except Fault (MemPool × Nat)} :
    h.onPool pool slot f = .ok h' ↔
      ∃ mp r, h.pools[pool]? = some mp ∧ slot < mp.nDescriptors ∧
        f mp h.totalNAllocations = .ok r ∧
        h' = { h with pools := h.pools.set pool r.1, totalNAllocations := r.2 } := by
  rw [Heap.onPool]
  cases hpool : h.pools[pool]? with
  | none => simp
  | some mp =>
      by_cases hslot : slot < mp.nDescriptors
      · simp only [if_pos hslot]
        constructor
        · intro hcall
          obtain ⟨r, hf, rfl⟩ := map_ok hcall
          exact ⟨mp, r, rfl, hslot, hf, rfl⟩
        · rintro ⟨mp', r, hsame, -, hf, rfl⟩
          obtain rfl := Option.some.inj hsame
          rw [hf]
          rfl
      · simp only [if_neg hslot]
        refine iff_of_false (fun h => by cases h) ?_
        rintro ⟨mp', r, hsame, hslot', -⟩
        obtain rfl := Option.some.inj hsame
        exact hslot hslot'

theorem set_pool {pools : List MemPool} {pool : Nat} {mp : MemPool}
    (hpool : pools[pool]? = some mp) : ∃ pre post, pools = pre ++ mp :: post ∧
      ∀ mp', pools.set pool mp' = pre ++ mp' :: post := by
  obtain ⟨hlt, rfl⟩ := List.getElem?_eq_some_iff.mp hpool
  refine ⟨pools.take pool, pools.drop (pool + 1), ?_, fun mp' => ?_⟩
  · rw [List.getElem_cons_drop, List.take_append_drop]
  · exact List.set_eq_take_append_cons_drop.trans (if_pos hlt)

section Calls

variable {E : HeapEnv} {h h' : Heap} (hsized : PoolsSized h.pools) (hbelow : h.DataBelow)

include hsized hbelow

def CallExact (E : HeapEnv) (h : Heap) (call : HeapCall) : Prop :=
  ((∃ h', h.call E call = .ok h' ∧ h'.DataBelow) ↔ CallFits E h call) ∧
    ∀ h', h.call E call = .ok h' → h'.DataBelow → PoolsSized h'.pools

theorem mmalloc_exact {nbytes : Nat} (hkeeps : KeepsCounter h (.mmalloc nbytes)) :
    CallExact E h (.mmalloc nbytes) := by
  by_cases hzero : nbytes = 0
  · subst hzero
    have hcall : h.call E (.mmalloc 0) = .ok h := rfl
    refine ⟨iff_of_true ⟨h, hcall, hbelow⟩ fun hne => absurd rfl hne, fun h' hok _ => ?_⟩
    obtain rfl := Except.ok.inj (hcall.symm.trans hok)
    exact hsized
  have hnonzero := hkeeps hzero
  have halign := align_dvd_roundup nbytes
  have hserved : ∀ h', h.call E (.mmalloc nbytes) = .ok h' → ∃ ptr,
      Serves E h.pools (roundup nbytes allocAlign) ptr h'.pools := by
    intro h' hcall
    obtain ⟨⟨block, h₁⟩, hmalloc, rfl⟩ := map_ok hcall
    rcases mmalloc_ok hsized.wellFormed hmalloc with ⟨hz, -⟩ | ⟨-, ptr, -, hserves⟩
    · exact absurd hz hzero
    · exact ⟨ptr, hserves⟩
  refine ⟨⟨?_, fun hfits => ?_⟩, fun h' hcall hafter => ?_⟩
  · rintro ⟨h', hcall, hafter⟩ -
    obtain ⟨ptr, hserves⟩ := hserved h' hcall
    exact (serves_dataBelow halign hnonzero hsized hbelow hserves).1.mp hafter
  · obtain ⟨ptr, h', hmalloc⟩ := mmalloc_serves hsized hzero
      ((hfits hzero).mono fun mp c _ => possible_of_ne hnonzero c)
    have hcall : h.call E (.mmalloc nbytes) = .ok h' := by
      rw [Heap.call, hmalloc]
      rfl
    obtain ⟨ptr, hserves⟩ := hserved h' hcall
    exact ⟨h', hcall,
      (serves_dataBelow halign hnonzero hsized hbelow hserves).1.mpr (hfits hzero)⟩
  · obtain ⟨ptr, hserves⟩ := hserved h' hcall
    exact (serves_dataBelow halign hnonzero hsized hbelow hserves).2 hafter

theorem mfree_exact (ptr : Nat) : CallExact E h (.mfree ptr) := by
  have hkept : ∀ h', h.mfree E ptr = .ok h' → h'.pools = h.pools :=
    fun h' hfree => mfree_ok hsized.wellFormed hfree
  refine ⟨?_, fun h' hfree _ => ?_⟩
  · rw [CallFits, ← @mfree_returns_iff E h ptr]
    constructor
    · rintro ⟨h', hfree, -⟩
      exact ⟨h', hfree⟩
    · rintro ⟨h', hfree⟩
      refine ⟨h', hfree, ?_⟩
      rw [Heap.DataBelow, hkept h' hfree]
      exact hbelow
  · rw [hkept h' hfree]
    exact hsized

theorem fragmemory_exact {pool slot nbytes : Nat}
    (hkeeps : KeepsCounter h (.fragmemory pool slot nbytes)) :
    CallExact E h (.fragmemory pool slot nbytes) := by
  have hcases : ∀ mp, h.pools[pool]? = some mp → slot < mp.nDescriptors → ∃ mp',
      mp.fragmemory slot nbytes = .ok mp' ∧
        ((∀ other ∈ h.pools.set pool mp', other.DataBelow) ↔
          (mp.canFragment slot nbytes = true →
            (Choice.fragment slot).Fits mp (MemPool.fragSize nbytes))) ∧
        PoolsSized (h.pools.set pool mp') := by
    intro mp hpool hslot
    obtain ⟨pre, post, hpools, hset⟩ := set_pool hpool
    rw [Heap.DataBelow, hpools] at hbelow
    rw [hpools] at hsized
    have hwell := hsized.wellFormed.each mp (by simp)
    have hsizes := hsized.sized mp (by simp)
    by_cases hcan : mp.canFragment slot nbytes = true
    · obtain ⟨mp', hfrag⟩ := MemPool.fragmemory_answers hwell hsizes hslot hcan hkeeps
      obtain ⟨rfl, -⟩ := hwell.fragmemory hslot hcan hfrag
      have hk : MemPool.fragSize nbytes < mp.nbytes slot := of_decide_eq_true hcan
      have halign : 8 ∣ MemPool.fragSize nbytes := by
        rw [MemPool.fragSize]
        split
        · exact align_dvd_roundup nbytes
        · exact Nat.dvd_zero 8
      refine ⟨_, hfrag, ?_, ?_⟩
      · rw [hset, dataBelow_replace_iff hbelow, hwell.dataBelow_cut_iff hslot hk halign,
          imp_iff_right hcan]
        exact Iff.rfl
      · rw [hset]
        exact ⟨hsized.wellFormed.replace (hwell.cut hslot hk halign) rfl rfl,
          forall_mem_replace hsized.sized (MemPool.sized_cut hsizes hslot hk hkeeps _)⟩
    · refine ⟨mp, if_neg hcan, ?_, ?_⟩
      · rw [hset]
        exact iff_of_true hbelow fun hcan' => absurd hcan' hcan
      · rw [hset]
        exact hsized
  refine ⟨⟨?_, ?_⟩, fun h' hcall _ => ?_⟩
  · rintro ⟨h', hcall, hafter⟩
    obtain ⟨mp, r, hpool, hslot, hf, rfl⟩ := onPool_ok_iff.mp hcall
    obtain ⟨mp', hfrag, hiff, -⟩ := hcases mp hpool hslot
    obtain ⟨mp'', hfrag', rfl⟩ := map_ok hf
    obtain rfl := Except.ok.inj (hfrag.symm.trans hfrag')
    exact ⟨mp, hpool, hslot, hiff.mp hafter⟩
  · rintro ⟨mp, hpool, hslot, hfits⟩
    obtain ⟨mp', hfrag, hiff, -⟩ := hcases mp hpool hslot
    have hf : mp.fragmemoryWith slot nbytes h.totalNAllocations =
        .ok (mp', if mp.canFragment slot nbytes then u64 (h.totalNAllocations + 1)
          else h.totalNAllocations) := by
      rw [MemPool.fragmemoryWith, hfrag]
      rfl
    exact ⟨_, onPool_ok_iff.mpr ⟨mp, _, hpool, hslot, hf, rfl⟩, hiff.mpr hfits⟩
  · obtain ⟨mp, r, hpool, hslot, hf, rfl⟩ := onPool_ok_iff.mp hcall
    obtain ⟨mp', hfrag, -, hsized'⟩ := hcases mp hpool hslot
    obtain ⟨mp'', hfrag', rfl⟩ := map_ok hf
    obtain rfl := Except.ok.inj (hfrag.symm.trans hfrag')
    exact hsized'

theorem fusememory_exact {pool slot targetbytes : Nat} {targetflags : BitVec 32}
    (hkeeps : KeepsCounter h (.fusememory pool slot targetbytes targetflags)) :
    CallExact E h (.fusememory pool slot targetbytes targetflags) := by
  have hsame : ∀ mp, h.pools[pool]? = some mp → slot < mp.nDescriptors →
      mp.fusememoryWith E.temporary slot targetbytes targetflags h.totalNAllocations =
        .ok (mp, h.totalNAllocations) := by
    intro mp hpool hslot
    have hmem := List.mem_of_getElem? hpool
    exact MemPool.fusememoryWith_eq (hsized.wellFormed.each mp hmem) (hsized.sized mp hmem) hslot
      (hkeeps mp hpool)
  have hcall : ∀ mp, h.pools[pool]? = some mp → slot < mp.nDescriptors →
      h.call E (.fusememory pool slot targetbytes targetflags) = .ok h := by
    intro mp hpool hslot
    refine onPool_ok_iff.mpr ⟨mp, _, hpool, hslot, hsame mp hpool hslot, ?_⟩
    obtain ⟨pre, post, hpools, hset⟩ := set_pool hpool
    rw [hset, ← hpools]
  refine ⟨⟨?_, ?_⟩, fun h' hok _ => ?_⟩
  · rintro ⟨h', hok, -⟩
    obtain ⟨mp, r, hpool, hslot, -⟩ := onPool_ok_iff.mp hok
    exact ⟨mp, hpool, hslot⟩
  · rintro ⟨mp, hpool, hslot⟩
    exact ⟨h, hcall mp hpool hslot, hbelow⟩
  · obtain ⟨mp, r, hpool, hslot, -⟩ := onPool_ok_iff.mp hok
    obtain rfl := Except.ok.inj ((hcall mp hpool hslot).symm.trans hok)
    exact hsized

theorem call_exact {call : HeapCall} (hkeeps : KeepsCounter h call) : CallExact E h call := by
  cases call with
  | mmalloc nbytes => exact mmalloc_exact hsized hbelow hkeeps
  | mfree ptr => exact mfree_exact hsized hbelow ptr
  | fragmemory pool slot nbytes => exact fragmemory_exact hsized hbelow hkeeps
  | fusememory pool slot targetbytes targetflags =>
      exact fusememory_exact hsized hbelow hkeeps

end Calls

theorem mmalloc_initial {E : HeapEnv} {nbytes : Nat} :
    (∃ r, Heap.initial.mmalloc E nbytes = .ok r) ↔ nbytes = 0 := by
  constructor
  · rintro ⟨r, hmalloc⟩
    rcases mmalloc_ok_iff.mp hmalloc with ⟨hzero, -⟩ | ⟨-, hne, -⟩
    · exact hzero
    · exact absurd rfl hne
  · rintro rfl
    exact ⟨_, mmalloc_null⟩

theorem mfree_initial {E : HeapEnv} {ptr : Nat} :
    (∃ h', Heap.initial.mfree E ptr = .ok h') ↔ ptr = 0 :=
  mfree_returns_iff.trans (or_iff_left fun hne => hne rfl)

theorem call_initial {E : HeapEnv} {call : HeapCall} :
    ((∃ h', Heap.initial.call E call = .ok h') ↔ call.AsksNothing) ∧
      (call.AsksNothing → Heap.initial.call E call = .ok .initial) := by
  cases call with
  | mmalloc nbytes =>
      refine ⟨Iff.trans ?_ (@mmalloc_initial E nbytes), fun hzero => ?_⟩
      · constructor
        · rintro ⟨h', hcall⟩
          obtain ⟨r, hmalloc, -⟩ := map_ok hcall
          exact ⟨r, hmalloc⟩
        · rintro ⟨r, hmalloc⟩
          exact ⟨r.2, by rw [Heap.call, hmalloc]; rfl⟩
      · obtain rfl : nbytes = 0 := hzero
        rfl
  | mfree ptr =>
      refine ⟨mfree_initial, fun hzero => ?_⟩
      obtain rfl : ptr = 0 := hzero
      rfl
  | fragmemory pool slot nbytes =>
      refine ⟨iff_of_false ?_ id, False.elim⟩
      rintro ⟨h', hcall⟩
      cases hcall
  | fusememory pool slot targetbytes targetflags =>
      refine ⟨iff_of_false ?_ id, False.elim⟩
      rintro ⟨h', hcall⟩
      cases hcall

def sampleHeapEnv : HeapEnv where
  allocatePages _ := some 65536
  temporary _ := true
  overFragMul size nbytes := 115 * nbytes + 700 < 100 * size
  lt_of_over := by
    intro size nbytes h
    have hlt := of_decide_eq_true h
    omega

/-- A heap with an empty pool of 64 KiB. -/
def onePool : Heap := ⟨[⟨65536, 16, []⟩], 0, []⟩

theorem onePool_sized : PoolsSized onePool.pools := by
  have hwell : (⟨65536, 16, []⟩ : MemPool).WellFormed :=
    MemPool.wellFormed_empty (by decide) (by decide)
  refine ⟨⟨?_, ?_, List.pairwise_singleton _ _⟩, ?_⟩
  · exact List.forall_mem_singleton.mpr hwell
  · exact List.forall_mem_singleton.mpr (by decide)
  · exact List.forall_mem_singleton.mpr (MemPool.sized_empty rfl)

theorem onePool_below : onePool.DataBelow :=
  List.forall_mem_singleton.mpr (MemPool.dataBelow_empty rfl)

instance (mp : MemPool) : Decidable mp.DataBelow :=
  inferInstanceAs (Decidable (∀ slot, slot < mp.nDescriptors → _))

end BlockyOS.Kernel
