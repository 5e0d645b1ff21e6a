import BlockyOS.Kernel.HeapLayout

/-!
# Ownership of heap blocks

The blocks that callers hold are told apart by their descriptors.  What a
request takes is safe when the descriptor is nobody's and the array, as large as
it then is, leaves every block that is held below it.
-/

namespace BlockyOS.Kernel

open BlockyOS.Foundation
open BlockyOS.HostTool (Fault)

/-! ## Blocks that are held -/

structure Block where
  ptr : Nat
  requested : Nat
  deriving DecidableEq, Repr

def Block.Apart (b c : Block) : Prop :=
  b.ptr + b.requested ≤ c.ptr ∨ c.ptr + c.requested ≤ b.ptr

/-- The descriptor in `slot` is that of the block, in the data area of the pool. -/
structure MemPool.Holds (mp : MemPool) (slot : Nat) (b : Block) : Prop where
  lt : slot < mp.nDescriptors
  ptr : mp.ptr slot = b.ptr
  size : b.requested ≤ mp.nbytes slot
  above : mp.base ≤ mp.ptr slot
  below : mp.ptr slot + mp.nbytes slot + mp.nDescriptors * sizeofMemdesc ≤
    mp.base + mp.bytes

structure BlocksSafe (pools : List MemPool) (live : List Block) : Prop where
  apart : live.Pairwise Block.Apart
  held : ∀ b ∈ live, ∃ mp ∈ pools, ∃ slot, mp.Holds slot b

theorem BlocksSafe.nil (pools : List MemPool) : BlocksSafe pools [] :=
  ⟨List.Pairwise.nil, fun _ hb => absurd hb List.not_mem_nil⟩

theorem BlocksSafe.sublist {pools : List MemPool} {live live' : List Block}
    (h : BlocksSafe pools live) (hsub : live'.Sublist live) : BlocksSafe pools live' :=
  ⟨h.apart.sublist hsub, fun b hb => h.held b (hsub.subset hb)⟩

theorem MemPool.bytes_le (mp : MemPool) : mp.bytes ≤ 2 ^ 64 - blockSize := by
  rw [MemPool.bytes, u64, blockSize]
  omega

theorem MemPool.Holds.requested_le {mp : MemPool} {slot : Nat} {b : Block}
    (h : mp.Holds slot b) : b.requested ≤ 2 ^ 64 - blockSize := by
  have habove := h.above
  have hbelow := h.below
  have hsize := h.size
  have hbytes := mp.bytes_le
  omega

section Held

variable {pools : List MemPool} (hpools : PoolsWellFormed pools)

include hpools

theorem PoolsWellFormed.pair_apart {mp mp' : MemPool} (hmp : mp ∈ pools)
    (hmp' : mp' ∈ pools) (hne : mp ≠ mp') :
    mp.base + mp.bytes ≤ mp'.base ∨ mp'.base + mp'.bytes ≤ mp.base := by
  have hsymm : Std.Symm fun p q : MemPool =>
      p.base + p.bytes ≤ q.base ∨ q.base + q.bytes ≤ p.base := ⟨fun _ _ h => h.symm⟩
  exact hpools.apart.forall hmp hmp' hne

theorem PoolsWellFormed.pool_unique {mp mp' : MemPool} (hmp : mp ∈ pools)
    (hmp' : mp' ∈ pools) {a : Nat} (ha : mp.base ≤ a ∧ a < mp.base + mp.bytes)
    (ha' : mp'.base ≤ a ∧ a < mp'.base + mp'.bytes) : mp = mp' := by
  by_contra hne
  have hapart := hpools.pair_apart hmp hmp' hne
  omega

theorem PoolsWellFormed.slot_range {mp : MemPool} (hmp : mp ∈ pools) {slot : Nat}
    (hslot : slot < mp.nDescriptors) :
    mp.base ≤ mp.ptr slot ∧ mp.ptr slot + mp.nbytes slot ≤ mp.base + mp.bytes := by
  have hbounds := (hpools.each mp hmp).bounds hslot
  have htop := (hpools.each mp hmp).top_le
  omega

theorem holds_unique {mp mp' : MemPool} (hmp : mp ∈ pools) (hmp' : mp' ∈ pools)
    {slot slot' : Nat} {b : Block} (hb : mp.Holds slot b) (hpos : 0 < b.requested)
    (hslot' : slot' < mp'.nDescriptors) (hptr : mp'.ptr slot' = b.ptr)
    (hsize : 0 < mp'.nbytes slot') : mp' = mp ∧ slot' = slot := by
  have hrange := hpools.slot_range hmp hb.lt
  have hrange' := hpools.slot_range hmp' hslot'
  have hbptr := hb.ptr
  have hbsize := hb.size
  obtain rfl : mp' = mp :=
    @PoolsWellFormed.pool_unique pools hpools _ _ hmp' hmp b.ptr (by omega) (by omega)
  refine ⟨rfl, ?_⟩
  by_contra hne
  have hdisjoint := (hpools.each mp' hmp').disjoint hslot' hb.lt hne
  omega

theorem holds_apart {mp mp' : MemPool} (hmp : mp ∈ pools) (hmp' : mp' ∈ pools)
    {slot slot' : Nat} {b c : Block} (hb : mp.Holds slot b) (hc : mp'.Holds slot' c)
    (hne : b.ptr ≠ c.ptr) : b.Apart c := by
  have hrange := hpools.slot_range hmp hb.lt
  have hrange' := hpools.slot_range hmp' hc.lt
  have hbptr := hb.ptr
  have hbsize := hb.size
  have hcptr := hc.ptr
  have hcsize := hc.size
  rw [Block.Apart]
  by_cases hsame : mp = mp'
  · subst hsame
    have hslots : slot ≠ slot' := by
      rintro rfl
      exact hne (hbptr.symm.trans hcptr)
    have hdisjoint := (hpools.each mp hmp).disjoint hb.lt hc.lt hslots
    omega
  · have hapart := hpools.pair_apart hmp hmp' hsame
    omega

end Held

/-! ## Taking a block -/

/--
A pool after a block at `block` was taken from it, which `slot` describes; the
other descriptors are as they were.
-/
structure MemPool.Moves (mp mp' : MemPool) (slot block : Nat) : Prop where
  wellFormed : mp'.WellFormed
  base : mp'.base = mp.base
  bytes : mp'.bytes = mp.bytes
  lt : slot < mp'.nDescriptors
  ptr : mp'.ptr slot = block
  old : ∀ i, i < mp.nDescriptors → i < mp'.nDescriptors ∧ mp'.ptr i = mp.ptr i ∧
    (i ≠ slot → mp'.nbytes i = mp.nbytes i)

theorem MemPool.Moves.ne_slot {mp mp' : MemPool} {slot block i : Nat}
    (h : mp.Moves mp' slot block) (hi : i < mp.nDescriptors) (hptr : mp.ptr i ≠ block) :
    i ≠ slot := by
  rintro rfl
  obtain ⟨-, hsame, -⟩ := h.old i hi
  exact hptr (hsame.symm.trans h.ptr)

/-- Where the data of a pool with `n` descriptors has to end. -/
def MemPool.BelowArray (mp : MemPool) (n tip : Nat) : Prop :=
  tip + n * sizeofMemdesc ≤ mp.base + mp.bytes

section Moves

variable {pre post : List MemPool} {mp mp' : MemPool} {slot block n : Nat}
  {live : List Block} (hpools : PoolsWellFormed (pre ++ mp :: post))
  (hsafe : BlocksSafe (pre ++ mp :: post) live) (hlive : ∀ b ∈ live, 0 < b.requested)
  (hn : 0 < n)

include hpools hsafe hlive hn

theorem moves_safe_iff (hmoves : mp.Moves mp' slot block) (hsize : n ≤ mp'.nbytes slot) :
    BlocksSafe (pre ++ mp' :: post) (live ++ [⟨block, n⟩]) ↔
      (∀ b ∈ live, b.ptr ≠ block) ∧
        mp.BelowArray mp'.nDescriptors (block + mp'.nbytes slot) ∧
        ∀ b ∈ live, ∀ i, i < mp.nDescriptors → mp.ptr i = b.ptr →
          b.requested ≤ mp.nbytes i →
          mp.BelowArray mp'.nDescriptors (mp.ptr i + mp.nbytes i) := by
  have hpools' : PoolsWellFormed (pre ++ mp' :: post) :=
    hpools.replace hmoves.wellFormed hmoves.base hmoves.bytes
  have hmem : mp' ∈ pre ++ mp' :: post := by simp
  constructor
  · rintro ⟨hapart, hheld⟩
    have hunowned : ∀ b ∈ live, b.ptr ≠ block := by
      intro b hb hptr
      have hnew := (List.pairwise_append.mp hapart).2.2 b hb ⟨block, n⟩ (by simp)
      have hpos := hlive b hb
      simp only [Block.Apart] at hnew
      omega
    refine ⟨hunowned, ?_, fun b hb i hi hptr hrequested => ?_⟩
    · obtain ⟨other, hother, j, hj⟩ := hheld ⟨block, n⟩ (by simp)
      obtain ⟨rfl, rfl⟩ :=
        holds_unique hpools' hother hmem hj hn hmoves.lt hmoves.ptr (by omega)
      have hbelow := hj.below
      rw [hmoves.ptr, hmoves.base, hmoves.bytes] at hbelow
      exact hbelow
    · obtain ⟨hi', hptr', hsame⟩ := hmoves.old i hi
      have hne : i ≠ slot := hmoves.ne_slot hi (by rw [hptr]; exact hunowned b hb)
      obtain ⟨other, hother, j, hj⟩ := hheld b (List.mem_append_left _ hb)
      have hpos := hlive b hb
      obtain ⟨rfl, rfl⟩ := holds_unique hpools' hother hmem hj hpos hi' (hptr'.trans hptr)
        (by rw [hsame hne]; omega)
      have hbelow := hj.below
      rw [hptr', hsame hne, hmoves.base, hmoves.bytes] at hbelow
      exact hbelow
  · rintro ⟨hunowned, hbelow, hothers⟩
    have hnew : mp'.Holds slot ⟨block, n⟩ := by
      refine ⟨hmoves.lt, hmoves.ptr, hsize,
        (hpools'.slot_range hmem hmoves.lt).1, ?_⟩
      rw [hmoves.ptr, hmoves.base, hmoves.bytes]
      exact hbelow
    have hheld : ∀ b ∈ live, ∃ other ∈ pre ++ mp' :: post, ∃ i, other.Holds i b := by
      intro b hb
      obtain ⟨other, hother, i, hi⟩ := hsafe.held b hb
      by_cases hsame : other = mp
      · subst hsame
        obtain ⟨hi', hptr', hsize'⟩ := hmoves.old i hi.lt
        have hne : i ≠ slot := hmoves.ne_slot hi.lt (by rw [hi.ptr]; exact hunowned b hb)
        refine ⟨mp', hmem, i, hi', hptr'.trans hi.ptr, ?_,
          (hpools'.slot_range hmem hi').1, ?_⟩
        · rw [hsize' hne]
          exact hi.size
        · rw [hptr', hsize' hne, hmoves.base, hmoves.bytes]
          exact hothers b hb i hi.lt hi.ptr hi.size
      · exact ⟨other, mem_replace_of_ne mp' hother hsame, i, hi⟩
    refine ⟨?_, fun b hb => ?_⟩
    · refine List.pairwise_append.mpr
        ⟨hsafe.apart, List.pairwise_singleton _ _, fun b hb c hc => ?_⟩
      obtain rfl := List.mem_singleton.mp hc
      obtain ⟨other, hother, i, hi⟩ := hheld b hb
      exact holds_apart hpools' hother hmem hi hnew (hunowned b hb)
    · rcases List.mem_append.mp hb with hb | hb
      · exact hheld b hb
      · obtain rfl := List.mem_singleton.mp hb
        exact ⟨mp', hmem, slot, hnew⟩

end Moves

/-- The descriptor taken is nobody's, and the array leaves every block below it. -/
def Choice.Clear (mp : MemPool) (live : List Block) (nbytes : Nat) : Choice → Prop
  | .reuse slot =>
      (∀ b ∈ live, b.ptr ≠ mp.ptr slot) ∧
        mp.BelowArray mp.nDescriptors (mp.ptr slot + mp.nbytes slot)
  | .fragment slot =>
      (∀ b ∈ live, b.ptr ≠ mp.ptr slot) ∧
        mp.BelowArray (mp.nDescriptors + 1) (mp.ptr slot + nbytes) ∧
        ∀ b ∈ live, ∀ i, i < mp.nDescriptors → mp.ptr i = b.ptr →
          b.requested ≤ mp.nbytes i →
          mp.BelowArray (mp.nDescriptors + 1) (mp.ptr i + mp.nbytes i)
  | .fresh => mp.BelowArray (mp.nDescriptors + 1) (mp.top + nbytes)

namespace MemPool

variable {mp : MemPool} {slot nbytes : Nat}

theorem WellFormed.moves_same (h : mp.WellFormed) (hslot : slot < mp.nDescriptors) :
    mp.Moves mp slot (mp.ptr slot) :=
  ⟨h, rfl, rfl, hslot, rfl, fun _ hi => ⟨hi, rfl, fun _ => rfl⟩⟩

theorem WellFormed.moves_cut (h : mp.WellFormed) (hslot : slot < mp.nDescriptors)
    (hsize : nbytes < mp.nbytes slot) (halign : 8 ∣ nbytes) :
    mp.Moves (mp.cut slot nbytes) slot (mp.ptr slot) := by
  have hcount : (mp.cut slot nbytes).nDescriptors = mp.nDescriptors + 1 :=
    nDescriptors_grow _ _ _ _
  exact ⟨h.cut hslot hsize halign, rfl, rfl, by omega, (cut_old _ hslot).1,
    fun i hi => ⟨by omega, cut_old _ hi⟩⟩

theorem WellFormed.moves_extend (h : mp.WellFormed) {tip : Nat}
    (htip : mp.nDescriptors ≠ 0 → mp.IsTip tip) (halign : 8 ∣ nbytes)
    (hbelow : mp.BelowArray (mp.nDescriptors + 1) (mp.top + nbytes)) :
    mp.Moves (mp.extend tip nbytes) mp.nDescriptors mp.top := by
  have hcount : (mp.extend tip nbytes).nDescriptors = mp.nDescriptors + 1 :=
    nDescriptors_grow _ _ _ _
  have hroom : mp.top + nbytes + sizeofMemdesc ≤ mp.base + mp.bytes := by
    rw [BelowArray, sizeofMemdesc] at hbelow
    rw [sizeofMemdesc]
    omega
  refine ⟨(h.extend htip halign hroom).1, rfl, rfl, by omega, ?_,
    fun i hi => ⟨by omega, (extend_old hi).1, fun _ => (extend_old hi).2.1⟩⟩
  rw [ptr, desc_extend_last]

theorem nbytes_extend_last {tip : Nat} :
    (mp.extend tip nbytes).nbytes mp.nDescriptors = nbytes := by
  rw [MemPool.nbytes, desc_extend_last]

end MemPool

/--
The bytes that a caller asked for and the size that the allocator looks for: the
next multiple of eight, unless it is too large for a word.
-/
structure Asked (requested nbytes : Nat) : Prop where
  pos : 0 < requested
  lt : nbytes < 2 ^ 64
  align : 8 ∣ nbytes
  covers : requested ≤ nbytes ∨ 2 ^ 64 - 8 < requested
  near : nbytes < requested + 8

section Takes

variable {E : HeapEnv} {pre post : List MemPool} {mp mp' : MemPool} {c : Choice}
  {block n nbytes : Nat} {live : List Block} (hpools : PoolsWellFormed (pre ++ mp :: post))
  (hsafe : BlocksSafe (pre ++ mp :: post) live) (hlive : ∀ b ∈ live, 0 < b.requested)
  (hasked : Asked n nbytes)

include hasked in
theorem covers_of_safe {pools : List MemPool}
    (hsafe' : BlocksSafe pools (live ++ [⟨block, n⟩])) : n ≤ nbytes := by
  obtain ⟨other, -, i, hi⟩ := hsafe'.held ⟨block, n⟩ (by simp)
  have hle := hi.requested_le
  simp only [blockSize] at hle
  have hcovers := hasked.covers
  omega

include hpools hasked in
theorem slot_of_fresh {tip j : Nat} {other : MemPool} (hadmits : mp.admits nbytes = true)
    (hother : other ∈ pre ++ mp.extend tip nbytes :: post) (hj : j < other.nDescriptors)
    (hptr : other.ptr j = mp.top) (hsize : n ≤ other.nbytes j) :
    other = mp.extend tip nbytes ∧ j = mp.nDescriptors := by
  have hmp : mp ∈ pre ++ mp :: post := by simp
  have hwell := hpools.each mp hmp
  have hpos := hasked.pos
  -- An old descriptor of the pool ends at the top at the latest.
  have hold : ∀ i, i < mp.nDescriptors → mp.ptr i = mp.top → n ≤ mp.nbytes i → False := by
    intro i hi hi' hn
    have hbounds := hwell.bounds hi
    omega
  by_cases hextend : other = mp.extend tip nbytes
  · subst hextend
    refine ⟨rfl, ?_⟩
    by_contra hlast
    have hcount : (mp.extend tip nbytes).nDescriptors = mp.nDescriptors + 1 :=
      MemPool.nDescriptors_grow _ _ _ _
    have hlt : j < mp.nDescriptors := by omega
    obtain ⟨hptr', hsize', -⟩ := @MemPool.extend_old mp tip nbytes j hlt
    rw [hptr'] at hptr
    rw [hsize'] at hsize
    exact hold j hlt hptr hsize
  · exfalso
    have hmem : other ∈ pre ++ mp :: post := mem_replace_of_ne mp hother hextend
    by_cases hsame : other = mp
    · subst hsame
      exact hold j hj hptr hsize
    -- The top of a pool lies in another one only if the pool is empty and has no bytes.
    have hapart := hpools.pair_apart hmem hmp hsame
    have hrange := hpools.slot_range hmem hj
    have htop := hwell.top_le
    have hbase : mp.base ≤ mp.top := Nat.le_add_right _ _
    have hfull : mp.top = mp.base + mp.bytes := by omega
    have hn : mp.nDescriptors = 0 := by
      by_contra hn
      have hroom := hwell.room (by omega)
      rw [sizeofMemdesc] at hroom
      omega
    have hused : mp.memusedsize = 0 := by rw [hwell.memusedsize, MemPool.top_empty hn]; omega
    rw [MemPool.top_empty hn] at hfull
    have hbound : u64 (mp.memusedsize + nbytes + sizeofMemdesc) ≤ mp.bytes :=
      of_decide_eq_true hadmits
    have hbytes := other.bytes_le
    have hlt := hasked.lt
    have hnear := hasked.near
    rw [hused, sizeofMemdesc, u64] at hbound
    simp only [blockSize] at hbytes
    omega

include hpools hasked in
theorem clear_of_fresh {tip : Nat} (hadmits : mp.admits nbytes = true)
    (hsafe' : BlocksSafe (pre ++ mp.extend tip nbytes :: post)
      (live ++ [⟨mp.top, n⟩])) : Choice.fresh.Clear mp live nbytes := by
  obtain ⟨other, hother, j, hj⟩ := hsafe'.held ⟨mp.top, n⟩ (by simp)
  obtain ⟨rfl, rfl⟩ := slot_of_fresh hpools hasked hadmits hother hj.lt hj.ptr hj.size
  have hcount : (mp.extend tip nbytes).nDescriptors = mp.nDescriptors + 1 :=
    MemPool.nDescriptors_grow _ _ _ _
  have hbelow := hj.below
  rw [hj.ptr, MemPool.nbytes_extend_last, hcount] at hbelow
  exact hbelow

include hpools hsafe hlive hasked

theorem safe_of_fresh {tip : Nat} (htip : mp.nDescriptors ≠ 0 → mp.IsTip tip)
    (hcovers : n ≤ nbytes) (hclear : Choice.fresh.Clear mp live nbytes) :
    BlocksSafe (pre ++ mp.extend tip nbytes :: post) (live ++ [⟨mp.top, n⟩]) := by
  have hmp : mp ∈ pre ++ mp :: post := by simp
  have hwell := hpools.each mp hmp
  have halign := hasked.align
  have hpos := hasked.pos
  have hcount : (mp.extend tip nbytes).nDescriptors = mp.nDescriptors + 1 :=
    MemPool.nDescriptors_grow _ _ _ _
  have hroom : mp.top + nbytes + (mp.nDescriptors + 1) * sizeofMemdesc ≤ mp.base + mp.bytes :=
    hclear
  rw [moves_safe_iff hpools hsafe hlive hpos (hwell.moves_extend htip halign hclear)
    (by rw [MemPool.nbytes_extend_last]; exact hcovers), hcount, MemPool.nbytes_extend_last]
  refine ⟨fun b hb hptr => ?_, hclear, fun b hb i hi _ _ => ?_⟩
  · obtain ⟨other, hother, j, hj⟩ := hsafe.held b hb
    have hpos' := hlive b hb
    have hsize := hj.size
    have hjptr := hj.ptr
    have hrange := hpools.slot_range hother hj.lt
    have hbase : mp.base ≤ mp.top := Nat.le_add_right _ _
    by_cases hsame : other = mp
    · subst hsame
      have hbounds := hwell.bounds hj.lt
      omega
    · have hapart := hpools.pair_apart hother hmp hsame
      omega
  · have hbounds := hwell.bounds hi
    rw [MemPool.BelowArray]
    omega

theorem takes_safe_iff (hadmits : c = .fresh → mp.admits nbytes = true)
    (htakes : Takes mp nbytes c block mp') :
    BlocksSafe (pre ++ mp' :: post) (live ++ [⟨block, n⟩]) ↔
      n ≤ nbytes ∧ c.Clear mp live nbytes := by
  have hmp : mp ∈ pre ++ mp :: post := by simp
  have hwell := hpools.each mp hmp
  have halign := hasked.align
  have hpos := hasked.pos
  suffices h : n ≤ nbytes → (BlocksSafe (pre ++ mp' :: post) (live ++ [⟨block, n⟩]) ↔
      c.Clear mp live nbytes) by
    constructor
    · intro hsafe'
      have hcovers := covers_of_safe hasked hsafe'
      exact ⟨hcovers, (h hcovers).mp hsafe'⟩
    · rintro ⟨hcovers, hclear⟩
      exact (h hcovers).mpr hclear
  intro hcovers
  cases htakes with
  | reuse hslot hsize =>
      rename_i slot
      rw [moves_safe_iff hpools hsafe hlive hpos (hwell.moves_same hslot) (by omega)]
      constructor
      · rintro ⟨hunowned, hbelow, -⟩
        exact ⟨hunowned, hbelow⟩
      · rintro ⟨hunowned, hbelow⟩
        refine ⟨hunowned, hbelow, fun b hb i hi hptr hrequested => ?_⟩
        obtain ⟨other, hother, j, hj⟩ := hsafe.held b hb
        have hpos' := hlive b hb
        obtain ⟨rfl, rfl⟩ := holds_unique hpools hother hmp hj hpos' hi hptr (by omega)
        exact hj.below
  | fragment hslot hsize hnonzero =>
      rename_i slot
      have hcount : (mp.cut slot nbytes).nDescriptors = mp.nDescriptors + 1 :=
        MemPool.nDescriptors_grow _ _ _ _
      have hfront : (mp.cut slot nbytes).nbytes slot = nbytes := by
        rw [MemPool.nbytes, MemPool.cut, MemPool.desc_cut_front _ hslot]
      rw [moves_safe_iff hpools hsafe hlive hpos (hwell.moves_cut hslot hsize halign)
        (by omega), hcount, hfront]
      exact Iff.rfl
  | fresh htip =>
      constructor
      · exact clear_of_fresh hpools hasked (hadmits rfl)
      · exact safe_of_fresh hpools hsafe hlive hasked htip hcovers

theorem takes_keeps_wellFormed (hadmits : c = .fresh → mp.admits nbytes = true)
    (htakes : Takes mp nbytes c block mp')
    (hsafe' : BlocksSafe (pre ++ mp' :: post) (live ++ [⟨block, n⟩])) :
    PoolsWellFormed (pre ++ mp' :: post) := by
  have hwell := hpools.each mp (by simp)
  have hclear :=
    ((takes_safe_iff hpools hsafe hlive hasked hadmits htakes).mp hsafe').2
  cases htakes with
  | reuse => exact hpools
  | fragment hslot hsize _ => exact hpools.replace (hwell.cut hslot hsize hasked.align) rfl rfl
  | fresh htip =>
      exact hpools.replace (hwell.moves_extend htip hasked.align hclear).wellFormed rfl rfl

end Takes

end BlockyOS.Kernel
