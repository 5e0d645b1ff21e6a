import BlockyOS.Foundation.Memories
import BlockyOS.Foundation.Patches
import BlockyOS.Foundation.Words
import BlockyOS.Kernel.SSERegisters
import Mathlib.Data.List.GetD

/-!
# Filling and copying memory

`memset` and `memcpy` move sixteen bytes at a time through an XMM register, if
the allocator has one for them, and the rest byte by byte.  The map of the
allocator holds booleans, so that it never gives out a register but 0 and 1.
-/

namespace BlockyOS.Libcrt

open BlockyOS.Foundation
open BlockyOS.Kernel

/-- Memory, the bytes of the XMM registers, and the stores of their allocator. -/
structure Machine where
  memory : Memory
  xmm : Nat → Memory
  stores : SSEStores

namespace Machine

variable (m : Machine)

/-! ## Registers -/

/-- `MovUAlignedIntegersToXmmN`, with the bytes at its pointer. -/
def movUAlignedIntegersToXmm (n : Nat) (source : Memory) : Machine :=
  { m with xmm := Function.update m.xmm n (fillFrom (m.xmm n) 0 16 source) }

/-- `MovUAlignedIntegersFromXmmN`. -/
def movUAlignedIntegersFromXmm (n ptr : Nat) : Machine :=
  { m with memory := fillFrom m.memory ptr 16 (m.xmm n) }

/-- The dispatch of `RegisterSuiteFunction`, which refuses register 15. -/
def storeUAlignedIntegers (reg : XmmRegister) (source : Memory) : Machine × Bool :=
  if 15 ≤ reg.register then (m, false)
  else (m.movUAlignedIntegersToXmm reg.register source, true)

def loadUAlignedIntegers (reg : XmmRegister) (ptr : Nat) : Machine × Bool :=
  if 15 ≤ reg.register then (m, false)
  else (m.movUAlignedIntegersFromXmm reg.register ptr, true)

/-! ## The routines -/

def setByte (a : Nat) (byte : UInt8) : Machine :=
  { m with memory := fillFrom m.memory a 1 fun _ => byte }

/-- The bytes of `vec_data`, four words with the pattern of `v`. -/
def vecData (v : UInt8) : Memory := fun k =>
  let v := v.toNat
  let pattern := u32 (v ||| v <<< 8 ||| v <<< 16 ||| v <<< 24)
  (leBytes 4 pattern).getD (k % 4) 0

def memset (buffer : Nat) (val : Int) (len : Nat) : Machine :=
  let v := UInt8.ofNat (val % 256).toNat
  let bytes := fun i (m : Machine) => m.setByte (buffer + i) v
  if len < 16 then sweep bytes len 0 m
  else
    match m.stores.allocateSSERegister with
    | (stores, none) => sweep bytes len 0 { m with stores }
    | (stores, some r0) =>
        let chunks := len / 16
        let m := ({ m with stores }.storeUAlignedIntegers r0 (vecData v)).1
        let m := sweep (fun i m => (m.loadUAlignedIntegers r0 (buffer + i * 16)).1) chunks 0 m
        let m := { m with stores := (m.stores.freeSSERegister r0).1 }
        sweep bytes (len - chunks * 16) (chunks * 16) m

def memcpy (dst src len : Nat) : Machine :=
  let bytes := fun i (m : Machine) => m.setByte (dst + i) (m.memory (src + i))
  if len < 16 then sweep bytes len 0 m
  else
    match m.stores.allocateSSERegister with
    | (stores, none) => sweep bytes len 0 { m with stores }
    | (stores, some r0) =>
        let chunks := len / 16
        let copy := fun i (m : Machine) =>
          let offset := i * 16
          let m := (m.storeUAlignedIntegers r0 fun k => m.memory (src + offset + k)).1
          (m.loadUAlignedIntegers r0 (dst + offset)).1
        let m := sweep copy chunks 0 { m with stores }
        let m := { m with stores := (m.stores.freeSSERegister r0).1 }
        sweep bytes (len - chunks * 16) (chunks * 16) m

variable {m : Machine} {stores : SSEStores} {r0 : XmmRegister}

/-! ## The registers of the allocator -/

section Allocated

variable {stores' : SSEStores} (h : stores.allocateSSERegister = (stores', some r0))

include h

theorem storeUAlignedIntegers_of_allocated {source : Memory} :
    (m.storeUAlignedIntegers r0 source).1 = m.movUAlignedIntegersToXmm r0.register source := by
  have hle := (SSEStores.allocateSSERegister_some h).1
  rw [storeUAlignedIntegers, if_neg (by omega)]

theorem loadUAlignedIntegers_of_allocated {ptr : Nat} :
    (m.loadUAlignedIntegers r0 ptr).1 = m.movUAlignedIntegersFromXmm r0.register ptr := by
  have hle := (SSEStores.allocateSSERegister_some h).1
  rw [loadUAlignedIntegers, if_neg (by omega)]

end Allocated

@[simp] theorem xmm_movUAlignedIntegersToXmm (n : Nat) (source : Memory) :
    (m.movUAlignedIntegersToXmm n source).xmm n = fillFrom (m.xmm n) 0 16 source :=
  Function.update_self ..

theorem memory_movUAlignedIntegersFromXmm {n ptr : Nat} {source : Memory}
    (h : ∀ k < 16, m.xmm n k = source k) :
    (m.movUAlignedIntegersFromXmm n ptr).memory = fillFrom m.memory ptr 16 source :=
  fillFrom_congr m.memory ptr 16 (m.xmm n) h

theorem vecData_eq (v : UInt8) (k : Nat) : vecData v k = v := by
  have hpattern : ∀ n : Fin 256,
      leBytes 4 (u32 (n.val ||| n.val <<< 8 ||| n.val <<< 16 ||| n.val <<< 24)) =
        List.replicate 4 (UInt8.ofNat n) := by decide +kernel
  have hv := hpattern ⟨v.toNat, v.toNat_lt⟩
  have hk : k % 4 < 4 := Nat.mod_lt _ (by decide)
  dsimp only at hv
  rw [vecData, hv, List.getD_replicate, UInt8.ofNat_toNat]
  exact hk

/-! ## The loops -/

/-- Of the memory of `m₀` the `n` bytes from `p` on have been replaced. -/
structure Filled (m₀ : Machine) (p n : Nat) (source : Memory) (stores : SSEStores)
    (m : Machine) : Prop where
  stores : m.stores = stores
  memory : m.memory = fillFrom m₀.memory p n source

variable {m₀ : Machine} {p first count len : Nat} {source : Memory}

theorem filled_of_chunks {I : Machine → Prop} {turn : Nat → Machine → Machine} (hI : I m)
    (hturn : ∀ i m', I m' → m'.memory = fillFrom m.memory p (i * 16) source → i < count →
      I (turn i m') ∧ (turn i m').memory =
        fillFrom m'.memory (p + i * 16) 16 fun k => source (i * 16 + k)) :
    I (sweep turn count 0 m) ∧
      (sweep turn count 0 m).memory = fillFrom m.memory p (count * 16) source := by
  have hstart : m.memory = fillFrom m.memory p (16 * 0) source := (fillFrom_zero ..).symm
  have hall := @sweep_fillFrom m.memory p source _ Machine.memory I turn 16 count 0 m hI hstart
    fun i m' _ hlt hI' hmemory => by
      rw [Nat.mul_comm 16] at hmemory ⊢
      exact hturn i m' hI' hmemory (by omega)
  rwa [Nat.zero_add, Nat.mul_comm] at hall

theorem Filled.bytes {value : Nat → Machine → UInt8} (h : Filled m₀ p first source stores m)
    (hvalue : ∀ i m, Filled m₀ p i source stores m → i < first + count →
      value i m = source i) :
    Filled m₀ p (first + count) source stores
      (sweep (fun i m => m.setByte (p + i) (value i m)) count first m) := by
  have hstart : m.memory = fillFrom m₀.memory p (1 * first) source := by
    rw [Nat.one_mul, h.memory]
  have hall := @sweep_fillFrom m₀.memory p source _ Machine.memory
    (fun m' => m'.stores = stores) (fun i m => m.setByte (p + i) (value i m)) 1 count first m
    h.stores hstart ?_
  · rw [Nat.one_mul] at hall
    exact ⟨hall.1, hall.2⟩
  · intro i m' _ hlt hstores hmemory
    rw [Nat.one_mul] at hmemory
    refine ⟨hstores, ?_⟩
    rw [setByte, hvalue i m' ⟨hstores, hmemory⟩ hlt, Nat.one_mul]
    refine fillFrom_congr m'.memory (p + i) 1 (fun _ => source i) fun k hk => ?_
    rw [Nat.lt_one_iff.mp hk, Nat.add_zero]

theorem filled_of_bytes {value : Nat → Machine → UInt8}
    (hvalue : ∀ i m', Filled m p i source m.stores m' → i < len → value i m' = source i) :
    Filled m p len source m.stores
      (sweep (fun i m => m.setByte (p + i) (value i m)) len 0 m) := by
  have hnone : Filled m p 0 source m.stores m := ⟨rfl, (fillFrom_zero ..).symm⟩
  have hall := @Filled.bytes m m.stores m p 0 len source value hnone fun i m' hfilled hi =>
    hvalue i m' hfilled (by omega)
  rwa [Nat.zero_add] at hall

theorem filled_of_rest {value : Nat → Machine → UInt8}
    (hallocate : m₀.stores.allocateSSERegister = (stores, some r0)) (hstores : m.stores = stores)
    (hmemory : m.memory = fillFrom m₀.memory p (len / 16 * 16) source)
    (hvalue : ∀ i m', Filled m₀ p i source m₀.stores m' → i < len → value i m' = source i) :
    Filled m₀ p len source m₀.stores
      (sweep (fun i m => m.setByte (p + i) (value i m)) (len - len / 16 * 16) (len / 16 * 16)
        { m with stores := (m.stores.freeSSERegister r0).1 }) := by
  have hfree := (SSEStores.allocateSSERegister_some hallocate).2
  have hchunks : Filled m₀ p (len / 16 * 16) source m₀.stores
      { m with stores := (m.stores.freeSSERegister r0).1 } := ⟨hstores ▸ hfree, hmemory⟩
  have hlen : len / 16 * 16 + (len - len / 16 * 16) = len := by omega
  have hall := @Filled.bytes _ _ _ p (len / 16 * 16) (len - len / 16 * 16) source value hchunks
    fun i m' hfilled hi => hvalue i m' hfilled (by omega)
  rwa [hlen] at hall

/-! ## What the routines do -/

theorem filled_memset (m : Machine) (buffer : Nat) (val : Int) (len : Nat) :
    Filled m buffer len (fun _ => UInt8.ofNat (val % 256).toNat) m.stores
      (m.memset buffer val len) := by
  rw [memset]
  dsimp only
  split
  · exact filled_of_bytes fun _ _ _ _ => rfl
  · cases hallocate : m.stores.allocateSSERegister with
    | mk stores r0 =>
        cases r0 with
        | none =>
            obtain rfl := SSEStores.allocateSSERegister_none hallocate
            exact filled_of_bytes fun _ _ _ _ => rfl
        | some r0 =>
            dsimp only
            rw [storeUAlignedIntegers_of_allocated hallocate]
            -- every chunk stores the register, which stays as it was loaded
            have hchunks := @filled_of_chunks
              ({ m with stores }.movUAlignedIntegersToXmm r0.register
                (vecData (UInt8.ofNat (val % 256).toNat))) buffer (len / 16)
              (fun _ => UInt8.ofNat (val % 256).toNat)
              (fun m' => m'.stores = stores ∧
                ∀ k < 16, m'.xmm r0.register k = UInt8.ofNat (val % 256).toNat)
              (fun i m' => (m'.loadUAlignedIntegers r0 (buffer + i * 16)).1) ⟨rfl, ?_⟩ ?_
            · obtain ⟨⟨hstores, -⟩, hmemory⟩ := hchunks
              exact filled_of_rest hallocate hstores hmemory fun _ _ _ _ => rfl
            · intro k hk
              have hinside := fillFrom_inside ({ m with stores }.xmm r0.register) 0 16
                (vecData (UInt8.ofNat (val % 256).toNat)) hk
              rw [Nat.zero_add, vecData_eq] at hinside
              rwa [xmm_movUAlignedIntegersToXmm]
            · rintro i m' ⟨hstores, hxmm⟩ - -
              rw [loadUAlignedIntegers_of_allocated hallocate]
              exact ⟨⟨hstores, hxmm⟩, memory_movUAlignedIntegersFromXmm hxmm⟩

theorem filled_memcpy {dst src len : Nat} (h : RangesApart dst len src len) :
    Filled m dst len (fun k => m.memory (src + k)) m.stores (m.memcpy dst src len) := by
  -- the source is as it was, however much of the destination has been written
  have hsource : ∀ n k, n ≤ len → k < len →
      fillFrom m.memory dst n (fun k => m.memory (src + k)) (src + k) = m.memory (src + k) := by
    intro n k hn hk
    rw [RangesApart] at h
    exact fillFrom_outside _ _ _ _ (by omega)
  have hvalue : ∀ i m', Filled m dst i (fun k => m.memory (src + k)) m.stores m' → i < len →
      m'.memory (src + i) = m.memory (src + i) := by
    intro i m' hfilled hi
    rw [hfilled.memory]
    exact hsource i i (Nat.le_of_lt hi) hi
  rw [memcpy]
  dsimp only
  split
  · exact filled_of_bytes hvalue
  · cases hallocate : m.stores.allocateSSERegister with
    | mk stores r0 =>
        cases r0 with
        | none =>
            obtain rfl := SSEStores.allocateSSERegister_none hallocate
            exact filled_of_bytes hvalue
        | some r0 =>
            dsimp only
            have hchunks := @filled_of_chunks { m with stores } dst (len / 16)
              (fun k => m.memory (src + k)) (fun m' => m'.stores = stores)
              (fun i m' => ((m'.storeUAlignedIntegers r0 fun k =>
                m'.memory (src + i * 16 + k)).1.loadUAlignedIntegers r0 (dst + i * 16)).1)
              rfl ?_
            · exact filled_of_rest hallocate hchunks.1 hchunks.2 hvalue
            · intro i m' hstores hmemory hi
              rw [storeUAlignedIntegers_of_allocated hallocate,
                loadUAlignedIntegers_of_allocated hallocate]
              refine ⟨hstores, ?_⟩
              refine memory_movUAlignedIntegersFromXmm fun k hk => ?_
              have hinside := fillFrom_inside (m'.xmm r0.register) 0 16
                (fun k => m'.memory (src + i * 16 + k)) hk
              rw [Nat.zero_add] at hinside
              rw [xmm_movUAlignedIntegersToXmm, hinside, hmemory, Nat.add_assoc]
              exact hsource (i * 16) (i * 16 + k) (by omega) (by omega)

end Machine

/--
Whatever the registers and the state of their allocator, `memcpy` leaves the bytes of
the source in the destination and `memset` leaves `val` modulo 256 in the buffer.  No
other byte changes, and the allocator is as it was.
-/
theorem memcpy_memset_correct {dst src len : Nat} (m : Machine)
    (hapart : RangesApart dst len src len) (buffer n : Nat) (val : Int) :
    ((∀ i < len, (m.memcpy dst src len).memory (dst + i) = m.memory (src + i)) ∧
      (∀ a, a < dst ∨ dst + len ≤ a → (m.memcpy dst src len).memory a = m.memory a) ∧
      (m.memcpy dst src len).stores = m.stores) ∧
    ((∀ i < n, ((m.memset buffer val n).memory (buffer + i)).toNat = val % 256) ∧
      (∀ a, a < buffer ∨ buffer + n ≤ a → (m.memset buffer val n).memory a = m.memory a) ∧
      (m.memset buffer val n).stores = m.stores) := by
  have hcpy := @Machine.filled_memcpy m dst src len hapart
  have hset := m.filled_memset buffer val n
  refine ⟨⟨fun i hi => ?_, fun a ha => ?_, hcpy.stores⟩,
    ⟨fun i hi => ?_, fun a ha => ?_, hset.stores⟩⟩
  · rw [hcpy.memory, fillFrom_inside _ _ _ _ hi]
  · rw [hcpy.memory, fillFrom_outside _ _ _ _ ha]
  · have hnonneg : 0 ≤ val % 256 := Int.emod_nonneg val (by decide)
    have hlt : val % 256 < 256 := Int.emod_lt_of_pos val (by decide)
    rw [hset.memory, fillFrom_inside _ _ _ _ hi, UInt8.toNat_ofNat']
    omega
  · rw [hset.memory, fillFrom_outside _ _ _ _ ha]

def sampleMachine : Machine where
  memory a := UInt8.ofNat a
  xmm _ _ := 0
  stores _ := ⟨true, fun _ => true⟩

theorem memcpy_memset_sample :
    (∀ i < 20, (sampleMachine.memcpy 32 0 20).memory (32 + i) = UInt8.ofNat (0 + i)) ∧
      (sampleMachine.memcpy 32 0 20).stores = sampleMachine.stores ∧
      ∀ i < 17, ((sampleMachine.memset 64 (-1) 17).memory (64 + i)).toNat = (-1 : Int) % 256 :=
  have h := @memcpy_memset_correct 32 0 20 sampleMachine (Or.inr (by decide)) 64 17 (-1)
  ⟨h.1.1, h.1.2.2, h.2.1⟩

end BlockyOS.Libcrt
