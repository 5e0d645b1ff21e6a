import BlockyOS.Kernel.ISTAllocation
import BlockyOS.Kernel.Macros

/-!
# The allocation of a system descriptor

`AllocateSystemDescriptor` looks for a system descriptor that is not present, or grows
the table.  What it stores has the `S` bit set, as a descriptor of code or data has.
-/

namespace BlockyOS.Kernel.GDT

open BlockyOS.Foundation

structure SystemRequest where
  physicalBase : Nat
  limit : Nat
  priviledge : Nat
  type : Nat
  flags : BitVec 32

def granularity (flags : BitVec 32) : Nat := (flagCheck flags 1 && !flagCheck flags 0).toNat

/-- The twenty-four bytes that are stored for a request.  The bits that no field has a name for are
whatever they are in `unnamed`. -/
def systemDescriptor (unnamed : Nat) (q : SystemRequest) : Nat :=
  packFields [(16, q.limit &&& 0xFFFF), (24, q.physicalBase &&& 0xFFFFFF), (4, q.type), (1, 1),
    (2, q.priviledge), (1, 1), (4, (q.limit >>> 16) &&& 0xF), (1, 0), (2, bits unnamed 53 2),
    (1, granularity q.flags), (8, bits unnamed 56 8),
    (40, (q.physicalBase >>> 24) &&& 0xFFFFFFFFFF), (88, bits unnamed 104 88)]

def isFree (m : Words) (cc : Nat) : Prop := systemSegmentBit (m cc) = 0 ∧ present (m cc) = 0

instance (m : Words) : DecidablePred (isFree m) := fun _ => inferInstanceAs (Decidable (_ ∧ _))

/-- One turn of the scan, which passes over two words where the `S` bit is set. -/
def freeTurn (m : Words) (limit cc : Nat) : Nat ⊕ Option Nat :=
  if limit / descriptorSize ≤ cc then .inr none
  else if systemSegmentBit (m cc) = 0 then
    if present (m cc) = 0 then .inr (some cc) else .inl (cc + 1)
  else .inl (cc + 2)

/-- The copy of `n` bytes that `LoadGDTR` makes on new pages. -/
def copied (n : Nat) (page m : Words) : Words := fun j =>
  if (j + 1) * 8 ≤ n then m j
  else if j * 8 < n then
    m j % 2 ^ ((n - j * 8) * 8) + page j / 2 ^ ((n - j * 8) * 8) * 2 ^ ((n - j * 8) * 8)
  else page j

structure SystemResult where
  returned : Bool
  words : Words
  limit : Nat
  written : Option Nat

def storeSystem (m page : Words) (limit unnamed : Nat) (q : SystemRequest) :
    Option Nat → SystemResult
  | some cc => ⟨true, storeWide m cc (systemDescriptor unnamed q), limit, some cc⟩
  | none =>
      if (limit + 1) * systemDescriptorSize ≤ 2 ^ 16 - 1 then
        ⟨true, copied (limit + systemDescriptorSize) page
          (storeWide m (3 * (limit / systemDescriptorSize)) (systemDescriptor unnamed q)),
          limit + systemDescriptorSize, some (3 * (limit / systemDescriptorSize))⟩
      else ⟨false, m, limit, none⟩

/-- `AllocateSystemDescriptor`; the table register is always readable. -/
def allocateSystemDescriptor (fuel : Nat) (m page : Words) (limit unnamed : Nat)
    (q : SystemRequest) : Option SystemResult :=
  (follow (freeTurn m limit) fuel 0).map (storeSystem m page limit unnamed q)

/-! ## What the function is for -/

structure Describes (raw : Nat) (q : SystemRequest) : Prop where
  system : systemSegmentBit raw = 0
  present : present raw = 1
  type : type raw = q.type
  base : base raw = q.physicalBase
  limit : segmentLimit raw = q.limit

structure AddsDescriptor (m : Words) (img : Image) (q : SystemRequest) (r : SystemResult) :
    Prop where
  added : r.returned = true → ∃ i, r.written = some i ∧ (i + 2) * descriptorSize ≤ r.limit + 1 ∧
    Describes (rawAt r.words i) q ∧ i ∈ walk r.words r.limit
  kept : r.returned = true → ∀ p ∈ img.places, p.2.Present → p.2.LiesAt r.words p.1
  unchanged : r.returned = false → r.words = m ∧ r.limit = img.limit

def scanStride (m : Words) (cc : Nat) : Nat := if systemSegmentBit (m cc) = 0 then 1 else 2

/-- The places that the scan comes to where it finds none. -/
def scan (m : Words) (limit : Nat) : List Nat := strides (scanStride m) (limit / descriptorSize) 0

variable {m page : Words} {img : Image} {q : SystemRequest} {limit unnamed : Nat}

theorem scanStride_pos (m : Words) (cc : Nat) : 0 < scanStride m cc := by
  rw [scanStride]
  split <;> decide

/-! ## The scan -/

theorem follow_freeTurn (m : Words) (limit cc : Nat) :
    ∃ fuel, follow (freeTurn m limit) fuel cc = some
      ((strides (scanStride m) (limit / descriptorSize) cc).find? fun i => isFree m i) := by
  induction hn : limit / descriptorSize - cc using Nat.strong_induction_on generalizing cc with
  | h n ih =>
      rcases Nat.lt_or_ge cc (limit / descriptorSize) with hlt | hle
      · rw [strides_of_lt (scanStride_pos m) hlt]
        by_cases hfree : isFree m cc
        · refine ⟨1, ?_⟩
          have hturn : freeTurn m limit cc = .inr (some cc) := by
            rw [freeTurn, if_neg (Nat.not_le.mpr hlt), if_pos hfree.1, if_pos hfree.2]
          rw [follow_of_answer hturn, List.find?_cons, decide_eq_true hfree]
        · have hturn : freeTurn m limit cc = .inl (cc + scanStride m cc) := by
            rw [freeTurn, if_neg (Nat.not_le.mpr hlt), scanStride]
            split
            · next hbit => rw [if_neg fun hpresent => hfree ⟨hbit, hpresent⟩]
            · rfl
          have hpos := scanStride_pos m cc
          obtain ⟨fuel, hfollow⟩ :=
            ih (limit / descriptorSize - (cc + scanStride m cc)) (by omega) _ rfl
          refine ⟨fuel + 1, ?_⟩
          rw [follow_of_moves hturn, hfollow, List.find?_cons_of_neg]
          exact fun htrue => hfree (of_decide_eq_true htrue)
      · refine ⟨1, ?_⟩
        have hturn : freeTurn m limit cc = .inr none := if_pos hle
        rw [follow_of_answer hturn, strides_of_le hle, List.find?_nil]

/-! ## What is stored -/

theorem systemSegmentBit_systemDescriptor : systemSegmentBit (systemDescriptor unnamed q) = 1 :=
  bits_packFields_field [(16, q.limit &&& 0xFFFF), (24, q.physicalBase &&& 0xFFFFFF), (4, q.type)]
    1 1 [(2, q.priviledge), (1, 1), (4, (q.limit >>> 16) &&& 0xF), (1, 0), (2, bits unnamed 53 2),
      (1, granularity q.flags), (8, bits unnamed 56 8),
      (40, (q.physicalBase >>> 24) &&& 0xFFFFFFFFFF), (88, bits unnamed 104 88)] 44 rfl

theorem systemSegmentBit_storeWide {cc raw : Nat} :
    systemSegmentBit (storeWide m cc raw cc) = systemSegmentBit raw := by
  have hword : raw % 2 ^ 128 % 2 ^ 64 = raw % 2 ^ 64 := Nat.mod_mod_of_dvd _ (by decide)
  rw [storeWide, storeAt, if_pos rfl, hword, systemSegmentBit, bits_mod (by decide),
    systemSegmentBit]

theorem systemSegmentBit_written {found : Option Nat} {i : Nat}
    (h : (storeSystem m page limit unnamed q found).written = some i) :
    systemSegmentBit (rawAt (storeSystem m page limit unnamed q found).words i) = 1 := by
  rw [systemSegmentBit, bits_rawAt (by decide)]
  cases found with
  | some cc =>
      obtain rfl := Option.some.inj h
      exact systemSegmentBit_storeWide.trans systemSegmentBit_systemDescriptor
  | none =>
      rw [storeSystem] at h ⊢
      split at h
      · next hroom =>
          obtain rfl := Option.some.inj h
          rw [if_pos hroom]
          have hwhole : (3 * (limit / systemDescriptorSize) + 1) * 8 ≤
              limit + systemDescriptorSize := by
            rw [systemDescriptorSize]
            omega
          dsimp only
          rw [copied, if_pos hwhole]
          exact systemSegmentBit_storeWide.trans systemSegmentBit_systemDescriptor
      · cases h

theorem not_adds_of_returned {found : Option Nat}
    (h : (storeSystem m page limit unnamed q found).returned = true) :
    ¬ AddsDescriptor m img q (storeSystem m page limit unnamed q found) := by
  intro hright
  obtain ⟨i, hwritten, -, hdescribes, -⟩ := hright.added h
  have hbit := systemSegmentBit_written hwritten
  rw [hdescribes.system] at hbit
  cases hbit

/-- The function is right exactly where it finds no free place and no room to grow. -/
theorem allocateSystemDescriptor_right_iff :
    (∃ fuel r, allocateSystemDescriptor fuel m page img.limit unnamed q = some r ∧
        AddsDescriptor m img q r) ↔
      (∀ i ∈ scan m img.limit, ¬ isFree m i) ∧
        2 ^ 16 ≤ (img.limit + 1) * systemDescriptorSize := by
  obtain ⟨fuel, hscan⟩ := follow_freeTurn m img.limit 0
  have hrun : allocateSystemDescriptor fuel m page img.limit unnamed q =
      some (storeSystem m page img.limit unnamed q
        ((scan m img.limit).find? fun i => isFree m i)) := by
    rw [allocateSystemDescriptor, hscan]
    rfl
  constructor
  · rintro ⟨fuel', r, hrun', hright⟩
    have hstored : r = storeSystem m page img.limit unnamed q
        ((scan m img.limit).find? fun i => isFree m i) := by
      obtain ⟨found, hfollow, rfl⟩ := Option.map_eq_some_iff.mp hrun'
      rw [follow_unique hfollow hscan]
      rfl
    rw [hstored] at hright
    cases hfind : (scan m img.limit).find? fun i => isFree m i with
    | some cc =>
        rw [hfind] at hright
        exact absurd hright (not_adds_of_returned rfl)
    | none =>
        refine ⟨fun i hi hfree => List.find?_eq_none.mp hfind i hi (decide_eq_true hfree), ?_⟩
        by_contra hroom
        have hroom' : (img.limit + 1) * systemDescriptorSize ≤ 2 ^ 16 - 1 := by omega
        rw [hfind] at hright
        refine not_adds_of_returned ?_ hright
        rw [storeSystem, if_pos hroom']
  · rintro ⟨hnone, hroom⟩
    have hfind : ((scan m img.limit).find? fun i => isFree m i) = none :=
      List.find?_eq_none.mpr fun i hi htrue => hnone i hi (of_decide_eq_true htrue)
    have hroom' : ¬ (img.limit + 1) * systemDescriptorSize ≤ 2 ^ 16 - 1 := by omega
    rw [hfind, storeSystem, if_neg hroom'] at hrun
    refine ⟨fuel, _, hrun, ?_, ?_, fun _ => ⟨rfl, rfl⟩⟩
    · intro h
      cases h
    · intro h
      cases h

/-- In the table of the kernel the null descriptor counts as free, and that of code is lost. -/
theorem not_allocateSystemDescriptor_right_kernel :
    kernelTable.Holds kernelWords ∧ ¬ ∃ fuel r,
      allocateSystemDescriptor fuel kernelWords (fun _ => 0) kernelTable.limit 0
          ⟨2 ^ 21, 0x67, 0, 0x9, 0⟩ = some r ∧
        AddsDescriptor kernelWords kernelTable ⟨2 ^ 21, 0x67, 0, 0x9, 0⟩ r := by
  refine ⟨by decide, ?_⟩
  rintro ⟨fuel, r, hrun, hright⟩
  obtain ⟨fuel', hscan⟩ := follow_freeTurn kernelWords kernelTable.limit 0
  obtain ⟨found, hfollow, rfl⟩ := Option.map_eq_some_iff.mp hrun
  rw [follow_unique hfollow hscan] at hright
  exact not_adds_of_returned rfl hright

end BlockyOS.Kernel.GDT
