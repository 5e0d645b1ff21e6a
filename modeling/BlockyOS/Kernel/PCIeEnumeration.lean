import BlockyOS.Foundation.Firsts
import BlockyOS.Kernel.ACPISearch
import BlockyOS.Libcrt.MemoryCompare

/-!
# The search for a PCIe device

`PCIeSearchDevice` goes through the configuration segments that the `MCFG` table
names.  Its bus and slot counters are set once, before the first segment, and its
skip count is one of slots.
-/

namespace BlockyOS.Kernel

open BlockyOS.Foundation

def pciMaxBuses : Nat := 256

def pciMaxDevices : Nat := 32

structure PCIDeviceSpecifier where
  progIF : UInt8
  subClass : UInt8
  classCode : UInt8
  deriving DecidableEq, Repr

/-- The three bytes of a specifier, as `memcmp` sees them. -/
def PCIDeviceSpecifier.memory (code : PCIDeviceSpecifier) : Memory
  | 0 => code.progIF
  | 1 => code.subClass
  | _ => code.classCode

/-- `PCIeMakeAddress`. -/
def pcieMakeAddress (base bus slot func offset : Nat) : Nat :=
  base + (bus <<< 20 ||| slot <<< 15 ||| func <<< 12) + offset

/-- What the search works on: the memory, the `MCFG` table in it, and the allocator. -/
structure PCIeSpace where
  fw : Firmware
  table : Nat
  /-- `AllocateAlignedPages`, which answers where it mapped a physical range, or `NULL`. -/
  allocateAlignedPages : Nat → Int → Nat

namespace PCIeSpace

variable (pci : PCIeSpace)

/-! ## The configuration segments -/

def addressWidth : Nat :=
  if xsdpRevision ≤ pci.fw.wordAt (pci.table + 8) 4 then 8 else 4

/-- The size of an entry, `SegmentGroup`, the two buses and the reserved word included. -/
def entrySize : Nat := pci.addressWidth + 8

def entryAt (n : Nat) : Nat := pci.table + (Firmware.headerSize + 8) + n * pci.entrySize

def configurationBaseAddress (n : Nat) : Nat := pci.fw.wordAt (pci.entryAt n) pci.addressWidth

def startingBus (n : Nat) : Nat := pci.fw.wordAt (pci.entryAt n + pci.addressWidth + 2) 1

def endingBus (n : Nat) : Nat := pci.fw.wordAt (pci.entryAt n + pci.addressWidth + 3) 1

/-- `nMB`. -/
def nMB (n : Int) : Int := n * 1024 * 1024

/-- `GetPCIeConfigurationBase`; the entries are counted without the reserved word. -/
def getPCIeConfigurationBase (n : Nat) : Nat :=
  if (pci.fw.length pci.table + (2 ^ 64 - Firmware.headerSize)) % 2 ^ 64 / pci.entrySize ≤ n then 0
  else if pci.fw.mapVirtual (pci.configurationBaseAddress n) ≠ 0 then
    pci.fw.mapVirtual (pci.configurationBaseAddress n)
  else
    pci.allocateAlignedPages (pci.configurationBaseAddress n)
      (nMB ((pci.endingBus n : Int) - pci.startingBus n + 1))

/-- The table has `k` entries and nothing behind them. -/
def HasSegments (k : Nat) : Prop :=
  pci.fw.length pci.table = Firmware.headerSize + 8 + k * pci.entrySize

instance (k : Nat) : Decidable (pci.HasSegments k) := inferInstanceAs (Decidable (_ = _))

/-! ## The search -/

structure Probe where
  segment : Nat
  base : Nat
  bus : Nat
  slot : Nat
  deriving DecidableEq, Repr

structure SearchResult where
  device : Nat
  bus : Nat
  slot : Nat
  probes : List Probe
  deriving DecidableEq, Repr

/-- The skip count `N` and the slots compared so far. -/
structure SearchState where
  skip : Nat
  probes : List Probe
  deriving DecidableEq, Repr

/-- `offsetof(PCIDevice, DeviceCode)`: the status register in front has a bit too many, and so
takes three bytes. -/
def deviceCodeOffset : Nat := 10

def hasCode (code : PCIDeviceSpecifier) (address : Nat) : Bool :=
  Libcrt.memcmp (fun i => pci.fw.byte (address + deviceCodeOffset + i)) code.memory 3 = 0

def slotTurn (code : PCIDeviceSpecifier) (devicen base bus slot : Nat) (s : SearchState) :
    Except SearchResult SearchState :=
  if s.skip ≠ 0 then .ok { s with skip := s.skip - 1 }
  else if pci.hasCode code (pcieMakeAddress base bus slot 0 0) then
    .error ⟨pcieMakeAddress base bus slot 0 0, bus, slot, s.probes ++ [⟨devicen, base, bus, slot⟩]⟩
  else .ok { s with probes := s.probes ++ [⟨devicen, base, bus, slot⟩] }

def busTurn (code : PCIDeviceSpecifier) (devicen base bus : Nat) (s : Nat × SearchState) :
    Except SearchResult (Nat × SearchState) := do
  let s' ← loop (pci.slotTurn code devicen base bus) (pciMaxDevices - s.1) s.1 s.2
  return (max s.1 pciMaxDevices, s')

structure SearchCounters where
  devicen : Nat
  bus : Nat
  slot : Nat
  state : SearchState
  deriving DecidableEq, Repr

def segmentTurn (code : PCIDeviceSpecifier) (c : SearchCounters) :
    SearchCounters ⊕ SearchResult :=
  match loop (pci.busTurn code c.devicen (pci.getPCIeConfigurationBase c.devicen))
      (pciMaxBuses - c.bus) c.bus (c.slot, c.state) with
  | .error r => .inr r
  | .ok s =>
      if pci.getPCIeConfigurationBase c.devicen ≠ 0 then
        .inl ⟨(c.devicen + 1) % 2 ^ 32, max c.bus pciMaxBuses, s.1, s.2⟩
      else .inr ⟨0, max c.bus pciMaxBuses, s.1, s.2.probes⟩

/-- `PCIeSearchDevice`, which answers `none` when `fuel` turns do not suffice. -/
def pcieSearchDevice (fuel : Nat) (code : PCIDeviceSpecifier) (n : Nat) : Option SearchResult :=
  follow (pci.segmentTurn code) fuel ⟨0, 0, 0, ⟨n, []⟩⟩

/-! ## What the search is for -/

@[ext]
structure Place where
  segment : Nat
  bus : Nat
  slot : Nat
  deriving DecidableEq, Repr

def Place.rank (p : Place) : Nat := (p.segment * pciMaxBuses + p.bus) * pciMaxDevices + p.slot

/-- The places of the first `k` segments in lexicographic order. -/
def places (k : Nat) : List Place :=
  (List.range k).flatMap fun segment => (List.range pciMaxBuses).flatMap fun bus =>
    (List.range pciMaxDevices).map fun slot => ⟨segment, bus, slot⟩

def address (p : Place) : Nat :=
  pcieMakeAddress (pci.getPCIeConfigurationBase p.segment) p.bus p.slot 0 0

def codeAt (address : Nat) : PCIDeviceSpecifier :=
  ⟨pci.fw.byte (address + 9), pci.fw.byte (address + 10), pci.fw.byte (address + 11)⟩

def comparedAt (address : Nat) : PCIDeviceSpecifier :=
  ⟨pci.fw.byte (address + deviceCodeOffset), pci.fw.byte (address + deviceCodeOffset + 1),
    pci.fw.byte (address + deviceCodeOffset + 2)⟩

def devices (code : PCIDeviceSpecifier) (k : Nat) : List Place :=
  (places k).filter fun p => pci.codeAt (pci.address p) = code

/--
The answer is the device behind the first `n` ones with the code, or none if there are no
more; every place up to it is compared, and no segment without a base is used.
-/
structure Enumerates (code : PCIDeviceSpecifier) (n k : Nat) (r : SearchResult) : Prop where
  found : ∀ p, (pci.devices code k)[n]? = some p →
    r.device = pci.address p ∧ r.bus = p.bus ∧ r.slot = p.slot
  missing : (pci.devices code k)[n]? = none → r.device = 0
  covered : ∀ p ∈ places k, (∀ q, (pci.devices code k)[n]? = some q → p.rank ≤ q.rank) →
    (⟨p.segment, pci.getPCIeConfigurationBase p.segment, p.bus, p.slot⟩ : Probe) ∈ r.probes
  based : ∀ probe ∈ r.probes, probe.base ≠ 0

variable {pci : PCIeSpace} {code : PCIDeviceSpecifier}

/-! ## Places -/

theorem mem_places {k : Nat} {p : Place} :
    p ∈ places k ↔ p.segment < k ∧ p.bus < pciMaxBuses ∧ p.slot < pciMaxDevices := by
  rw [places]
  simp only [List.mem_flatMap, List.mem_map, List.mem_range]
  constructor
  · rintro ⟨segment, hsegment, bus, hbus, slot, hslot, rfl⟩
    exact ⟨hsegment, hbus, hslot⟩
  · rintro ⟨hsegment, hbus, hslot⟩
    exact ⟨p.segment, hsegment, p.bus, hbus, p.slot, hslot, rfl⟩

theorem places_succ (k : Nat) :
    ∃ rest, places (k + 1) = (List.range pciMaxDevices).map (Place.mk 0 0) ++ rest := by
  rw [places, List.range_succ_eq_map, List.flatMap_cons, pciMaxBuses, List.range_succ_eq_map,
    List.flatMap_cons, List.append_assoc]
  exact ⟨_, rfl⟩

theorem hasCode_iff {address : Nat} :
    pci.hasCode code address ↔ pci.comparedAt address = code := by
  rw [hasCode, decide_eq_true_iff, Libcrt.memcmp_eq_memcmpBytes, Libcrt.memcmpBytes_eq_zero_iff,
    comparedAt]
  cases code with
  | mk progIF subClass classCode =>
      rw [PCIDeviceSpecifier.mk.injEq]
      constructor
      · intro h
        exact ⟨h 0 (by decide), h 1 (by decide), h 2 (by decide)⟩
      · rintro ⟨hprogIF, hsubClass, hclassCode⟩ i hi
        match i, hi with
        | 0, _ => exact hprogIF
        | 1, _ => exact hsubClass
        | 2, _ => exact hclassCode

/-! ## The slots of a bus -/

section Slots

variable {devicen base bus : Nat}

theorem loop_slotTurn_skip {n i : Nat} {s : SearchState} (h : n ≤ s.skip) :
    loop (pci.slotTurn code devicen base bus) n i s = .ok { s with skip := s.skip - n } := by
  induction n generalizing i s with
  | zero => rfl
  | succ n ih =>
      rw [loop_succ_ok]
      have hskip : s.skip ≠ 0 := by omega
      have hrest : n ≤ s.skip - 1 := by omega
      refine ⟨{ s with skip := s.skip - 1 }, if_pos hskip, ?_⟩
      rw [ih hrest, Nat.sub_sub, Nat.add_comm 1]

/-- The slots compared from slot `i` on. -/
def probesFrom (devicen base bus i n : Nat) : List Probe :=
  (List.range' i n).map fun slot => ⟨devicen, base, bus, slot⟩

theorem loop_slotTurn {n i : Nat} {probes : List Probe} :
    ((∀ d, i ≤ d → d < i + n → pci.comparedAt (pcieMakeAddress base bus d 0 0) ≠ code) ∧
      loop (pci.slotTurn code devicen base bus) n i ⟨0, probes⟩ =
        .ok ⟨0, probes ++ probesFrom devicen base bus i n⟩) ∨
    ∃ d, i ≤ d ∧ d < i + n ∧ pci.comparedAt (pcieMakeAddress base bus d 0 0) = code ∧
      (∀ e, i ≤ e → e < d → pci.comparedAt (pcieMakeAddress base bus e 0 0) ≠ code) ∧
      loop (pci.slotTurn code devicen base bus) n i ⟨0, probes⟩ =
        .error ⟨pcieMakeAddress base bus d 0 0, bus, d,
          probes ++ probesFrom devicen base bus i (d - i + 1)⟩ := by
  induction n generalizing i probes with
  | zero =>
      refine Or.inl ⟨fun d hle hlt => by omega, ?_⟩
      rw [loop, probesFrom, List.range'_zero, List.map_nil, List.append_nil]
  | succ n ih =>
      rw [loop, slotTurn, if_neg fun h => h rfl]
      by_cases hcode : pci.comparedAt (pcieMakeAddress base bus i 0 0) = code
      · refine Or.inr ⟨i, Nat.le_refl i, by omega, hcode, fun e hle hlt => by omega, ?_⟩
        rw [if_pos (hasCode_iff.mpr hcode), Nat.sub_self]
        rfl
      · rw [if_neg fun h => hcode (hasCode_iff.mp h), ok_bind]
        have hcons : ∀ m, probes ++ [⟨devicen, base, bus, i⟩] ++
            probesFrom devicen base bus (i + 1) m =
              probes ++ probesFrom devicen base bus i (m + 1) := by
          intro m
          rw [List.append_assoc, probesFrom, probesFrom, List.range'_succ]
          rfl
        rcases @ih (i + 1) (probes ++ [⟨devicen, base, bus, i⟩]) with
          ⟨hnone, hloop⟩ | ⟨d, hle, hlt, hd, hbefore, hloop⟩
        · refine Or.inl ⟨fun d hle hlt => ?_, ?_⟩
          · rcases Nat.eq_or_lt_of_le hle with rfl | hnext
            · exact hcode
            · exact hnone d hnext (by omega)
          · rw [hloop, hcons]
        · refine Or.inr ⟨d, by omega, by omega, hd, fun e hele helt => ?_, ?_⟩
          · rcases Nat.eq_or_lt_of_le hele with rfl | hnext
            · exact hcode
            · exact hbefore e hnext helt
          · rw [hloop, hcons]
            congr 5
            omega

end Slots

/-! ## The segments -/

section Segments

variable {devicen base : Nat} {s : SearchState}

theorem loop_busTurn_idle {n i : Nat} :
    loop (pci.busTurn code devicen base) n i (pciMaxDevices, s) = .ok (pciMaxDevices, s) := by
  induction n generalizing i with
  | zero => rfl
  | succ n ih =>
      rw [loop, busTurn, Nat.sub_self, loop, ok_bind, Nat.max_self]
      exact ih

theorem loop_busTurn {n : Nat} :
    ((∀ d, n ≤ d → d < pciMaxDevices → pci.comparedAt (pcieMakeAddress base 0 d 0 0) ≠ code) ∧
      loop (pci.busTurn code devicen base) pciMaxBuses 0 (0, ⟨n, []⟩) =
        .ok (pciMaxDevices, ⟨n - pciMaxDevices,
          probesFrom devicen base 0 n (pciMaxDevices - n)⟩)) ∨
    ∃ d, n ≤ d ∧ d < pciMaxDevices ∧ pci.comparedAt (pcieMakeAddress base 0 d 0 0) = code ∧
      (∀ e, n ≤ e → e < d → pci.comparedAt (pcieMakeAddress base 0 e 0 0) ≠ code) ∧
      loop (pci.busTurn code devicen base) pciMaxBuses 0 (0, ⟨n, []⟩) =
        .error ⟨pcieMakeAddress base 0 d 0 0, 0, d,
          probesFrom devicen base 0 n (d - n + 1)⟩ := by
  rw [show pciMaxBuses = 255 + 1 from rfl, loop, busTurn, Nat.sub_zero, Nat.zero_max]
  rcases Nat.le_total pciMaxDevices n with hle | hle
  · left
    refine ⟨fun d hn hd => by omega, ?_⟩
    rw [loop_slotTurn_skip hle, ok_bind, pure_bind, Nat.sub_eq_zero_of_le hle]
    exact loop_busTurn_idle
  · -- the skip count is used up at slot `n`
    have hsplit : loop (pci.slotTurn code devicen base 0) pciMaxDevices 0 ⟨n, []⟩ =
        loop (pci.slotTurn code devicen base 0) (pciMaxDevices - n) n ⟨0, []⟩ := by
      rw [← Nat.add_sub_cancel' hle, loop_add, loop_slotTurn_skip (Nat.le_refl n), ok_bind,
        Nat.sub_self, Nat.zero_add, Nat.add_sub_cancel_left]
    rw [hsplit]
    rcases @loop_slotTurn pci code devicen base 0 (pciMaxDevices - n) n [] with
      ⟨hnone, hloop⟩ | ⟨d, hd, hlt, hmatch, hbefore, hloop⟩
    · left
      rw [Nat.add_sub_cancel' hle] at hnone
      refine ⟨hnone, ?_⟩
      rw [hloop, ok_bind, pure_bind, Nat.sub_eq_zero_of_le hle]
      exact loop_busTurn_idle
    · right
      rw [Nat.add_sub_cancel' hle] at hlt
      refine ⟨d, hd, hlt, hmatch, hbefore, ?_⟩
      rw [hloop]
      rfl

theorem segmentTurn_idle {devicen : Nat} :
    pci.segmentTurn code ⟨devicen, pciMaxBuses, pciMaxDevices, s⟩ =
      if pci.getPCIeConfigurationBase devicen ≠ 0 then
        .inl ⟨(devicen + 1) % 2 ^ 32, pciMaxBuses, pciMaxDevices, s⟩
      else .inr ⟨0, pciMaxBuses, pciMaxDevices, s.probes⟩ := by
  rw [segmentTurn, Nat.sub_self, loop, Nat.max_self]

end Segments

theorem length_lt : pci.fw.length pci.table < 2 ^ 32 := by
  have hbytes := leNat_lt (pci.fw.bytesAt (pci.table + 4) 4)
  rw [Firmware.bytesAt, List.length_map, List.length_range] at hbytes
  exact hbytes

theorem getPCIeConfigurationBase_of_le {k n : Nat} (h : pci.HasSegments k) (hle : k ≤ n) :
    pci.getPCIeConfigurationBase n = 0 := by
  have hlength := pci.length_lt
  have hsize : 8 < pci.entrySize := by
    rw [entrySize, addressWidth]
    split <;> decide
  rw [getPCIeConfigurationBase, if_pos]
  rw [HasSegments] at h
  have hcount : (pci.fw.length pci.table + (2 ^ 64 - Firmware.headerSize)) % 2 ^ 64 =
      8 + pci.entrySize * k := by
    rw [Firmware.headerSize, Nat.mul_comm k] at h
    rw [Firmware.headerSize]
    omega
  rw [hcount, Nat.add_mul_div_left _ _ (by omega), Nat.div_eq_of_lt hsize]
  omega

theorem segments_lt {k : Nat} (h : pci.HasSegments k) : k < 2 ^ 32 := by
  have hlength := pci.length_lt
  have hle : k ≤ k * pci.entrySize := Nat.le_mul_of_pos_right k (by rw [entrySize]; omega)
  rw [HasSegments] at h
  omega

theorem follow_segmentTurn_idle {k devicen : Nat} {s : SearchState} (h : pci.HasSegments k)
    (hle : devicen ≤ k) :
    ∃ fuel, follow (pci.segmentTurn code) fuel ⟨devicen, pciMaxBuses, pciMaxDevices, s⟩ =
      some ⟨0, pciMaxBuses, pciMaxDevices, s.probes⟩ := by
  induction hn : k - devicen generalizing devicen with
  | zero =>
      refine ⟨1, follow_of_answer ?_ 0⟩
      rw [segmentTurn_idle, if_neg]
      exact fun hne => hne (getPCIeConfigurationBase_of_le h (by omega))
  | succ n ih =>
      have hturn := @segmentTurn_idle pci code s devicen
      by_cases hbase : pci.getPCIeConfigurationBase devicen ≠ 0
      · rw [if_pos hbase, Nat.mod_eq_of_lt (by have := segments_lt h; omega)] at hturn
        obtain ⟨fuel, hfuel⟩ := @ih (devicen + 1) (by omega) (by omega)
        exact ⟨fuel + 1, (follow_of_moves hturn fuel).trans hfuel⟩
      · rw [if_neg hbase] at hturn
        exact ⟨1, follow_of_answer hturn 0⟩

theorem pcieSearchDevice_cases (code : PCIDeviceSpecifier) {k : Nat} (n : Nat)
    (h : pci.HasSegments k) :
    ((∀ d, n ≤ d → d < pciMaxDevices → pci.comparedAt (pci.address ⟨0, 0, d⟩) ≠ code) ∧
      ∃ fuel, pci.pcieSearchDevice fuel code n = some ⟨0, pciMaxBuses, pciMaxDevices,
        probesFrom 0 (pci.getPCIeConfigurationBase 0) 0 n (pciMaxDevices - n)⟩) ∨
    ∃ d, n ≤ d ∧ d < pciMaxDevices ∧ pci.comparedAt (pci.address ⟨0, 0, d⟩) = code ∧
      (∀ e, n ≤ e → e < d → pci.comparedAt (pci.address ⟨0, 0, e⟩) ≠ code) ∧
      ∃ fuel, pci.pcieSearchDevice fuel code n = some ⟨pci.address ⟨0, 0, d⟩, 0, d,
        probesFrom 0 (pci.getPCIeConfigurationBase 0) 0 n (d - n + 1)⟩ := by
  have hstart : pci.segmentTurn code ⟨0, 0, 0, ⟨n, []⟩⟩ =
      match loop (pci.busTurn code 0 (pci.getPCIeConfigurationBase 0)) pciMaxBuses 0
        (0, ⟨n, []⟩) with
      | .error r => .inr r
      | .ok s =>
          if pci.getPCIeConfigurationBase 0 ≠ 0 then
            .inl ⟨1, pciMaxBuses, s.1, s.2⟩
          else .inr ⟨0, pciMaxBuses, s.1, s.2.probes⟩ := rfl
  rcases @loop_busTurn pci code 0 (pci.getPCIeConfigurationBase 0) n with
    ⟨hnone, hloop⟩ | ⟨d, hd, hlt, hmatch, hbefore, hloop⟩
  · left
    refine ⟨hnone, ?_⟩
    rw [hloop] at hstart
    dsimp only at hstart
    by_cases hbase : pci.getPCIeConfigurationBase 0 ≠ 0
    · have hk : 1 ≤ k := by
        by_contra hzero
        exact hbase (getPCIeConfigurationBase_of_le h (by omega))
      rw [if_pos hbase] at hstart
      obtain ⟨fuel, hfuel⟩ := @follow_segmentTurn_idle pci code k 1 _ h hk
      exact ⟨fuel + 1, (follow_of_moves hstart fuel).trans hfuel⟩
    · rw [if_neg hbase] at hstart
      exact ⟨1, follow_of_answer hstart 0⟩
  · right
    rw [hloop] at hstart
    exact ⟨d, hd, hlt, hmatch, hbefore, 1, follow_of_answer hstart 0⟩

/-! ## When the search is right -/

theorem mem_probesFrom {devicen base bus i n : Nat} {probe : Probe} :
    probe ∈ probesFrom devicen base bus i n ↔
      ∃ slot, i ≤ slot ∧ slot < i + n ∧ probe = ⟨devicen, base, bus, slot⟩ := by
  rw [probesFrom, List.mem_map]
  constructor
  · rintro ⟨slot, hslot, rfl⟩
    exact ⟨slot, (List.mem_range'_1.mp hslot).1, (List.mem_range'_1.mp hslot).2, rfl⟩
  · rintro ⟨slot, hle, hlt, rfl⟩
    exact ⟨slot, List.mem_range'_1.mpr ⟨hle, hlt⟩, rfl⟩

theorem probes_of_pcieSearchDevice {k n fuel : Nat} {r : SearchResult} (h : pci.HasSegments k)
    (hsearch : pci.pcieSearchDevice fuel code n = some r) :
    (∀ probe ∈ r.probes, probe.segment = 0 ∧ probe.bus = 0 ∧ n ≤ probe.slot) ∧
      (n < pciMaxDevices → ⟨0, pci.getPCIeConfigurationBase 0, 0, n⟩ ∈ r.probes) := by
  have hfrom : ∀ m, ∀ probe ∈ probesFrom 0 (pci.getPCIeConfigurationBase 0) 0 n m,
      probe.segment = 0 ∧ probe.bus = 0 ∧ n ≤ probe.slot := by
    intro m probe hprobe
    obtain ⟨slot, hle, -, rfl⟩ := mem_probesFrom.mp hprobe
    exact ⟨rfl, rfl, hle⟩
  rcases pcieSearchDevice_cases code n h with
    ⟨-, fuel', hend⟩ | ⟨d, hd, -, -, -, fuel', hend⟩
  · obtain rfl := follow_unique hsearch hend
    exact ⟨hfrom _, fun hlt => mem_probesFrom.mpr ⟨n, Nat.le_refl n, by omega, rfl⟩⟩
  · obtain rfl := follow_unique hsearch hend
    exact ⟨hfrom _, fun _ => mem_probesFrom.mpr ⟨n, Nat.le_refl n, by omega, rfl⟩⟩

theorem first_of_devices {k : Nat} {p : Place} (h : (pci.devices code k)[0]? = some p) :
    p ∈ places k ∧ pci.codeAt (pci.address p) = code := by
  have hmem := List.mem_of_getElem? h
  rw [devices, List.mem_filter, decide_eq_true_iff] at hmem
  exact hmem

theorem devices_of_first {k d : Nat} (hlt : d < pciMaxDevices)
    (hcode : pci.codeAt (pci.address ⟨0, 0, d⟩) = code)
    (hbefore : ∀ e < d, pci.codeAt (pci.address ⟨0, 0, e⟩) ≠ code) :
    (pci.devices code (k + 1))[0]? = some ⟨0, 0, d⟩ := by
  obtain ⟨rest, hrest⟩ := places_succ k
  have hget : ∀ e < pciMaxDevices, (places (k + 1))[e]? = some ⟨0, 0, e⟩ := by
    intro e he
    rw [hrest, List.getElem?_append_left (by rwa [List.length_map, List.length_range]),
      List.getElem?_map, List.getElem?_range he, Option.map_some]
  have hfirst : FirstAt (fun p => decide (pci.codeAt (pci.address p) = code)) (places (k + 1)) d
      ⟨0, 0, d⟩ := by
    refine ⟨hget d hlt, decide_eq_true hcode, fun e he p hp => ?_⟩
    rw [hget e (Nat.lt_trans he hlt)] at hp
    obtain rfl := Option.some.inj hp
    exact decide_eq_false (hbefore e he)
  rw [devices, ← List.head?_eq_getElem?, List.head?_filter]
  exact hfirst.find?

theorem exists_first_slot {e : Nat} (h : pci.codeAt (pci.address ⟨0, 0, e⟩) = code) :
    ∃ c ≤ e, pci.codeAt (pci.address ⟨0, 0, c⟩) = code ∧
      ∀ d < c, pci.codeAt (pci.address ⟨0, 0, d⟩) ≠ code := by
  have hex : ∃ e, pci.codeAt (pci.address ⟨0, 0, e⟩) = code := ⟨e, h⟩
  exact ⟨Nat.find hex, Nat.find_min' hex h, Nat.find_spec hex, fun d hd => Nat.find_min hex hd⟩

/-- A slot of the first bus that the search takes for the first device is it. -/
structure FoundFirst (pci : PCIeSpace) (code : PCIDeviceSpecifier) (slot : Nat) : Prop where
  lt : slot < pciMaxDevices
  compared : pci.comparedAt (pci.address ⟨0, 0, slot⟩) = code
  coded : pci.codeAt (pci.address ⟨0, 0, slot⟩) = code
  first : ∀ e < slot, pci.comparedAt (pci.address ⟨0, 0, e⟩) ≠ code ∧
    pci.codeAt (pci.address ⟨0, 0, e⟩) ≠ code

theorem found_of_enumerates {k n fuel : Nat} {r : SearchResult} (h : pci.HasSegments k)
    (hk : 0 < k) (hsearch : pci.pcieSearchDevice fuel code n = some r)
    (hright : pci.Enumerates code n k r) :
    n = 0 ∧ pci.getPCIeConfigurationBase 0 ≠ 0 ∧ ∃ q, (pci.devices code k)[0]? = some q ∧
      q.segment = 0 ∧ q.bus = 0 := by
  obtain ⟨hprobes, hfirst⟩ := probes_of_pcieSearchDevice h hsearch
  have hzero := hright.covered ⟨0, 0, 0⟩ (mem_places.mpr ⟨hk, by decide, by decide⟩)
    fun q _ => by rw [Place.rank]; exact Nat.zero_le _
  obtain rfl : n = 0 := Nat.le_zero.mp (hprobes _ hzero).2.2
  refine ⟨rfl, hright.based _ hzero, ?_⟩
  -- else bus 1 had to be looked at
  by_contra hnone
  push Not at hnone
  have hone := hright.covered ⟨0, 1, 0⟩ (mem_places.mpr ⟨hk, by decide, by decide⟩) fun q hq => by
    have hslot := (mem_places.mp (first_of_devices hq).1).2.2
    have hnot := hnone q hq
    rw [Place.rank, Place.rank, pciMaxBuses, pciMaxDevices]
    dsimp only
    omega
  exact absurd (hprobes _ hone).2.1 Nat.one_ne_zero

theorem condition_of_enumerates {k n fuel : Nat} {r : SearchResult} (h : pci.HasSegments k)
    (hsearch : pci.pcieSearchDevice fuel code n = some r) (hright : pci.Enumerates code n k r) :
    (k = 0 ∧ pciMaxDevices ≤ n) ∨
      (0 < k ∧ n = 0 ∧ pci.getPCIeConfigurationBase 0 ≠ 0 ∧ ∃ slot, FoundFirst pci code slot) := by
  rcases Nat.eq_zero_or_pos k with rfl | hk
  · refine Or.inl ⟨rfl, ?_⟩
    by_contra hlt
    exact hright.based _ ((probes_of_pcieSearchDevice h hsearch).2 (by omega))
      (getPCIeConfigurationBase_of_le h (Nat.le_refl 0))
  · obtain ⟨rfl, hbase, q, hq, hsegment, hbus⟩ := found_of_enumerates h hk hsearch hright
    refine Or.inr ⟨hk, rfl, hbase, ?_⟩
    obtain ⟨hplace, hcoded⟩ := first_of_devices hq
    obtain ⟨hdevice, -, hslot⟩ := hright.found q hq
    have hq' : q = ⟨0, 0, q.slot⟩ := Place.ext hsegment hbus rfl
    rcases pcieSearchDevice_cases code 0 h with
      ⟨-, fuel', hend⟩ | ⟨d, -, hlt, hmatch, hbefore, fuel', hend⟩
    · -- without a device the answer is no address of a slot
      obtain rfl := follow_unique hsearch hend
      have haddress : pci.getPCIeConfigurationBase 0 ≤ pci.address q := by
        rw [address, pcieMakeAddress, hsegment]
        omega
      dsimp only at hdevice
      omega
    · obtain rfl := follow_unique hsearch hend
      have hslot : d = q.slot := hslot
      rw [hq', ← hslot] at hcoded hq
      refine ⟨d, hlt, hmatch, hcoded, fun e he => ⟨hbefore e (Nat.zero_le e) he, fun hcode => ?_⟩⟩
      obtain ⟨k, rfl⟩ := Nat.exists_eq_succ_of_ne_zero (Nat.ne_of_gt hk)
      obtain ⟨c, hc, hfirst, hless⟩ := exists_first_slot hcode
      have hdevices := devices_of_first (k := k) (Nat.lt_of_le_of_lt hc (Nat.lt_trans he hlt))
        hfirst hless
      rw [hdevices] at hq
      have hslots := congrArg Place.slot (Option.some.inj hq)
      dsimp only at hslots
      omega

theorem place_of_rank_le {p : Place} {d : Nat} (hd : d < pciMaxDevices)
    (h : p.rank ≤ Place.rank ⟨0, 0, d⟩) : p.segment = 0 ∧ p.bus = 0 ∧ p.slot ≤ d := by
  rw [Place.rank, Place.rank, pciMaxBuses, pciMaxDevices] at h
  rw [pciMaxDevices] at hd
  dsimp only at h
  omega

def bridged : PCIeSpace where
  fw := {
    byte := fun a =>
      if a = 4 then 60 else if a = 8 then 2
      else if a = 2 ^ 30 + 2 ^ 20 + 9 then 2 else if a = 2 ^ 30 + 2 ^ 20 + 10 then 8
      else if a = 2 ^ 30 + 2 ^ 20 + 11 then 1 else 0
    mapVirtual := fun _ => 2 ^ 30 }
  table := 0
  allocateAlignedPages := fun _ _ => 0

end PCIeSpace

end BlockyOS.Kernel
