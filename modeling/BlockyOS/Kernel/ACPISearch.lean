import BlockyOS.Foundation.Bytes
import BlockyOS.Foundation.Trails
import Mathlib

/-!
# The search for an ACPI table

`SearchACPITable` starts at the root table the firmware names and looks through
its pointers.  It descends into the first table with a signature `?SDT` it
meets and never comes back to the pointers behind that one.
-/

namespace BlockyOS.Kernel

open BlockyOS.Foundation
open Relation

structure Firmware where
  byte : Nat → UInt8
  /-- `MapVirtual`, which answers `NULL` where nothing is mapped. -/
  mapVirtual : Nat → Nat

def tag (a b c d : Char) : Bytes := [a, b, c, d].map fun ch => UInt8.ofNat ch.toNat

/-- `RSDT_SupportedTables`. -/
def rsdtSupportedTables : List Bytes :=
  [tag 'A' 'P' 'I' 'C', tag 'B' 'E' 'R' 'T', tag 'C' 'P' 'E' 'P', tag 'D' 'S' 'D' 'T',
   tag 'E' 'C' 'D' 'T', tag 'E' 'I' 'N' 'J', tag 'E' 'R' 'S' 'T', tag 'F' 'A' 'C' 'P',
   tag 'F' 'A' 'C' 'S', tag 'H' 'E' 'S' 'T', tag 'M' 'S' 'C' 'T', tag 'M' 'P' 'S' 'T',
   tag 'O' 'E' 'M' 'x', tag 'P' 'M' 'T' 'T', tag 'P' 'S' 'D' 'T', tag 'R' 'A' 'S' 'F',
   tag 'R' 'S' 'D' 'T', tag 'S' 'B' 'S' 'T', tag 'S' 'L' 'I' 'T', tag 'S' 'R' 'A' 'T',
   tag 'S' 'S' 'D' 'T', tag 'X' 'S' 'D' 'T', tag 'M' 'C' 'F' 'G']

/-- `XSDT_SupportedTables`. -/
def xsdtSupportedTables : List Bytes :=
  [tag 'A' 'P' 'I' 'C', tag 'B' 'G' 'R' 'T', tag 'B' 'E' 'R' 'T', tag 'C' 'P' 'E' 'P',
   tag 'D' 'S' 'D' 'T', tag 'E' 'C' 'D' 'T', tag 'E' 'I' 'N' 'J', tag 'E' 'R' 'S' 'T',
   tag 'F' 'A' 'C' 'P', tag 'F' 'A' 'C' 'S', tag 'H' 'E' 'S' 'T', tag 'M' 'S' 'C' 'T',
   tag 'M' 'P' 'S' 'T', tag 'P' 'M' 'T' 'T', tag 'P' 'S' 'D' 'T', tag 'R' 'A' 'S' 'F',
   tag 'R' 'S' 'D' 'T', tag 'S' 'B' 'S' 'T', tag 'S' 'L' 'I' 'T', tag 'S' 'R' 'A' 'T',
   tag 'S' 'S' 'D' 'T', tag 'X' 'S' 'D' 'T', tag 'M' 'C' 'F' 'G']

def rsdpRevision : Nat := 0

def xsdpRevision : Nat := 2

def supportedTables (revision : Nat) : List Bytes :=
  if xsdpRevision ≤ revision then xsdtSupportedTables else rsdtSupportedTables

namespace Firmware

variable (fw : Firmware)

/-! ## Tables in memory -/

def bytesAt (p n : Nat) : Bytes := (List.range n).map fun i => fw.byte (p + i)

def wordAt (p width : Nat) : Nat := leNat (fw.bytesAt p width)

/-- `sizeof(SDTHeader_t)`. -/
def headerSize : Nat := 36

def signature (p : Nat) : Bytes := fw.bytesAt p 4

def length (p : Nat) : Nat := fw.wordAt (p + 4) 4

def validateHeader (p : Nat) : Bool :=
  p ≠ 0 && headerSize ≤ fw.length p && (fw.bytesAt p (fw.length p)).sum = 0

/-- The pointers of a table, `width` bytes each, that start `first` bytes into it. -/
def pointersAt (p first width : Nat) : List Nat :=
  (List.range ((fw.length p - headerSize) / width)).map fun cc =>
    fw.wordAt (p + first + cc * width) width

/--
The pointers that the code reads of a table.  `RSDT_t` is packed and `XSDT_t` is
not, so that the pointers of the latter are aligned to their size.
-/
def pointers (table revision : Nat) : List Nat :=
  if xsdpRevision ≤ revision then fw.pointersAt table 40 8 else fw.pointersAt table 36 4

/-- The test for `?SDT`. -/
def isSDT (entry : Nat) : Bool := (fw.signature entry).tail = (tag 'X' 'S' 'D' 'T').tail

def nestedRevision (entry : Nat) : Nat :=
  if (fw.signature entry).head? = (tag 'X' 'S' 'D' 'T').head? then xsdpRevision
  else if (fw.signature entry).head? = (tag 'R' 'S' 'D' 'T').head? then rsdpRevision
  else 0

/-! ## The search -/

/-- The loop over the pointers, `descend` standing for the recursive call. -/
def searchPointers (sig : Bytes) (descend : Nat → Nat → Option (Option Nat)) :
    List Nat → Option (Option Nat)
  | [] => some none
  | pointer :: rest =>
      let entry := fw.mapVirtual pointer
      if entry ≠ 0 && fw.validateHeader entry then
        if fw.signature entry = sig then some (some entry)
        else if fw.isSDT entry then descend entry (fw.nestedRevision entry)
        else searchPointers sig descend rest
      else searchPointers sig descend rest

/-- `_SearchTable`, which answers `none` when `fuel` nested calls do not suffice. -/
def searchTable (sig : Bytes) : Nat → Nat → Nat → Option (Option Nat)
  | 0, _, _ => none
  | fuel + 1, table, revision =>
      if table = 0 then some none
      else if !fw.validateHeader table then some none
      else if sig ∉ supportedTables revision then some none
      else fw.searchPointers sig (searchTable sig fuel) (fw.pointers table revision)

/-- `GetACPIRevision`. -/
def getACPIRevision (base : Nat) : Nat := fw.wordAt (base + 15) 1

/-- The root table the firmware names. -/
def root (base : Nat) : Nat :=
  if xsdpRevision ≤ fw.getACPIRevision base then fw.mapVirtual (fw.wordAt (base + 24) 8)
  else fw.mapVirtual (fw.wordAt (base + 16) 4)

def searchACPITable (fuel : Nat) (sig : Bytes) (base : Nat) : Option (Option Nat) :=
  if base = 0 then some none
  else fw.searchTable sig fuel (fw.root base) (fw.getACPIRevision base)

/-! ## The graph of tables -/

inductive Names (p q : Nat) : Prop where
  | rsdt (valid : fw.validateHeader p = true) (sig : fw.signature p = tag 'R' 'S' 'D' 'T')
      (named : q ∈ (fw.pointersAt p headerSize 4).map fw.mapVirtual)
  | xsdt (valid : fw.validateHeader p = true) (sig : fw.signature p = tag 'X' 'S' 'D' 'T')
      (named : q ∈ (fw.pointersAt p headerSize 8).map fw.mapVirtual)

def Present (base : Nat) (sig : Bytes) : Prop :=
  ∃ q, ReflTransGen fw.Names (fw.root base) q ∧ fw.validateHeader q = true ∧
    fw.signature q = sig

/-- A search for a table that the root's revision supports. -/
structure Query where
  base : Nat
  sig : Bytes
  base_ne_zero : base ≠ 0
  supported : sig ∈ supportedTables (fw.getACPIRevision base)

/--
The search ends, with a table that is valid and has the signature, or with none
where none is present.
-/
def SearchCorrect (query : fw.Query) : Prop :=
  ∃ fuel result, fw.searchACPITable fuel query.sig query.base = some result ∧
    (∀ q, result = some q → fw.validateHeader q = true ∧ fw.signature q = query.sig) ∧
    (result = none → ¬ fw.Present query.base query.sig)

/-! ## One call after another -/

/-- A call of `_SearchTable`. -/
structure SearchCall where
  table : Nat
  revision : Nat
  deriving DecidableEq, Repr

def Accepts (sig : Bytes) (c : SearchCall) : Prop :=
  c.table ≠ 0 ∧ fw.validateHeader c.table = true ∧ sig ∈ supportedTables c.revision

instance (sig : Bytes) (c : SearchCall) : Decidable (fw.Accepts sig c) :=
  inferInstanceAs (Decidable (_ ∧ _ ∧ _))

/-- The entries at which the loop does not go on. -/
def stops (sig : Bytes) (entry : Nat) : Bool :=
  entry ≠ 0 && fw.validateHeader entry && (fw.signature entry = sig || fw.isSDT entry)

def stop (sig : Bytes) (c : SearchCall) : Option Nat :=
  ((fw.pointers c.table c.revision).map fw.mapVirtual).find? (fw.stops sig)

def activation (sig : Bytes) (c : SearchCall) : SearchCall ⊕ Option Nat :=
  if fw.Accepts sig c then
    (fw.stop sig c).elim (.inr none) fun q =>
      if fw.signature q = sig then .inr (some q) else .inl ⟨q, fw.nestedRevision q⟩
  else .inr none

theorem searchPointers_eq (sig : Bytes) (descend : Nat → Nat → Option (Option Nat))
    (ptrs : List Nat) :
    fw.searchPointers sig descend ptrs =
      ((ptrs.map fw.mapVirtual).find? (fw.stops sig)).elim (some none) fun q =>
        if fw.signature q = sig then some (some q) else descend q (fw.nestedRevision q) := by
  induction ptrs with
  | nil => rfl
  | cons pointer rest ih =>
      rw [searchPointers, List.map_cons, List.find?_cons]
      generalize fw.mapVirtual pointer = entry
      by_cases hvalid : (entry ≠ 0 && fw.validateHeader entry) = true
      · simp only [hvalid, if_true, stops, Bool.true_and]
        by_cases hsig : fw.signature entry = sig
        · simp [hsig]
        · by_cases hsdt : fw.isSDT entry = true
          · simp [hsig, hsdt]
          · simp only [hsig, hsdt, if_false, decide_false, Bool.false_or]
            exact ih
      · have hpass : fw.stops sig entry = false := by
          rw [stops, Bool.eq_false_of_not_eq_true hvalid, Bool.false_and]
        rw [hpass]
        simp only [hvalid]
        exact ih

theorem searchTable_eq (sig : Bytes) (fuel table revision : Nat) :
    fw.searchTable sig fuel table revision =
      follow (fw.activation sig) fuel ⟨table, revision⟩ := by
  induction fuel generalizing table revision with
  | zero => rfl
  | succ fuel ih =>
      rw [searchTable, follow, activation]
      by_cases haccepts : fw.Accepts sig ⟨table, revision⟩
      · obtain ⟨htable, hvalid, hsig⟩ := id haccepts
        rw [if_neg htable, if_neg (by simp [hvalid]), if_neg (not_not_intro hsig),
          if_pos haccepts, searchPointers_eq, stop]
        cases hstop : ((fw.pointers table revision).map fw.mapVirtual).find? (fw.stops sig) with
        | none => rfl
        | some q =>
            simp only [Option.elim_some]
            split
            · rfl
            · exact ih q (fw.nestedRevision q)
      · rw [if_neg haccepts]
        by_cases htable : table = 0
        · rw [if_pos htable]
        · rw [if_neg htable]
          by_cases hvalid : fw.validateHeader table = true
          · have hsig : sig ∉ supportedTables revision := fun h => haccepts ⟨htable, hvalid, h⟩
            rw [if_neg (by simp [hvalid]), if_pos hsig]
          · rw [if_pos (by simp [hvalid])]

structure Descends (sig : Bytes) (c c' : SearchCall) : Prop where
  accepts : fw.Accepts sig c
  stop : fw.stop sig c = some c'.table
  other : fw.signature c'.table ≠ sig
  revision : c'.revision = fw.nestedRevision c'.table

def Finds (sig : Bytes) (c : SearchCall) : Prop :=
  fw.Accepts sig c ∧ ∃ q, fw.stop sig c = some q ∧ fw.signature q = sig

theorem moves_activation (sig : Bytes) : Moves (fw.activation sig) = fw.Descends sig := by
  funext c c'
  refine propext ⟨fun h => ?_, fun h => ?_⟩
  · rw [Moves, activation] at h
    split at h
    case isFalse => cases h
    case isTrue haccepts =>
      cases hstop : fw.stop sig c with
      | none =>
          rw [hstop] at h
          cases h
      | some q =>
          rw [hstop, Option.elim_some] at h
          split at h
          · cases h
          · cases h
            exact ⟨haccepts, hstop, ‹_›, rfl⟩
  · rw [Moves, activation, if_pos h.accepts, h.stop, Option.elim_some, if_neg h.other]
    rw [← h.revision]

theorem activation_eq_some_iff {sig : Bytes} {c : SearchCall} {q : Nat} :
    fw.activation sig c = .inr (some q) ↔
      fw.Accepts sig c ∧ fw.stop sig c = some q ∧ fw.signature q = sig := by
  rw [activation]
  by_cases haccepts : fw.Accepts sig c
  · rw [if_pos haccepts]
    cases hstop : fw.stop sig c with
    | none => simp
    | some q' =>
        rw [Option.elim_some]
        by_cases hsig : fw.signature q' = sig
        · rw [if_pos hsig]
          constructor
          · intro h
            cases h
            exact ⟨haccepts, rfl, hsig⟩
          · rintro ⟨-, h, -⟩
            cases h
            rfl
        · rw [if_neg hsig]
          constructor
          · intro h
            cases h
          · rintro ⟨-, h, hq⟩
            cases h
            exact absurd hq hsig
  · rw [if_neg haccepts]
    simp [haccepts]

/-! ## Finitely many tables -/

theorem wordAt_lt (p : Nat) {width : Nat} (h : width ≤ 8) :
    fw.wordAt p width < 2 ^ 64 := by
  have hlt := leNat_lt (fw.bytesAt p width)
  have hlen : (fw.bytesAt p width).length = width := by
    rw [bytesAt, List.length_map, List.length_range]
  rw [hlen] at hlt
  exact hlt.trans_le (Nat.pow_le_pow_right (by decide) h |>.trans (by decide))

theorem lt_of_mem_pointers {table revision pointer : Nat}
    (h : pointer ∈ fw.pointers table revision) : pointer < 2 ^ 64 := by
  rw [pointers] at h
  split at h
  · obtain ⟨cc, -, rfl⟩ := List.mem_map.mp h
    exact fw.wordAt_lt _ (by decide)
  · obtain ⟨cc, -, rfl⟩ := List.mem_map.mp h
    exact fw.wordAt_lt _ (by decide)

/-- The calls that a search started with `c` can make. -/
def calls (c : SearchCall) : Set SearchCall :=
  (fun x : Nat × Nat => ⟨x.1, x.2⟩) ''
    (insert c.table (fw.mapVirtual '' {i | i < 2 ^ 64}) ×ˢ
      {c.revision, xsdpRevision, rsdpRevision})

theorem finite_calls (c : SearchCall) : (fw.calls c).Finite :=
  ((((Set.finite_lt_nat _).image _).insert _).prod (Set.toFinite _)).image _

theorem mem_calls {sig : Bytes} {start c : SearchCall}
    (h : ReflTransGen (fw.Descends sig) start c) : c ∈ fw.calls start := by
  cases h with
  | refl => exact ⟨(start.table, start.revision), ⟨.inl rfl, .inl rfl⟩, rfl⟩
  | tail _ hlast =>
      have hmem := List.mem_of_find?_eq_some hlast.stop
      obtain ⟨pointer, hpointer, hentry⟩ := List.mem_map.mp hmem
      refine ⟨(c.table, c.revision),
        ⟨.inr ⟨pointer, fw.lt_of_mem_pointers hpointer, hentry⟩, .inr ?_⟩, rfl⟩
      rw [hlast.revision, nestedRevision]
      split
      · exact .inl rfl
      · split
        · exact .inr rfl
        · exact .inr rfl

/-! ## When the search is right -/

def firstCall (base : Nat) : SearchCall := ⟨fw.root base, fw.getACPIRevision base⟩

def Descent (query : fw.Query) : SearchCall → Prop :=
  ReflTransGen (fw.Descends query.sig) (fw.firstCall query.base)

/--
No table on the descent leads back to itself, and a table with the signature is
met on the descent or is not present at all.
-/
structure DescentSuffices (query : fw.Query) : Prop where
  acyclic : ∀ c, fw.Descent query c → ¬ TransGen (fw.Descends query.sig) c c
  met : (∃ c, fw.Descent query c ∧ fw.Finds query.sig c) ∨ ¬ fw.Present query.base query.sig

theorem searchACPITable_eq (query : fw.Query) (fuel : Nat) :
    fw.searchACPITable fuel query.sig query.base =
      follow (fw.activation query.sig) fuel (fw.firstCall query.base) := by
  rw [searchACPITable, if_neg query.base_ne_zero, searchTable_eq]
  rfl

theorem searchACPITable_eq_some_iff (query : fw.Query) {q : Nat} :
    (∃ fuel, fw.searchACPITable fuel query.sig query.base = some (some q)) ↔
      ∃ c, fw.Descent query c ∧ fw.Accepts query.sig c ∧
        fw.stop query.sig c = some q ∧ fw.signature q = query.sig := by
  simp only [searchACPITable_eq]
  rw [follow_eq_some_iff]
  simp only [activation_eq_some_iff, Trail, moves_activation]
  rfl

theorem searchACPITable_sound (query : fw.Query) {fuel q : Nat}
    (h : fw.searchACPITable fuel query.sig query.base = some (some q)) :
    fw.validateHeader q = true ∧ fw.signature q = query.sig := by
  obtain ⟨c, -, -, hstop, hsig⟩ := (fw.searchACPITable_eq_some_iff query).mp ⟨fuel, h⟩
  have hcond := List.find?_some hstop
  simp only [stops, Bool.and_eq_true] at hcond
  exact ⟨hcond.1.2, hsig⟩

theorem searchACPITable_ends_iff (query : fw.Query) :
    (∃ fuel result, fw.searchACPITable fuel query.sig query.base = some result) ↔
      ∀ c, fw.Descent query c → ¬ TransGen (fw.Descends query.sig) c c := by
  simp only [searchACPITable_eq]
  rw [ends_iff_acyclic (fw.finite_calls (fw.firstCall query.base)) fun c htrail =>
    fw.mem_calls (by rwa [Trail, moves_activation] at htrail)]
  simp only [Trail, moves_activation]
  rfl

/-- The search is right exactly where the one descent it makes suffices. -/
theorem searchCorrect_iff (query : fw.Query) :
    fw.SearchCorrect query ↔ fw.DescentSuffices query := by
  constructor
  · rintro ⟨fuel, result, hresult, -, hcomplete⟩
    refine ⟨(fw.searchACPITable_ends_iff query).mp ⟨fuel, result, hresult⟩, ?_⟩
    cases result with
    | none => exact .inr (hcomplete rfl)
    | some q =>
        obtain ⟨c, hdescent, haccepts, hstop, hsig⟩ :=
          (fw.searchACPITable_eq_some_iff query).mp ⟨fuel, hresult⟩
        exact .inl ⟨c, hdescent, haccepts, q, hstop, hsig⟩
  · rintro ⟨hacyclic, hmet⟩
    obtain ⟨fuel, result, hresult⟩ := (fw.searchACPITable_ends_iff query).mpr hacyclic
    refine ⟨fuel, result, hresult, ?_, ?_⟩
    · rintro q rfl
      exact fw.searchACPITable_sound query hresult
    · rintro rfl hpresent
      rcases hmet with ⟨c, hdescent, haccepts, q, hstop, hsig⟩ | habsent
      · obtain ⟨fuel', hfound⟩ := (fw.searchACPITable_eq_some_iff query).mpr
          ⟨c, hdescent, haccepts, hstop, hsig⟩
        rw [searchACPITable_eq] at hresult hfound
        cases follow_unique hresult hfound
      · exact habsent hpresent

end Firmware

/-! ## A table behind a nested one -/

def sampleTable (sig : Bytes) (checksum : UInt8) (body : Bytes) : Bytes :=
  sig ++ leBytes 4 (Firmware.headerSize + body.length) ++ [0, checksum] ++ zeros 26 ++ body

/-- A root `RSDT` that names an `SSDT` and behind it an `APIC` table. -/
def sampleMemory : Bytes :=
  zeros 24 ++ leBytes 4 64 ++ zeros 36 ++
    sampleTable (tag 'R' 'S' 'D' 'T') 87 (leBytes 4 128 ++ leBytes 4 192) ++ zeros 20 ++
    sampleTable (tag 'S' 'S' 'D' 'T') 158 [] ++ zeros 28 ++
    sampleTable (tag 'A' 'P' 'I' 'C') 191 []

def sampleFirmware : Firmware where
  byte p := sampleMemory.getD p 0
  mapVirtual p := p

def sampleQuery : sampleFirmware.Query where
  base := 8
  sig := tag 'A' 'P' 'I' 'C'
  base_ne_zero := by decide
  supported := by decide +kernel

/-- The search descends into the `SSDT`, finds nothing there, and gives up. -/
theorem not_searchCorrect_sample : ¬ sampleFirmware.SearchCorrect sampleQuery := by
  rintro ⟨fuel, result, hresult, -, hcomplete⟩
  have hnone : sampleFirmware.searchACPITable 2 sampleQuery.sig sampleQuery.base = some none := by
    decide +kernel
  rw [Firmware.searchACPITable_eq] at hresult hnone
  have hnamed : sampleFirmware.Names (sampleFirmware.root sampleQuery.base) 192 :=
    .rsdt (by decide +kernel) (by decide +kernel) (by decide +kernel)
  exact hcomplete (follow_unique hresult hnone)
    ⟨192, .single hnamed, by decide +kernel, by decide +kernel⟩

end BlockyOS.Kernel
