import BlockyOS.Foundation.BitFields
import BlockyOS.Foundation.Words

/-!
# Page tables and their translation

The entry layouts of `paging.h` and `MapPhysical` of `paging.c`, over a memory
of eight-byte words.
-/

namespace BlockyOS.Kernel

open BlockyOS.Foundation

/-! ## Virtual addresses -/

/-- The fields of a `VirtualAddress`. -/
def pageOffset (virt : Nat) : Nat := bits virt 0 12

def indexL1 (virt : Nat) : Nat := bits virt 12 9

def indexL2 (virt : Nat) : Nat := bits virt 21 9

def indexL3 (virt : Nat) : Nat := bits virt 30 9

def indexL4 (virt : Nat) : Nat := bits virt 39 9

def indexL5 (virt : Nat) : Nat := bits virt 48 9

/-! ## Entries -/

def present (entry : Nat) : Bool := bits entry 0 1 = 1

def pageSizeBit (entry : Nat) : Bool := bits entry 7 1 = 1

/--
How the compiler shifts a bit-field left.  A field wider than `int` is shifted
in its own 40 bits or in the 64 of its declared type; a narrower one is
promoted to `int`, where a result from `2 ^ 31` on has no value.
-/
structure FieldShift where
  wide : Nat
  wide_eq : wide = 40 ∨ wide = 64
  narrow : Nat → Nat → Nat
  narrow_eq : ∀ value count, value * 2 ^ count < 2 ^ 31 →
    narrow value count = value * 2 ^ count

/-- `PhysicalAddress << 12`, the field being 40 bits wide in every table entry. -/
def tableAddress (S : FieldShift) (entry : Nat) : Nat :=
  bits entry 12 40 * 2 ^ 12 % 2 ^ S.wide

/-- `pages1GB[..].PhysicalAddress << 30` -/
def address1GB (S : FieldShift) (entry : Nat) : Nat := S.narrow (bits entry 30 22) 30

/-- `pages2MB[..].PhysicalAddress << 21` -/
def address2MB (S : FieldShift) (entry : Nat) : Nat := S.narrow (bits entry 21 31) 21

theorem present_frame (S : FieldShift) {frame : Nat} (haligned : 4096 ∣ frame)
    (hrange : frame < 2 ^ 40) :
    present (frame + 1) = true ∧ pageSizeBit (frame + 1) = false ∧
      tableAddress S (frame + 1) = frame := by
  refine ⟨?_, ?_, ?_⟩
  · rw [present, bits, decide_eq_true_eq]
    omega
  · rw [pageSizeBit, bits, decide_eq_false_iff_not]
    omega
  · rw [tableAddress, bits]
    rcases S.wide_eq with hwide | hwide <;>
    · rw [hwide]
      omega

/-! ## Translation -/

/--
What the walkers read: whether five levels are on, the pointer `GetPageTable`
returns, `MapVirtual`, and the eight bytes at each address.
-/
structure PageTables where
  level5 : Bool
  storedPageTable : Nat
  mapVirtual : Nat → Nat
  word : Nat → Nat

namespace PageTables

def entry (m : PageTables) (table index : Nat) : Nat := m.word (table + 8 * index)

def translateL1 (S : FieldShift) (m : PageTables) (table virt : Nat) : Nat :=
  let e := m.entry table (indexL1 virt)
  if !present e then 0
  else u64 (tableAddress S e + pageOffset virt)

def translateL2 (S : FieldShift) (m : PageTables) (table virt : Nat) : Nat :=
  let e := m.entry table (indexL2 virt)
  if !present e then 0
  else if pageSizeBit e then u64 (address2MB S e + bits virt 0 21)
  else m.translateL1 S (m.mapVirtual (tableAddress S e)) virt

def translateL3 (S : FieldShift) (m : PageTables) (table virt : Nat) : Nat :=
  let e := m.entry table (indexL3 virt)
  if !present e then 0
  else if pageSizeBit e then u64 (address1GB S e + bits virt 0 30)
  else m.translateL2 S (m.mapVirtual (tableAddress S e)) virt

def translateL4 (S : FieldShift) (m : PageTables) (table virt : Nat) : Nat :=
  let e := m.entry table (indexL4 virt)
  if !present e then 0
  else m.translateL3 S (m.mapVirtual (tableAddress S e)) virt

/--
`MapPhysical`, zero standing for `NULL`.  `GetPageTable` writes the byte behind `Level5` only
with five levels; with four `stack` is what the call finds there.
-/
def mapPhysicalFrom (S : FieldShift) (m : PageTables) (stack : Bool) (virt : Nat) : Nat :=
  let pt := m.mapVirtual m.storedPageTable
  if m.level5 || stack then
    let e := m.entry pt (indexL5 virt)
    if !present e then 0
    else m.translateL4 S (m.mapVirtual (tableAddress S e)) virt
  else m.translateL4 S pt virt

/-- `MapPhysical` over a stack that is clear. -/
def mapPhysical (S : FieldShift) (m : PageTables) (virt : Nat) : Nat :=
  m.mapPhysicalFrom S false virt

theorem mapPhysicalFrom_eq {S : FieldShift} {m : PageTables} {stack : Bool}
    (h : stack = true → m.level5 = true) (virt : Nat) :
    m.mapPhysicalFrom S stack virt = m.mapPhysical S virt := by
  have hlevel : (m.level5 || stack) = (m.level5 || false) := by
    cases stack with
    | false => rfl
    | true => rw [h rfl]; rfl
  rw [mapPhysical, mapPhysicalFrom, mapPhysicalFrom, hlevel]

/-! ### The table at each level -/

def below (S : FieldShift) (m : PageTables) (entry : Nat) : Option Nat :=
  if present entry then some (m.mapVirtual (tableAddress S entry)) else none

def belowUnlessPage (S : FieldShift) (m : PageTables) (entry : Nat) : Option Nat :=
  if present entry && !pageSizeBit entry then
    some (m.mapVirtual (tableAddress S entry))
  else none

def tableL5 (m : PageTables) : Option Nat :=
  if m.level5 then some (m.mapVirtual m.storedPageTable) else none

def tableL4 (S : FieldShift) (m : PageTables) (virt : Nat) : Option Nat :=
  if m.level5 then
    m.below S (m.entry (m.mapVirtual m.storedPageTable) (indexL5 virt))
  else some (m.mapVirtual m.storedPageTable)

def tableL3 (S : FieldShift) (m : PageTables) (virt : Nat) : Option Nat :=
  (m.tableL4 S virt).bind fun table => m.below S (m.entry table (indexL4 virt))

def tableL2 (S : FieldShift) (m : PageTables) (virt : Nat) : Option Nat :=
  (m.tableL3 S virt).bind fun table => m.belowUnlessPage S (m.entry table (indexL3 virt))

def tableL1 (S : FieldShift) (m : PageTables) (virt : Nat) : Option Nat :=
  (m.tableL2 S virt).bind fun table => m.belowUnlessPage S (m.entry table (indexL2 virt))

section Reached

variable {S : FieldShift} {m : PageTables} {virt table e : Nat}

theorem below_eq_some_iff : m.below S e = some table ↔
    present e = true ∧ m.mapVirtual (tableAddress S e) = table := by
  rw [below]
  split
  case isTrue h => simp [h]
  case isFalse h => simp [h]

theorem belowUnlessPage_eq_some_iff : m.belowUnlessPage S e = some table ↔
    present e = true ∧ pageSizeBit e = false ∧ m.mapVirtual (tableAddress S e) = table := by
  rw [belowUnlessPage]
  cases present e <;> cases pageSizeBit e <;> simp

theorem mapPhysical_of_tableL4 (h : m.tableL4 S virt = some table) :
    m.mapPhysical S virt = m.translateL4 S table virt := by
  rw [tableL4] at h
  rw [mapPhysical, mapPhysicalFrom, Bool.or_false]
  cases hlevel : m.level5 with
  | true =>
      rw [hlevel, if_pos rfl, below_eq_some_iff] at h
      simp [h.1, h.2]
  | false =>
      rw [hlevel, if_neg Bool.false_ne_true] at h
      simp [Option.some.inj h]

theorem mapPhysical_of_tableL3 (h : m.tableL3 S virt = some table) :
    m.mapPhysical S virt = m.translateL3 S table virt := by
  obtain ⟨table4, h4, hbelow⟩ := Option.bind_eq_some_iff.mp h
  obtain ⟨hpresent, hnext⟩ := below_eq_some_iff.mp hbelow
  rw [mapPhysical_of_tableL4 h4, translateL4]
  simp [hpresent, hnext]

theorem mapPhysical_of_tableL2 (h : m.tableL2 S virt = some table) :
    m.mapPhysical S virt = m.translateL2 S table virt := by
  obtain ⟨table3, h3, hbelow⟩ := Option.bind_eq_some_iff.mp h
  obtain ⟨hpresent, hsize, hnext⟩ := belowUnlessPage_eq_some_iff.mp hbelow
  rw [mapPhysical_of_tableL3 h3, translateL3]
  simp [hpresent, hsize, hnext]

theorem mapPhysical_of_tableL1 (h : m.tableL1 S virt = some table) :
    m.mapPhysical S virt = m.translateL1 S table virt := by
  obtain ⟨table2, h2, hbelow⟩ := Option.bind_eq_some_iff.mp h
  obtain ⟨hpresent, hsize, hnext⟩ := belowUnlessPage_eq_some_iff.mp hbelow
  rw [mapPhysical_of_tableL2 h2, translateL2]
  simp [hpresent, hsize, hnext]

end Reached

end PageTables

end BlockyOS.Kernel
