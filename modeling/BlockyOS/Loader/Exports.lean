import Mathlib.Order.Bounds.Basic
import BlockyOS.Foundation.Runs
import BlockyOS.Foundation.Words
import BlockyOS.HostTool.Raw
import BlockyOS.Loader.Sections

/-!
# Exports by name and by ordinal

`ResolveExport` finds the slot of the export address table either from an ordinal,
which is biased by the base of the directory, or through the table of names,
whose companion holds unbiased indices of 16 bits.  The tables are read where
their pointers say, whatever is there.
-/

namespace BlockyOS.Loader

open BlockyOS.Foundation
open BlockyOS.HostTool (Fault)

/-! ## Memory -/

/-- A little-endian integer of `width` bytes in memory. -/
def loadNat (mem : Nat → UInt8) (address width : Nat) : Nat :=
  leNat ((List.range width).map fun k => mem (address + k))

theorem loadNat_lt (mem : Nat → UInt8) (address width : Nat) :
    loadNat mem address width < 256 ^ width := by
  simpa [loadNat] using leNat_lt ((List.range width).map fun k => mem (address + k))

/-- `strcmpa` finds no difference between the string at `address` and `s`. -/
def equalString (mem : Nat → UInt8) : Nat → List UInt8 → Bool
  | address, [] => mem address = 0
  | address, c :: s => mem address = c && equalString mem (address + 1) s

/-- The zero-terminated string at `address` is `s`. -/
def StringAt (mem : Nat → UInt8) (address : Nat) (s : List UInt8) : Prop :=
  (∀ k c, s[k]? = some c → mem (address + k) = c) ∧ mem (address + s.length) = 0

theorem equalString_iff {mem : Nat → UInt8} {address : Nat} {s : List UInt8} :
    equalString mem address s = true ↔ StringAt mem address s := by
  induction s generalizing address with
  | nil => simp [equalString, StringAt]
  | cons c s ih =>
      rw [equalString, Bool.and_eq_true, decide_eq_true_iff, ih, StringAt, StringAt]
      constructor
      · rintro ⟨hhead, htail, hend⟩
        refine ⟨fun k d hd => ?_, by rwa [List.length_cons, Nat.add_comm s.length, ← Nat.add_assoc]⟩
        cases k with
        | zero => exact hhead.trans (Option.some.inj hd)
        | succ k =>
            rw [Nat.add_comm k, ← Nat.add_assoc]
            exact htail k d hd
      · rintro ⟨hall, hend⟩
        refine ⟨hall 0 c rfl, fun k d hd => ?_, by rwa [Nat.add_assoc, Nat.add_comm 1]⟩
        rw [Nat.add_assoc, Nat.add_comm 1]
        exact hall (k + 1) d hd

/-! ## The export tables -/

/-- What the resolution reads of a loaded library: the pointers of `Fmt.exp` among it. -/
structure ExportTables where
  raw : Nat
  Export : Nat
  namePointerRVAs : Nat
  ordinals : Nat
  rawExportAddresses : Nat
  /-- The first data directory, that of the exports. -/
  directoryRVA : Nat
  directorySize : Nat
  base : Nat
  sectionTable : List PeImageSectionHeader

/-- The name `.edata`, padded. -/
def peExportSection : Bytes := [46, 101, 100, 97, 116, 97, 0, 0]

section Tables

variable (mem : Nat → UInt8) (tables : ExportTables)

def mOrdinalBase : Nat := loadNat mem (tables.Export + 16) 4

def mNTableEntries : Nat := loadNat mem (tables.Export + 20) 4

def mNNamePointers : Nat := loadNat mem (tables.Export + 24) 4

/-- `Ordinals[i]`, a load past the stated length being a fault. -/
def ordinalAt (i : Nat) : Except Fault Nat :=
  if i < mNNamePointers mem tables then .ok (loadNat mem (tables.ordinals + 2 * i) 2)
  else .error .outOfBounds

def namePointerAt (i : Nat) : Except Fault Nat :=
  if i < mNNamePointers mem tables then .ok (loadNat mem (tables.namePointerRVAs + 4 * i) 4)
  else .error .outOfBounds

def exportAddressAt (i : Nat) : Except Fault Nat :=
  if i < mNTableEntries mem tables then .ok (loadNat mem (tables.rawExportAddresses + 4 * i) 4)
  else .error .outOfBounds

/-- The address of the name at `rva`, or `NULL`. -/
def exportName (rva : Nat) : Nat :=
  (getAtRVAFromSectionDataPe (UInt32.ofNat rva) peExportSection tables.sectionTable).elim 0
    fun off => tables.raw + off.toNat

/-! ## The resolution -/

def uint32Max : Nat := 2 ^ 32 - 1

/-- The loop over the names from `i` on, `n` of them. -/
def nameLoop (name : List UInt8) : Nat → Nat → Except Fault Nat
  | 0, _ => .ok uint32Max
  | n + 1, i => do
      let index ← ordinalAt mem tables i
      if mNTableEntries mem tables ≤ index then nameLoop name n (i + 1)
      else do
        let rva ← namePointerAt mem tables i
        let address := exportName tables rva
        if address ≠ 0 && equalString mem address name then .ok index
        else nameLoop name n (i + 1)

inductive Wanted where
  | ordinal (n : Nat)
  | name (s : List UInt8)

def exportIndex : Wanted → Except Fault (Option Nat)
  | .ordinal n =>
      if n < mOrdinalBase mem tables then .ok none
      else
        let index := u32 (n - mOrdinalBase mem tables)
        .ok (if mNTableEntries mem tables ≤ index then none else some index)
  | .name s => do
      let index ← nameLoop mem tables s (mNNamePointers mem tables) 0
      .ok (if index = uint32Max then none else some index)

/-- The address in a slot, unless it is empty or holds the name of a forwarder. -/
def slotAddress (index : Nat) : Except Fault (Option Nat) := do
  let exportRVA ← exportAddressAt mem tables index
  if exportRVA = 0 ∨ (tables.directoryRVA ≤ exportRVA ∧
      exportRVA - tables.directoryRVA < tables.directorySize) then .ok none
  else .ok (some (u64 (tables.base + exportRVA)))

def resolveExport (wanted : Wanted) : Except Fault (Option Nat) :=
  if tables.Export = 0 ∨ tables.rawExportAddresses = 0 then .ok none
  else do
    let index ← exportIndex mem tables wanted
    index.elim (.ok none) (slotAddress mem tables)

/-! ## What the tables say -/

/-- `Ordinals[i]`, unbiased. -/
def indexOf (i : Nat) : Nat := loadNat mem (tables.ordinals + 2 * i) 2

/-- Entry `i` of the name table is for a slot of the address table and has the name `s`. -/
def Names (s : List UInt8) (i : Nat) : Prop :=
  i < mNNamePointers mem tables ∧ indexOf mem tables i < mNTableEntries mem tables ∧
    exportName tables (loadNat mem (tables.namePointerRVAs + 4 * i) 4) ≠ 0 ∧
    StringAt mem (exportName tables (loadNat mem (tables.namePointerRVAs + 4 * i) 4)) s

def Vacant (index : Nat) : Prop :=
  let exportRVA := loadNat mem (tables.rawExportAddresses + 4 * index) 4
  exportRVA = 0 ∨ tables.directoryRVA ≤ exportRVA ∧
    exportRVA < tables.directoryRVA + tables.directorySize

/-- A name and the ordinal of its first entry stand for the same address. -/
structure NamesAgree (s : List UInt8) : Prop where
  bounded : ∀ wanted, ∃ found, resolveExport mem tables wanted = .ok found
  agree : ∀ address, resolveExport mem tables (.name s) = .ok (some address) ↔
    ∃ i, IsLeast { i | Names mem tables s i } i ∧
      resolveExport mem tables (.ordinal (mOrdinalBase mem tables + indexOf mem tables i)) =
        .ok (some address)
  vacant : ∀ wanted index, exportIndex mem tables wanted = .ok (some index) →
    Vacant mem tables index → resolveExport mem tables wanted = .ok none

variable {mem tables} {s : List UInt8}

theorem indexOf_lt (i : Nat) : indexOf mem tables i < 2 ^ 16 := loadNat_lt mem _ 2

theorem nameLoop_succ {n i : Nat} (hi : i < mNNamePointers mem tables) :
    (Names mem tables s i ∧ nameLoop mem tables s (n + 1) i = .ok (indexOf mem tables i)) ∨
      (¬ Names mem tables s i ∧
        nameLoop mem tables s (n + 1) i = nameLoop mem tables s n (i + 1)) := by
  rw [nameLoop, ordinalAt, if_pos hi, namePointerAt, if_pos hi]
  simp only [ok_bind]
  split
  case isTrue houtside =>
    exact .inr ⟨fun h => Nat.not_lt_of_le houtside h.2.1, rfl⟩
  case isFalse hinside =>
    split
    case isTrue hequal =>
      rw [Bool.and_eq_true, decide_eq_true_iff, equalString_iff] at hequal
      exact .inl ⟨⟨hi, Nat.lt_of_not_le hinside, hequal⟩, rfl⟩
    case isFalse hother =>
      refine .inr ⟨fun h => hother ?_, rfl⟩
      rw [Bool.and_eq_true, decide_eq_true_iff, equalString_iff]
      exact h.2.2

theorem nameLoop_ends {n i : Nat} (hn : i + n = mNNamePointers mem tables) :
    (∃ j, IsLeast { j | i ≤ j ∧ Names mem tables s j } j ∧
      nameLoop mem tables s n i = .ok (indexOf mem tables j)) ∨
    ((∀ j, i ≤ j → ¬ Names mem tables s j) ∧ nameLoop mem tables s n i = .ok uint32Max) := by
  induction n generalizing i with
  | zero => exact .inr ⟨fun j hj h => by have := h.1; omega, rfl⟩
  | succ n ih =>
      rcases nameLoop_succ (n := n) (show i < mNNamePointers mem tables by omega) with
        ⟨hnames, hloop⟩ | ⟨hnot, hloop⟩
      · exact .inl ⟨i, ⟨⟨Nat.le_refl i, hnames⟩, fun j hj => hj.1⟩, hloop⟩
      · have hlater : ∀ j, i ≤ j ∧ Names mem tables s j ↔ i + 1 ≤ j ∧ Names mem tables s j := by
          intro j
          refine ⟨fun ⟨hle, h⟩ => ⟨?_, h⟩, fun ⟨hle, h⟩ => ⟨by omega, h⟩⟩
          rcases Nat.eq_or_lt_of_le hle with rfl | hlt
          · exact absurd h hnot
          · exact hlt
        rw [hloop]
        simp only [hlater]
        rcases ih (i := i + 1) (by omega) with hfound | ⟨hnone, hend⟩
        · exact .inl hfound
        · refine .inr ⟨fun j hle h => ?_, hend⟩
          exact hnone j ((hlater j).mp ⟨hle, h⟩).1 h

theorem slotAddress_eq {index : Nat} (hindex : index < mNTableEntries mem tables) :
    (Vacant mem tables index ∧ slotAddress mem tables index = .ok none) ∨
      (¬ Vacant mem tables index ∧ slotAddress mem tables index = .ok (some (u64
        (tables.base + loadNat mem (tables.rawExportAddresses + 4 * index) 4)))) := by
  rw [slotAddress, exportAddressAt, if_pos hindex]
  simp only [ok_bind, Vacant]
  split
  case isTrue hvacant => exact .inl ⟨by omega, rfl⟩
  case isFalse hfilled => exact .inr ⟨by omega, rfl⟩

theorem exportIndex_name :
    (∃ i, IsLeast { i | Names mem tables s i } i ∧
      exportIndex mem tables (.name s) = .ok (some (indexOf mem tables i))) ∨
    ((∀ i, ¬ Names mem tables s i) ∧ exportIndex mem tables (.name s) = .ok none) := by
  rw [exportIndex]
  rcases nameLoop_ends (s := s) (Nat.zero_add (mNNamePointers mem tables)) with
    ⟨i, hleast, hloop⟩ | ⟨hnone, hloop⟩
  · have hsmall := @indexOf_lt mem tables i
    rw [hloop, ok_bind, if_neg (by unfold uint32Max; omega)]
    exact .inl ⟨i, by simpa using hleast, rfl⟩
  · rw [hloop, ok_bind, if_pos rfl]
    exact .inr ⟨fun i => hnone i (Nat.zero_le i), rfl⟩

theorem exportIndex_ordinal {index : Nat} (hsmall : index < 2 ^ 16)
    (hindex : index < mNTableEntries mem tables) :
    exportIndex mem tables (.ordinal (mOrdinalBase mem tables + index)) = .ok (some index) := by
  rw [exportIndex, if_neg (by omega), Nat.add_sub_cancel_left, u32_of_lt (by omega)]
  exact congrArg Except.ok (if_neg (Nat.not_le_of_lt hindex))

theorem exportIndex_bounded (wanted : Wanted) :
    ∃ found, exportIndex mem tables wanted = .ok found ∧
      ∀ index, found = some index → index < mNTableEntries mem tables := by
  cases wanted with
  | ordinal n =>
      rw [exportIndex]
      split
      · exact ⟨none, rfl, by simp⟩
      · refine ⟨_, rfl, fun index hfound => ?_⟩
        rw [Option.ite_none_left_eq_some] at hfound
        obtain ⟨hinside, hindex⟩ := hfound
        obtain rfl := Option.some.inj hindex
        exact Nat.lt_of_not_le hinside
  | name s =>
      rcases @exportIndex_name mem tables s with
        ⟨i, hleast, hfound⟩ | ⟨-, hfound⟩
      · refine ⟨_, hfound, fun index hindex => ?_⟩
        obtain rfl := Option.some.inj hindex
        exact hleast.1.2.1
      · exact ⟨none, hfound, by simp⟩

end Tables

/--
Resolving a name gives what resolving the ordinal of its first entry gives; both
leave vacant slots alone and stay inside the tables.
-/
theorem namesAgree (mem : Nat → UInt8) (tables : ExportTables) (s : List UInt8) :
    NamesAgree mem tables s := by
  by_cases hmissing : tables.Export = 0 ∨ tables.rawExportAddresses = 0
  · have hnone : ∀ wanted, resolveExport mem tables wanted = .ok none := fun _ => if_pos hmissing
    exact ⟨fun wanted => ⟨none, hnone wanted⟩, by simp [hnone], fun wanted _ _ _ => hnone wanted⟩
  have hresolve : ∀ wanted index, exportIndex mem tables wanted = .ok (some index) →
      resolveExport mem tables wanted = slotAddress mem tables index := by
    intro wanted index hindex
    rw [resolveExport, if_neg hmissing, hindex]
    rfl
  have hnowhere : ∀ wanted, exportIndex mem tables wanted = .ok none →
      resolveExport mem tables wanted = .ok none := by
    intro wanted hindex
    rw [resolveExport, if_neg hmissing, hindex]
    rfl
  refine ⟨fun wanted => ?_, fun address => ?_, fun wanted index hindex hvacant => ?_⟩
  · obtain ⟨found, hfound, hinside⟩ := @exportIndex_bounded mem tables wanted
    cases found with
    | none => exact ⟨none, hnowhere wanted hfound⟩
    | some index =>
        rw [hresolve wanted index hfound]
        rcases slotAddress_eq (hinside index rfl) with ⟨-, hslot⟩ | ⟨-, hslot⟩
        · exact ⟨_, hslot⟩
        · exact ⟨_, hslot⟩
  · rcases @exportIndex_name mem tables s with
      ⟨i, hleast, hfound⟩ | ⟨hnone, hfound⟩
    · have hordinal := exportIndex_ordinal (indexOf_lt i) hleast.1.2.1
      rw [hresolve _ _ hfound]
      constructor
      · intro hslot
        exact ⟨i, hleast, (hresolve _ _ hordinal).trans hslot⟩
      · rintro ⟨j, hleast', hslot⟩
        obtain rfl := hleast.unique hleast'
        exact (hresolve _ _ hordinal).symm.trans hslot
    · rw [hnowhere _ hfound]
      refine iff_of_false (by simp) ?_
      rintro ⟨i, hleast, -⟩
      exact hnone i hleast.1
  · obtain ⟨found, hfound, hinside⟩ := @exportIndex_bounded mem tables wanted
    rw [hindex] at hfound
    cases hfound
    rw [hresolve wanted index hindex]
    rcases slotAddress_eq (hinside index rfl) with ⟨-, hslot⟩ | ⟨hfilled, -⟩
    · exact hslot
    · exact absurd hvacant hfilled

end BlockyOS.Loader
