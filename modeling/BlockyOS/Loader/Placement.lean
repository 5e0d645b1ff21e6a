import Mathlib.Data.List.TakeWhile
import BlockyOS.Foundation.Patches
import BlockyOS.Loader.Sections

/-!
# Placing the sections of an image

`LoadBinary` goes through the section table once.  It copies the code and data
sections into the image, whole pages at a time, and patches the import address
slots when it comes to the import section.  What a later section is copied over is
lost.
-/

namespace BlockyOS.Loader

open BlockyOS.Foundation

/-- How loading ends early: with a null pointer, or with a write that is not inside its buffer. -/
inductive LoadFailure where
  | unresolved
  | outOfBounds
  deriving DecidableEq, Repr

/-- The slots of `IAT32` or of `IAT64`. -/
def PeOptionalHeaderType.slotSize : PeOptionalHeaderType → Nat
  | pe32 => 4
  | pe32Plus => 8

/--
An entry of the import directory: where its address table is, and the addresses that
its symbols resolve to.  There are none when the library or its lookup table is
missing.
-/
structure PeImport where
  importAddressTableRVA : UInt32
  addresses : Option (List (Option Nat))

/-- What placing the sections goes by. -/
structure PeImage where
  file : Bytes
  magic : PeOptionalHeaderType
  sizeOfImage : UInt32
  sectionTable : List PeImageSectionHeader
  imports : List PeImport

/-! ## The sections -/

/-- `.text`, padded. -/
def peCodeSection : Bytes := [0x2E, 0x74, 0x65, 0x78, 0x74, 0, 0, 0]

/-- `.data`, padded. -/
def peDefDataSection : Bytes := [0x2E, 0x64, 0x61, 0x74, 0x61, 0, 0, 0]

/-- `.bss`, padded. -/
def peUDefDataSection : Bytes := [0x2E, 0x62, 0x73, 0x73, 0, 0, 0, 0]

/-- `.rdata`, padded. -/
def peRDefDataSection : Bytes := [0x2E, 0x72, 0x64, 0x61, 0x74, 0x61, 0, 0]

namespace PeImageSectionHeader

variable (s : PeImageSectionHeader)

def isCodeOrData : Bool :=
  sameName s.mName peCodeSection || sameName s.mName peDefDataSection ||
    sameName s.mName peUDefDataSection || sameName s.mName peRDefDataSection

def isImport : Bool := !s.isCodeOrData && sameName s.mName peImportSection

end PeImageSectionHeader

/-- `__roundup(a, EFI_PAGE_SIZE)`, in 32 bits. -/
def roundupPage (a : UInt32) : UInt32 := (a + 4095) / 4096 * 4096

def loadSectionPe (file : Bytes) (header : List PeImageSectionHeader) (name : Bytes) :
    Except LoadFailure (Option Bytes) :=
  match findSectionPe header name with
  | none => .ok none
  | some section_ =>
      if section_.mVirtualSize = 0 then .ok none
      else
        match readSocket file section_.mPointerToRawData.toNat section_.mSizeOfRawData.toNat with
        | none => .ok none
        | some data =>
            (patchAt LoadFailure.outOfBounds
              (zeros (roundupPage section_.mVirtualSize).toNat) 0 data).map some

namespace PeImage

variable (image : PeImage)

/-- The copy of whole pages; it does not read behind the buffer either. -/
def copySection (memory : Bytes) (s : PeImageSectionHeader) (temp : Bytes) :
    Except LoadFailure Bytes :=
  let size := (roundupPage s.mVirtualSize).toNat
  if size ≤ temp.length then
    patchAt .outOfBounds memory (roundupPage s.mVirtualAddress).toNat (temp.take size)
  else .error .outOfBounds

def loadCode (memory : Bytes) (s : PeImageSectionHeader) : Except LoadFailure Bytes := do
  let temp ← loadSectionPe image.file image.sectionTable s.mName
  temp.elim (.ok memory) (copySection memory s)

def tableSlots (rva : UInt32) (addresses : List (Option Nat)) : List (Nat × Option Nat) :=
  addresses.zipIdx.map fun entry => (rva.toNat + image.magic.slotSize * entry.2, entry.1)

def patchSlot (memory : Bytes) (slot : Nat × Option Nat) : Except LoadFailure Bytes :=
  slot.2.elim (.error .unresolved) fun address =>
    patchAt .outOfBounds memory slot.1 (leBytes image.magic.slotSize address)

def patchImport (memory : Bytes) (import_ : PeImport) : Except LoadFailure Bytes :=
  import_.addresses.elim (.error .unresolved) fun addresses =>
    run image.patchSlot memory (image.tableSlots import_.importAddressTableRVA addresses)

def loadTurn (memory : Bytes) (s : PeImageSectionHeader) : Except LoadFailure Bytes :=
  if s.isCodeOrData then image.loadCode memory s
  else if s.isImport then run image.patchImport memory image.imports
  else .ok memory

def loadSections : Except LoadFailure Bytes :=
  run image.loadTurn (zeros (roundupPage image.sizeOfImage).toNat) image.sectionTable

/-! ## What is right -/

def Loads (s : PeImageSectionHeader) : Prop :=
  s.isCodeOrData ∧ loadSectionPe image.file image.sectionTable s.mName ≠ .ok none

def slots : List (Nat × Option Nat) :=
  if image.sectionTable.any PeImageSectionHeader.isImport then
    image.imports.flatMap fun import_ =>
      image.tableSlots import_.importAddressTableRVA (import_.addresses.getD [])
  else []

/-- Sections and slots are inside the image, and apart from each other. -/
structure Valid : Prop where
  inside : ∀ s ∈ image.sectionTable,
    s.mVirtualAddress.toNat + s.mVirtualSize.toNat ≤ image.sizeOfImage.toNat
  apart : image.sectionTable.Pairwise fun s t =>
    RangesApart s.mVirtualAddress.toNat s.mVirtualSize.toNat t.mVirtualAddress.toNat
      t.mVirtualSize.toNat
  slotInside : ∀ slot ∈ image.slots,
    slot.1 + image.magic.slotSize ≤ image.sizeOfImage.toNat
  slotApart : image.slots.Pairwise fun a b =>
    RangesApart a.1 image.magic.slotSize b.1 image.magic.slotSize

/-- The byte of the section `k` behind its start. -/
def sectionByte (s : PeImageSectionHeader) (k : Nat) : UInt8 :=
  if k < s.mSizeOfRawData.toNat then image.file.getD (s.mPointerToRawData.toNat + k) 0 else 0

/-- The sections are in their places but for the slots, and the slots hold their addresses. -/
structure Placed (memory : Bytes) : Prop where
  sections : ∀ s ∈ image.sectionTable, image.Loads s → ∀ k, k < s.mVirtualSize.toNat →
    (∀ slot ∈ image.slots,
      RangesApart slot.1 image.magic.slotSize (s.mVirtualAddress.toNat + k) 1) →
    memory[s.mVirtualAddress.toNat + k]? = some (image.sectionByte s k)
  slots : ∀ slot ∈ image.slots, ∀ address, slot.2 = some address →
    slice memory slot.1 image.magic.slotSize = leBytes image.magic.slotSize address

/-- No write is out of bounds, and what is loaded is placed. -/
structure PlacesRight : Prop where
  safe : image.loadSections ≠ .error .outOfBounds
  placed : ∀ memory, image.loadSections = .ok memory → image.Placed memory

/-- Whole pages, as many as hold `n` bytes. -/
def pages (n : Nat) : Nat := (n + 4095) / 4096 * 4096

def Resolved : Prop :=
  ∀ import_ ∈ image.imports, ∃ addresses, import_.addresses = some addresses ∧
    ∀ address ∈ addresses, address ≠ none

/-- The loop comes to the end of the table: what is not resolved stops it at an import section. -/
def Completes : Prop := image.Resolved ∨ ∀ s ∈ image.sectionTable, ¬ s.isImport

def Reached (s : PeImageSectionHeader) : Prop :=
  s ∈ image.sectionTable ∧
    (image.Resolved ∨ s ∈ image.sectionTable.takeWhile fun t => !t.isImport)

def Fits (s : PeImageSectionHeader) : Prop :=
  ∃ found, findSectionPe image.sectionTable s.mName = some found ∧
    found.mSizeOfRawData.toNat ≤ (roundupPage found.mVirtualSize).toNat ∧
    (roundupPage s.mVirtualSize).toNat ≤ (roundupPage found.mVirtualSize).toNat ∧
    (roundupPage s.mVirtualAddress).toNat + (roundupPage s.mVirtualSize).toNat ≤
      (roundupPage image.sizeOfImage).toNat

def Contained : Prop := ∀ s, image.Reached s → image.Loads s → image.Fits s

def Copies (s : PeImageSectionHeader) : Prop := image.Loads s ∧ s.mVirtualSize ≠ 0

/--
The size of the image can be rounded up, and what the loop comes to is contained.  If it
comes to the end, each section that is copied starts a page and is the first of its name;
where no import section comes behind it, its pages have no slots.
-/
structure Placeable : Prop where
  size : image.sizeOfImage.toNat ≤ 2 ^ 32 - 4096
  contained : image.Contained
  aligned : image.Completes → ∀ s ∈ image.sectionTable, image.Copies s →
    s.mVirtualAddress.toNat % 4096 = 0
  first : image.Completes → ∀ s ∈ image.sectionTable, image.Copies s →
    findSectionPe image.sectionTable s.mName = some s
  unpatched : image.Completes → ∀ before s after, image.sectionTable = before ++ s :: after →
    image.Copies s → (∀ t ∈ after, ¬ t.isImport) → ∀ slot ∈ image.slots,
      RangesApart s.mVirtualAddress.toNat (pages s.mVirtualSize.toNat) slot.1 image.magic.slotSize

/-! ## The slots -/

section Slots

variable {image} {memory memory' : Bytes} {slots : List (Nat × Option Nat)}
  {slot : Nat × Option Nat}

theorem patchSlot_ok (h : image.patchSlot memory slot = .ok memory') :
    ∃ address, slot.2 = some address ∧
      patchAt LoadFailure.outOfBounds memory slot.1 (leBytes image.magic.slotSize address) =
        .ok memory' := by
  rw [patchSlot] at h
  cases hslot : slot.2 with
  | none =>
      rw [hslot] at h
      cases h
  | some address =>
      rw [hslot] at h
      exact ⟨address, rfl, h⟩

theorem patchSlot_safe (h : slot.1 + image.magic.slotSize ≤ memory.length) :
    image.patchSlot memory slot ≠ .error .outOfBounds := by
  rw [patchSlot]
  cases slot.2 with
  | none => simp
  | some address =>
      rw [Option.elim_some, patchAt, if_pos (by rwa [length_leBytes])]
      simp

theorem length_patchSlots (h : run image.patchSlot memory slots = .ok memory') :
    memory'.length = memory.length := by
  refine run_invariant (P := fun m => m.length = memory.length) ?_ rfl h
  intro m slot m' hm hstep
  obtain ⟨address, -, hpatch⟩ := patchSlot_ok hstep
  rw [length_of_patchAt hpatch, hm]

theorem patchSlots_safe
    (h : ∀ slot ∈ slots, slot.1 + image.magic.slotSize ≤ memory.length) :
    run image.patchSlot memory slots ≠ .error .outOfBounds := by
  refine run_ne_error (P := fun m => m.length = memory.length) rfl ?_ ?_
  · intro m slot hslot hm
    apply patchSlot_safe
    rw [hm]
    exact h slot hslot
  · intro m slot m' hm hstep
    obtain ⟨address, -, hpatch⟩ := patchSlot_ok hstep
    rw [length_of_patchAt hpatch, hm]

theorem slice_patchSlots {a n : Nat} (h : run image.patchSlot memory slots = .ok memory')
    (hapart : ∀ slot ∈ slots, RangesApart slot.1 image.magic.slotSize a n) :
    slice memory' a n = slice memory a n := by
  induction slots generalizing memory with
  | nil =>
      cases h
      rfl
  | cons slot slots ih =>
      obtain ⟨mid, hstep, hrest⟩ := (run_cons_ok _).mp h
      obtain ⟨address, -, hpatch⟩ := patchSlot_ok hstep
      have hslot := hapart slot (List.mem_cons_self ..)
      rw [ih hrest fun slot' hslot' => hapart slot' (List.mem_cons_of_mem _ hslot'),
        slice_of_patchAt_apart hpatch (by rwa [length_leBytes])]

theorem patchSlots_hold (h : run image.patchSlot memory slots = .ok memory')
    (hapart : slots.Pairwise fun a b =>
      RangesApart a.1 image.magic.slotSize b.1 image.magic.slotSize)
    {address : Nat} (hslot : slot ∈ slots) (haddress : slot.2 = some address) :
    slice memory' slot.1 image.magic.slotSize = leBytes image.magic.slotSize address := by
  induction slots generalizing memory with
  | nil => cases hslot
  | cons first slots ih =>
      obtain ⟨mid, hstep, hrest⟩ := (run_cons_ok _).mp h
      obtain ⟨hfirst, hlater⟩ := List.pairwise_cons.mp hapart
      rcases List.mem_cons.mp hslot with rfl | hslot
      · obtain ⟨address', haddress', hpatch⟩ := patchSlot_ok hstep
        cases haddress.symm.trans haddress'
        have hheld := slice_of_patchAt hpatch
        rw [length_leBytes] at hheld
        rw [slice_patchSlots hrest fun slot' hslot' => (hfirst slot' hslot').symm, hheld]
      · exact ih hrest hlater hslot

theorem resolved_of_patchSlots (h : run image.patchSlot memory slots = .ok memory') :
    ∀ slot ∈ slots, slot.2 ≠ none := by
  induction slots generalizing memory with
  | nil => simp
  | cons first slots ih =>
      obtain ⟨mid, hstep, hrest⟩ := (run_cons_ok _).mp h
      obtain ⟨address, haddress, -⟩ := patchSlot_ok hstep
      intro slot hslot
      rcases List.mem_cons.mp hslot with rfl | hslot
      · simp [haddress]
      · exact ih hrest slot hslot

theorem patchImport_ok {import_ : PeImport} (h : image.patchImport memory import_ = .ok memory') :
    ∃ addresses, import_.addresses = some addresses ∧
      run image.patchSlot memory
        (image.tableSlots import_.importAddressTableRVA addresses) = .ok memory' := by
  rw [patchImport] at h
  cases haddresses : import_.addresses with
  | none =>
      rw [haddresses] at h
      cases h
  | some addresses =>
      rw [haddresses] at h
      exact ⟨addresses, rfl, h⟩

def importSlots (imports : List PeImport) : List (Nat × Option Nat) :=
  imports.flatMap fun import_ =>
    image.tableSlots import_.importAddressTableRVA (import_.addresses.getD [])

theorem patchSlots_of_imports {imports : List PeImport}
    (h : run image.patchImport memory imports = .ok memory') :
    run image.patchSlot memory (image.importSlots imports) = .ok memory' := by
  induction imports generalizing memory with
  | nil => exact h
  | cons import_ imports ih =>
      obtain ⟨mid, hstep, hrest⟩ := (run_cons_ok _).mp h
      obtain ⟨addresses, haddresses, htable⟩ := patchImport_ok hstep
      rw [importSlots, List.flatMap_cons, haddresses, Option.getD_some, run_append_ok]
      exact ⟨mid, htable, ih hrest⟩

theorem patchImports_safe {imports : List PeImport}
    (h : ∀ slot ∈ image.importSlots imports, slot.1 + image.magic.slotSize ≤ memory.length) :
    run image.patchImport memory imports ≠ .error .outOfBounds := by
  refine run_ne_error (P := fun m => m.length = memory.length) rfl ?_ ?_
  · intro m import_ himport hm
    rw [patchImport]
    cases haddresses : import_.addresses with
    | none => simp
    | some addresses =>
        rw [Option.elim_some]
        refine patchSlots_safe fun slot hslot => ?_
        rw [hm]
        refine h slot (List.mem_flatMap.mpr ⟨import_, himport, ?_⟩)
        rwa [haddresses, Option.getD_some]
  · intro m import_ m' hm hstep
    obtain ⟨addresses, -, htable⟩ := patchImport_ok hstep
    rw [length_patchSlots htable, hm]

end Slots

/-! ## The sections -/

section Sections

variable {image} {s : PeImageSectionHeader} {memory memory' : Bytes}

theorem toNat_roundupPage {a : UInt32} (h : a.toNat ≤ 2 ^ 32 - 4096) :
    (roundupPage a).toNat = pages a.toNat := by
  have hsum : a.toNat + 4095 < 2 ^ 32 := by omega
  simp only [roundupPage, pages, UInt32.toNat_mul, UInt32.toNat_div, UInt32.toNat_add,
    show (4095 : UInt32).toNat = 4095 from rfl, show (4096 : UInt32).toNat = 4096 from rfl,
    Nat.mod_eq_of_lt hsum]
  exact Nat.mod_eq_of_lt (by omega)

theorem Completes.reached (h : image.Completes) (hs : s ∈ image.sectionTable) :
    image.Reached s := by
  refine ⟨hs, h.imp_right fun hnone => ?_⟩
  have hall : (image.sectionTable.takeWhile fun t => !t.isImport) = image.sectionTable :=
    List.takeWhile_eq_self_iff.mpr fun t ht => by simpa using hnone t ht
  rwa [hall]

theorem le_pages (n : Nat) : n ≤ pages n := by
  rw [pages]
  omega

theorem loadSectionPe_of_fits (hloads : image.Loads s) (hfits : image.Fits s) :
    ∃ found data, findSectionPe image.sectionTable s.mName = some found ∧
      readSocket image.file found.mPointerToRawData.toNat found.mSizeOfRawData.toNat = some data ∧
      loadSectionPe image.file image.sectionTable s.mName =
        .ok (some (splice (zeros (roundupPage found.mVirtualSize).toNat) 0 data)) ∧
      data.length = found.mSizeOfRawData.toNat ∧
      0 + data.length ≤ (zeros (roundupPage found.mVirtualSize).toNat).length ∧
      (roundupPage s.mVirtualSize).toNat ≤ (roundupPage found.mVirtualSize).toNat := by
  obtain ⟨found, hfind, hraw, hvirtual, -⟩ := hfits
  have hsome := hloads.2
  rw [loadSectionPe, hfind] at hsome ⊢
  dsimp only at hsome ⊢
  split at hsome
  · exact absurd rfl hsome
  · next hzero =>
    rw [if_neg hzero]
    cases hread : readSocket image.file found.mPointerToRawData.toNat
        found.mSizeOfRawData.toNat with
    | none =>
        rw [hread] at hsome
        exact absurd rfl hsome
    | some data =>
        obtain ⟨-, hfile, hdata⟩ := readSocket_eq_some_iff.mp hread
        have hlength : data.length = found.mSizeOfRawData.toNat := by
          rw [← hdata, length_slice _ hfile]
        have hinside : 0 + data.length ≤ (zeros (roundupPage found.mVirtualSize).toNat).length := by
          rw [length_zeros, hlength]
          omega
        refine ⟨found, data, rfl, hread, ?_, hlength, hinside, hvirtual⟩
        dsimp only
        rw [patchAt, if_pos hinside]
        rfl

theorem loadCode_of_fits (hloads : image.Loads s) (hfits : image.Fits s)
    (hmemory : memory.length = (roundupPage image.sizeOfImage).toNat) :
    ∃ temp memory', loadSectionPe image.file image.sectionTable s.mName = .ok (some temp) ∧
      image.loadCode memory s = .ok memory' ∧
      patchAt LoadFailure.outOfBounds memory (roundupPage s.mVirtualAddress).toNat
        (temp.take (roundupPage s.mVirtualSize).toNat) = .ok memory' ∧
      (roundupPage s.mVirtualSize).toNat ≤ temp.length := by
  obtain ⟨found, data, hfind, -, htemp, -, hdata, hvirtual⟩ :=
    loadSectionPe_of_fits hloads hfits
  obtain ⟨found', hfind', -, -, hcopy⟩ := hfits
  have hsize : (roundupPage s.mVirtualSize).toNat ≤
      (splice (zeros (roundupPage found.mVirtualSize).toNat) 0 data).length := by
    rw [length_splice _ hdata, length_zeros]
    exact hvirtual
  have hinside : (roundupPage s.mVirtualAddress).toNat +
      ((splice (zeros (roundupPage found.mVirtualSize).toNat) 0 data).take
        (roundupPage s.mVirtualSize).toNat).length ≤ memory.length := by
    rw [List.length_take_of_le hsize, hmemory]
    exact hcopy
  refine ⟨_, _, htemp, ?_, patchAt_ok_iff.mpr ⟨hinside, rfl⟩, hsize⟩
  rw [loadCode, htemp, ok_bind, Option.elim_some, copySection, if_pos hsize]
  exact patchAt_ok_iff.mpr ⟨hinside, rfl⟩

theorem loadCode_of_copies (h : image.Placeable) (hcompletes : image.Completes)
    (hvalid : image.Valid) (hs : s ∈ image.sectionTable) (hfits : image.Fits s)
    (hcopies : image.Copies s)
    (hmemory : memory.length = pages image.sizeOfImage.toNat) :
    ∃ temp memory', image.loadCode memory s = .ok memory' ∧
      patchAt LoadFailure.outOfBounds memory s.mVirtualAddress.toNat temp = .ok memory' ∧
      temp.length = pages s.mVirtualSize.toNat ∧
      ∀ k, k < s.mVirtualSize.toNat → temp[k]? = some (image.sectionByte s k) := by
  have hinside := hvalid.inside s hs
  have haligned := h.aligned hcompletes s hs hcopies
  have hsize := h.size
  have haddress : (roundupPage s.mVirtualAddress).toNat = s.mVirtualAddress.toNat := by
    rw [toNat_roundupPage (by omega), pages]
    omega
  have hpages := toNat_roundupPage (show s.mVirtualSize.toNat ≤ 2 ^ 32 - 4096 by omega)
  obtain ⟨found, data, hfind, hread, htemp, hlength, hdata, -⟩ :=
    loadSectionPe_of_fits hcopies.1 hfits
  cases hfind.symm.trans (h.first hcompletes s hs hcopies)
  obtain ⟨temp, memory', htemp', hcode, hpatch, hlong⟩ :=
    loadCode_of_fits hcopies.1 hfits (hmemory.trans (toNat_roundupPage hsize).symm)
  cases htemp.symm.trans htemp'
  have htotal : (splice (zeros (roundupPage s.mVirtualSize).toNat) 0 data).length =
      pages s.mVirtualSize.toNat := by
    rw [length_splice _ hdata, length_zeros, hpages]
  rw [haddress, List.take_of_length_le (by rw [htotal, hpages])] at hpatch
  refine ⟨_, memory', hcode, hpatch, htotal, fun k hk => ?_⟩
  have hk' : k < pages s.mVirtualSize.toNat := hk.trans_le (le_pages _)
  obtain ⟨-, hfile, hbytes⟩ := readSocket_eq_some_iff.mp hread
  rw [getElem?_splice _ hdata, sectionByte, hlength]
  split
  · next hlow =>
    have hbyte : s.mPointerToRawData.toNat + k < image.file.length := by omega
    rw [if_pos (by omega), Nat.sub_zero, ← hbytes, getElem?_slice, if_pos (by omega),
      List.getD_eq_getElem?_getD, List.getElem?_eq_getElem hbyte, Option.getD_some]
  · next hhigh =>
    rw [if_neg (by omega), getElem?_zeros (by omega)]

theorem loadCode_of_empty (hfits : image.Loads s → image.Fits s) (hs : s.isCodeOrData)
    (hcopies : ¬ image.Copies s)
    (hmemory : memory.length = (roundupPage image.sizeOfImage).toNat) :
    image.loadCode memory s = .ok memory := by
  by_cases hloads : image.Loads s
  · have hzero : s.mVirtualSize = 0 := not_not.mp fun hne => hcopies ⟨hloads, hne⟩
    obtain ⟨temp, memory', -, hcode, hpatch, -⟩ := loadCode_of_fits hloads (hfits hloads) hmemory
    have hround : (roundupPage s.mVirtualSize).toNat = 0 := by
      rw [hzero]
      rfl
    rw [hround, List.take_zero] at hpatch
    rw [hcode, (patchAt_ok_iff.mp hpatch).2.symm]
    simp [splice]
  · have hnone : loadSectionPe image.file image.sectionTable s.mName = .ok none := by
      by_contra hsome
      exact hloads ⟨hs, hsome⟩
    rw [loadCode, hnone, ok_bind, Option.elim_none]

theorem isImport_of_isCodeOrData (h : s.isCodeOrData) : ¬ s.isImport := by
  simp [PeImageSectionHeader.isImport, h]

theorem loadTurn_cases (h : image.Placeable) (hcompletes : image.Completes)
    (hvalid : image.Valid) (hs : s ∈ image.sectionTable)
    (hmemory : memory.length = pages image.sizeOfImage.toNat) :
    (image.Copies s ∧ ¬ s.isImport ∧ ∃ temp memory', image.loadTurn memory s = .ok memory' ∧
      patchAt LoadFailure.outOfBounds memory s.mVirtualAddress.toNat temp = .ok memory' ∧
      temp.length = pages s.mVirtualSize.toNat ∧
      ∀ k, k < s.mVirtualSize.toNat → temp[k]? = some (image.sectionByte s k)) ∨
    (¬ image.Copies s ∧ s.isImport ∧
      image.loadTurn memory s = run image.patchImport memory image.imports) ∨
    (¬ image.Copies s ∧ ¬ s.isImport ∧ image.loadTurn memory s = .ok memory) := by
  have hfits := h.contained s (hcompletes.reached hs)
  rw [loadTurn]
  by_cases hcode : s.isCodeOrData
  · have himport := isImport_of_isCodeOrData hcode
    rw [if_pos hcode]
    by_cases hcopies : image.Copies s
    · exact .inl ⟨hcopies, himport, loadCode_of_copies h hcompletes hvalid hs
        (hfits hcopies.1) hcopies hmemory⟩
    · exact .inr (.inr ⟨hcopies, himport, loadCode_of_empty hfits hcode hcopies
        (hmemory.trans (toNat_roundupPage h.size).symm)⟩)
  · have hcopies : ¬ image.Copies s := fun hcopies => hcode hcopies.1.1
    rw [if_neg hcode]
    by_cases himport : s.isImport
    · rw [if_pos himport]
      exact .inr (.inl ⟨hcopies, himport, rfl⟩)
    · rw [if_neg himport]
      exact .inr (.inr ⟨hcopies, himport, rfl⟩)

end Sections

/-! ## The whole table -/

section Runs

variable {image} {s t : PeImageSectionHeader} {memory memory' : Bytes}
  {sections : List PeImageSectionHeader}

theorem slots_of_import (hs : s ∈ image.sectionTable) (himport : s.isImport) :
    image.slots = image.importSlots image.imports := by
  have hany : image.sectionTable.any PeImageSectionHeader.isImport :=
    List.any_eq_true.mpr ⟨s, hs, himport⟩
  rw [slots, if_pos hany, importSlots]

theorem copySection_ok {temp : Bytes} (h : copySection memory s temp = .ok memory') :
    (roundupPage s.mVirtualSize).toNat ≤ temp.length ∧
      (roundupPage s.mVirtualAddress).toNat + (roundupPage s.mVirtualSize).toNat ≤
        memory.length ∧ memory'.length = memory.length := by
  rw [copySection] at h
  split at h
  · next hsize =>
    have hlength := List.length_take_of_le hsize
    have hinside := (patchAt_ok_iff.mp h).1
    rw [hlength] at hinside
    exact ⟨hsize, hinside, length_of_patchAt h⟩
  · cases h

theorem length_loadTurn (h : image.loadTurn memory s = .ok memory') :
    memory'.length = memory.length := by
  rw [loadTurn] at h
  split at h
  · obtain ⟨temp, -, hcopy⟩ := bind_ok h
    cases temp with
    | none =>
        cases hcopy
        rfl
    | some temp => exact (copySection_ok hcopy).2.2
  · split at h
    · exact length_patchSlots (patchSlots_of_imports h)
    · cases h
      rfl

theorem length_loadTurns (h : run image.loadTurn memory sections = .ok memory') :
    memory'.length = memory.length := by
  refine run_invariant (P := fun m => m.length = memory.length) ?_ rfl h
  intro m s m' hm hstep
  rw [length_loadTurn hstep, hm]

theorem loadTurn_safe (h : image.Placeable) (hvalid : image.Valid)
    (hs : s ∈ image.sectionTable) (hfits : image.Loads s → image.Fits s)
    (hmemory : memory.length = (roundupPage image.sizeOfImage).toNat) :
    image.loadTurn memory s ≠ .error .outOfBounds := by
  rw [loadTurn]
  by_cases hcode : s.isCodeOrData
  · rw [if_pos hcode]
    by_cases hloads : image.Loads s
    · obtain ⟨-, memory', -, hok, -⟩ :=
        loadCode_of_fits hloads (hfits hloads) hmemory
      simp [hok]
    · have hcopies : ¬ image.Copies s := fun hcopies => hloads hcopies.1
      simp [loadCode_of_empty hfits hcode hcopies hmemory]
  · rw [if_neg hcode]
    by_cases himport : s.isImport
    · rw [if_pos himport]
      refine patchImports_safe fun slot hslot => ?_
      rw [← slots_of_import hs himport] at hslot
      rw [hmemory, toNat_roundupPage h.size]
      exact (hvalid.slotInside slot hslot).trans (le_pages _)
    · simp [himport]

theorem loadTurns_safe (h : image.Placeable) (hvalid : image.Valid)
    (hsections : ∀ s ∈ sections, image.Reached s)
    (hmemory : memory.length = (roundupPage image.sizeOfImage).toNat) :
    run image.loadTurn memory sections ≠ .error .outOfBounds := by
  refine run_ne_error (P := fun m => m.length = (roundupPage image.sizeOfImage).toNat) hmemory
    ?_ ?_
  · exact fun m s hs hm => loadTurn_safe h hvalid (hsections s hs).1
      (h.contained s (hsections s hs)) hm
  · intro m s m' hm hstep
    rw [length_loadTurn hstep, hm]

theorem table_of_not_completes (h : ¬ image.Completes) :
    ∃ before s after, image.sectionTable = before ++ s :: after ∧ s.isImport ∧
      before = image.sectionTable.takeWhile fun t => !t.isImport := by
  obtain ⟨-, hsome⟩ := not_or.mp h
  push Not at hsome
  obtain ⟨t, ht, himport⟩ := hsome
  have hsplit := List.takeWhile_append_dropWhile (p := fun t => !t.isImport)
    (l := image.sectionTable)
  cases hdrop : image.sectionTable.dropWhile fun t => !t.isImport with
  | nil =>
      have hall := List.dropWhile_eq_nil_iff.mp hdrop t ht
      simp [himport] at hall
  | cons s after =>
      have hhead := List.head_dropWhile_not (fun t : PeImageSectionHeader => !t.isImport)
        (l := image.sectionTable) (by rw [hdrop]; exact List.cons_ne_nil _ _)
      refine ⟨_, s, after, ?_, ?_, rfl⟩
      · rw [← hdrop, hsplit]
      · simpa [hdrop] using hhead

theorem resolved_of_patchImports {imports : List PeImport}
    (h : run image.patchImport memory imports = .ok memory') :
    ∀ import_ ∈ imports, ∃ addresses, import_.addresses = some addresses ∧
      ∀ address ∈ addresses, address ≠ none := by
  induction imports generalizing memory with
  | nil => simp
  | cons first imports ih =>
      obtain ⟨mid, hstep, hrest⟩ := (run_cons_ok _).mp h
      intro import_ himport
      rcases List.mem_cons.mp himport with rfl | himport
      · obtain ⟨addresses, haddresses, hslots⟩ := patchImport_ok hstep
        refine ⟨addresses, haddresses, fun address haddress => ?_⟩
        obtain ⟨i, hget⟩ := List.mem_iff_getElem?.mp haddress
        have hentry : (address, i) ∈ addresses.zipIdx := by
          rw [List.mem_zipIdx_iff_getElem?]
          exact hget
        exact resolved_of_patchSlots hslots _ (List.mem_map_of_mem hentry)
      · exact ih hrest import_ himport

theorem loadTurn_of_import (himport : s.isImport)
    (h : image.loadTurn memory s = .ok memory') : image.Resolved := by
  have hcode : ¬ s.isCodeOrData := fun hcode => isImport_of_isCodeOrData hcode himport
  rw [loadTurn, if_neg hcode, if_pos himport] at h
  exact resolved_of_patchImports h

theorem loadSections_of_not_completes (h : ¬ image.Completes) :
    image.loadSections ≠ .ok memory := by
  intro hload
  obtain ⟨before, s, after, htable, himport, -⟩ := table_of_not_completes h
  rw [loadSections, htable, run_append_ok] at hload
  obtain ⟨mid, -, hrest⟩ := hload
  obtain ⟨mid', hturn, -⟩ := (run_cons_ok _).mp hrest
  exact h (.inl (loadTurn_of_import himport hturn))

theorem loadSections_safe (h : image.Placeable) (hvalid : image.Valid) :
    image.loadSections ≠ .error .outOfBounds := by
  by_cases hcompletes : image.Completes
  · exact loadTurns_safe h hvalid (fun s hs => hcompletes.reached hs) (length_zeros _)
  · obtain ⟨before, s, after, htable, himport, hbefore⟩ := table_of_not_completes hcompletes
    have hreached : ∀ t ∈ before, image.Reached t := fun t ht =>
      ⟨by simp [htable, ht], .inr (hbefore ▸ ht)⟩
    rw [loadSections, htable]
    intro hfail
    rcases (run_append_error _).mp hfail with hfail | ⟨mid, hok, hfail⟩
    · exact loadTurns_safe h hvalid hreached (length_zeros _) hfail
    · have hmid := length_loadTurns hok
      rw [length_zeros] at hmid
      have hsafe := loadTurn_safe h hvalid (s := s) (by simp [htable])
        (fun hloads => absurd himport (isImport_of_isCodeOrData hloads.1)) hmid
      rw [run] at hfail
      cases hturn : image.loadTurn mid s with
      | ok mid' => exact hcompletes (.inl (loadTurn_of_import himport hturn))
      | error failure =>
          rw [hturn] at hfail hsafe
          exact hsafe hfail

theorem slice_loadTurns (h : image.Placeable) (hcompletes : image.Completes)
    (hvalid : image.Valid)
    (hsections : ∀ s ∈ sections, s ∈ image.sectionTable)
    (hmemory : memory.length = pages image.sizeOfImage.toNat) {a n : Nat}
    (hcopies : ∀ s ∈ sections, image.Copies s →
      RangesApart s.mVirtualAddress.toNat (pages s.mVirtualSize.toNat) a n)
    (hslots : ∀ s ∈ sections, s.isImport → ∀ slot ∈ image.slots,
      RangesApart slot.1 image.magic.slotSize a n)
    (hrun : run image.loadTurn memory sections = .ok memory') :
    slice memory' a n = slice memory a n := by
  induction sections generalizing memory with
  | nil =>
      cases hrun
      rfl
  | cons s sections ih =>
      obtain ⟨mid, hstep, hrest⟩ := (run_cons_ok _).mp hrun
      have hs := hsections s (List.mem_cons_self ..)
      have hturn : slice mid a n = slice memory a n := by
        rcases loadTurn_cases h hcompletes hvalid hs hmemory with
          ⟨hloads, -, temp, memory', hcopied, hpatch, hlength, -⟩ | ⟨-, himport, hpatched⟩ |
            ⟨-, -, hkept⟩
        · cases hstep.symm.trans hcopied
          have hapart := hcopies s (List.mem_cons_self ..) hloads
          exact slice_of_patchAt_apart hpatch (by rwa [hlength])
        · have hpatches := patchSlots_of_imports (hpatched.symm.trans hstep)
          rw [← slots_of_import hs himport] at hpatches
          exact slice_patchSlots hpatches (hslots s (List.mem_cons_self ..) himport)
        · cases hstep.symm.trans hkept
          rfl
      rw [← hturn]
      exact ih (fun s' hs' => hsections s' (List.mem_cons_of_mem _ hs'))
        (by rw [length_loadTurn hstep, hmemory])
        (fun s' hs' => hcopies s' (List.mem_cons_of_mem _ hs'))
        (fun s' hs' => hslots s' (List.mem_cons_of_mem _ hs')) hrest

theorem slice_one {a : Nat} {byte : UInt8} :
    slice memory a 1 = [byte] ↔ memory[a]? = some byte := by
  rw [slice, ← Nat.add_zero a, ← List.getElem?_drop]
  cases memory.drop (a + 0) with
  | nil => simp
  | cons x rest => simp

theorem pages_apart {a n b m k : Nat} (ha : a % 4096 = 0) (hb : b % 4096 = 0)
    (h : RangesApart a n b m) (hk : k < n) : RangesApart b (pages m) (a + k) 1 := by
  rw [RangesApart, pages] at *
  omega

theorem turn_of_loadSections {before after : List PeImageSectionHeader}
    (htable : image.sectionTable = before ++ s :: after)
    (hload : image.loadSections = .ok memory) :
    ∃ mid mid', mid.length = (roundupPage image.sizeOfImage).toNat ∧
      image.loadTurn mid s = .ok mid' ∧ run image.loadTurn mid' after = .ok memory := by
  rw [loadSections, htable, run_append_ok] at hload
  obtain ⟨mid, hbefore, hrest⟩ := hload
  obtain ⟨mid', hturn, hafter⟩ := (run_cons_ok _).mp hrest
  have hmid := length_loadTurns hbefore
  rw [length_zeros] at hmid
  exact ⟨mid, mid', hmid, hturn, hafter⟩

theorem placed_sections (h : image.Placeable) (hcompletes : image.Completes)
    (hvalid : image.Valid)
    (hload : image.loadSections = .ok memory) (hs : s ∈ image.sectionTable)
    (hcopies : image.Copies s) {k : Nat} (hk : k < s.mVirtualSize.toNat)
    (hslots : ∀ slot ∈ image.slots,
      RangesApart slot.1 image.magic.slotSize (s.mVirtualAddress.toNat + k) 1) :
    memory[s.mVirtualAddress.toNat + k]? = some (image.sectionByte s k) := by
  obtain ⟨before, after, htable⟩ := List.append_of_mem hs
  obtain ⟨mid, mid', hmid, hturn, hafter⟩ := turn_of_loadSections htable hload
  rw [toNat_roundupPage h.size] at hmid
  have hmid' := (length_loadTurn hturn).trans hmid
  -- the copy of the section itself, and then what the later turns leave of it
  have hplaced : mid'[s.mVirtualAddress.toNat + k]? = some (image.sectionByte s k) := by
    rcases loadTurn_cases h hcompletes hvalid hs hmid with
      ⟨-, -, temp, memory', hcopied, hpatch, hlength, hbytes⟩ | ⟨hnot, -⟩ | ⟨hnot, -⟩
    · cases hturn.symm.trans hcopied
      rw [getElem?_of_patchAt hpatch (by rw [hlength]; exact hk.trans_le (le_pages _)),
        hbytes k hk]
    · exact absurd hcopies hnot
    · exact absurd hcopies hnot
  have hlater : ∀ t ∈ after, t ∈ image.sectionTable := by
    intro t ht
    simp [htable, ht]
  rw [← slice_one] at hplaced ⊢
  rw [← hplaced]
  refine slice_loadTurns h hcompletes hvalid hlater hmid' ?_ (fun t ht himport => hslots) hafter
  intro t ht htcopies
  have hapart := hvalid.apart
  rw [htable, List.pairwise_append, List.pairwise_cons] at hapart
  exact pages_apart (h.aligned hcompletes s hs hcopies)
    (h.aligned hcompletes t (hlater t ht) htcopies)
    (hapart.2.1.1 t ht) hk

theorem exists_last {p : PeImageSectionHeader → Prop} (h : ∃ s ∈ sections, p s) :
    ∃ before s after, sections = before ++ s :: after ∧ p s ∧ ∀ t ∈ after, ¬ p t := by
  induction sections with
  | nil => simp at h
  | cons first sections ih =>
      by_cases hlater : ∃ s ∈ sections, p s
      · obtain ⟨before, s, after, rfl, hs, hafter⟩ := ih hlater
        exact ⟨first :: before, s, after, rfl, hs, hafter⟩
      · obtain ⟨s, hs, hp⟩ := h
        rcases List.mem_cons.mp hs with rfl | hs
        · exact ⟨[], s, sections, rfl, hp, fun t ht htp => hlater ⟨t, ht, htp⟩⟩
        · exact absurd ⟨s, hs, hp⟩ hlater

theorem placed_slots (h : image.Placeable) (hcompletes : image.Completes)
    (hvalid : image.Valid)
    (hload : image.loadSections = .ok memory) {slot : Nat × Option Nat}
    (hslot : slot ∈ image.slots) {address : Nat} (haddress : slot.2 = some address) :
    slice memory slot.1 image.magic.slotSize = leBytes image.magic.slotSize address := by
  have himports : ∃ s ∈ image.sectionTable, s.isImport = true := by
    by_contra hnone
    rw [slots, if_neg (by simpa using hnone)] at hslot
    cases hslot
  obtain ⟨before, s, after, htable, himport, hlast⟩ := exists_last himports
  have hs : s ∈ image.sectionTable := by simp [htable]
  obtain ⟨mid, mid', hmid, hturn, hafter⟩ := turn_of_loadSections htable hload
  rw [toNat_roundupPage h.size] at hmid
  have hmid' := (length_loadTurn hturn).trans hmid
  have hheld : slice mid' slot.1 image.magic.slotSize =
      leBytes image.magic.slotSize address := by
    rcases loadTurn_cases h hcompletes hvalid hs hmid with
      ⟨-, hnot, -⟩ | ⟨-, -, hpatched⟩ | ⟨-, hnot, -⟩
    · exact absurd himport hnot
    · have hpatches := patchSlots_of_imports (hpatched.symm.trans hturn)
      rw [← slots_of_import hs himport] at hpatches
      exact patchSlots_hold hpatches hvalid.slotApart hslot haddress
    · exact absurd himport hnot
  have hlater : ∀ t ∈ after, t ∈ image.sectionTable := by
    intro t ht
    simp [htable, ht]
  rw [← hheld]
  refine slice_loadTurns h hcompletes hvalid hlater hmid' ?_
    (fun t ht hlate => absurd hlate (hlast t ht)) hafter
  intro t ht htloads
  obtain ⟨between, behind, rfl⟩ := List.append_of_mem ht
  refine h.unpatched hcompletes (before ++ s :: between) t behind ?_ htloads ?_ slot hslot
  · simp [htable]
  · exact fun u hu => hlast u (by simp [hu])

theorem patchAt_ne_unresolved {bytes : Bytes} {off : Nat} :
    patchAt LoadFailure.outOfBounds memory off bytes ≠ .error .unresolved := by
  rw [patchAt]
  split <;> simp

theorem patchImport_ne_unresolved {import_ : PeImport} {addresses : List (Option Nat)}
    (haddresses : import_.addresses = some addresses)
    (h : ∀ address ∈ addresses, address ≠ none) :
    image.patchImport memory import_ ≠ .error .unresolved := by
  rw [patchImport, haddresses, Option.elim_some]
  refine run_ne_error (P := fun _ => True) trivial (fun m slot hslot _ => ?_)
    fun _ _ _ _ _ => trivial
  obtain ⟨entry, hentry, rfl⟩ := List.mem_map.mp hslot
  have hmem : entry.1 ∈ addresses := List.fst_mem_of_mem_zipIdx hentry
  obtain ⟨address, haddress⟩ := Option.ne_none_iff_exists'.mp (h entry.1 hmem)
  rw [patchSlot, haddress]
  exact patchAt_ne_unresolved

theorem loadSectionPe_ne_unresolved {file name : Bytes} {header : List PeImageSectionHeader} :
    loadSectionPe file header name ≠ .error .unresolved := by
  rw [loadSectionPe]
  split
  · simp
  · split
    · simp
    · split
      · simp
      · rw [patchAt]
        split <;> simp [Except.map]

theorem loadCode_ne_unresolved : image.loadCode memory s ≠ .error .unresolved := by
  rw [loadCode]
  cases htemp : loadSectionPe image.file image.sectionTable s.mName with
  | error failure =>
      have hnot := @loadSectionPe_ne_unresolved image.file s.mName image.sectionTable
      rw [htemp] at hnot
      rw [error_bind]
      simpa using hnot
  | ok temp =>
      rw [ok_bind]
      cases temp with
      | none => simp
      | some temp =>
          rw [Option.elim_some, copySection]
          split
          · exact patchAt_ne_unresolved
          · simp

theorem loadTurn_ne_unresolved (h : s.isImport → image.Resolved) :
    image.loadTurn memory s ≠ .error .unresolved := by
  rw [loadTurn]
  split
  · exact loadCode_ne_unresolved
  · split
    · next himports =>
      refine run_ne_error (P := fun _ => True) trivial (fun m import_ himport _ => ?_)
        fun _ _ _ _ _ => trivial
      obtain ⟨addresses, haddresses, hsome⟩ := h himports import_ himport
      exact patchImport_ne_unresolved haddresses hsome
    · simp

theorem fits_of_turn (hloads : image.Loads s)
    (hmemory : memory.length = (roundupPage image.sizeOfImage).toNat)
    (h : image.loadTurn memory s = .ok memory') : image.Fits s := by
  rw [loadTurn, if_pos hloads.1] at h
  obtain ⟨temp, htemp, hcopy⟩ := bind_ok h
  cases temp with
  | none => exact absurd htemp hloads.2
  | some temp =>
      obtain ⟨hsize, hinside, -⟩ := copySection_ok hcopy
      rw [loadSectionPe] at htemp
      cases hfind : findSectionPe image.sectionTable s.mName with
      | none =>
          rw [hfind] at htemp
          cases htemp
      | some found =>
          rw [hfind] at htemp
          dsimp only at htemp
          split at htemp
          · cases htemp
          · split at htemp
            · cases htemp
            · next data hread =>
              obtain ⟨-, hfile, hdata⟩ := readSocket_eq_some_iff.mp hread
              obtain ⟨temp', hpatch, hsome⟩ := map_ok htemp
              cases hsome
              have hfits := (patchAt_ok_iff.mp hpatch).1
              rw [← hdata, length_slice _ hfile, length_zeros] at hfits
              have hlength := length_of_patchAt hpatch
              rw [length_zeros] at hlength
              exact ⟨found, hfind, by omega, by omega, by omega⟩

theorem loadTurns_ok (hsafe : image.loadSections ≠ .error .outOfBounds)
    {before after : List PeImageSectionHeader} (htable : image.sectionTable = before ++ after)
    (hresolved : ∀ s ∈ before, s.isImport → image.Resolved) :
    ∃ mid, run image.loadTurn (zeros (roundupPage image.sizeOfImage).toNat) before = .ok mid := by
  cases hrun : run image.loadTurn (zeros (roundupPage image.sizeOfImage).toNat) before with
  | ok mid => exact ⟨mid, rfl⟩
  | error failure =>
      cases failure with
      | outOfBounds =>
          rw [loadSections, htable] at hsafe
          exact absurd ((run_append_error _).mpr (.inl hrun)) hsafe
      | unresolved =>
          refine absurd hrun (run_ne_error (P := fun _ => True) trivial ?_ ?_)
          · exact fun m s hs _ => loadTurn_ne_unresolved (hresolved s hs)
          · exact fun _ _ _ _ _ => trivial

theorem contained_of_safe (hsafe : image.loadSections ≠ .error .outOfBounds) :
    image.Contained := by
  rintro s ⟨hs, hreached⟩ hloads
  -- the part of the table up to the section, with nothing in it that stops the loop
  have hpart : ∃ before after, image.sectionTable = (before ++ [s]) ++ after ∧
      ∀ t ∈ before ++ [s], t.isImport → image.Resolved := by
    rcases hreached with hresolved | hfront
    · obtain ⟨before, after, htable⟩ := List.append_of_mem hs
      exact ⟨before, after, by rw [htable]; simp, fun _ _ _ => hresolved⟩
    · obtain ⟨before, after, hbefore⟩ := List.append_of_mem hfront
      have hsplit := List.takeWhile_append_dropWhile (p := fun t : PeImageSectionHeader =>
        !t.isImport) (l := image.sectionTable)
      rw [hbefore] at hsplit
      refine ⟨before, after ++ image.sectionTable.dropWhile fun t => !t.isImport, ?_, ?_⟩
      · exact hsplit.symm.trans (by simp)
      · intro t ht himport
        have hmem : t ∈ image.sectionTable.takeWhile fun t => !t.isImport := by
          rw [hbefore]
          rcases List.mem_append.mp ht with ht | ht
          · exact List.mem_append_left _ ht
          · rw [List.mem_singleton.mp ht]
            exact List.mem_append_right _ (List.mem_cons_self ..)
        have := List.mem_takeWhile_imp hmem
        simp [himport] at this
  obtain ⟨before, after, htable, hresolved⟩ := hpart
  obtain ⟨memory, hrun⟩ := loadTurns_ok hsafe htable hresolved
  obtain ⟨mid, hbefore, hlast⟩ := (run_append_ok _).mp hrun
  obtain ⟨mid', hturn, -⟩ := (run_cons_ok _).mp hlast
  have hmid := length_loadTurns hbefore
  rw [length_zeros] at hmid
  exact fits_of_turn hloads hmid hturn

end Runs

end PeImage

/--
An image whose sections start pages, are the first of their names and have raw data
for no more than their pages is loaded as it should be, unless slots are patched before
pages are copied over them; all of this is asked for only as far as the loop over the
table comes.  That what the loop comes to is contained is needed in any case.
-/
theorem placesRight_of_placeable {image : PeImage} (hvalid : image.Valid) :
    (image.Placeable → image.PlacesRight) ∧ (image.PlacesRight → image.Contained) := by
  refine ⟨fun h => ⟨PeImage.loadSections_safe h hvalid, fun memory hload => ?_⟩,
    fun hright => PeImage.contained_of_safe hright.safe⟩
  have hcompletes : image.Completes := by
    by_contra hstops
    exact PeImage.loadSections_of_not_completes hstops hload
  constructor
  · intro s hs hloads k hk hslots
    have hcopies : image.Copies s := ⟨hloads, fun hzero => by
      rw [hzero] at hk
      cases hk⟩
    exact PeImage.placed_sections h hcompletes hvalid hload hs hcopies hk hslots
  · intro slot hslot address haddress
    exact PeImage.placed_slots h hcompletes hvalid hload hslot haddress

/-- A code section of four bytes at `32`, as in images whose sections are aligned to 32 bytes. -/
def denseImage : PeImage where
  file := [1, 2, 3, 4]
  magic := .pe32Plus
  sizeOfImage := 64
  sectionTable := [⟨peCodeSection, 4, 32, 4, 0⟩]
  imports := []

theorem valid_denseImage : denseImage.Valid where
  inside := by decide
  apart := List.pairwise_singleton _ _
  slotInside := by
    intro slot hslot
    cases hslot
  slotApart := .nil

def pagedImage : PeImage where
  file := [1, 2, 3, 4]
  magic := .pe32Plus
  sizeOfImage := 12288
  sectionTable := [⟨peCodeSection, 4, 8192, 4, 0⟩, ⟨peImportSection, 8, 4096, 4, 0⟩]
  imports := [⟨4096, some [some 0x1234]⟩]

theorem slots_pagedImage : pagedImage.slots = [(4096, some 0x1234)] := rfl

theorem valid_pagedImage : pagedImage.Valid where
  inside := by decide
  apart := List.pairwise_pair.mpr (.inr (by decide))
  slotInside := by
    rw [slots_pagedImage]
    decide
  slotApart := by
    rw [slots_pagedImage]
    exact List.pairwise_singleton _ _

theorem placeable_pagedImage : pagedImage.Placeable := by
  -- only the first section is code or data
  have honly : ∀ s ∈ pagedImage.sectionTable, pagedImage.Loads s →
      s = ⟨peCodeSection, 4, 8192, 4, 0⟩ := by
    rintro s hs ⟨hcode, -⟩
    rcases List.mem_pair.mp hs with rfl | rfl
    · rfl
    · exact absurd hcode (by decide)
  refine ⟨by decide, ?_, ?_, ?_, ?_⟩
  · intro s hs hloads
    rw [honly s hs.1 hloads]
    exact ⟨⟨peCodeSection, 4, 8192, 4, 0⟩, by decide, by decide, by decide, by decide⟩
  · intro _ s hs hcopies
    rw [honly s hs hcopies.1]
    decide
  · intro _ s hs hcopies
    rw [honly s hs hcopies.1]
    decide
  · intro _ before s after htable hcopies _ slot hslot
    rw [honly s (by simp [htable]) hcopies.1]
    rw [slots_pagedImage] at hslot
    rw [List.mem_singleton.mp hslot]
    exact .inr (by decide)

theorem placesRight_pagedImage : pagedImage.Placeable ∧ pagedImage.PlacesRight :=
  ⟨placeable_pagedImage, (placesRight_of_placeable valid_pagedImage).1 placeable_pagedImage⟩

/-- Its copy starts at the end of the one page that is allocated. -/
theorem not_placesRight_denseImage : denseImage.Valid ∧ ¬ denseImage.PlacesRight := by
  refine ⟨valid_denseImage, fun hright => ?_⟩
  have hresolved : denseImage.Resolved := by
    intro import_ himport
    cases himport
  have hloads : denseImage.Loads ⟨peCodeSection, 4, 32, 4, 0⟩ := by
    refine ⟨by decide, fun hnone => ?_⟩
    have hload : loadSectionPe denseImage.file denseImage.sectionTable peCodeSection =
        (patchAt LoadFailure.outOfBounds (zeros (roundupPage 4).toNat) 0 [1, 2, 3, 4]).map some :=
      rfl
    rw [hload] at hnone
    obtain ⟨temp, -, hsome⟩ := map_ok hnone
    cases hsome
  obtain ⟨found, -, -, -, hinside⟩ :=
    PeImage.contained_of_safe hright.safe _ ⟨List.mem_singleton_self _, .inl hresolved⟩ hloads
  exact absurd hinside (by decide)

end BlockyOS.Loader
