import BlockyOS.Foundation.Bytes

/-!
# Sections of an executable file

An RVA inside a section is resolved in two ways: `GetAtRVAFromSectionDataPe`
points into the raw data of the section that was read before, and
`ReadAtRVAFromSectionPe` reads the bytes from the file.  The first goes by the
size of the raw data and the second by the virtual size.
-/

namespace BlockyOS.Loader

open BlockyOS.Foundation

/-! ## The file and its section table -/

inductive PeOptionalHeaderType where
  | pe32
  | pe32Plus
  deriving DecidableEq, Repr

/-- `PeImageSectionHeader`, up to the fields for relocations and line numbers. -/
structure PeImageSectionHeader where
  mName : Bytes
  mVirtualSize : UInt32
  mVirtualAddress : UInt32
  mSizeOfRawData : UInt32
  mPointerToRawData : UInt32
  deriving DecidableEq, Repr

/-- `.idata`, padded. -/
def peImportSection : Bytes := [46, 105, 100, 97, 116, 97, 0, 0]

/-- `strncmpa(a, b, 8)` finds no difference: it stops at a zero byte. -/
def sameName (a b : Bytes) : Bool :=
  (a.take 8).takeWhile (· ≠ 0) = (b.take 8).takeWhile (· ≠ 0)

def findSectionPe (header : List PeImageSectionHeader) (name : Bytes) :
    Option PeImageSectionHeader :=
  header.find? fun section_ => sameName section_.mName name

/-- A socket read, if it gives all the bytes: not behind the file, and not none at all. -/
def readSocket (file : Bytes) (pos n : Nat) : Option Bytes :=
  if n ≠ 0 ∧ pos + n ≤ file.length then some (slice file pos n) else none

theorem readSocket_eq_some_iff {file : Bytes} {pos n : Nat} {bytes : Bytes} :
    readSocket file pos n = some bytes ↔
      n ≠ 0 ∧ pos + n ≤ file.length ∧ slice file pos n = bytes := by
  rw [readSocket, Option.ite_none_right_eq_some, Option.some_inj, and_assoc]

/-! ## Two ways to resolve an RVA -/

def rvaToFileOffsetPe (rva : UInt32) (section_ : PeImageSectionHeader) : UInt32 :=
  let startRVA := section_.mVirtualAddress
  let endRVA := startRVA + section_.mVirtualSize
  if startRVA ≤ rva ∧ rva < endRVA then
    if section_.mPointerToRawData = 0 then 0
    else (rva - startRVA) + section_.mPointerToRawData
  else 0

def getAtRVAFromSectionDataPe (RVA : UInt32) (name : Bytes) (header : List PeImageSectionHeader) :
    Option UInt32 :=
  (findSectionPe header name).bind fun section_ =>
    if RVA < section_.mVirtualAddress then none
    else
      let sectionOffset := RVA - section_.mVirtualAddress
      if section_.mSizeOfRawData ≤ sectionOffset then none else some sectionOffset

def readAtRVAFromSectionPe (file : Bytes) (RVA size : UInt32) (name : Bytes)
    (header : List PeImageSectionHeader) : Option Bytes :=
  (findSectionPe header name).bind fun section_ =>
    let address := rvaToFileOffsetPe RVA section_
    if address = 0 then none else readSocket file address.toNat size.toNat

def readSectionPe (file : Bytes) (header : List PeImageSectionHeader) (name : Bytes) :
    Option Bytes :=
  (findSectionPe header name).bind fun section_ =>
    if section_.mSizeOfRawData = 0 then none
    else readSocket file section_.mPointerToRawData.toNat section_.mSizeOfRawData.toNat

/-- The `n` bytes of the file from `pos` on are raw data of the section. -/
def IsRawData (section_ : PeImageSectionHeader) (pos n : Nat) : Prop :=
  section_.mPointerToRawData.toNat ≤ pos ∧
    pos + n ≤ section_.mPointerToRawData.toNat + section_.mSizeOfRawData.toNat

/--
What the raw data holds at the RVA is what is read there, and what is read there
is raw data of the section.
-/
structure ResolvesAlike (file : Bytes) (header : List PeImageSectionHeader) (name : Bytes)
    (rva size : UInt32) : Prop where
  data : ∀ data off, readSectionPe file header name = some data →
    getAtRVAFromSectionDataPe rva name header = some off → off.toNat + size.toNat ≤ data.length →
    readAtRVAFromSectionPe file rva size name header = some (slice data off.toNat size.toNat)
  read : ∀ section_ bytes, findSectionPe header name = some section_ →
    readAtRVAFromSectionPe file rva size name header = some bytes →
    IsRawData section_ (rvaToFileOffsetPe rva section_).toNat size.toNat

section Resolution

variable (file : Bytes) (section_ : PeImageSectionHeader) (rva size : UInt32)

def sectionOffset : Nat := rva.toNat - section_.mVirtualAddress.toNat

def HoldsBytes : Prop :=
  section_.mVirtualAddress ≤ rva ∧
    sectionOffset section_ rva < section_.mSizeOfRawData.toNat ∧
    sectionOffset section_ rva + size.toNat ≤ section_.mSizeOfRawData.toNat ∧
    section_.mPointerToRawData.toNat + section_.mSizeOfRawData.toNat ≤ file.length

def IsVirtual : Prop :=
  section_.mVirtualAddress ≤ rva ∧
    sectionOffset section_ rva < section_.mVirtualSize.toNat ∧
    section_.mVirtualAddress.toNat + section_.mVirtualSize.toNat < 2 ^ 32

instance : Decidable (IsVirtual section_ rva) :=
  inferInstanceAs (Decidable (_ ∧ _ ∧ _))

def fileOffset : Nat := sectionOffset section_ rva + section_.mPointerToRawData.toNat

/--
Bytes of the raw data are in the virtual size and at a file offset of 32 bits, and
bytes that can be read at the RVA are in the raw data.
-/
structure SizesAgree : Prop where
  data : HoldsBytes file section_ rva size → size ≠ 0 ∧ section_.mPointerToRawData ≠ 0 ∧
    IsVirtual section_ rva ∧ fileOffset section_ rva < 2 ^ 32
  read : size ≠ 0 → section_.mPointerToRawData ≠ 0 → IsVirtual section_ rva →
    fileOffset section_ rva % 2 ^ 32 ≠ 0 →
    fileOffset section_ rva % 2 ^ 32 + size.toNat ≤ file.length →
    fileOffset section_ rva < 2 ^ 32 ∧
      sectionOffset section_ rva + size.toNat ≤ section_.mSizeOfRawData.toNat

variable {file section_ rva size}

theorem toNat_sub_start (h : section_.mVirtualAddress ≤ rva) :
    (rva - section_.mVirtualAddress).toNat = sectionOffset section_ rva :=
  UInt32.toNat_sub_of_le rva _ h

/-- The comparisons of the code leave out the sections whose end wraps. -/
theorem isVirtual_iff :
    (section_.mVirtualAddress ≤ rva ∧
      rva < section_.mVirtualAddress + section_.mVirtualSize) ↔ IsVirtual section_ rva := by
  have hsize := section_.mVirtualSize.toNat_lt
  have hrva := rva.toNat_lt
  simp only [IsVirtual, sectionOffset, UInt32.le_iff_toNat_le, UInt32.lt_iff_toNat_lt,
    UInt32.toNat_add]
  omega

theorem toNat_rvaToFileOffsetPe :
    (rvaToFileOffsetPe rva section_).toNat =
      if IsVirtual section_ rva ∧ section_.mPointerToRawData ≠ 0 then
        fileOffset section_ rva % 2 ^ 32 else 0 := by
  rw [rvaToFileOffsetPe]
  simp only [isVirtual_iff]
  by_cases hvirtual : IsVirtual section_ rva
  · rw [if_pos hvirtual]
    by_cases hpointer : section_.mPointerToRawData = 0
    · simp [hpointer]
    · rw [if_neg hpointer, if_pos ⟨hvirtual, hpointer⟩, UInt32.toNat_add,
        toNat_sub_start hvirtual.1, fileOffset]
  · rw [if_neg hvirtual, if_neg (fun h => hvirtual h.1)]
    rfl

variable {header : List PeImageSectionHeader} {name : Bytes}
  (hsection : findSectionPe header name = some section_)

include hsection

theorem getAtRVA_eq_some_iff {off : UInt32} :
    getAtRVAFromSectionDataPe rva name header = some off ↔
      section_.mVirtualAddress ≤ rva ∧ off.toNat = sectionOffset section_ rva ∧
        sectionOffset section_ rva < section_.mSizeOfRawData.toNat := by
  rw [getAtRVAFromSectionDataPe, hsection, Option.bind_some]
  by_cases hstart : section_.mVirtualAddress ≤ rva
  · rw [if_neg (UInt32.not_lt.mpr hstart)]
    simp only [Option.ite_none_left_eq_some, UInt32.not_le, Option.some_inj,
      UInt32.lt_iff_toNat_lt, ← UInt32.toNat_inj, toNat_sub_start hstart, hstart, true_and]
    grind
  · rw [if_pos (UInt32.not_le.mp hstart)]
    simp [hstart]

theorem readSectionPe_eq_some_iff {data : Bytes} :
    readSectionPe file header name = some data ↔
      section_.mSizeOfRawData ≠ 0 ∧
        section_.mPointerToRawData.toNat + section_.mSizeOfRawData.toNat ≤ file.length ∧
        slice file section_.mPointerToRawData.toNat section_.mSizeOfRawData.toNat = data := by
  rw [readSectionPe, hsection, Option.bind_some, Option.ite_none_left_eq_some,
    readSocket_eq_some_iff]
  simp only [ne_eq, ← UInt32.toNat_inj, UInt32.toNat_zero]
  tauto

theorem readAtRVA_eq_some_iff {bytes : Bytes} :
    readAtRVAFromSectionPe file rva size name header = some bytes ↔
      (IsVirtual section_ rva ∧ section_.mPointerToRawData ≠ 0) ∧
        fileOffset section_ rva % 2 ^ 32 ≠ 0 ∧ size ≠ 0 ∧
        fileOffset section_ rva % 2 ^ 32 + size.toNat ≤ file.length ∧
        slice file (fileOffset section_ rva % 2 ^ 32) size.toNat = bytes := by
  have hzero : rvaToFileOffsetPe rva section_ = 0 ↔ (rvaToFileOffsetPe rva section_).toNat = 0 :=
    UInt32.toNat_inj.symm
  have hsize : size.toNat ≠ 0 ↔ size ≠ 0 := not_congr (@UInt32.toNat_inj size 0)
  rw [readAtRVAFromSectionPe, hsection, Option.bind_some, Option.ite_none_left_eq_some,
    readSocket_eq_some_iff, hzero, hsize, toNat_rvaToFileOffsetPe]
  by_cases hreads : IsVirtual section_ rva ∧ section_.mPointerToRawData ≠ 0
  · rw [if_pos hreads]
    tauto
  · rw [if_neg hreads]
    simp [hreads]

end Resolution

/--
The two resolutions agree exactly where the virtual size and the size of the raw
data do: where the bytes that one of them gives lie within both.
-/
theorem resolvesAlike_iff (file : Bytes) (header : List PeImageSectionHeader) (name : Bytes)
    (rva size : UInt32) :
    ResolvesAlike file header name rva size ↔
      ∀ section_, findSectionPe header name = some section_ →
        SizesAgree file section_ rva size := by
  cases hfind : findSectionPe header name with
  | none =>
      have hdata : ∀ data, readSectionPe file header name ≠ some data := by
        simp [readSectionPe, hfind]
      exact iff_of_true ⟨fun data _ hread => absurd hread (hdata data), by simp [hfind]⟩ (by simp)
  | some section_ =>
      have hoffset := rva.toNat_lt
      simp only [Option.some_inj, forall_eq']
      constructor
      · rintro ⟨hdata, hread⟩
        have hinside : ∀ bytes, readAtRVAFromSectionPe file rva size name header = some bytes →
            fileOffset section_ rva < 2 ^ 32 ∧
              sectionOffset section_ rva + size.toNat ≤ section_.mSizeOfRawData.toNat := by
          intro bytes hbytes
          have hraw := hread section_ bytes hfind hbytes
          obtain ⟨hreads, -, hsize, -, -⟩ := (readAtRVA_eq_some_iff hfind).mp hbytes
          rw [IsRawData, toNat_rvaToFileOffsetPe, if_pos hreads] at hraw
          simp only [fileOffset, sectionOffset] at hraw ⊢
          omega
        refine ⟨fun ⟨hstart, hlow, hbytes, hfile⟩ => ?_, fun hsize hpointer hvirtual hzero hfile =>
          hinside _ ((readAtRVA_eq_some_iff hfind).mpr
            ⟨⟨hvirtual, hpointer⟩, hzero, hsize, hfile, rfl⟩)⟩
        have hsection := (readSectionPe_eq_some_iff hfind).mpr
          ⟨by rintro hzero; simp [hzero] at hlow, hfile, rfl⟩
        have hget := (getAtRVA_eq_some_iff hfind).mpr
          ⟨hstart, toNat_sub_start hstart, hlow⟩
        have hlength := length_slice file hfile
        have hsame := hdata _ _ hsection hget
          (by rw [hlength, toNat_sub_start hstart]; exact hbytes)
        obtain ⟨⟨hvirtual, hpointer⟩, -, hsize, -, -⟩ := (readAtRVA_eq_some_iff hfind).mp hsame
        exact ⟨hsize, hpointer, hvirtual, (hinside _ hsame).1⟩
      · rintro ⟨hdata, hread⟩
        refine ⟨fun data off hsection hget hbytes => ?_, fun section_' bytes hfind' hbytes => ?_⟩
        · obtain ⟨-, hfile, rfl⟩ := (readSectionPe_eq_some_iff hfind).mp hsection
          obtain ⟨hstart, hoff, hlow⟩ := (getAtRVA_eq_some_iff hfind).mp hget
          rw [length_slice file hfile, hoff] at hbytes
          obtain ⟨hsize, hpointer, hvirtual, hsmall⟩ := hdata ⟨hstart, hlow, hbytes, hfile⟩
          have hpos : section_.mPointerToRawData.toNat ≠ 0 := fun hzero =>
            hpointer (UInt32.toNat_inj.mp hzero)
          apply (readAtRVA_eq_some_iff hfind).mpr
          rw [Nat.mod_eq_of_lt hsmall, hoff, slice_slice file _ _ _ _ hbytes]
          rw [fileOffset] at hsmall ⊢
          exact ⟨⟨hvirtual, hpointer⟩, by omega, hsize, by omega, by rw [Nat.add_comm]⟩
        · rw [hfind] at hfind'
          cases hfind'
          obtain ⟨hreads, hzero, hsize, hfile, -⟩ := (readAtRVA_eq_some_iff hfind).mp hbytes
          obtain ⟨hsmall, hinside⟩ := hread hsize hreads.2 hreads.1 hzero hfile
          rw [IsRawData, toNat_rvaToFileOffsetPe, if_pos hreads, Nat.mod_eq_of_lt hsmall,
            fileOffset]
          omega

/-- A section whose virtual size is larger than its raw data, and the next one behind it. -/
def sampleSection : PeImageSectionHeader where
  mName := [46, 116, 101, 120, 116, 0, 0, 0]
  mVirtualSize := 8
  mVirtualAddress := 4096
  mSizeOfRawData := 4
  mPointerToRawData := 4

theorem not_resolvesAlike_sampleSection :
    ¬ ResolvesAlike (zeros 12) [sampleSection] sampleSection.mName 4100 4 := by
  rintro ⟨-, hread⟩
  have hfind : findSectionPe [sampleSection] sampleSection.mName = some sampleSection := by
    decide
  have hbytes : readAtRVAFromSectionPe (zeros 12) 4100 4 sampleSection.mName [sampleSection] =
      some (zeros 4) := by
    decide
  have hraw := (hread _ _ hfind hbytes).2
  exact absurd hraw (by decide)

end BlockyOS.Loader
