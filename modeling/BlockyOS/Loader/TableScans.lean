import Mathlib.Order.Bounds.Basic
import BlockyOS.Foundation.Runs
import BlockyOS.Foundation.Trails
import BlockyOS.Foundation.Words
import BlockyOS.HostTool.Raw
import BlockyOS.Loader.Sections

/-!
# Scans of the import and relocation tables

`ExpandPeExecutableFormat` counts the entries of tables that end with a zero
entry, and follows the blocks of the relocation table by the sizes they name.
Nothing bounds the scans by the size of the section they read.
-/

namespace BlockyOS.Loader

open BlockyOS.Foundation
open BlockyOS.HostTool (Fault)

/-! ## Tables that end with a zero entry -/

/--
The comparisons of the entries from `n` on with zeros, `left` entries being left in
the data.  A comparison starts with the last byte of the entry.
-/
def countEntries (data : Bytes) (off width : Nat) : Nat → Nat → Except Fault Nat
  | 0, _ => .error .outOfBounds
  | left + 1, n =>
      if slice data (off + width * n) width = zeros width then .ok n
      else countEntries data off width left (n + 1)

def countTable (data : Bytes) (off width : Nat) : Except Fault Nat :=
  countEntries data off width ((data.length - off) / width) 0

/-- The table at `off` has `n` entries, and a zero entry behind them. -/
structure Terminated (data : Bytes) (off width n : Nat) : Prop where
  inside : off + width * (n + 1) ≤ data.length
  stop : slice data (off + width * n) width = zeros width
  before : ∀ m < n, slice data (off + width * m) width ≠ zeros width

/-! ## Imports -/

/-- `.reloc`, padded. -/
def peRelocDataSection : Bytes := [46, 114, 101, 108, 111, 99, 0, 0]

def sizeofImportLookupEntry : PeOptionalHeaderType → Nat
  | .pe32 => 4
  | .pe32Plus => 8

def sizeofImportDirectoryEntry : Nat := 20

/-- The lookup table of import `cc`, or else its address table. -/
def lookupRVA (imports : Bytes) (cc : Nat) : Nat :=
  let importLookupTableRVA := fieldNat imports (sizeofImportDirectoryEntry * cc) 4
  if importLookupTableRVA ≠ 0 then importLookupTableRVA
  else fieldNat imports (sizeofImportDirectoryEntry * cc + 16) 4

/-- Where the lookup table of import `cc` is in the section. -/
def lookupTable (header : List PeImageSectionHeader) (imports : Bytes) (cc : Nat) : Option Nat :=
  (getAtRVAFromSectionDataPe (UInt32.ofNat (lookupRVA imports cc)) peImportSection header).map
    UInt32.toNat

/-- `nEntries[cc]`, which stays zero where the table is not found. -/
def countLookups (mMagic : PeOptionalHeaderType) (header : List PeImageSectionHeader)
    (imports : Bytes) (cc : Nat) : Except Fault Nat :=
  (lookupTable header imports cc).elim (.ok 0) fun off =>
    countTable imports off (sizeofImportLookupEntry mMagic)

/-- The loop over the imports from `cc` on, `n` of them. -/
def lookupLoop (mMagic : PeOptionalHeaderType) (header : List PeImageSectionHeader)
    (imports : Bytes) : Nat → Nat → Except Fault (List Nat)
  | 0, _ => .ok []
  | n + 1, cc => do
      let nEntry ← countLookups mMagic header imports cc
      let rest ← lookupLoop mMagic header imports n (cc + 1)
      .ok (nEntry :: rest)

/-- `nImports` and `nEntries`. -/
def scanImports (mMagic : PeOptionalHeaderType) (header : List PeImageSectionHeader) :
    Option Bytes → Except Fault (Nat × List Nat)
  | none => .ok (0, [])
  | some imports => do
      let nImports ← countTable imports 0 sizeofImportDirectoryEntry
      let nEntries ← lookupLoop mMagic header imports nImports 0
      .ok (nImports, nEntries)

/-! ## Relocations -/

def sizeofBaseRelocationBlock : Nat := 8

def sizeofRelocationEntry : Nat := 2

/--
`__realloc_` of an array of counts: it copies as many bytes as the new array has, or
as the old one has more than it.
-/
def reallocate (memory : List Nat) (currLen nLen : Nat) : Except Fault (List Nat) :=
  if nLen = currLen then .ok memory
  else
    let copied := if currLen < nLen then nLen else currLen - nLen
    if memory.length < copied ∨ nLen < copied then .error .outOfBounds
    else .ok (memory.take copied ++ List.replicate (nLen - copied) 0)

structure RelocationScan where
  nRelocationBlocks : Nat
  byteOffset : Nat
  nPerBlock : List Nat
  deriving Repr

/-- `(BlockSize - sizeof(header)) / sizeof(entry)`, a difference of 64 bits. -/
def entryCount (blockSize : Nat) : Nat :=
  u32 (u64sub blockSize sizeofBaseRelocationBlock / sizeofRelocationEntry)

/-- `nPerBlock` with a place for the next block. -/
def growCounts (s : RelocationScan) : Except Fault (List Nat) :=
  if s.nRelocationBlocks % 5 = 0 then
    reallocate s.nPerBlock s.nRelocationBlocks (u32 (s.nRelocationBlocks + 5))
  else .ok s.nPerBlock

def recordBlock (s : RelocationScan) (blockSize : Nat) : Except Fault RelocationScan := do
  let nPerBlock ← growCounts s
  if s.nRelocationBlocks < nPerBlock.length then
    .ok
      { nRelocationBlocks := u32 (s.nRelocationBlocks + 1)
        byteOffset := u32 (s.byteOffset + blockSize)
        nPerBlock := nPerBlock.set s.nRelocationBlocks (entryCount blockSize) }
  else .error .outOfBounds

def pageRVAAt (relocblock : Bytes) (off : Nat) : Nat := fieldNat relocblock off 4

def blockSizeAt (relocblock : Bytes) (off : Nat) : Nat := fieldNat relocblock (off + 4) 4

def relocationStep (relocblock : Bytes) (s : RelocationScan) :
    RelocationScan ⊕ Except Fault RelocationScan :=
  if relocblock.length < s.byteOffset + sizeofBaseRelocationBlock then .inr (.error .outOfBounds)
  else if blockSizeAt relocblock s.byteOffset ≠ 0 ∧ pageRVAAt relocblock s.byteOffset ≠ 0 then
    match recordBlock s (blockSizeAt relocblock s.byteOffset) with
    | .ok s => .inl s
    | .error fault => .inr (.error fault)
  else .inr (.ok { s with nRelocationBlocks := u32 (s.nRelocationBlocks + 1) })

/-- `nRelocationBlocks` and `nPerBlock`, given a number of turns. -/
def scanRelocations (fuel : Nat) : Option Bytes → Option (Except Fault (Nat × List Nat))
  | none => some (.ok (0, []))
  | some relocblock =>
      (follow (relocationStep relocblock) fuel ⟨0, 0, List.replicate 5 0⟩).map fun result =>
        result.map fun s => (s.nRelocationBlocks, s.nPerBlock)

/-! ## The whole of it -/

/-- The counts that `ExpandPeExecutableFormat` leaves in `Fmt.imp` and `Fmt.reloc`. -/
structure TableCounts where
  nImports : Nat
  nEntries : List Nat
  nRelocationBlocks : Nat
  nRelocationEntriesPerBlock : List Nat
  deriving DecidableEq, Repr

/-- The scans of `ExpandPeExecutableFormat`, given a number of turns for the last one. -/
def expandTables (file : Bytes) (header : List PeImageSectionHeader)
    (mMagic : PeOptionalHeaderType) (fuel : Nat) : Option (Except Fault TableCounts) :=
  match scanImports mMagic header (readSectionPe file header peImportSection) with
  | .error fault => some (.error fault)
  | .ok (nImports, nEntries) =>
      (scanRelocations fuel (readSectionPe file header peRelocDataSection)).map fun result =>
        result.map fun (nRelocationBlocks, nPerBlock) =>
          ⟨nImports, nEntries, nRelocationBlocks, nPerBlock⟩

/-! ## What the scans are for -/

/--
The blocks from `off` on have the sizes `sizes`: each starts, at an offset of 32
bits, where the one before ends, up to a header in the data that has a zero field.
-/
inductive RelocationBlocks (relocblock : Bytes) : Nat → List Nat → Prop
  | done {off} (hinside : off + sizeofBaseRelocationBlock ≤ relocblock.length)
      (hstop : blockSizeAt relocblock off = 0 ∨ pageRVAAt relocblock off = 0) :
      RelocationBlocks relocblock off []
  | block {off sizes} (hinside : off + sizeofBaseRelocationBlock ≤ relocblock.length)
      (hsize : blockSizeAt relocblock off ≠ 0) (hpage : pageRVAAt relocblock off ≠ 0)
      (hrest : RelocationBlocks relocblock (u32 (off + blockSizeAt relocblock off)) sizes) :
      RelocationBlocks relocblock off (blockSizeAt relocblock off :: sizes)

structure ImportsCounted (header : List PeImageSectionHeader) (mMagic : PeOptionalHeaderType)
    (imports : Bytes) (counts : TableCounts) : Prop where
  nImports : ∀ n, Terminated imports 0 sizeofImportDirectoryEntry n → counts.nImports = n
  nEntries : ∀ cc < counts.nImports, ∀ off m, lookupTable header imports cc = some off →
    Terminated imports off (sizeofImportLookupEntry mMagic) m → counts.nEntries[cc]? = some m

/-- No count is of a block smaller than its header; if none is, the counts are the blocks'. -/
structure RelocationsCounted (relocblock : Bytes) (counts : TableCounts) : Prop where
  nonneg : ∀ sizes, RelocationBlocks relocblock 0 sizes →
    ∀ size ∈ sizes, sizeofBaseRelocationBlock ≤ size
  blocks : ∀ sizes, RelocationBlocks relocblock 0 sizes →
    (∀ size ∈ sizes, sizeofBaseRelocationBlock ≤ size) → counts.nRelocationBlocks = sizes.length
  entries : ∀ sizes, RelocationBlocks relocblock 0 sizes →
    (∀ size ∈ sizes, sizeofBaseRelocationBlock ≤ size) →
    ∀ (k : Nat) (size : Nat), sizes[k]? = some size → counts.nRelocationEntriesPerBlock[k]? =
      some ((size - sizeofBaseRelocationBlock) / sizeofRelocationEntry)

/-- The scans end, stay inside the section data and the array, and count what there is. -/
def ScansRight (file : Bytes) (header : List PeImageSectionHeader)
    (mMagic : PeOptionalHeaderType) : Prop :=
  ∃ fuel counts, expandTables file header mMagic fuel = some (.ok counts) ∧
    (∀ imports, readSectionPe file header peImportSection = some imports →
      ImportsCounted header mMagic imports counts) ∧
    ∀ relocblock, readSectionPe file header peRelocDataSection = some relocblock →
      RelocationsCounted relocblock counts

section Counting

variable {data : Bytes} {off width : Nat}

theorem countEntries_ok_iff {left n r : Nat} :
    countEntries data off width left n = .ok r ↔
      (n ≤ r ∧ r < n + left) ∧ slice data (off + width * r) width = zeros width ∧
        ∀ m, n ≤ m → m < r → slice data (off + width * m) width ≠ zeros width := by
  induction left generalizing n with
  | zero =>
      rw [countEntries]
      exact iff_of_false (by simp) fun h => by have := h.1; omega
  | succ left ih =>
      rw [countEntries]
      split
      case isTrue hstop =>
        rw [Except.ok.injEq]
        constructor
        · rintro rfl
          exact ⟨⟨Nat.le_refl n, by omega⟩, hstop, fun m hle hlt => by omega⟩
        · rintro ⟨⟨hle, -⟩, -, hbefore⟩
          by_contra hne
          exact hbefore n (Nat.le_refl n) (Nat.lt_of_le_of_ne hle hne) hstop
      case isFalse hgo =>
        rw [ih]
        constructor
        · rintro ⟨⟨hle, hlt⟩, hstop, hbefore⟩
          refine ⟨⟨by omega, by omega⟩, hstop, fun m hm hr => ?_⟩
          rcases Nat.eq_or_lt_of_le hm with rfl | hnext
          · exact hgo
          · exact hbefore m hnext hr
        · rintro ⟨⟨hle, hlt⟩, hstop, hbefore⟩
          have hne : n ≠ r := by
            rintro rfl
            exact hgo hstop
          exact ⟨⟨by omega, by omega⟩, hstop, fun m hm hr => hbefore m (by omega) hr⟩

theorem countTable_ok_iff (hwidth : 0 < width) {n : Nat} :
    countTable data off width = .ok n ↔ Terminated data off width n := by
  rw [countTable, countEntries_ok_iff, Nat.zero_add]
  have hinside : n < (data.length - off) / width ↔ off + width * (n + 1) ≤ data.length := by
    rw [Nat.lt_iff_add_one_le, Nat.le_div_iff_mul_le hwidth, Nat.mul_comm]
    have hpos : 0 < width * (n + 1) := Nat.mul_pos hwidth (Nat.succ_pos n)
    omega
  rw [hinside]
  exact ⟨fun ⟨⟨_, hlt⟩, hstop, hbefore⟩ => ⟨hlt, hstop, fun m hm => hbefore m (Nat.zero_le m) hm⟩,
    fun h => ⟨⟨Nat.zero_le n, h.inside⟩, h.stop, fun m _ hm => h.before m hm⟩⟩

end Counting

section Imports

variable {mMagic : PeOptionalHeaderType} {header : List PeImageSectionHeader} {imports : Bytes}

theorem sizeofImportLookupEntry_pos : 0 < sizeofImportLookupEntry mMagic := by
  cases mMagic <;> decide

theorem countLookups_some {cc off : Nat} (htable : lookupTable header imports cc = some off)
    {m : Nat} :
    countLookups mMagic header imports cc = .ok m ↔
      Terminated imports off (sizeofImportLookupEntry mMagic) m := by
  rw [countLookups, htable]
  exact countTable_ok_iff sizeofImportLookupEntry_pos

/-- The lookup tables of the imports from `cc` on, `n` of them, are terminated. -/
def LookupsTerminated (mMagic : PeOptionalHeaderType) (header : List PeImageSectionHeader)
    (imports : Bytes) (cc n : Nat) : Prop :=
  ∀ k < n, ∀ off, lookupTable header imports (cc + k) = some off →
    ∃ m, Terminated imports off (sizeofImportLookupEntry mMagic) m

theorem lookupsTerminated_succ {cc n : Nat} :
    LookupsTerminated mMagic header imports cc (n + 1) ↔
      (∃ m, countLookups mMagic header imports cc = .ok m) ∧
        LookupsTerminated mMagic header imports (cc + 1) n := by
  have hfirst : (∀ off, lookupTable header imports cc = some off →
      ∃ m, Terminated imports off (sizeofImportLookupEntry mMagic) m) ↔
      ∃ m, countLookups mMagic header imports cc = .ok m := by
    cases htable : lookupTable header imports cc with
    | none => simp [countLookups, htable]
    | some off => simp [countLookups_some htable]
  rw [← hfirst]
  constructor
  · intro h
    refine ⟨h 0 (Nat.succ_pos n), fun k hk => ?_⟩
    have hnext := h (k + 1) (Nat.succ_lt_succ hk)
    rwa [Nat.add_comm k, ← Nat.add_assoc] at hnext
  · rintro ⟨hzero, hrest⟩ k hk
    cases k with
    | zero => exact hzero
    | succ k =>
        rw [Nat.add_comm k, ← Nat.add_assoc]
        exact hrest k (Nat.lt_of_succ_lt_succ hk)

theorem lookupLoop_ok_iff {n cc : Nat} :
    (∃ nEntries, lookupLoop mMagic header imports n cc = .ok nEntries) ↔
      LookupsTerminated mMagic header imports cc n := by
  induction n generalizing cc with
  | zero => exact iff_of_true ⟨[], rfl⟩ fun k hk => absurd hk (Nat.not_lt_zero k)
  | succ n ih =>
      rw [lookupsTerminated_succ, ← ih, lookupLoop]
      constructor
      · rintro ⟨nEntries, hloop⟩
        obtain ⟨m, hcount, hloop⟩ := bind_ok hloop
        obtain ⟨rest, hrest, -⟩ := bind_ok hloop
        exact ⟨⟨m, hcount⟩, rest, hrest⟩
      · rintro ⟨⟨m, hcount⟩, rest, hrest⟩
        rw [hcount, ok_bind, hrest]
        exact ⟨m :: rest, rfl⟩

theorem lookupLoop_get {n cc : Nat} {nEntries : List Nat}
    (hloop : lookupLoop mMagic header imports n cc = .ok nEntries) {k m : Nat} (hk : k < n)
    (hcount : countLookups mMagic header imports (cc + k) = .ok m) : nEntries[k]? = some m := by
  induction n generalizing cc nEntries k with
  | zero => exact absurd hk (Nat.not_lt_zero k)
  | succ n ih =>
      rw [lookupLoop] at hloop
      obtain ⟨first, hfirst, hloop⟩ := bind_ok hloop
      obtain ⟨rest, hrest, hloop⟩ := bind_ok hloop
      cases hloop
      cases k with
      | zero =>
          rw [Nat.add_zero, hfirst] at hcount
          exact congrArg some (Except.ok.inj hcount)
      | succ k =>
          rw [Nat.add_comm k, ← Nat.add_assoc] at hcount
          exact ih hrest (Nat.lt_of_succ_lt_succ hk) hcount

/-- The table of the imports and the lookup tables it names are terminated. -/
def ImportsTerminated (mMagic : PeOptionalHeaderType) (header : List PeImageSectionHeader)
    (imports : Bytes) : Prop :=
  ∃ n, Terminated imports 0 sizeofImportDirectoryEntry n ∧
    LookupsTerminated mMagic header imports 0 n

theorem scanImports_ok_iff :
    (∃ counts, scanImports mMagic header (some imports) = .ok counts) ↔
      ImportsTerminated mMagic header imports := by
  rw [scanImports]
  constructor
  · rintro ⟨counts, hscan⟩
    obtain ⟨n, hcount, hscan⟩ := bind_ok hscan
    obtain ⟨nEntries, hloop, -⟩ := bind_ok hscan
    exact ⟨n, (countTable_ok_iff (by decide)).mp hcount, lookupLoop_ok_iff.mp ⟨nEntries, hloop⟩⟩
  · rintro ⟨n, hcount, hlookups⟩
    obtain ⟨nEntries, hloop⟩ := lookupLoop_ok_iff.mpr hlookups
    rw [(countTable_ok_iff (by decide)).mpr hcount, ok_bind, hloop]
    exact ⟨(n, nEntries), rfl⟩

theorem importsCounted_of_scanImports {counts : TableCounts}
    (hscan : scanImports mMagic header (some imports) = .ok (counts.nImports, counts.nEntries)) :
    ImportsCounted header mMagic imports counts := by
  rw [scanImports] at hscan
  obtain ⟨n, hcount, hscan⟩ := bind_ok hscan
  obtain ⟨nEntries, hloop, hscan⟩ := bind_ok hscan
  obtain ⟨hn, hentries⟩ := Prod.mk.inj (Except.ok.inj hscan)
  refine ⟨fun m hm => ?_, fun cc hcc off m htable hm => ?_⟩
  · rw [(countTable_ok_iff (by decide)).mpr hm] at hcount
    exact hn.symm.trans (Except.ok.inj hcount).symm
  · rw [← hentries]
    apply lookupLoop_get hloop (by rwa [hn])
    rw [Nat.zero_add]
    exact (countLookups_some htable).mpr hm

end Imports

/-! ## The count of the relocation blocks -/

theorem recordBlock_ok {s next : RelocationScan} {blockSize : Nat}
    (h : recordBlock s blockSize = .ok next) :
    next.nRelocationBlocks = u32 (s.nRelocationBlocks + 1) ∧
      next.byteOffset = u32 (s.byteOffset + blockSize) := by
  obtain ⟨nPerBlock, -, h⟩ := bind_ok h
  split at h
  · cases h
    exact ⟨rfl, rfl⟩
  · cases h

section Turns

variable {relocblock : Bytes} {s : RelocationScan}

theorem relocationStep_moves {next : RelocationScan}
    (h : relocationStep relocblock s = .inl next) :
    s.byteOffset + sizeofBaseRelocationBlock ≤ relocblock.length ∧
      blockSizeAt relocblock s.byteOffset ≠ 0 ∧ pageRVAAt relocblock s.byteOffset ≠ 0 ∧
      recordBlock s (blockSizeAt relocblock s.byteOffset) = .ok next := by
  rw [relocationStep] at h
  split at h
  case isTrue => cases h
  case isFalse hinside =>
    split at h
    case isTrue hblock =>
      cases hrecord : recordBlock s (blockSizeAt relocblock s.byteOffset) with
      | error fault =>
          rw [hrecord] at h
          cases h
      | ok mid =>
          rw [hrecord] at h
          cases h
          exact ⟨Nat.le_of_not_lt hinside, hblock.1, hblock.2, rfl⟩
    case isFalse => cases h

theorem relocationStep_stops {after : RelocationScan}
    (h : relocationStep relocblock s = .inr (.ok after)) :
    s.byteOffset + sizeofBaseRelocationBlock ≤ relocblock.length ∧
      (blockSizeAt relocblock s.byteOffset = 0 ∨ pageRVAAt relocblock s.byteOffset = 0) ∧
      after.nRelocationBlocks = u32 (s.nRelocationBlocks + 1) := by
  rw [relocationStep] at h
  split at h
  case isTrue => cases h
  case isFalse hinside =>
    split at h
    case isTrue hblock =>
      cases hrecord : recordBlock s (blockSizeAt relocblock s.byteOffset) with
      | error fault =>
          rw [hrecord] at h
          cases h
      | ok mid =>
          rw [hrecord] at h
          cases h
    case isFalse hstop =>
      cases h
      rw [not_and_or, not_not, not_not] at hstop
      exact ⟨Nat.le_of_not_lt hinside, hstop, rfl⟩

theorem follow_relocationStep {fuel : Nat} {after : RelocationScan}
    (hscan : follow (relocationStep relocblock) fuel s = some (.ok after)) :
    ∃ sizes, RelocationBlocks relocblock s.byteOffset sizes ∧
      after.nRelocationBlocks = u32 (s.nRelocationBlocks + sizes.length + 1) := by
  induction fuel generalizing s with
  | zero => cases hscan
  | succ fuel ih =>
      cases hstep : relocationStep relocblock s with
      | inl next =>
          obtain ⟨hinside, hsize, hpage, hrecord⟩ := relocationStep_moves hstep
          obtain ⟨hcount, hoffset⟩ := recordBlock_ok hrecord
          rw [follow_of_moves hstep] at hscan
          obtain ⟨sizes, hblocks, hafter⟩ := ih hscan
          rw [hoffset] at hblocks
          refine ⟨_, .block hinside hsize hpage hblocks, ?_⟩
          rw [hafter, hcount, List.length_cons]
          unfold u32
          omega
      | inr answer =>
          rw [follow_of_answer hstep] at hscan
          obtain rfl := Option.some.inj hscan
          obtain ⟨hinside, hstop, hcount⟩ := relocationStep_stops hstep
          exact ⟨[], .done hinside hstop, hcount⟩

end Turns

theorem scanRelocations_miscounts {relocblock : Bytes} {fuel nRelocationBlocks : Nat}
    {nPerBlock : List Nat}
    (hscan : scanRelocations fuel (some relocblock) = some (.ok (nRelocationBlocks, nPerBlock))) :
    ∃ sizes, RelocationBlocks relocblock 0 sizes ∧ nRelocationBlocks ≠ sizes.length := by
  obtain ⟨result, hfollow, hresult⟩ := Option.map_eq_some_iff.mp hscan
  obtain ⟨after, rfl, hafter⟩ := map_ok hresult
  obtain ⟨hcount, -⟩ := Prod.mk.inj hafter
  obtain ⟨sizes, hblocks, hsizes⟩ := follow_relocationStep hfollow
  refine ⟨sizes, hblocks, ?_⟩
  rw [← hcount, hsizes, Nat.zero_add]
  unfold u32
  omega

/-! ## When the scans are right -/

section Results

variable {file : Bytes} {header : List PeImageSectionHeader} {mMagic : PeOptionalHeaderType}

theorem expandTables_ok {fuel : Nat} {counts : TableCounts}
    (h : expandTables file header mMagic fuel = some (.ok counts)) :
    scanImports mMagic header (readSectionPe file header peImportSection) =
        .ok (counts.nImports, counts.nEntries) ∧
      scanRelocations fuel (readSectionPe file header peRelocDataSection) =
        some (.ok (counts.nRelocationBlocks, counts.nRelocationEntriesPerBlock)) := by
  rw [expandTables] at h
  cases hscan : scanImports mMagic header (readSectionPe file header peImportSection) with
  | error fault =>
      rw [hscan] at h
      cases h
  | ok found =>
      rw [hscan] at h
      obtain ⟨result, hblocks, hresult⟩ := Option.map_eq_some_iff.mp h
      obtain ⟨after, rfl, rfl⟩ := map_ok hresult
      exact ⟨rfl, hblocks⟩

theorem relocations_none_of_scansRight (h : ScansRight file header mMagic) :
    readSectionPe file header peRelocDataSection = none := by
  obtain ⟨fuel, counts, hexpand, -, hrelocations⟩ := h
  obtain ⟨-, hblocks⟩ := expandTables_ok hexpand
  rw [Option.eq_none_iff_forall_ne_some]
  intro relocblock hread
  rw [hread] at hblocks
  obtain ⟨sizes, hsizes, hne⟩ := scanRelocations_miscounts hblocks
  have hcounted := hrelocations relocblock hread
  exact hne (hcounted.blocks sizes hsizes (hcounted.nonneg sizes hsizes))

end Results

/--
The scans are right exactly when there is no relocation table to count and the
tables of the imports are terminated inside the section: the relocation blocks are
always counted one too many.
-/
theorem scansRight_iff (file : Bytes) (header : List PeImageSectionHeader)
    (mMagic : PeOptionalHeaderType) :
    ScansRight file header mMagic ↔
      readSectionPe file header peRelocDataSection = none ∧
        ∀ imports, readSectionPe file header peImportSection = some imports →
          ImportsTerminated mMagic header imports := by
  constructor
  · intro hright
    refine ⟨relocations_none_of_scansRight hright, fun imports hread => ?_⟩
    obtain ⟨fuel, counts, hexpand, -⟩ := hright
    obtain ⟨hscan, -⟩ := expandTables_ok hexpand
    rw [hread] at hscan
    exact scanImports_ok_iff.mp ⟨_, hscan⟩
  · rintro ⟨hnone, himports⟩
    have hcounts : ∃ found, scanImports mMagic header (readSectionPe file header peImportSection) =
        .ok found := by
      cases hread : readSectionPe file header peImportSection with
      | none => exact ⟨(0, []), rfl⟩
      | some imports => exact scanImports_ok_iff.mpr (himports imports hread)
    obtain ⟨found, hscan⟩ := hcounts
    refine ⟨0, ⟨found.1, found.2, 0, []⟩, ?_, fun imports hread => ?_, fun relocblock hread => ?_⟩
    · rw [expandTables, hscan, hnone]
      rfl
    · rw [hread] at hscan
      exact importsCounted_of_scanImports hscan
    · rw [hnone] at hread
      cases hread

/-- A relocation table of one block with two entries, and its end. -/
def sampleRelocations : Bytes :=
  leBytes 4 4096 ++ (leBytes 4 12 ++ ([0, 160, 8, 160] ++ zeros 8))

/-- The table is at byte 4 of a file that has nothing else. -/
def sampleRelocationSection : PeImageSectionHeader where
  mName := peRelocDataSection
  mVirtualSize := 20
  mVirtualAddress := 4096
  mSizeOfRawData := 20
  mPointerToRawData := 4

/-- Its one block is counted as two. -/
theorem not_scansRight_sample :
    ¬ ScansRight (zeros 4 ++ sampleRelocations) [sampleRelocationSection] .pe32Plus := by
  intro hright
  have hread : readSectionPe (zeros 4 ++ sampleRelocations) [sampleRelocationSection]
      peRelocDataSection = some sampleRelocations := by
    decide +kernel
  rw [relocations_none_of_scansRight hright] at hread
  cases hread

end BlockyOS.Loader
