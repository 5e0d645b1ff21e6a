import BlockyOS.Foundation.Headers
import BlockyOS.HostTool.Mounting

/-!
# Finding a partition

`loadpart` looks an entry of the GPT up by name and `queryparttablefs` by the
signature in its first block.  The header gives the size of an entry, and the
tool reads its array in steps of 128 bytes whatever that size is.
-/

namespace BlockyOS.HostTool

open BlockyOS.Foundation

/-! ## The header and its array -/

structure GPTHeader where
  sig : Bytes
  rev : Nat
  hSize : Nat
  hChecksum : Nat
  r : Nat
  localLBA : Nat
  alternateLBA : Nat
  fUsable : Nat
  lUsable : Nat
  partEntryLoc : Nat
  nPartEntries : Nat
  partEntrySize : Nat
  partArrayChecksum : Nat

def GPTHeader.decode (bytes : Bytes) : GPTHeader where
  sig := field bytes 0 8
  rev := fieldNat bytes 8 4
  hSize := fieldNat bytes 12 4
  hChecksum := fieldNat bytes 16 4
  r := fieldNat bytes 20 4
  localLBA := fieldNat bytes 24 8
  alternateLBA := fieldNat bytes 32 8
  fUsable := fieldNat bytes 40 8
  lUsable := fieldNat bytes 48 8
  partEntryLoc := fieldNat bytes 72 8
  nPartEntries := fieldNat bytes 80 4
  partEntrySize := fieldNat bytes 84 4
  partArrayChecksum := fieldNat bytes 88 4

theorem MiniGPT.decode_eq (bytes : Bytes) :
    MiniGPT.decode bytes = ⟨(GPTHeader.decode bytes).sig, (GPTHeader.decode bytes).partEntryLoc,
      (GPTHeader.decode bytes).nPartEntries⟩ := rfl

theorem GPTHeader.nPartEntries_lt (bytes : Bytes) :
    (GPTHeader.decode bytes).nPartEntries < 2 ^ 32 := fieldNat_lt bytes 80 4

theorem GPTHeader.partEntrySize_lt (bytes : Bytes) :
    (GPTHeader.decode bytes).partEntrySize < 2 ^ 32 := fieldNat_lt bytes 84 4

/-- The checksum of a header of `hSize` bytes, taken with its own field cleared. -/
def headerChecksum (block : Bytes) (hSize : Nat) : Nat :=
  (crc32 (slice block 0 16 ++ (zeros 4 ++ slice block 20 (hSize - 20)))).toNat

def headerBlock (img : Image) : Bytes := img.window 512 512

/-- Where the entries of a table lie. -/
structure Geometry where
  partEntryLoc : Nat
  nPartEntries : Nat
  partEntrySize : Nat
  deriving DecidableEq

namespace Geometry

def arrayBytes (g : Geometry) : Nat := g.nPartEntries * g.partEntrySize

def arraySectors (g : Geometry) : Nat := (g.arrayBytes + 511) / 512

def entryOffset (g : Geometry) (i : Nat) : Nat := g.partEntryLoc * 512 + i * g.partEntrySize

/-- The entries, each where the header says it is. -/
def entries (g : Geometry) (img : Image) : List GPTentry :=
  (List.range g.nPartEntries).map fun i =>
    GPTentry.decode (img.window (g.entryOffset i) sizeofGPTentry)

/-- The disk has a valid header at LBA 1, with this geometry. -/
structure Carried (g : Geometry) (img : Image) (h : GPTHeader) : Prop where
  size_lt : img.size < 2 ^ 63
  header : GPTHeader.decode (headerBlock img) = h
  sig : h.sig = gptSig
  rev : h.rev = 0x00010000
  hSize : sizeofMiniGPT ≤ h.hSize ∧ h.hSize ≤ 512
  hChecksum : h.hChecksum = headerChecksum (headerBlock img) h.hSize
  r : h.r = 0
  localLBA : h.localLBA = gptLBA
  geometry : g = ⟨h.partEntryLoc, h.nPartEntries, h.partEntrySize⟩
  entrySize : ∃ k, g.partEntrySize = 128 * 2 ^ k
  partArrayChecksum :
    h.partArrayChecksum = (crc32 (img.window (g.partEntryLoc * 512) g.arrayBytes)).toNat
  loc : 2 ≤ g.partEntryLoc
  array : g.partEntryLoc + g.arraySectors ≤ h.fUsable
  fUsable : 34 ≤ h.fUsable
  lUsable : h.fUsable ≤ h.lUsable
  alternateLBA : h.lUsable < h.alternateLBA
  disk : (h.alternateLBA + 1) * 512 ≤ img.size

end Geometry

/-! ## What the tool should find -/

def entryDim : Option GPTentry → PartDim
  | some e => ⟨e.sLBA, e.eLBA⟩
  | none => ⟨0, 0⟩

def CarriesFs (img : Image) (lba : Nat) : Prop :=
  lba * 512 + 512 ≤ img.size ∧ img.window (lba * 512) 16 = fratSig

instance (img : Image) (lba : Nat) : Decidable (CarriesFs img lba) :=
  inferInstanceAs (Decidable (_ ∧ _))

def firstNamed (g : Geometry) (img : Image) (name : Bytes) : Option GPTentry :=
  (g.entries img).find? fun e => e.name = name

def firstCarrying (g : Geometry) (img : Image) : Option GPTentry :=
  (g.entries img).find? fun e => CarriesFs img e.sLBA

/-- `queryparttablefs` with the array it reads. -/
def queryparttable (img : Image) : Except Fault PartDim :=
  match readTable img with
  | .error e => .error e
  | .ok ge => queryparttablefs img ge

/--
The array is read from where it lies, the first entry of the name is returned
and no other, and so is the first entry whose block carries the signature.
-/
structure FindsPartitions (g : Geometry) (img : Image) (name : Bytes) : Prop where
  reads : readTable img = .ok (g.entries img)
  loads : loadpart img name = .ok (entryDim (firstNamed g img name))
  empty_iff : loadpart img name = .ok ⟨0, 0⟩ ↔ firstNamed g img name = none
  queries : queryparttable img = .ok (entryDim (firstCarrying g img))

/-- The sector `queryfs` looks at, whose offset is a 64-bit product, exists and is another's. -/
def PassedOver (img : Image) (lba : Nat) : Prop :=
  u64 (lba * 512) + 512 ≤ img.size ∧ img.window (u64 (lba * 512)) 16 ≠ fratSig

/--
The entry of the name is not empty, and the search for the signature meets no
entry before the one it looks for that it cannot read or takes for it.
-/
structure Searchable (g : Geometry) (img : Image) (name : Bytes) : Prop where
  named : ∀ e, firstNamed g img name = some e → e.sLBA ≠ 0 ∨ e.eLBA ≠ 0
  passed : ∀ e ∈ (g.entries img).takeWhile fun e => ¬ CarriesFs img e.sLBA,
    PassedOver img e.sLBA

/-! ## What the tool reads -/

/-- The entries as `loadpart` and `queryparttablefs` index them. -/
def Geometry.indexed (g : Geometry) (img : Image) : List GPTentry :=
  (List.range g.nPartEntries).map fun i =>
    GPTentry.decode (img.window (g.partEntryLoc * 512 + sizeofGPTentry * i) sizeofGPTentry)

theorem blockSpan_default : blockSpan 512 = 512 := by decide

theorem offset_tableEnv {lba : Nat} (h : lba * 512 < 2 ^ 64) : tableEnv.offset lba = lba * 512 := by
  have hoffset := @offset_startup 0 512 lba
  simp only [blockSpan_default, Nat.zero_mul, Nat.zero_add, Nat.sub_zero] at hoffset
  exact hoffset h

theorem span_tableEnv {bytes : Nat} (h : bytes < 2 ^ 63) :
    tableEnv.span bytes = (bytes + 511) / 512 * 512 := by
  have hspan := @span_startup 0 512 bytes (by decide) h
  simp only [blockSpan_default] at hspan
  have hround : bytes + 512 - 1 = bytes + 511 := by omega
  rw [hround] at hspan
  exact hspan

theorem readblocks_table {img : Image} {lba bytes : Nat} (hbytes : bytes < 2 ^ 63)
    (hsize : img.size < 2 ^ 63) (hfit : lba * 512 + (bytes + 511) / 512 * 512 ≤ img.size) :
    readblocks tableEnv img lba bytes =
      some (img.window (lba * 512) ((bytes + 511) / 512 * 512)) := by
  have hseek : seekable (lba * 512) = true := decide_eq_true (by omega)
  have hpart : ¬ lba < tableEnv.partition := Nat.not_lt_zero lba
  rw [readblocks, if_neg hpart, offset_tableEnv (by omega), if_pos hseek, span_tableEnv hbytes,
    Image.read_of_le hfit]

theorem gptEntries_window (img : Image) (off count : Nat) :
    gptEntries (img.window off ((count * sizeofGPTentry + 511) / 512 * 512)) count =
      (List.range count).map fun i =>
        GPTentry.decode (img.window (off + sizeofGPTentry * i) sizeofGPTentry) := by
  apply List.map_congr_left
  intro i hi
  have hinside : i + 1 ≤ count := List.mem_range.mp hi
  have hfit : sizeofGPTentry * i + sizeofGPTentry ≤
      (count * sizeofGPTentry + 511) / 512 * 512 := by
    calc
      sizeofGPTentry * i + sizeofGPTentry = (i + 1) * sizeofGPTentry := by ring
      _ ≤ count * sizeofGPTentry := Nat.mul_le_mul_right _ hinside
      _ ≤ (count * sizeofGPTentry + 511) / 512 * 512 := by omega
  rw [Image.slice_window img hfit]

namespace Geometry.Carried

variable {g : Geometry} {img : Image} {h : GPTHeader}

theorem array_le (hcarried : g.Carried img h) :
    g.partEntryLoc * 512 + (g.arrayBytes + 511) / 512 * 512 ≤ img.size := by
  have harray := hcarried.array
  have hlast := hcarried.lUsable
  have halternate := hcarried.alternateLBA
  have hdisk := hcarried.disk
  unfold Geometry.arraySectors at harray
  omega

theorem entrySize_ge (hcarried : g.Carried img h) : 128 ≤ g.partEntrySize := by
  obtain ⟨k, hk⟩ := hcarried.entrySize
  have hpow := Nat.one_le_two_pow (n := k)
  omega

theorem readblocks_header (hcarried : g.Carried img h) :
    readblocks tableEnv img gptLBA sizeofMiniGPT = some (headerBlock img) := by
  have hdisk := hcarried.disk
  have hfirst := hcarried.fUsable
  have hlast := hcarried.lUsable
  have halternate := hcarried.alternateLBA
  exact @readblocks_table img gptLBA sizeofMiniGPT (by decide) hcarried.size_lt (by
    unfold gptLBA sizeofMiniGPT
    omega)

theorem decode_header (hcarried : g.Carried img h) :
    MiniGPT.decode (headerBlock img) = ⟨gptSig, g.partEntryLoc, g.nPartEntries⟩ := by
  rw [MiniGPT.decode_eq, hcarried.header, hcarried.sig, hcarried.geometry]

theorem checkdisk (hcarried : g.Carried img h) : HostTool.checkdisk img = .ok true := by
  rw [HostTool.checkdisk, hcarried.readblocks_header]
  simp only [hcarried.decode_header, decide_true]

theorem readblocks_array (hcarried : g.Carried img h) :
    readblocks tableEnv img g.partEntryLoc (g.nPartEntries * sizeofGPTentry) =
      some (img.window (g.partEntryLoc * 512)
        ((g.nPartEntries * sizeofGPTentry + 511) / 512 * 512)) := by
  have hbytes : g.nPartEntries * sizeofGPTentry ≤ g.arrayBytes :=
    Nat.mul_le_mul_left _ hcarried.entrySize_ge
  have harray := hcarried.array_le
  have hsize := hcarried.size_lt
  have hround : (g.nPartEntries * sizeofGPTentry + 511) / 512 ≤ (g.arrayBytes + 511) / 512 :=
    Nat.div_le_div_right (Nat.add_le_add_right hbytes 511)
  refine readblocks_table (by omega) hsize ?_
  exact (Nat.add_le_add_left (Nat.mul_le_mul_right 512 hround) _).trans harray

theorem readTable (hcarried : g.Carried img h) :
    HostTool.readTable img = .ok (g.indexed img) := by
  simp only [HostTool.readTable, hcarried.readblocks_header, hcarried.decode_header,
    hcarried.readblocks_array, gptEntries_window]
  rfl

theorem loadpart (hcarried : g.Carried img h) (name : Bytes) :
    HostTool.loadpart img name =
      .ok (entryDim ((g.indexed img).find? fun e => e.name = name)) := by
  rw [HostTool.loadpart, hcarried.checkdisk]
  simp only [hcarried.readTable]
  cases (g.indexed img).find? fun e => e.name = name with
  | none => rfl
  | some e => rfl

theorem queryparttable (hcarried : g.Carried img h) :
    HostTool.queryparttable img = queryparttablefs img (g.indexed img) := by
  rw [HostTool.queryparttable, hcarried.readTable]

end Geometry.Carried

theorem Geometry.indexed_eq {g : Geometry} (img : Image)
    (h : g.nPartEntries ≤ 1 ∨ g.partEntrySize = 128) : g.indexed img = g.entries img := by
  apply List.map_congr_left
  intro i hi
  have hinside : i < g.nPartEntries := List.mem_range.mp hi
  have hoffset : g.partEntryLoc * 512 + sizeofGPTentry * i = g.entryOffset i := by
    rw [Geometry.entryOffset]
    rcases h with hone | hsize
    · have hzero : i = 0 := by omega
      simp [hzero]
    · rw [hsize, Nat.mul_comm i]
      rfl
  rw [hoffset]

/-! ## The two searches -/

theorem queryfs_table {img : Image} {lba : Nat} (hlba : lba < 2 ^ 64)
    (hsize : img.size < 2 ^ 63) (hfit : u64 (lba * 512) + 512 ≤ img.size) :
    queryfs img lba = .ok (img.window (u64 (lba * 512)) 16 = fratSig) := by
  have hseek : seekable (u64 (lba * 512)) = true := decide_eq_true (by omega)
  have hsector : readSector img lba = some (img.window (u64 (lba * 512)) 512) := by
    rw [readSector, if_pos hseek, Image.read_of_le hfit]
  have hsig : (FsRoot.decode (img.window (u64 (lba * 512)) 512)).signature =
      img.window (u64 (lba * 512)) 16 := by
    change field _ 0 16 = _
    rw [field_eq_slice (by simp), Image.slice_window _ (by decide), Nat.add_zero]
  rw [queryfs_eq hlba, hsector]
  simp only [hsig]

theorem fits_of_queryfs {img : Image} {lba : Nat} {found : Bool} (hlba : lba < 2 ^ 64)
    (hquery : queryfs img lba = .ok found) : u64 (lba * 512) + 512 ≤ img.size := by
  rw [queryfs_eq hlba, readSector] at hquery
  split at hquery
  case h_1 => cases hquery
  case h_2 sector hread =>
    split at hread
    case isTrue =>
      have hexists := ((Image.read_eq_some_iff _ _ _ _).mp hread).1
      omega
    case isFalse => cases hread

theorem queryfs_carries {img : Image} {lba : Nat} (hlba : lba < 2 ^ 64)
    (hsize : img.size < 2 ^ 63) (hcarries : CarriesFs img lba) : queryfs img lba = .ok true := by
  obtain ⟨hfit, hsig⟩ := hcarries
  have hoffset : u64 (lba * 512) = lba * 512 := u64_of_lt (by omega)
  rw [queryfs_table hlba hsize (by rw [hoffset]; exact hfit), hoffset, hsig]
  simp

theorem carries_of_queryfs {img : Image} {lba : Nat} (hlba : lba * 512 < 2 ^ 64)
    (hsize : img.size < 2 ^ 63) (hquery : queryfs img lba = .ok true) : CarriesFs img lba := by
  have hoffset : u64 (lba * 512) = lba * 512 := u64_of_lt hlba
  have hfit : u64 (lba * 512) + 512 ≤ img.size := fits_of_queryfs (by omega) hquery
  rw [queryfs_table (by omega) hsize hfit, hoffset] at hquery
  rw [hoffset] at hfit
  exact ⟨hfit, by simpa using hquery⟩

theorem queryfs_false_iff {img : Image} {lba : Nat} (hlba : lba < 2 ^ 64)
    (hsize : img.size < 2 ^ 63) : queryfs img lba = .ok false ↔ PassedOver img lba := by
  constructor
  · intro hquery
    have hfit : u64 (lba * 512) + 512 ≤ img.size := fits_of_queryfs hlba hquery
    rw [queryfs_table hlba hsize hfit] at hquery
    exact ⟨hfit, by simpa using hquery⟩
  · rintro ⟨hfit, hsig⟩
    rw [queryfs_table hlba hsize hfit]
    simpa using hsig

/-- An entry taken although its block does not carry the signature is not the one looked for. -/
theorem entryDim_ne_of_taken {img : Image} {e : GPTentry} {ge : List GPTentry}
    (hsize : img.size < 2 ^ 63) (hquery : queryfs img e.sLBA = .ok true)
    (hcarries : ¬ CarriesFs img e.sLBA) :
    ⟨e.sLBA, e.eLBA⟩ ≠ entryDim (ge.find? fun e => CarriesFs img e.sLBA) := by
  intro heq
  cases hfind : ge.find? fun e => CarriesFs img e.sLBA with
  | none =>
      rw [hfind] at heq
      have hzero : e.sLBA = 0 := congrArg PartDim.base heq
      exact hcarries (carries_of_queryfs (by omega) hsize hquery)
  | some e' =>
      rw [hfind] at heq
      have hsame : e.sLBA = e'.sLBA := congrArg PartDim.base heq
      have hfound := List.find?_some hfind
      rw [hsame] at hcarries
      exact hcarries (of_decide_eq_true hfound)

theorem queryparttablefs_iff {img : Image} {ge : List GPTentry} (hsize : img.size < 2 ^ 63)
    (hlt : ∀ e ∈ ge, e.sLBA < 2 ^ 64) :
    queryparttablefs img ge =
        .ok (entryDim (ge.find? fun e => CarriesFs img e.sLBA)) ↔
      ∀ e ∈ ge.takeWhile fun e => ¬ CarriesFs img e.sLBA, PassedOver img e.sLBA := by
  induction ge with
  | nil =>
      apply iff_of_true
      · rfl
      · intro e hmem
        cases hmem
  | cons e ge ih =>
      have hbase : e.sLBA < 2 ^ 64 := hlt e List.mem_cons_self
      have hrest := ih fun e' hmem => hlt e' (List.mem_cons_of_mem e hmem)
      by_cases hcarries : CarriesFs img e.sLBA
      · have hquery := queryfs_carries hbase hsize hcarries
        rw [queryparttablefs, hquery, List.find?_cons_of_pos (by simpa using hcarries),
          List.takeWhile_cons_of_neg (by simpa using hcarries)]
        apply iff_of_true
        · rfl
        · intro e' hmem
          cases hmem
      · rw [queryparttablefs, List.find?_cons_of_neg (by simpa using hcarries),
          List.takeWhile_cons_of_pos (by simpa using hcarries), List.forall_mem_cons,
          ← queryfs_false_iff hbase hsize]
        rcases hquery : queryfs img e.sLBA with err | _ | _
        · simp
        · simp only [true_and]
          exact hrest
        · have hother := @entryDim_ne_of_taken img e ge hsize hquery hcarries
          simp [hother]

theorem entryDim_eq_zero_iff {found : Option GPTentry} :
    (entryDim found = ⟨0, 0⟩ ↔ found = none) ↔
      ∀ e, found = some e → e.sLBA ≠ 0 ∨ e.eLBA ≠ 0 := by
  cases found with
  | none => simp [entryDim]
  | some e =>
      simp only [entryDim, PartDim.mk.injEq, reduceCtorEq, iff_false, Option.some.injEq,
        forall_eq']
      omega

theorem findsPartitions_of_entrySize {g : Geometry} {img : Image} {h : GPTHeader} (name : Bytes)
    (hcarried : g.Carried img h) (hgeometry : g.nPartEntries ≤ 1 ∨ g.partEntrySize = 128) :
    FindsPartitions g img name ↔ Searchable g img name := by
  have hindexed := Geometry.indexed_eq img hgeometry
  have htable : readTable img = .ok (g.entries img) := by
    rw [hcarried.readTable, hindexed]
  have hload : loadpart img name = .ok (entryDim (firstNamed g img name)) := by
    rw [hcarried.loadpart, hindexed]
    rfl
  have hlt : ∀ e ∈ g.entries img, e.sLBA < 2 ^ 64 := fun e hmem =>
    sLBA_lt_of_readTable htable hmem
  have hquery := queryparttablefs_iff hcarried.size_lt hlt
  have hnamed : (loadpart img name = .ok ⟨0, 0⟩ ↔ firstNamed g img name = none) ↔
      ∀ e, firstNamed g img name = some e → e.sLBA ≠ 0 ∨ e.eLBA ≠ 0 := by
    rw [hload, Except.ok.injEq]
    exact entryDim_eq_zero_iff
  constructor
  · intro hfinds
    have hqueries := hfinds.queries
    rw [hcarried.queryparttable, hindexed] at hqueries
    exact ⟨hnamed.mp hfinds.empty_iff, hquery.mp hqueries⟩
  · intro hsearch
    refine ⟨htable, hload, hnamed.mpr hsearch.named, ?_⟩
    rw [hcarried.queryparttable, hindexed]
    exact hquery.mpr hsearch.passed

end BlockyOS.HostTool
