import BlockyOS.HostTool.PartitionTable

/-!
# A table of wide entries

Where an entry has more than 128 bytes and there are several, a valid disk that
uses its last entry only is one the tool finds no partition on.
-/

namespace BlockyOS.HostTool

open BlockyOS.Foundation

/-! ## The disk -/

def Geometry.spareLBA (g : Geometry) : Nat := max 34 (g.partEntryLoc + g.arraySectors)

def usedEntry (name : Bytes) (lba : Nat) : Bytes :=
  List.replicate 32 1 ++ (leBytes 8 lba ++ (leBytes 8 lba ++ (zeros 8 ++ name)))

def lateBody (g : Geometry) (name : Bytes) : Image :=
  ((Image.blank ((g.spareLBA + 2) * 512)).write (g.entryOffset (g.nPartEntries - 1))
    (usedEntry name g.spareLBA)).write (g.spareLBA * 512) fratSig

def lateBefore : List (Nat × Nat) := [(8, leNat gptSig), (4, 0x00010000), (4, sizeofMiniGPT)]

def lateAfter (g : Geometry) (arrayChecksum : Nat) : List (Nat × Nat) :=
  [(4, 0), (8, gptLBA), (8, g.spareLBA + 1), (8, g.spareLBA), (8, g.spareLBA), (8, 1), (8, 1),
    (8, g.partEntryLoc), (4, g.nPartEntries), (4, g.partEntrySize), (4, arrayChecksum)]

def lateChecksum (g : Geometry) (arrayChecksum : Nat) : Nat :=
  (crc32 (packed lateBefore ++ (zeros 4 ++ packed (lateAfter g arrayChecksum)))).toNat

def lateFields (g : Geometry) (arrayChecksum : Nat) : List (Nat × Nat) :=
  lateBefore ++ (4, lateChecksum g arrayChecksum) :: lateAfter g arrayChecksum

def lateBlock (g : Geometry) (arrayChecksum : Nat) : Bytes :=
  packed (lateFields g arrayChecksum) ++ zeros 420

def arrayChecksum (g : Geometry) (name : Bytes) : Nat :=
  (crc32 ((lateBody g name).window (g.partEntryLoc * 512) g.arrayBytes)).toNat

def lateDisk (g : Geometry) (name : Bytes) : Image :=
  (lateBody g name).write 512 (lateBlock g (arrayChecksum g name))

/-- What the header of the disk says. -/
def lateHeader (g : Geometry) (arrayChecksum : Nat) : GPTHeader where
  sig := gptSig
  rev := 0x00010000
  hSize := sizeofMiniGPT
  hChecksum := lateChecksum g arrayChecksum
  r := 0
  localLBA := gptLBA
  alternateLBA := g.spareLBA + 1
  fUsable := g.spareLBA
  lUsable := g.spareLBA
  partEntryLoc := g.partEntryLoc
  nPartEntries := g.nPartEntries
  partEntrySize := g.partEntrySize
  partArrayChecksum := arrayChecksum

/-- The values fit the fields of a header and the disk is not too large for one. -/
structure Geometry.Fits (g : Geometry) : Prop where
  loc : 2 ≤ g.partEntryLoc
  nPartEntries : g.nPartEntries < 2 ^ 32
  partEntrySize : g.partEntrySize < 2 ^ 32
  entrySize : ∃ k, g.partEntrySize = 128 * 2 ^ k
  spare : (g.spareLBA + 2) * 512 < 2 ^ 63

theorem Geometry.Carried.fits {g : Geometry} {img : Image} {h : GPTHeader}
    (hcarried : g.Carried img h) : g.Fits := by
  have hheader := hcarried.header
  have hgeometry := hcarried.geometry
  have harray := hcarried.array
  have hfirst := hcarried.fUsable
  have hlast := hcarried.lUsable
  have halternate := hcarried.alternateLBA
  have hdisk := hcarried.disk
  have hsize := hcarried.size_lt
  have hcount := GPTHeader.nPartEntries_lt (headerBlock img)
  have hentry := GPTHeader.partEntrySize_lt (headerBlock img)
  rw [hheader] at hcount hentry
  have hspare : g.spareLBA ≤ h.fUsable := max_le hfirst harray
  exact ⟨hcarried.loc, by rwa [hgeometry], by rwa [hgeometry], hcarried.entrySize, by omega⟩

def headerWidths : List Nat := [8, 4, 4, 4, 4, 8, 8, 8, 8, 8, 8, 8, 4, 4, 4]

theorem map_fst_lateFields (g : Geometry) (sum : Nat) :
    (lateFields g sum).map Prod.fst = headerWidths := rfl

theorem lateFields_fit {g : Geometry} {sum : Nat} (hfits : g.Fits) (hsum : sum < 2 ^ 32) :
    ∀ f ∈ lateFields g sum, f.2 < 256 ^ f.1 := by
  have hspare := hfits.spare
  have hcount := hfits.nPartEntries
  have hentry := hfits.partEntrySize
  have hloc : g.partEntryLoc ≤ g.spareLBA := le_max_of_le_right (Nat.le_add_right _ _)
  have hcheck : lateChecksum g sum < 2 ^ 32 := BitVec.isLt _
  have hsig : leNat gptSig < 256 ^ 8 := leNat_lt gptSig
  simp only [lateFields, lateBefore, lateAfter, sizeofMiniGPT, gptLBA, List.cons_append,
    List.nil_append, List.forall_mem_cons, List.not_mem_nil, false_imp_iff, implies_true,
    and_true]
  omega

theorem fieldNat_lateBlock {g : Geometry} {sum off width n : Nat} (k : Nat) (hfits : g.Fits)
    (hsum : sum < 2 ^ 32) (hfield : (lateFields g sum)[k]? = some (width, n))
    (hoff : (headerWidths.take k).sum = off) : fieldNat (lateBlock g sum) off width = n := by
  have hwidth : packedWidth ((lateFields g sum).take k) = off := by
    rw [packedWidth, List.map_take, map_fst_lateFields, hoff]
  rw [← hwidth]
  exact fieldNat_packed _ hfield
    (lateFields_fit hfits hsum (width, n) (List.mem_of_getElem? hfield))

theorem sig_lateBlock (g : Geometry) (sum : Nat) : field (lateBlock g sum) 0 8 = gptSig := by
  have hsig : leBytes 8 (leNat gptSig) = gptSig := leBytes_leNat gptSig
  have hfirst : lateFields g sum = (8, leNat gptSig) :: (lateFields g sum).tail := rfl
  rw [lateBlock, hfirst, packed_cons, hsig, List.append_assoc]
  exact field_append_left _ rfl

theorem decode_lateBlock {g : Geometry} {sum : Nat} (hfits : g.Fits) (hsum : sum < 2 ^ 32) :
    GPTHeader.decode (lateBlock g sum) = lateHeader g sum := by
  have hrev : fieldNat (lateBlock g sum) 8 4 = 0x00010000 :=
    fieldNat_lateBlock 1 hfits hsum rfl rfl
  have hsize : fieldNat (lateBlock g sum) 12 4 = sizeofMiniGPT :=
    fieldNat_lateBlock 2 hfits hsum rfl rfl
  have hcheck : fieldNat (lateBlock g sum) 16 4 = lateChecksum g sum :=
    fieldNat_lateBlock 3 hfits hsum rfl rfl
  have hr : fieldNat (lateBlock g sum) 20 4 = 0 :=
    fieldNat_lateBlock 4 hfits hsum rfl rfl
  have hlocal : fieldNat (lateBlock g sum) 24 8 = gptLBA :=
    fieldNat_lateBlock 5 hfits hsum rfl rfl
  have halternate : fieldNat (lateBlock g sum) 32 8 = g.spareLBA + 1 :=
    fieldNat_lateBlock 6 hfits hsum rfl rfl
  have hfirst : fieldNat (lateBlock g sum) 40 8 = g.spareLBA :=
    fieldNat_lateBlock 7 hfits hsum rfl rfl
  have hlast : fieldNat (lateBlock g sum) 48 8 = g.spareLBA :=
    fieldNat_lateBlock 8 hfits hsum rfl rfl
  have hloc : fieldNat (lateBlock g sum) 72 8 = g.partEntryLoc :=
    fieldNat_lateBlock 11 hfits hsum rfl rfl
  have hcount : fieldNat (lateBlock g sum) 80 4 = g.nPartEntries :=
    fieldNat_lateBlock 12 hfits hsum rfl rfl
  have hentry : fieldNat (lateBlock g sum) 84 4 = g.partEntrySize :=
    fieldNat_lateBlock 13 hfits hsum rfl rfl
  have harray : fieldNat (lateBlock g sum) 88 4 = sum :=
    fieldNat_lateBlock 14 hfits hsum rfl rfl
  rw [GPTHeader.decode, sig_lateBlock, hrev, hsize, hcheck, hr, hlocal, halternate, hfirst,
    hlast, hloc, hcount, hentry, harray]
  rfl

theorem headerChecksum_lateBlock (g : Geometry) (sum : Nat) :
    headerChecksum (lateBlock g sum) sizeofMiniGPT = lateChecksum g sum := by
  have hafter : (packed (lateAfter g sum)).length = 72 := by
    rw [length_packed]
    rfl
  have hblock : lateBlock g sum = packed lateBefore ++ (leBytes 4 (lateChecksum g sum) ++
      (packed (lateAfter g sum) ++ zeros 420)) := by
    rw [lateBlock, lateFields, packed_append, packed_cons, List.append_assoc, List.append_assoc]
  have hhead : slice (lateBlock g sum) 0 16 = packed lateBefore := by
    rw [hblock, slice_append_left _ _ (by decide)]
    rfl
  have htail : slice (lateBlock g sum) 20 72 = packed (lateAfter g sum) := by
    have hright := slice_append_right (packed lateBefore ++ leBytes 4 (lateChecksum g sum))
      (packed (lateAfter g sum) ++ zeros 420) 0 72
    rw [List.append_assoc, ← hblock, slice_append_left _ _ (by omega)] at hright
    have hfull := slice_full (packed (lateAfter g sum))
    rw [hafter] at hfull
    rw [← hfull, ← hright, List.length_append, length_packed, length_leBytes]
    rfl
  rw [headerChecksum, hhead, sizeofMiniGPT, htail]
  rfl

theorem length_lateBlock (g : Geometry) (sum : Nat) : (lateBlock g sum).length = 512 := by
  rw [lateBlock, List.length_append, length_packed, length_zeros, packedWidth,
    map_fst_lateFields]
  rfl

section LateDisk

variable {g : Geometry} {name : Bytes}

theorem length_usedEntry (hname : name.length = gptNameSize) (lba : Nat) :
    (usedEntry name lba).length = sizeofGPTentry := by
  simp [usedEntry, hname, gptNameSize, sizeofGPTentry]

theorem array_le_spareLBA (g : Geometry) :
    g.partEntryLoc * 512 + g.arrayBytes ≤ g.spareLBA * 512 := by
  have hspare : g.partEntryLoc + g.arraySectors ≤ g.spareLBA := le_max_right _ _
  have hround : g.arrayBytes ≤ g.arraySectors * 512 := by
    unfold Geometry.arraySectors
    omega
  calc
    g.partEntryLoc * 512 + g.arrayBytes ≤ g.partEntryLoc * 512 + g.arraySectors * 512 :=
      Nat.add_le_add_left hround _
    _ = (g.partEntryLoc + g.arraySectors) * 512 := (Nat.add_mul _ _ _).symm
    _ ≤ g.spareLBA * 512 := Nat.mul_le_mul_right 512 hspare

theorem Geometry.Fits.entrySize_ge (hfits : g.Fits) : sizeofGPTentry ≤ g.partEntrySize := by
  obtain ⟨k, hk⟩ := hfits.entrySize
  have hpow := Nat.one_le_two_pow (n := k)
  unfold sizeofGPTentry
  omega

theorem entryOffset_mono (g : Geometry) {i j : Nat} (h : i ≤ j) :
    g.entryOffset i ≤ g.entryOffset j :=
  Nat.add_le_add_left (Nat.mul_le_mul_right _ h) _

theorem entryOffset_succ_le (hfits : g.Fits) (i : Nat) :
    g.entryOffset i + sizeofGPTentry ≤ g.entryOffset (i + 1) := by
  have hsize := hfits.entrySize_ge
  calc
    g.entryOffset i + sizeofGPTentry ≤ g.entryOffset i + g.partEntrySize :=
      Nat.add_le_add_left hsize _
    _ = g.entryOffset (i + 1) := by
      unfold Geometry.entryOffset
      ring

theorem entry_le_spareLBA (hfits : g.Fits) {i : Nat} (hi : i < g.nPartEntries) :
    g.entryOffset i + sizeofGPTentry ≤ g.spareLBA * 512 := by
  have hend : (i + 1) * g.partEntrySize ≤ g.arrayBytes := Nat.mul_le_mul_right _ hi
  calc
    g.entryOffset i + sizeofGPTentry ≤ g.entryOffset (i + 1) := entryOffset_succ_le hfits i
    _ ≤ g.partEntryLoc * 512 + g.arrayBytes := Nat.add_le_add_left hend _
    _ ≤ g.spareLBA * 512 := array_le_spareLBA g

theorem size_lateBody (hfits : g.Fits) (hname : name.length = gptNameSize)
    (hcount : 0 < g.nPartEntries) : (lateBody g name).size = (g.spareLBA + 2) * 512 := by
  have hentry := @entry_le_spareLBA g hfits (g.nPartEntries - 1) (by omega)
  have hlength := length_usedEntry hname g.spareLBA
  have hsig : fratSig.length = 16 := rfl
  have hblank : (Image.blank ((g.spareLBA + 2) * 512)).size = (g.spareLBA + 2) * 512 := rfl
  have hused := @Image.size_write_of_le (Image.blank ((g.spareLBA + 2) * 512))
    (g.entryOffset (g.nPartEntries - 1)) (usedEntry name g.spareLBA) (by omega)
  rw [lateBody, Image.size_write_of_le, hused, hblank]
  omega

theorem size_lateDisk (hfits : g.Fits) (hname : name.length = gptNameSize)
    (hcount : 0 < g.nPartEntries) : (lateDisk g name).size = (g.spareLBA + 2) * 512 := by
  have hbody := size_lateBody hfits hname hcount
  have hblock := length_lateBlock g (arrayChecksum g name)
  have hspare : 34 ≤ g.spareLBA := le_max_left _ _
  rw [lateDisk, Image.size_write_of_le, hbody]
  omega

theorem headerBlock_lateDisk (g : Geometry) (name : Bytes) :
    headerBlock (lateDisk g name) = lateBlock g (arrayChecksum g name) := by
  have hsame := Image.window_write_same (lateBody g name) 512
    (lateBlock g (arrayChecksum g name))
  rwa [length_lateBlock] at hsame

theorem window_lateDisk (g : Geometry) (name : Bytes) {off len : Nat}
    (h : off + len ≤ 512 ∨ 1024 ≤ off) :
    (lateDisk g name).window off len = (lateBody g name).window off len := by
  have hblock := length_lateBlock g (arrayChecksum g name)
  exact Image.window_write_disjoint _ (by omega)

theorem window_blank (size off len : Nat) : (Image.blank size).window off len = zeros len := by
  apply List.ext_getElem?
  intro k
  rw [Image.getElem?_window]
  split
  case isTrue hk => rw [getElem?_zeros hk]; rfl
  case isFalse hk => rw [List.getElem?_eq_none (by simpa using hk)]

theorem window_lateDisk_zeros (hfits : g.Fits) (hcount : 0 < g.nPartEntries) {off len : Nat}
    (hheader : off + len ≤ 512 ∨ 1024 ≤ off)
    (hoff : off + len ≤ g.entryOffset (g.nPartEntries - 1)) :
    (lateDisk g name).window off len = zeros len := by
  have hentry := @entry_le_spareLBA g hfits (g.nPartEntries - 1) (by omega)
  rw [window_lateDisk g name hheader, lateBody,
    Image.window_write_disjoint _ (by omega), Image.window_write_disjoint _ (by omega),
    window_blank]

theorem window_lateDisk_entry (hfits : g.Fits) (hname : name.length = gptNameSize)
    (hcount : 0 < g.nPartEntries) :
    (lateDisk g name).window (g.entryOffset (g.nPartEntries - 1)) sizeofGPTentry =
      usedEntry name g.spareLBA := by
  have hentry := @entry_le_spareLBA g hfits (g.nPartEntries - 1) (by omega)
  have hloc : 1024 ≤ g.entryOffset (g.nPartEntries - 1) := by
    have htwo := hfits.loc
    unfold Geometry.entryOffset
    omega
  have hsame := Image.window_write_same (Image.blank ((g.spareLBA + 2) * 512))
    (g.entryOffset (g.nPartEntries - 1)) (usedEntry name g.spareLBA)
  rw [length_usedEntry hname] at hsame
  rw [window_lateDisk g name (.inr hloc), lateBody, Image.window_write_disjoint _ (.inl hentry),
    hsame]

theorem carriesFs_lateDisk (hfits : g.Fits) (hname : name.length = gptNameSize)
    (hcount : 0 < g.nPartEntries) : CarriesFs (lateDisk g name) g.spareLBA := by
  have hspare : 34 ≤ g.spareLBA := le_max_left _ _
  constructor
  · rw [size_lateDisk hfits hname hcount]
    omega
  · rw [window_lateDisk g name (.inr (by omega))]
    exact Image.window_write_same _ (g.spareLBA * 512) fratSig

theorem carried_lateDisk (hfits : g.Fits) (hname : name.length = gptNameSize)
    (hcount : 0 < g.nPartEntries) :
    g.Carried (lateDisk g name) (lateHeader g (arrayChecksum g name)) where
  size_lt := by
    rw [size_lateDisk hfits hname hcount]
    exact hfits.spare
  header := by
    rw [headerBlock_lateDisk]
    exact decode_lateBlock hfits (BitVec.isLt _)
  sig := rfl
  rev := rfl
  hSize := ⟨Nat.le_refl sizeofMiniGPT, show sizeofMiniGPT ≤ 512 by decide⟩
  hChecksum := by
    rw [headerBlock_lateDisk]
    exact (headerChecksum_lateBlock g _).symm
  r := rfl
  localLBA := rfl
  geometry := rfl
  entrySize := hfits.entrySize
  partArrayChecksum := by
    have hloc := hfits.loc
    rw [window_lateDisk g name (.inr (by omega))]
    rfl
  loc := hfits.loc
  array := le_max_right _ _
  fUsable := le_max_left _ _
  lUsable := Nat.le_refl _
  alternateLBA := Nat.lt_succ_self _
  disk := by
    rw [size_lateDisk hfits hname hcount]
    exact Nat.le_refl _

/-! ## What is found on it -/

def lateEntry (g : Geometry) (name : Bytes) : GPTentry := ⟨g.spareLBA, g.spareLBA, name⟩

def emptyEntry : GPTentry := ⟨0, 0, zeros gptNameSize⟩

theorem decode_usedEntry (hfits : g.Fits) (hname : name.length = gptNameSize) :
    GPTentry.decode (usedEntry name g.spareLBA) = lateEntry g name := by
  have hspare := hfits.spare
  have hlba : g.spareLBA % 256 ^ 8 = g.spareLBA := Nat.mod_eq_of_lt (by omega)
  have hfirst := fieldNat_append (List.replicate 32 1)
    (leBytes 8 g.spareLBA ++ (zeros 8 ++ name)) 8 g.spareLBA
  have hlast := fieldNat_append (List.replicate 32 1 ++ leBytes 8 g.spareLBA)
    (zeros 8 ++ name) 8 g.spareLBA
  have hlabel := @field_append_right (List.replicate 32 1 ++ (leBytes 8 g.spareLBA ++
    (leBytes 8 g.spareLBA ++ zeros 8))) name 56 72 [] (by simp) hname
  simp only [List.append_assoc, List.append_nil, List.length_append, List.length_replicate,
    length_leBytes, hlba] at hfirst hlast hlabel
  rw [GPTentry.decode, usedEntry, hfirst, hlast, hlabel, lateEntry]

theorem decode_zeroEntry : GPTentry.decode (zeros sizeofGPTentry) = emptyEntry := by
  rw [GPTentry.decode, fieldNat_zeros, fieldNat_zeros, field, slice_zeros, padTo_zeros,
    emptyEntry]
  rfl

theorem indexed_lateDisk (name : Bytes) (hfits : g.Fits) (hcount : 2 ≤ g.nPartEntries)
    (hsize : g.partEntrySize ≠ 128) :
    g.indexed (lateDisk g name) = List.replicate g.nPartEntries emptyEntry := by
  have hlarge : 2 * sizeofGPTentry ≤ g.partEntrySize := by
    obtain ⟨k, hk⟩ := hfits.entrySize
    cases k with
    | zero => exact absurd hk hsize
    | succ k =>
        have hpow := Nat.one_le_two_pow (n := k)
        unfold sizeofGPTentry
        omega
  have hloc := hfits.loc
  refine List.eq_replicate_iff.mpr ⟨by simp [Geometry.indexed], fun e hmem => ?_⟩
  obtain ⟨i, hi, rfl⟩ := List.mem_map.mp hmem
  have hinside : i < g.nPartEntries := List.mem_range.mp hi
  have hend : g.partEntryLoc * 512 + sizeofGPTentry * i + sizeofGPTentry ≤
      g.entryOffset (g.nPartEntries - 1) := by
    calc
      g.partEntryLoc * 512 + sizeofGPTentry * i + sizeofGPTentry =
          g.partEntryLoc * 512 + (i + 1) * sizeofGPTentry := by ring
      _ ≤ g.partEntryLoc * 512 + (g.nPartEntries - 1) * (2 * sizeofGPTentry) := by
        unfold sizeofGPTentry
        omega
      _ ≤ g.entryOffset (g.nPartEntries - 1) :=
        Nat.add_le_add_left (Nat.mul_le_mul_left _ hlarge) _
  rw [window_lateDisk_zeros hfits (by omega) (.inr (by omega)) hend, decode_zeroEntry]

theorem entries_lateDisk (hfits : g.Fits) (hname : name.length = gptNameSize)
    (hcount : 0 < g.nPartEntries) :
    g.entries (lateDisk g name) =
      List.replicate (g.nPartEntries - 1) emptyEntry ++ [lateEntry g name] := by
  have hloc := hfits.loc
  have hsplit : List.range g.nPartEntries =
      List.range (g.nPartEntries - 1) ++ [g.nPartEntries - 1] := by
    rw [← List.range_succ]
    congr 1
    omega
  rw [Geometry.entries, hsplit, List.map_append, List.map_singleton,
    window_lateDisk_entry hfits hname hcount, decode_usedEntry hfits hname]
  congr 1
  refine List.eq_replicate_iff.mpr ⟨by simp, fun e hmem => ?_⟩
  obtain ⟨i, hi, rfl⟩ := List.mem_map.mp hmem
  have hinside : i < g.nPartEntries - 1 := List.mem_range.mp hi
  have hend : g.entryOffset i + sizeofGPTentry ≤ g.entryOffset (g.nPartEntries - 1) :=
    (entryOffset_succ_le hfits i).trans (entryOffset_mono g hinside)
  have hlow : 1024 ≤ g.entryOffset i := by
    unfold Geometry.entryOffset
    omega
  rw [window_lateDisk_zeros hfits hcount (.inr hlow) hend, decode_zeroEntry]

theorem size_ge_lateDisk (hfits : g.Fits) (hname : name.length = gptNameSize)
    (hcount : 0 < g.nPartEntries) : 512 ≤ (lateDisk g name).size := by
  rw [size_lateDisk hfits hname hcount]
  omega

theorem passedOver_lateDisk (hfits : g.Fits) (hname : name.length = gptNameSize)
    (hcount : 0 < g.nPartEntries) : PassedOver (lateDisk g name) emptyEntry.sLBA := by
  have hsize := size_ge_lateDisk hfits hname hcount
  have hfirst : 16 ≤ g.entryOffset (g.nPartEntries - 1) := by
    have hloc := hfits.loc
    unfold Geometry.entryOffset
    omega
  refine ⟨hsize, ?_⟩
  change (lateDisk g name).window 0 16 ≠ fratSig
  rw [window_lateDisk_zeros hfits hcount (.inl (by decide)) hfirst]
  decide

theorem not_carriesFs_lateDisk (hfits : g.Fits) (hname : name.length = gptNameSize)
    (hcount : 0 < g.nPartEntries) : ¬ CarriesFs (lateDisk g name) emptyEntry.sLBA :=
  fun hcarries => (passedOver_lateDisk hfits hname hcount).2 hcarries.2

theorem find?_replicate_emptyEntry {p : GPTentry → Bool} (n : Nat)
    (hempty : p emptyEntry = false) : (List.replicate n emptyEntry).find? p = none := by
  rw [List.find?_eq_none]
  intro e hmem
  rw [List.eq_of_mem_replicate hmem, hempty]
  exact Bool.false_ne_true

theorem find?_entries_lateDisk {p : GPTentry → Bool} (hfits : g.Fits)
    (hname : name.length = gptNameSize) (hcount : 0 < g.nPartEntries)
    (hempty : p emptyEntry = false) (hlate : p (lateEntry g name) = true) :
    (g.entries (lateDisk g name)).find? p = some (lateEntry g name) := by
  rw [entries_lateDisk hfits hname hcount, List.find?_append,
    find?_replicate_emptyEntry _ hempty, List.find?_cons_of_pos hlate]
  rfl

theorem firstNamed_lateDisk (hfits : g.Fits) (hname : name.length = gptNameSize)
    (hcount : 0 < g.nPartEntries) (hused : zeros gptNameSize ≠ name) :
    firstNamed g (lateDisk g name) name = some (lateEntry g name) :=
  find?_entries_lateDisk hfits hname hcount (decide_eq_false hused) (decide_eq_true rfl)

theorem firstCarrying_lateDisk (hfits : g.Fits) (hname : name.length = gptNameSize)
    (hcount : 0 < g.nPartEntries) :
    firstCarrying g (lateDisk g name) = some (lateEntry g name) :=
  find?_entries_lateDisk hfits hname hcount
    (decide_eq_false (not_carriesFs_lateDisk hfits hname hcount))
    (decide_eq_true (carriesFs_lateDisk hfits hname hcount))

theorem searchable_lateDisk (hfits : g.Fits) (hname : name.length = gptNameSize)
    (hcount : 0 < g.nPartEntries) (hused : zeros gptNameSize ≠ name) :
    Searchable g (lateDisk g name) name where
  named e he := by
    have hspare : 34 ≤ g.spareLBA := le_max_left _ _
    rw [firstNamed_lateDisk hfits hname hcount hused] at he
    cases he
    refine .inl ?_
    change g.spareLBA ≠ 0
    omega
  passed e hmem := by
    have hnot := of_decide_eq_true (List.all_eq_true.mp List.all_takeWhile e hmem)
    have hlisted := (List.takeWhile_prefix _).subset hmem
    rw [entries_lateDisk hfits hname hcount, List.mem_append, List.mem_singleton] at hlisted
    rcases hlisted with hempty | rfl
    · rw [List.eq_of_mem_replicate hempty]
      exact passedOver_lateDisk hfits hname hcount
    · exact absurd (carriesFs_lateDisk hfits hname hcount) hnot

theorem loadpart_lateDisk (hfits : g.Fits) (hname : name.length = gptNameSize)
    (hcount : 2 ≤ g.nPartEntries) (hsize : g.partEntrySize ≠ 128)
    (hused : zeros gptNameSize ≠ name) : loadpart (lateDisk g name) name = .ok ⟨0, 0⟩ := by
  have hcarried := @carried_lateDisk g name hfits hname (by omega)
  rw [hcarried.loadpart, indexed_lateDisk name hfits hcount hsize,
    find?_replicate_emptyEntry _ (decide_eq_false hused)]
  rfl

theorem queryparttable_lateDisk (hfits : g.Fits) (hname : name.length = gptNameSize)
    (hcount : 2 ≤ g.nPartEntries) (hsize : g.partEntrySize ≠ 128) :
    queryparttable (lateDisk g name) = .ok ⟨0, 0⟩ := by
  have hcarried := @carried_lateDisk g name hfits hname (by omega)
  have hnot := @not_carriesFs_lateDisk g name hfits hname (by omega)
  have hpassed := @passedOver_lateDisk g name hfits hname (by omega)
  have hbase : ∀ e ∈ List.replicate g.nPartEntries emptyEntry, e.sLBA < 2 ^ 64 := by
    intro e hmem
    rw [List.eq_of_mem_replicate hmem]
    decide
  have hsearch := (queryparttablefs_iff hcarried.size_lt hbase).mpr fun e hmem => by
    rw [List.eq_of_mem_replicate ((List.takeWhile_prefix _).subset hmem)]
    exact hpassed
  have hnone := @find?_replicate_emptyEntry (fun e => CarriesFs (lateDisk g name) e.sLBA)
    g.nPartEntries (decide_eq_false hnot)
  rw [hcarried.queryparttable, indexed_lateDisk name hfits hcount hsize, hsearch, hnone]
  rfl

theorem not_findsPartitions_lateDisk (hfits : g.Fits) (hname : name.length = gptNameSize)
    (hcount : 2 ≤ g.nPartEntries) (hsize : g.partEntrySize ≠ 128)
    (hused : zeros gptNameSize ≠ name) : ¬ FindsPartitions g (lateDisk g name) name := by
  intro hfinds
  have hload := loadpart_lateDisk hfits hname hcount hsize hused
  have hfirst := @firstNamed_lateDisk g name hfits hname (by omega) hused
  have hnone := hfinds.empty_iff.mp hload
  rw [hfirst] at hnone
  cases hnone

end LateDisk

/-- A name of one letter. -/
def lateName : Bytes := 0x41 :: zeros 71

/--
The searches are right on every disk with a valid header of this geometry, as
far as its entries are searchable, exactly when an entry has 128 bytes or there
is one at most.
-/
theorem findsPartitions_iff (g : Geometry) (hdisk : ∃ img h, g.Carried img h) :
    (∀ img h name, g.Carried img h → name.length = gptNameSize →
      (FindsPartitions g img name ↔ Searchable g img name)) ↔
      g.nPartEntries ≤ 1 ∨ g.partEntrySize = 128 := by
  obtain ⟨_, _, hcarried⟩ := hdisk
  have hfits := hcarried.fits
  constructor
  · intro hexact
    by_contra hgeometry
    rw [not_or] at hgeometry
    have hcount : 2 ≤ g.nPartEntries := by omega
    have hused : zeros gptNameSize ≠ lateName := by decide
    have hlate := hexact (lateDisk g lateName) _ lateName
      (carried_lateDisk hfits rfl (by omega)) rfl
    exact not_findsPartitions_lateDisk hfits rfl hcount hgeometry.2 hused
      (hlate.mpr (searchable_lateDisk hfits rfl (by omega) hused))
  · intro hgeometry img h name himg _
    exact findsPartitions_of_entrySize name himg hgeometry

/-- Two entries of 256 bytes each, in the third sector. -/
def wideGeometry : Geometry := ⟨2, 2, 256⟩

/-- The table most disks have. -/
def usualGeometry : Geometry := ⟨2, 128, 128⟩

theorem fits_wideGeometry : wideGeometry.Fits :=
  ⟨by decide, by decide, by decide, ⟨1, rfl⟩, by decide⟩

theorem fits_usualGeometry : usualGeometry.Fits :=
  ⟨by decide, by decide, by decide, ⟨0, rfl⟩, by decide⟩

theorem findsPartitions_iff_usual :
    (∀ img h name, usualGeometry.Carried img h → name.length = gptNameSize →
      (FindsPartitions usualGeometry img name ↔ Searchable usualGeometry img name)) ↔
      usualGeometry.nPartEntries ≤ 1 ∨ usualGeometry.partEntrySize = 128 :=
  findsPartitions_iff usualGeometry
    ⟨_, _, @carried_lateDisk _ lateName fits_usualGeometry rfl (by decide)⟩

/-- The second of two wide entries is the partition looked for, and neither search finds it. -/
theorem not_findsPartitions_wide :
    wideGeometry.Carried (lateDisk wideGeometry lateName)
        (lateHeader wideGeometry (arrayChecksum wideGeometry lateName)) ∧
      Searchable wideGeometry (lateDisk wideGeometry lateName) lateName ∧
      firstNamed wideGeometry (lateDisk wideGeometry lateName) lateName =
        some ⟨34, 34, lateName⟩ ∧
      firstCarrying wideGeometry (lateDisk wideGeometry lateName) = some ⟨34, 34, lateName⟩ ∧
      loadpart (lateDisk wideGeometry lateName) lateName = .ok ⟨0, 0⟩ ∧
      queryparttable (lateDisk wideGeometry lateName) = .ok ⟨0, 0⟩ ∧
      ¬ FindsPartitions wideGeometry (lateDisk wideGeometry lateName) lateName := by
  have hfits := fits_wideGeometry
  have hcount : 2 ≤ wideGeometry.nPartEntries := by decide
  have hsize : wideGeometry.partEntrySize ≠ 128 := by decide
  have hused : zeros gptNameSize ≠ lateName := by decide
  have hspare : wideGeometry.spareLBA = 34 := by decide
  have hentry : lateEntry wideGeometry lateName = ⟨34, 34, lateName⟩ := by
    rw [lateEntry, hspare]
  rw [← hentry]
  exact ⟨carried_lateDisk hfits rfl (by decide),
    searchable_lateDisk hfits rfl (by decide) hused,
    firstNamed_lateDisk hfits rfl (by decide) hused,
    firstCarrying_lateDisk hfits rfl (by decide),
    loadpart_lateDisk hfits rfl hcount hsize hused,
    queryparttable_lateDisk hfits rfl hcount hsize,
    not_findsPartitions_lateDisk hfits rfl hcount hsize hused⟩

end BlockyOS.HostTool
