import BlockyOS.Foundation.Runs
import BlockyOS.HostTool.Mounting

/-!
# What a format leaves for a mount

`formatpart` writes the root block, the log and the map.  The log and the map
are zeroes, so they can destroy the root block only by destroying its signature:
a mount that finds the partition reads the root that was written.

The root block records the size of the map in blocks, and the mount takes the
same field for a number of bytes.
-/

namespace BlockyOS.HostTool

open BlockyOS.Foundation

/-! ## Frames of a raw write -/

theorem writeblocks_cases (re : RawEnv) (img : Image) (data : Bytes) (pos bytes : Nat) :
    writeblocks re img data pos bytes = img ∨
      re.partition ≤ pos ∧ writeblocks re img data pos bytes =
        img.write (re.offset pos) (padTo (re.span bytes) (data.take bytes)) := by
  unfold writeblocks
  split
  case isTrue => exact .inl rfl
  case isFalse hpos =>
    split
    case isTrue => exact .inr ⟨Nat.not_lt.mp hpos, rfl⟩
    case isFalse => exact .inl rfl

theorem window_writeblocks_disjoint {re : RawEnv} {pos bytes o len : Nat} (img : Image)
    (data : Bytes) (h : o + len ≤ re.offset pos ∨ re.offset pos + re.span bytes ≤ o) :
    (writeblocks re img data pos bytes).window o len = img.window o len := by
  rcases writeblocks_cases re img data pos bytes with heq | ⟨-, heq⟩
  · rw [heq]
  · rw [heq, Image.window_write_disjoint]
    rwa [length_padTo]

theorem size_le_writeblocks (re : RawEnv) (img : Image) (data : Bytes) (pos bytes : Nat) :
    img.size ≤ (writeblocks re img data pos bytes).size := by
  rcases writeblocks_cases re img data pos bytes with heq | ⟨-, heq⟩
  · rw [heq]
  · rw [heq]
    exact Image.size_le_write _ _ _

theorem byte_writeblocks_zeros {re : RawEnv} {img : Image} {pos bytes n x : Nat}
    (hlow : re.offset pos ≤ x) (hhigh : x < re.offset pos + re.span bytes) :
    writeblocks re img (zeros n) pos bytes = img ∨
      (writeblocks re img (zeros n) pos bytes).byte x = 0 := by
  rcases writeblocks_cases re img (zeros n) pos bytes with heq | ⟨-, heq⟩
  · exact .inl heq
  · right
    obtain ⟨k, rfl⟩ := Nat.exists_eq_add_of_le hlow
    rw [take_zeros, padTo_zeros] at heq
    have hk : k < (zeros (re.span bytes)).length := by
      rw [length_zeros]
      omega
    have hzero := @getElem?_zeros (re.span bytes) k (by omega)
    rw [List.getElem?_eq_getElem hk] at hzero
    rw [heq, Image.write_byte_inside img hk]
    exact Option.some.inj hzero

/-! ## The formatted image -/

section Format

variable (img : Image) (part : PartDim) (conf logs verMAJOR verMINOR : Nat)

def withRoot : Image :=
  writeblocks (startup part.base conf) img
    (formattedRoot part conf logs verMAJOR verMINOR).encode
    (u64 (part.base + fratRootOffset)) sizeofFsRoot

def withLog : Image :=
  writeblocks (startup part.base conf) (withRoot img part conf logs verMAJOR verMINOR)
    (zeros (u32 (conf * logs))) (u64 (part.base + logBlockOffset)) (u32 (conf * logs))

/-- The bytes `formatpart` clears for the map. -/
def formattedMapSize : Nat :=
  u64 (clusterMapSectorsCalc part.base part.high logs conf * conf)

def formatted : Image :=
  writeblocks (startup part.base conf) (withLog img part conf logs verMAJOR verMINOR)
    (zeros (formattedMapSize part conf logs)) (clusterMapPos part.base logs conf)
    (formattedMapSize part conf logs)

end Format

section Formatted

variable {img img' : Image} {name : Bytes} {part : PartDim}
  {conf logs verMAJOR verMINOR : Nat}

theorem formatpart_ok (hload : loadpart img name = .ok part) (hhigh : part.high ≠ 0) :
    formatpart img name conf logs verMAJOR verMINOR = .ok img' ↔
      sizeofFsRoot ≤ logs * conf ∧ formatted img part conf logs verMAJOR verMINOR = img' := by
  have hformat : formatpart img name conf logs verMAJOR verMINOR =
      if logs * conf < sizeofFsRoot then .error .outOfBounds
      else .ok (formatted img part conf logs verMAJOR verMINOR) := by
    simp only [formatpart, hload, if_neg hhigh]
    rfl
  rw [hformat]
  split
  case isTrue hsmall => simp; omega
  case isFalse hsmall => simp; omega

variable (hpart : (part.high + 1) * 512 ≤ 2 ^ 63) (hbase : part.base < part.high)
  (hconf : conf < 2 ^ 32)

include hpart hbase hconf

theorem withRoot_eq :
    withRoot img part conf logs verMAJOR verMINOR =
      img.write (part.base * 512) (padTo (blockSpan conf)
        (formattedRoot part conf logs verMAJOR verMINOR).encode) := by
  have hpos : u64 (part.base + fratRootOffset) = part.base := u64_of_lt (by
    unfold fratRootOffset
    omega)
  have hstart : part.base * 512 + (part.base - part.base) * blockSpan conf =
      part.base * 512 := by
    rw [Nat.sub_self, Nat.zero_mul, Nat.add_zero]
  have hspan : (startup part.base conf).span sizeofFsRoot = blockSpan conf := by
    refine span_one hconf (by decide) ?_
    have hsectors := sectorsPerBlock_pos conf
    unfold blockSpan sizeofFsRoot
    omega
  rw [withRoot, hpos, writeblocks_startup _ _ (Nat.le_refl _) (by omega), hstart, hspan,
    List.take_of_length_le (by rw [FsRoot.length_encode]; decide)]

theorem window_withRoot :
    ∃ rest, (withRoot img part conf logs verMAJOR verMINOR).window (part.base * 512) 512 =
      (formattedRoot part conf logs verMAJOR verMINOR).encode ++ rest := by
  have hsectors := sectorsPerBlock_pos conf
  have hspan : 512 ≤ blockSpan conf := by
    unfold blockSpan
    omega
  have hlen := FsRoot.length_encode (formattedRoot part conf logs verMAJOR verMINOR)
  have hsame := Image.window_write_same img (part.base * 512) (padTo (blockSpan conf)
    (formattedRoot part conf logs verMAJOR verMINOR).encode)
  rw [length_padTo, ← withRoot_eq hpart hbase hconf] at hsame
  have hslice := @Image.slice_window (withRoot img part conf logs verMAJOR verMINOR)
    (part.base * 512) (blockSpan conf) 0 512 (by omega)
  rw [Nat.add_zero, hsame, padTo_of_le (by omega), slice, List.drop_zero, List.take_append,
    List.take_of_length_le (by omega)] at hslice
  exact ⟨_, hslice.symm⟩

theorem window_withLog :
    (withLog img part conf logs verMAJOR verMINOR).window (part.base * 512) 512 =
      (withRoot img part conf logs verMAJOR verMINOR).window (part.base * 512) 512 := by
  have hsectors := sectorsPerBlock_pos conf
  have hblock := blockSpan_le hconf
  have hspan : 512 ≤ blockSpan conf := by
    unfold blockSpan
    omega
  have hpos : u64 (part.base + logBlockOffset) = part.base + 1 := u64_of_lt (by
    unfold logBlockOffset fratRootOffset
    omega)
  have hfit : part.base * 512 + (part.base + 1 - part.base) * blockSpan conf =
      part.base * 512 + blockSpan conf := by
    rw [Nat.add_sub_cancel_left, Nat.one_mul]
  rw [withLog, hpos]
  apply window_writeblocks_disjoint
  rw [offset_startup (by omega), hfit]
  omega

theorem offset_clusterMapPos :
    (startup part.base conf).offset (clusterMapPos part.base logs conf) ≤ part.base * 512 ∨
      part.base * 512 + 512 ≤
        (startup part.base conf).offset (clusterMapPos part.base logs conf) := by
  have hsectors := sectorsPerBlock_pos conf
  have hblock := blockSpan_le hconf
  have hspan : 512 ≤ blockSpan conf := by
    unfold blockSpan
    omega
  obtain ⟨mc, hmc⟩ : ∃ mc, mc = u32 (clusterMapOffset logs * conf) := ⟨_, rfl⟩
  have hlt : mc < 2 ^ 32 := hmc ▸ u32_lt _
  have hpos : clusterMapPos part.base logs conf = part.base + mc := by
    rw [clusterMapPos, ← hmc]
    exact u64_of_lt (by omega)
  have hoffset : (startup part.base conf).offset (clusterMapPos part.base logs conf) =
      u64 (part.base * 512 + mc * blockSpan conf) := by
    rw [hpos, RawEnv.offset, startup_partition, startup_realBlock, startup_calcBlock,
      Nat.mul_assoc, Nat.add_sub_cancel_left, ← blockSpan]
  have hmul : mc * blockSpan conf ≤ (2 ^ 32 - 1) * 2 ^ 32 :=
    Nat.mul_le_mul (by omega) hblock
  rw [hoffset]
  unfold u64
  by_cases hzero : mc = 0
  · left
    rw [hzero]
    omega
  · have hone : blockSpan conf ≤ mc * blockSpan conf :=
      Nat.le_mul_of_pos_left _ (Nat.pos_of_ne_zero hzero)
    omega

theorem decode_formatted {sector : Bytes}
    (hsector : readSector (formatted img part conf logs verMAJOR verMINOR) part.base =
      some sector)
    (hsig : (FsRoot.decode sector).signature = fratSig) :
    FsRoot.decode sector = formattedRoot part conf logs verMAJOR verMINOR := by
  obtain ⟨rest, hroot⟩ := @window_withRoot img part conf logs verMAJOR verMINOR hpart hbase hconf
  rw [← @window_withLog img part conf logs verMAJOR verMINOR hpart hbase hconf] at hroot
  have hread : sector =
      (formatted img part conf logs verMAJOR verMINOR).window (part.base * 512) 512 := by
    unfold readSector at hsector
    split at hsector
    case isTrue =>
      rw [u64_of_lt (by omega)] at hsector
      exact (((Image.read_eq_some_iff _ _ _ _).mp hsector).2).symm
    case isFalse => cases hsector
  suffices hkeep : (formatted img part conf logs verMAJOR verMINOR).window
      (part.base * 512) 512 =
        (withLog img part conf logs verMAJOR verMINOR).window (part.base * 512) 512 by
    rw [hread, hkeep, hroot]
    exact FsRoot.decode_encode_append _ _
  rcases @offset_clusterMapPos part conf logs hpart hbase hconf with hlow | hhigh
  · by_cases hover : part.base * 512 <
      (startup part.base conf).offset (clusterMapPos part.base logs conf) +
        (startup part.base conf).span (formattedMapSize part conf logs)
    · rcases @byte_writeblocks_zeros _ (withLog img part conf logs verMAJOR verMINOR)
        _ _ (formattedMapSize part conf logs) _ hlow hover with hsame | hzero
      · rw [formatted, hsame]
      · -- the first byte of the signature would be zero
        have hfirst : (FsRoot.decode sector).signature[0]? = some 0 := by
          change (field sector 0 16)[0]? = some 0
          rw [hread, field_eq_slice (by rw [Image.length_window]; omega), getElem?_slice,
            if_pos (by omega), Image.getElem?_window, if_pos (by omega), Nat.add_zero,
            formatted, hzero]
        rw [hsig] at hfirst
        cases hfirst
    · exact window_writeblocks_disjoint _ _ (.inr (by omega))
  · exact window_writeblocks_disjoint _ _ (.inl hhigh)

theorem mounted_formatted {fr : ConfFsroot}
    (hmount : fmount (formatted img part conf logs verMAJOR verMINOR) = .ok (.mounted fr))
    (hloc : fr.loc = part.base) :
    ∃ map, fr = mountedRoot part.base (formattedRoot part conf logs verMAJOR verMINOR) map := by
  obtain ⟨sector, map, hsector, hsig, -, hfr⟩ := fmount_mounted hmount
  rw [hloc] at hsector hfr
  rw [decode_formatted hpart hbase hconf hsector hsig] at hfr
  exact ⟨map, hfr⟩

/-! ## A format that needs no wrapping -/

theorem size_formatted :
    part.base * 512 + 512 ≤ (formatted img part conf logs verMAJOR verMINOR).size := by
  have hsectors := sectorsPerBlock_pos conf
  have hspan : 512 ≤ blockSpan conf := by
    unfold blockSpan
    omega
  have hend := @Image.end_le_write img (part.base * 512) (padTo (blockSpan conf)
    (formattedRoot part conf logs verMAJOR verMINOR).encode) (by rw [length_padTo]; omega)
  rw [length_padTo, ← withRoot_eq hpart hbase hconf] at hend
  calc
    part.base * 512 + 512 ≤ part.base * 512 + blockSpan conf := Nat.add_le_add_left hspan _
    _ ≤ (withRoot img part conf logs verMAJOR verMINOR).size := hend
    _ ≤ (withLog img part conf logs verMAJOR verMINOR).size := size_le_writeblocks _ _ _ _ _
    _ ≤ (formatted img part conf logs verMAJOR verMINOR).size := size_le_writeblocks _ _ _ _ _

variable (hpos : 0 < conf) (hmap : (logs + 2) * conf < 2 ^ 32)

include hpos hmap

omit hconf in
theorem offset_formatted :
    part.base * 512 + (clusterMapPos part.base logs conf - part.base) * blockSpan conf =
      part.base * 512 + (logs + 2) * conf * blockSpan conf := by
  rw [clusterMapPos_eq hpos hmap (by omega), Nat.add_sub_cancel_left]

variable (hdisk : part.base * 512 + (logs + 2) * conf * blockSpan conf < 2 ^ 63)

include hdisk

theorem readSector_formatted :
    ∃ rest, readSector (formatted img part conf logs verMAJOR verMINOR) part.base =
      some ((formattedRoot part conf logs verMAJOR verMINOR).encode ++ rest) := by
  obtain ⟨rest, hroot⟩ := @window_withRoot img part conf logs verMAJOR verMINOR hpart hbase hconf
  have hlow : part.base * 512 < 2 ^ 63 := Nat.lt_of_le_of_lt (Nat.le_add_right _ _) hdisk
  have hstart : u64 (part.base * 512) = part.base * 512 :=
    u64_of_lt (Nat.lt_trans hlow (by decide))
  have hseek : seekable (part.base * 512) = true := decide_eq_true hlow
  have hspan : 512 ≤ blockSpan conf := by
    have hsectors := sectorsPerBlock_pos conf
    unfold blockSpan
    omega
  have hone : blockSpan conf ≤ (logs + 2) * conf * blockSpan conf :=
    Nat.le_mul_of_pos_left _ (Nat.mul_pos (by omega) hpos)
  have hclear : part.base * 512 + 512 ≤
      (startup part.base conf).offset (clusterMapPos part.base logs conf) := by
    rw [offset_startup, offset_formatted hpart hbase hpos hmap]
    · exact Nat.add_le_add_left (Nat.le_trans hspan hone) _
    · rw [offset_formatted hpart hbase hpos hmap]
      exact Nat.lt_trans hdisk (by decide)
  refine ⟨rest, ?_⟩
  rw [readSector, hstart, if_pos hseek,
    Image.read_of_le (size_formatted hpart hbase hconf), formatted,
    window_writeblocks_disjoint _ _ (.inl hclear), window_withLog hpart hbase hconf, hroot]

theorem readMap_formatted
    (hfield : clusterMapSectorsCalc part.base part.high logs conf < 2 ^ 32)
    (hcleared : clusterMapSectorsCalc part.base part.high logs conf * conf < 2 ^ 63) :
    readMap (formatted img part conf logs verMAJOR verMINOR) part.base
        (formattedRoot part conf logs verMAJOR verMINOR) =
      some (zeros ((startup part.base conf).span
        (clusterMapSectorsCalc part.base part.high logs conf))) := by
  have hlogs : logs < 2 ^ 32 := by
    have := Nat.le_mul_of_pos_right (logs + 2) hpos
    omega
  have hdouble : 2 * conf ≤ (logs + 2) * conf := Nat.mul_le_mul_right conf (by omega)
  have hspan : blockSpan conf < 2 ^ 32 := by
    rw [blockSpan, sectorsPerBlock_eq]
    omega
  have hstart : part.base ≤ clusterMapPos part.base logs conf := by
    rw [clusterMapPos_eq hpos hmap (by omega)]
    exact Nat.le_add_right _ _
  have henv : mapEnv part.base conf = startup part.base conf := mapEnv_eq hpos (by omega)
  have hroot_conf : (formattedRoot part conf logs verMAJOR verMINOR).confBlockSize.toNat = conf :=
    toNat_ofNat_of_lt hconf
  have hroot_logs : (formattedRoot part conf logs verMAJOR verMINOR).confLogSectors.toNat = logs :=
    toNat_ofNat_of_lt hlogs
  have hroot_size : (formattedRoot part conf logs verMAJOR verMINOR).confClusterSize.toNat =
      clusterMapSectorsCalc part.base part.high logs conf :=
    toNat_ofNat_of_lt hfield
  have hsize : formattedMapSize part conf logs =
      clusterMapSectorsCalc part.base part.high logs conf * conf :=
    u64_of_lt (by omega)
  have hle : (startup part.base conf).span
      (clusterMapSectorsCalc part.base part.high logs conf) ≤
        (startup part.base conf).span (formattedMapSize part conf logs) := by
    rw [hsize]
    exact span_startup_mono hspan hcleared (Nat.le_mul_of_pos_right _ hpos)
  have hread := @Image.read_write_prefix (withLog img part conf logs verMAJOR verMINOR)
    (part.base * 512 + (logs + 2) * conf * blockSpan conf)
    (zeros ((startup part.base conf).span (formattedMapSize part conf logs)))
    ((startup part.base conf).span (clusterMapSectorsCalc part.base part.high logs conf))
    (by rw [length_zeros]; exact hle)
  have hoffset := @offset_formatted part conf logs hpart hbase hpos hmap
  have hfit : part.base * 512 + (clusterMapPos part.base logs conf - part.base) *
      blockSpan conf < 2 ^ 63 := by
    rw [hoffset]
    exact hdisk
  rw [readMap, hroot_conf, hroot_logs, hroot_size, henv, readblocks_startup _ hstart hfit,
    hoffset, formatted, writeblocks_startup _ _ hstart hfit, hoffset, take_zeros,
    padTo_zeros, hread, take_zeros, Nat.min_eq_left hle]

theorem fmount_formatted
    (hfield : clusterMapSectorsCalc part.base part.high logs conf < 2 ^ 32)
    (hcleared : clusterMapSectorsCalc part.base part.high logs conf * conf < 2 ^ 63)
    (hlisted : ListedFirst (formatted img part conf logs verMAJOR verMINOR) part.base) :
    fmount (formatted img part conf logs verMAJOR verMINOR) =
      .ok (.mounted (mountedRoot part.base (formattedRoot part conf logs verMAJOR verMINOR)
        (zeros ((startup part.base conf).span
          (clusterMapSectorsCalc part.base part.high logs conf))))) := by
  obtain ⟨rest, hsector⟩ := @readSector_formatted img part conf logs verMAJOR verMINOR hpart
    hbase hconf hpos hmap hdisk
  have hdecode := FsRoot.decode_encode_append
    (formattedRoot part conf logs verMAJOR verMINOR) rest
  have hread := @readMap_formatted img part conf logs verMAJOR verMINOR hpart hbase hconf hpos
    hmap hdisk hfield hcleared
  rw [← hdecode] at hread ⊢
  rw [hdecode] at hread
  exact fmount_listed hlisted hsector (by rw [hdecode]; rfl) (by rw [hdecode]; exact hread)

end Formatted

/-! ## Agreement of the formatter and the mounter -/

theorem decode_zeros (n : Nat) : FsBlock.decode (zeros n) = FsBlock.zero := by
  rw [FsBlock.decode]
  simp only [fieldNat_zeros]
  rfl

theorem isFree_of_mem_getAll_zeros {n count : Nat} {fb : FsBlock}
    (h : fb ∈ fsBlockCodec.getAll (zeros n) count) : fb.isFree := by
  obtain ⟨k, -, rfl⟩ := List.mem_map.mp h
  rw [Codec.get, slice_zeros]
  change FsBlock.isFree (FsBlock.decode _)
  rw [decode_zeros]
  rfl

/-- The first byte and the length of what `formatpart` clears for the map. -/
def formattedExtent (part : PartDim) (conf logs : Nat) : Nat × Nat :=
  ((startup part.base conf).offset (clusterMapPos part.base logs conf),
    clusterMapSectorsCalc part.base part.high logs conf * conf)

/-- The first byte and the length of the map `fmount` loads. -/
def mountedExtent (fr : ConfFsroot) : Nat × Nat :=
  ((mapEnv fr.loc fr.blkSize).offset (clusterMapPos fr.loc fr.nLogSectors fr.blkSize),
    fr.clusterSize)

/-- Mounting after a format gives the partition's root, with the map the format made. -/
def FormatMounts (img : Image) (name : Bytes) (part : PartDim)
    (conf logs verMAJOR verMINOR : Nat) : Prop :=
  ∃ img' fr, formatpart img name conf logs verMAJOR verMINOR = .ok img' ∧
    fmount img' = .ok (.mounted fr) ∧ fr.loc = part.base ∧
    mountedExtent fr = formattedExtent part conf logs ∧
    part.high - part.base - logs ≤ fr.nClusterItems ∧
    ∀ fb ∈ fr.clusterMap, fb.isFree

section Agreement

variable {img : Image} {name : Bytes} {part : PartDim} {conf logs verMAJOR verMINOR : Nat}
  (hload : loadpart img name = .ok part) (hbase : part.base < part.high)
  (hconf : conf < 2 ^ 32) (hpart : (part.high + 1) * 512 ≤ 2 ^ 63) (hpos : 0 < conf)
  (hlogs : logs < part.high - part.base)
  (hfield : clusterMapSectorsCalc part.base part.high logs conf < 2 ^ 32)

include hbase hconf hpart hpos hlogs

theorem clusterMapSectorsCalc_part :
    clusterMapSectorsCalc part.base part.high logs conf =
      ((part.high - part.base - logs) * 20 + (conf - 1)) / conf :=
  clusterMapSectorsCalc_eq (by omega) hpos hconf (by omega) (by omega)

include hload hfield

theorem one_of_formatMounts (h : FormatMounts img name part conf logs verMAJOR verMINOR) :
    conf = 1 ∧ sizeofFsRoot ≤ logs := by
  obtain ⟨img', fr, hformat, hmount, hloc, hextent, -, -⟩ := h
  obtain ⟨hroom, rfl⟩ := (formatpart_ok hload (by omega)).mp hformat
  obtain ⟨map, rfl⟩ := mounted_formatted hpart hbase hconf hmount hloc
  have hsize : (mountedRoot part.base (formattedRoot part conf logs verMAJOR verMINOR)
      map).clusterSize = clusterMapSectorsCalc part.base part.high logs conf :=
    toNat_ofNat_of_lt hfield
  have hlength := (Prod.mk.inj hextent).2
  rw [hsize] at hlength
  have hsome : 0 < clusterMapSectorsCalc part.base part.high logs conf := by
    rw [clusterMapSectorsCalc_part hbase hconf hpart hpos hlogs]
    exact Nat.div_pos (by omega) hpos
  have hone : conf = 1 := by
    have hmul : clusterMapSectorsCalc part.base part.high logs conf * 1 =
        clusterMapSectorsCalc part.base part.high logs conf * conf := by
      rw [Nat.mul_one]
      exact hlength
    exact (Nat.eq_of_mul_eq_mul_left hsome hmul).symm
  rw [hone, Nat.mul_one] at hroom
  exact ⟨hone, hroom⟩

end Agreement

/--
On a partition of the disk whose fields and map position fit their words, and
which the mount finds first, the formatter and the mounter agree on the map for
blocks of one byte only, and then the log must leave room for the root block.
-/
theorem formatMounts_iff {img : Image} {name : Bytes} {part : PartDim}
    (conf logs verMAJOR verMINOR : Nat) (hload : loadpart img name = .ok part)
    (hbase : part.base < part.high) (hpos : 0 < conf) (hlogs : logs < part.high - part.base)
    (hconf : conf < 2 ^ 32) (hmap : (logs + 2) * conf < 2 ^ 32)
    (hfield : clusterMapSectorsCalc part.base part.high logs conf < 2 ^ 32)
    (himage : (part.high + 1) * 512 ≤ img.size) (hfile : img.size < 2 ^ 63)
    (hlisted : ∀ img', formatpart img name conf logs verMAJOR verMINOR = .ok img' →
      ListedFirst img' part.base) :
    FormatMounts img name part conf logs verMAJOR verMINOR ↔
      conf = 1 ∧ sizeofFsRoot ≤ logs := by
  have hpart : (part.high + 1) * 512 ≤ 2 ^ 63 := by omega
  refine ⟨one_of_formatMounts hload hbase hconf hpart hpos hlogs hfield, ?_⟩
  rintro ⟨rfl, hroom⟩
  have hblock : blockSpan 1 = 512 := by decide
  have hsize := clusterMapSectorsCalc_part hbase hconf hpart hpos hlogs
  rw [Nat.sub_self, Nat.add_zero, Nat.div_one] at hsize
  have hformat : formatpart img name 1 logs verMAJOR verMINOR =
      .ok (formatted img part 1 logs verMAJOR verMINOR) :=
    (formatpart_ok hload (by omega)).mpr ⟨by omega, rfl⟩
  have hmount := fmount_formatted hpart hbase hconf hpos hmap (by rw [hblock]; omega) hfield
    (by omega) (hlisted _ hformat)
  have hroot_logs : (formattedRoot part 1 logs verMAJOR verMINOR).confLogSectors.toNat = logs :=
    toNat_ofNat_of_lt (by omega)
  have hroot_size : (formattedRoot part 1 logs verMAJOR verMINOR).confClusterSize.toNat =
      clusterMapSectorsCalc part.base part.high logs 1 :=
    toNat_ofNat_of_lt hfield
  refine ⟨_, _, hformat, hmount, rfl, ?_, ?_, fun fb hfb => isFree_of_mem_getAll_zeros hfb⟩
  · apply Prod.ext
    · change (mapEnv part.base 1).offset (clusterMapPos part.base
        (formattedRoot part 1 logs verMAJOR verMINOR).confLogSectors.toNat 1) = _
      rw [hroot_logs, mapEnv_eq hpos (by decide)]
      rfl
    · change (formattedRoot part 1 logs verMAJOR verMINOR).confClusterSize.toNat = _
      rw [hroot_size, ← Nat.mul_one (clusterMapSectorsCalc part.base part.high logs 1)]
      rfl
  · change _ ≤ safediv (formattedRoot part 1 logs verMAJOR verMINOR).confClusterSize.toNat
      sizeofFsBlock
    rw [hroot_size, hsize, safediv_of_ne_zero (by decide), sizeofFsBlock]
    omega

theorem loadpart_sampleDisk {high : Nat} (h : high = 100 ∨ high = 102) :
    loadpart (sampleDisk high) sampleName = .ok ⟨40, high⟩ := by
  rcases h with rfl | rfl
  · exact ok_of_toOption (by decide +kernel)
  · exact ok_of_toOption (by decide +kernel)

theorem listedFirst_formatted {high conf logs : Nat}
    (hdisk : (checkdisk (formatted (sampleDisk high) ⟨40, high⟩ conf logs 1 0)).toOption =
      some true)
    (htable : (readTable (formatted (sampleDisk high) ⟨40, high⟩ conf logs 1 0)).toOption =
      some [⟨40, high, sampleName⟩]) (hhigh : high ≠ 0) :
    ListedFirst (formatted (sampleDisk high) ⟨40, high⟩ conf logs 1 0) 40 :=
  ⟨ok_of_toOption hdisk, [], ⟨40, high, sampleName⟩, [], ok_of_toOption htable, rfl, hhigh,
    fun _ hmem => absurd hmem List.not_mem_nil⟩

/-- A partition of 63 sectors with a log of 60 bytes. -/
theorem formatMounts_iff_sample :
    FormatMounts (sampleDisk 102) sampleName ⟨40, 102⟩ 1 60 1 0 ↔
      1 = 1 ∧ sizeofFsRoot ≤ 60 := by
  have hload := @loadpart_sampleDisk 102 (.inr rfl)
  refine formatMounts_iff 1 60 1 0 hload (by decide) (by decide) (by decide) (by decide)
    (by decide) (by decide) (by decide +kernel) (by decide +kernel) fun img' hformat => ?_
  obtain ⟨-, rfl⟩ := (formatpart_ok hload (by decide)).mp hformat
  exact listedFirst_formatted (by decide +kernel) (by decide +kernel) (by decide)

/--
With the default block and log sizes, a map of three blocks mounts as three
bytes, which hold no entry.
-/
theorem not_formatMounts_default :
    loadpart (sampleDisk 100) sampleName = .ok ⟨40, 100⟩ ∧
      (∃ img' fr, formatpart (sampleDisk 100) sampleName 512 5 1 0 = .ok img' ∧
        fmount img' = .ok (.mounted fr) ∧ fr.loc = 40 ∧
        clusterMapSectorsCalc 40 100 5 512 = 3 ∧ fr.clusterSize = 3 ∧ fr.nClusterItems = 0) ∧
      ¬ FormatMounts (sampleDisk 100) sampleName ⟨40, 100⟩ 512 5 1 0 := by
  have hload := @loadpart_sampleDisk 100 (.inl rfl)
  refine ⟨hload, ?_, fun h => ?_⟩
  · have hmount := @fmount_formatted (sampleDisk 100) ⟨40, 100⟩ 512 5 1 0 (by decide)
      (by decide) (by decide) (by decide) (by decide) (by decide) (by decide) (by decide)
      (listedFirst_formatted (by decide +kernel) (by decide +kernel) (by decide))
    exact ⟨_, _, (formatpart_ok hload (by decide)).mpr ⟨by decide, rfl⟩, hmount, rfl,
      by decide, by decide, by decide⟩
  · have hone := one_of_formatMounts hload (by decide) (by decide) (by decide) (by decide)
      (by decide) (by decide) h
    exact absurd hone.1 (by decide)

end BlockyOS.HostTool
