import BlockyOS.Frat.Lookups
import BlockyOS.Frat.LoaderMounts
import BlockyOS.HostTool.DiskLayout
import BlockyOS.HostTool.Reading

/-!
# What the loader reads

On a disk that holds the map and the blocks of all slots, the loader finds the
blocks that the tool finds.  A read returns a range of the bytes of the file and
stamps its metadata block; a flush writes what an unmount by the tool writes.
-/

namespace BlockyOS.Frat.Uefi

open BlockyOS.Foundation
open BlockyOS.HostTool (Fault Fcode ConfFsroot FHandle Volume Path Host HasEntry Present Plain
  FileEntries MapFits AsMounted Session flagcheck fsDirectory getfcode getloc dataFirst
  dataFirstOffset clusterMapOffset clusterMapPos logBlockOffset fratRootOffset safediv_of_ne_zero
  mapBytes ffindhi ffindhi_some ffindhi_of_present extent extent_lt extent_le_count countFcode_le
  blockShare blockSpan blockSpan_pos span_one span_startup_le fileByte dirBlocks dirBlock dirBytes
  dirBytes_succ length_dirBytes fseek fseek_progress u64sub_fseek exists_fileByte
  map_fileByte_eq_slice freadLoop_bytes fread1_of_found stampAccess sizeofMetaFsBlock sizeofFsRoot
  fuloadroot fuloadroot_image)

/-! ## Disks -/

/-- The disk holds the map and the block of every slot, and no position of them wraps. -/
structure DiskHolds (fr : ConfFsroot) (size : Nat) : Prop where
  map : MapFits fr
  mounted : AsMounted fr
  clusterSize_pos : 0 < fr.clusterSize
  mapEnd : fr.mapOffset + (HostTool.rootEnv fr).span fr.clusterSize ≤ size
  slots : ∀ s, s < fr.clusterMap.length →
    fr.loc * 512 + (getloc fr s - fr.loc) * fr.span + fr.span ≤ size
  size_le : size ≤ 2 ^ 63

theorem DiskHolds.of_sameGeometry {fr fr' : ConfFsroot} {size : Nat} (h : DiskHolds fr size)
    (hsame : ConfFsroot.SameGeometry fr fr') : DiskHolds fr' size := by
  have hoffset : fr'.mapOffset = fr.mapOffset := by
    rw [ConfFsroot.mapOffset, ConfFsroot.mapOffset, hsame.loc, hsame.nLogSectors, hsame.blkSize,
      hsame.span]
  refine ⟨h.map.of_sameGeometry hsame, h.mounted.of_sameGeometry hsame, ?_, ?_, fun s hs => ?_,
    h.size_le⟩
  · rw [hsame.clusterSize]
    exact h.clusterSize_pos
  · rw [hoffset, hsame.rootEnv, hsame.clusterSize]
    exact h.mapEnd
  · rw [hsame.length] at hs
    rw [hsame.loc, hsame.getloc, hsame.span]
    exact h.slots s hs

section Positions

variable {fr : ConfFsroot} {size : Nat} (hdisk : DiskHolds fr size)

include hdisk

theorem DiskHolds.blkSize_pos : 0 < fr.blkSize := Nat.lt_of_lt_of_le (by decide) hdisk.map.block

theorem DiskHolds.blkSize_le : fr.blkSize ≤ 2 ^ 32 - 512 := by
  have hlt := hdisk.map.blkSize_lt
  omega

theorem DiskHolds.nClusterSectors_eq :
    fr.nClusterSectors = fr.clusterSize / fr.blkSize := by
  have hne : fr.root.confBlockSize.toNat ≠ 0 := hdisk.blkSize_pos.ne'
  rw [hdisk.mounted.nClusterSectors, hdisk.mounted.clusterSize, safediv_of_ne_zero hne]
  rfl

theorem DiskHolds.getloc_eq {s : Nat} (hs : s < fr.clusterMap.length) :
    getloc fr s =
      fr.loc + ((fr.nLogSectors + 2 + fr.nClusterSectors + 1) * fr.blkSize + s) := by
  have hplace := hdisk.map.disk
  have hposition := hdisk.map.position
  have hpos := hdisk.blkSize_pos
  have hlt := hdisk.map.blkSize_lt
  have hsize := fr.size_lt
  have hslots := fr.length_lt
  have hbase : fr.loc * 512 ≤ fr.mapOffset := Nat.le_add_right _ _
  have hlogs : fr.nLogSectors + 2 ≤ (fr.nLogSectors + 2) * fr.blkSize :=
    Nat.le_mul_of_pos_right _ hpos
  have hsectors : fr.nClusterSectors * fr.blkSize ≤ fr.clusterSize := by
    rw [hdisk.nClusterSectors_eq]
    exact Nat.div_mul_le_self _ _
  have hcount : fr.nClusterSectors ≤ fr.nClusterSectors * fr.blkSize :=
    Nat.le_mul_of_pos_right _ hpos
  have hmap : clusterMapOffset fr.nLogSectors = fr.nLogSectors + 2 := by
    have hsum : logBlockOffset + fr.nLogSectors + 1 = fr.nLogSectors + 2 := by
      unfold logBlockOffset fratRootOffset
      omega
    rw [clusterMapOffset, hsum]
    exact u32_of_lt (by omega)
  have hoffset : dataFirstOffset fr.nLogSectors fr.nClusterSectors =
      fr.nLogSectors + 2 + fr.nClusterSectors + 1 := by
    rw [dataFirstOffset, hmap]
    exact u64_of_lt (by omega)
  have hproduct : (fr.nLogSectors + 2 + fr.nClusterSectors + 1) * fr.blkSize =
      (fr.nLogSectors + 2) * fr.blkSize + fr.nClusterSectors * fr.blkSize + fr.blkSize := by
    ring
  have hfirst : dataFirst fr =
      fr.loc + (fr.nLogSectors + 2 + fr.nClusterSectors + 1) * fr.blkSize := by
    rw [dataFirst, hoffset]
    exact u64_of_lt (by omega)
  rw [getloc, hfirst, u64_of_lt (by omega), Nat.add_assoc]

theorem DiskHolds.slotOffset_eq {s : Nat} (hs : s < fr.clusterMap.length) :
    fr.slotOffset s = fr.loc * 512 + (getloc fr s - fr.loc) * fr.span := by
  have hend := hdisk.slots s hs
  have hsize := hdisk.size_le
  rw [ConfFsroot.slotOffset_eq]
  exact u64_of_lt (by omega)

theorem DiskHolds.map_le_slot {s : Nat} (hs : s < fr.clusterMap.length) :
    fr.mapOffset + (HostTool.rootEnv fr).span fr.clusterSize ≤ fr.slotOffset s := by
  have hbytes : fr.clusterSize < 2 ^ 63 := Nat.lt_trans fr.size_lt (by decide)
  have hspan : (HostTool.rootEnv fr).span fr.clusterSize ≤ max 1 fr.clusterSize * fr.span :=
    span_startup_le fr.blkSize_lt hbytes
  have hround : fr.clusterSize < (fr.nClusterSectors + 1) * fr.blkSize := by
    rw [hdisk.nClusterSectors_eq]
    exact Nat.lt_mul_of_div_lt (Nat.lt_succ_self _) hdisk.blkSize_pos
  have hmax : max 1 fr.clusterSize ≤ (fr.nClusterSectors + 1) * fr.blkSize := by omega
  rw [hdisk.slotOffset_eq hs, hdisk.getloc_eq hs, Nat.add_sub_cancel_left, ConfFsroot.mapOffset]
  calc
    fr.loc * 512 + (fr.nLogSectors + 2) * fr.blkSize * fr.span +
          (HostTool.rootEnv fr).span fr.clusterSize
        ≤ fr.loc * 512 + (fr.nLogSectors + 2) * fr.blkSize * fr.span +
          (fr.nClusterSectors + 1) * fr.blkSize * fr.span :=
      Nat.add_le_add_left (hspan.trans (Nat.mul_le_mul_right _ hmax)) _
    _ = fr.loc * 512 +
          (fr.nLogSectors + 2 + fr.nClusterSectors + 1) * fr.blkSize * fr.span := by ring
    _ ≤ fr.loc * 512 +
          ((fr.nLogSectors + 2 + fr.nClusterSectors + 1) * fr.blkSize + s) * fr.span :=
      Nat.add_le_add_left (Nat.mul_le_mul_right _ (Nat.le_add_right _ _)) _

end Positions

/-! ## What stays -/

structure Kept (v₀ v : Volume) : Prop where
  root : v.root = v₀.root
  size : v₀.image.size ≤ v.image.size
  window : ∀ s, s < v₀.root.clusterMap.length → (v₀.root.block s).index.toNat ≠ 0 →
    v.window s = v₀.window s

theorem Kept.refl (v : Volume) : Kept v v := ⟨rfl, Nat.le_refl _, fun _ _ _ => rfl⟩

theorem Kept.trans {v₀ v v' : Volume} (h : Kept v₀ v) (h' : Kept v v') : Kept v₀ v' := by
  refine ⟨h'.root.trans h.root, Nat.le_trans h.size h'.size, fun s hs hne => ?_⟩
  rw [h'.window s (by rwa [h.root]) (by rwa [h.root]), h.window s hs hne]

section Kept

variable {v₀ v : Volume} (hkept : Kept v₀ v) {c : Fcode}

include hkept

theorem Kept.window_of_found {i s : Nat} (hfind : ffindhi v₀.root c i = some s) (hi : i ≠ 0)
    (hlt : i < 2 ^ 32) : v.window s = v₀.window s := by
  obtain ⟨hs, -, hindex⟩ := ffindhi_some hfind
  rw [u32_of_lt hlt] at hindex
  exact hkept.window s hs (by rwa [hindex])

theorem Kept.dirBytes_eq {n : Nat} (hn : n < 2 ^ 32) : dirBytes v c n = dirBytes v₀ c n := by
  induction n with
  | zero => rfl
  | succ n ih =>
      have hblock : dirBlock v c n = dirBlock v₀ c n := by
        unfold dirBlock
        rw [hkept.root]
        cases hfind : ffindhi v₀.root c (n + 1) with
        | none => rfl
        | some s =>
            dsimp only
            rw [hkept.window_of_found hfind (Nat.succ_ne_zero n) hn]
      rw [dirBytes_succ, dirBytes_succ, ih (by omega), hblock]

end Kept

/-! ## Blocks -/

section Blocks

variable {v : Volume} {size : Nat} (hdisk : DiskHolds v.root size) (hsize : size ≤ v.image.size)
  (M : Machine) {s bytes : Nat} (hs : s < v.root.clusterMap.length)

include hdisk hsize

theorem DiskHolds.allHeld : v.AllHeld := by
  intro s hs
  have hend := hdisk.slots s hs
  have hoffset := hdisk.slotOffset_eq hs
  have hspan := v.root.span_pos
  have hlimit := hdisk.size_le
  have hlow : v.root.loc ≤ getloc v.root s := by
    rw [hdisk.getloc_eq hs]
    exact Nat.le_add_right _ _
  refine ⟨⟨hlow, by omega⟩, ?_⟩
  unfold Volume.Holds
  omega

include hs

theorem readAt_eq (hpos : 0 < bytes) (hle : bytes ≤ v.root.span) :
    readAt M v s bytes = some (v.window s) := by
  have hheld := hdisk.allHeld hsize
  have hend := hdisk.slots s hs
  have hspan := v.root.span_pos
  have hspan_le := v.root.span_le
  have hlimit := hdisk.size_le
  have hfit : v.root.loc * 512 + (getloc v.root s - v.root.loc) * v.root.span < 2 ^ 63 := by
    omega
  have htool : readAt M v s bytes = v.readAt s bytes := by
    rw [readAt, rootEnv, startup_eq]
    exact readblocks_agrees hdisk.blkSize_le hfit (hheld s hs).1.1 hpos (by omega) v.image
  rw [htool]
  exact hheld.readAt hs hpos hle

theorem writeAt_eq (data : Bytes) (hpos : 0 < bytes) (hle : bytes ≤ v.root.span) :
    writeAt M v s data bytes = v.writeAt s data bytes := by
  have hheld := hdisk.allHeld hsize
  have hend := hdisk.slots s hs
  have hspan := v.root.span_pos
  have hspan_le := v.root.span_le
  have hlimit := hdisk.size_le
  have hfit : v.root.loc * 512 + (getloc v.root s - v.root.loc) * v.root.span < 2 ^ 63 := by
    omega
  have hone : (HostTool.startup v.root.loc v.root.blkSize).span bytes = v.root.span :=
    span_one v.root.blkSize_lt hpos hle
  have hin : v.root.loc * 512 + (getloc v.root s - v.root.loc) * v.root.span +
      (HostTool.startup v.root.loc v.root.blkSize).span bytes ≤ v.image.size := by
    omega
  rw [writeAt, rootEnv, startup_eq,
    writeblocks_agrees hdisk.blkSize_le hfit (hheld s hs).1.1 hpos (by omega) data hin]
  rfl

theorem fupdatetstamp_kept (hindex : (v.root.block s).index.toNat = 0) :
    ∃ v₁, fupdatetstamp M v s false = .ok v₁ ∧ Kept v v₁ := by
  have hspan := v.root.sizeofMetaFsBlock_le_span
  have hheld := hdisk.allHeld hsize
  cases htime : M.getTime v.ticks with
  | none =>
      refine ⟨{ v with ticks := v.ticks + 1 }, ?_, rfl, Nat.le_refl _, fun _ _ _ => rfl⟩
      rw [fupdatetstamp, htime]
  | some t =>
      have hread := @readAt_eq v size hdisk hsize M s sizeofMetaFsBlock hs (by decide) hspan
      have hwrite := @writeAt_eq v size hdisk hsize M s sizeofMetaFsBlock hs
        (stampAccess t (v.window s)) (by decide) hspan
      refine ⟨{ v.writeAt s (stampAccess t (v.window s)) sizeofMetaFsBlock with
        ticks := v.ticks + 1 }, ?_, rfl, Volume.size_le_writeAt _, fun j hj hne => ?_⟩
      · rw [fupdatetstamp, htime]
        dsimp only
        rw [hread]
        dsimp only
        rw [if_neg (by decide), hwrite]
      · have hother : j ≠ s := by
          rintro rfl
          exact hne hindex
        exact Volume.window_writeAt_other (by decide) hspan hs hj hother (hheld j hj).1

end Blocks

theorem fuloadroot_kept {v : Volume} {size : Nat} (hdisk : DiskHolds v.root size) :
    Kept v (fuloadroot v) := by
  have himage := @fuloadroot_image _ hdisk.map v rfl
  have hlow := hdisk.map.root_lt_map
  refine ⟨rfl, ?_, fun s hs _ => ?_⟩
  · rw [himage]
    exact Nat.le_trans (Image.size_le_write _ _ _) (Image.size_le_write _ _ _)
  · have hmap := hdisk.map_le_slot hs
    change (fuloadroot v).image.window (v.root.slotOffset s) v.root.span = _
    rw [himage, Image.window_write_disjoint _ (.inr (by rw [length_padTo]; exact hmap)),
      Image.window_write_disjoint _ (.inr (by rw [length_padTo]; omega))]
    rfl

section Flush

variable {v : Volume} {size : Nat} (hdisk : DiskHolds v.root size) (hsize : size ≤ v.image.size)
  (M : Machine)

include hdisk hsize

theorem fuloadh_image : (fuloadh M v).image = (fuloadroot v).image := by
  have hlow := hdisk.map.root_lt_map
  have hplace := hdisk.map.disk
  have hmapEnd := hdisk.mapEnd
  have hbytes := v.root.size_lt
  have hone : (HostTool.startup v.root.loc v.root.blkSize).span sizeofFsRoot = v.root.span :=
    span_one v.root.blkSize_lt (by decide)
      (Nat.le_trans (by decide) v.root.sizeofMetaFsBlock_le_span)
  have hstart : v.root.loc * 512 + (v.root.loc - v.root.loc) * blockSpan v.root.blkSize =
      v.root.loc * 512 := by
    rw [Nat.sub_self, Nat.zero_mul, Nat.add_zero]
  have hoffset := hdisk.map.offset_map
  have hafter : v.root.loc ≤ clusterMapPos v.root.loc v.root.nLogSectors v.root.blkSize := by
    rw [hdisk.map.clusterMapPos_eq]
    exact Nat.le_add_right _ _
  have hroot := @writeblocks_agrees v.root.loc v.root.blkSize v.root.loc sizeofFsRoot
    hdisk.blkSize_le (by rw [hstart]; omega) (Nat.le_refl _) (by decide) (by decide) v.image
    v.root.root.encode (by rw [hstart, hone]; omega)
  have hgrown : v.image.size ≤ (HostTool.writeblocks
      (HostTool.startup v.root.loc v.root.blkSize) v.image v.root.root.encode v.root.loc
        sizeofFsRoot).size := by
    rw [HostTool.writeblocks_startup _ _ (Nat.le_refl _) (by rw [hstart]; omega)]
    exact Image.size_le_write _ _ _
  have hmap := @writeblocks_agrees v.root.loc v.root.blkSize
    (clusterMapPos v.root.loc v.root.nLogSectors v.root.blkSize) v.root.clusterSize
    hdisk.blkSize_le (by rw [hoffset]; omega) hafter hdisk.clusterSize_pos (by omega)
    (HostTool.writeblocks (HostTool.startup v.root.loc v.root.blkSize) v.image
      v.root.root.encode v.root.loc sizeofFsRoot) (mapBytes v.root)
    (by
      rw [hoffset]
      change v.root.mapOffset + (HostTool.rootEnv v.root).span v.root.clusterSize ≤ _
      omega)
  rw [fuloadh, rootEnv, startup_eq]
  dsimp only
  rw [hroot, hmap]
  rfl

theorem fuloadh_kept : Kept v (fuloadh M v) := by
  have htool := fuloadroot_kept hdisk
  have himage := fuloadh_image hdisk hsize M
  refine ⟨rfl, ?_, fun s hs hne => ?_⟩
  · rw [himage]
    exact htool.size
  · rw [← htool.window s hs hne]
    change (fuloadh M v).image.window (v.root.slotOffset s) v.root.span = _
    rw [himage]
    rfl

end Flush

/-! ## Files -/

structure Stored (fr : ConfFsroot) (file : Nat) (c : Fcode) (k : Nat) : Prop where
  entries : FileEntries fr file c k
  plain : ∀ i, 0 < i → i ≤ k → Plain fr c i

/-- The range, unless the data do not have it or it is empty. -/
def readRange (data : Bytes) (pos n : Nat) : Option Bytes :=
  if n ≠ 0 ∧ pos + n ≤ data.length then some (slice data pos n) else none

theorem fsizeFrom_loader (fr : ConfFsroot) (c : Fcode) (fuel : Nat) {cc : Nat}
    (h : cc + fuel ≤ 2 ^ 32) :
    fsizeFrom loader fr c fuel cc = HostTool.fsizeFrom fr c fuel cc := by
  induction fuel generalizing cc with
  | zero => rfl
  | succ fuel ih =>
      have hlook := loader_looksUp c fr cc (by omega)
      have hrest := @ih (cc + 1) (by omega)
      cases hfind : ffindhi fr c cc with
      | none => rw [fsizeFrom, HostTool.fsizeFrom, hlook, hfind]
      | some s => rw [fsizeFrom, HostTool.fsizeFrom, hlook, hfind, hrest]

section Stored

variable {v : Volume} {file k : Nat} {c : Fcode} (hstored : Stored v.root file c k)

include hstored

theorem Stored.fsize_eq : fsize v.root file = k * v.root.blkSize := by
  have hext := hstored.entries.extent_eq
  have hlt := extent_lt v.root c
  have hle := extent_le_count v.root c
  have hcount := countFcode_le v.root c
  have hitems := v.root.length_lt
  rw [v.root.length_clusterMap] at hitems
  have hshares : ∀ i ∈ Finset.range k, blockShare v.root c (1 + i) = v.root.blkSize := by
    intro i hi
    rw [Nat.add_comm]
    exact hstored.entries.blockShare_data (Finset.mem_range.mp hi)
  have hsmall : k * v.root.blkSize ≤ 2 ^ 28 * 2 ^ 32 :=
    Nat.mul_le_mul (by omega) (Nat.le_of_lt v.root.blkSize_lt)
  change u64 (fsizeFrom loader v.root (v.root.block file).fcode (v.root.nClusterItems + 1) 1) = _
  rw [hstored.entries.entry.2.1, fsizeFrom_loader _ _ _ (by omega),
    HostTool.fsizeFrom_eq_sum _ 1 (by omega) (by omega), hext, Finset.sum_Ico_eq_sum_range,
    Nat.add_sub_cancel, Finset.sum_const_nat hshares, Finset.card_range]
  exact u64_of_lt (by omega)

variable {size : Nat} (hdisk : DiskHolds v.root size) (hsize : size ≤ v.image.size)
  (M : Machine)

include hdisk hsize

theorem Stored.fread1_eq {i : Nat} (hi : 0 < i) (hik : i ≤ k) :
    ∃ s, HostTool.fread1 v file i = (some (v.window s), i) ∧
      fread1 M v file i = .ok (some (v.window s), i) := by
  have hlt := hstored.entries.lt
  obtain ⟨s, hs, -⟩ := ffindhi_of_present ((hstored.entries.present i).mpr hik)
  have hplain := hstored.plain i hi hik
  refine ⟨s, fread1_of_found hstored.entries.entry hi.ne' hplain hs (hdisk.allHeld hsize)
    hdisk.blkSize_pos, ?_⟩
  obtain ⟨-, hcode, hindex⟩ := hstored.entries.entry
  have hfind : loader.find v.root c i = some s := (loader_looksUp c v.root i (by omega)).trans hs
  have hskip : skipExtension loader v.root c (v.root.nClusterItems + 2) (some s) i =
      (some s, i) := by
    rw [skipExtension, hplain s hs]
    rfl
  have hread := readAt_eq hdisk hsize M (ffindhi_some hs).1 hdisk.blkSize_pos
    v.root.blkSize_le_span
  rw [fread1, hindex, hcode, if_pos hi.ne', hfind]
  dsimp only
  rw [hskip]
  dsimp only
  rw [hread]

theorem Stored.freadLoop_eq (fuel : Nat) {pos left : Nat} (out : Bytes)
    (hlow : v.root.blkSize ≤ pos) (hin : pos - v.root.blkSize + left ≤ k * v.root.blkSize) :
    freadLoop M v file fuel pos left out = .ok (HostTool.freadLoop v file fuel pos left out) := by
  have hpos := hdisk.blkSize_pos
  have hk := hstored.entries.lt
  have hblk := v.root.blkSize_lt
  have hsmall : k * v.root.blkSize ≤ (2 ^ 32 - 1) * (2 ^ 32 - 1) :=
    Nat.mul_le_mul (by omega) (by omega)
  induction fuel generalizing pos left out with
  | zero => rfl
  | succ fuel ih =>
      by_cases hleft : left = 0
      · rw [freadLoop, if_pos hleft, HostTool.freadLoop, if_pos hleft]
      · have hfirst : 0 < pos / v.root.blkSize := Nat.div_pos hlow hpos
        have hlast : pos / v.root.blkSize < k + 1 := by
          rw [Nat.div_lt_iff_lt_mul hpos, Nat.succ_mul]
          omega
        obtain ⟨s, htool, hread⟩ := hstored.fread1_eq hdisk hsize M hfirst (by omega)
        have hmod := Nat.mod_lt pos hpos
        rw [freadLoop, if_neg hleft, if_neg hpos.ne', hread, HostTool.freadLoop, if_neg hleft]
        dsimp only
        rw [htool]
        dsimp only
        rw [u64_of_lt (by omega)]
        exact ih _ (by omega) (by omega)

theorem Stored.fread_eq {handle : FHandle} {pos n : Nat} (hfile : handle.file = file)
    (hfit : v.root.blkSize + pos + n < 2 ^ 64) :
    ∃ handle' v₁, fread M v (fseek v.root handle pos) n =
        .ok (n, readRange (dirBytes v c k) pos n, handle', v₁) ∧
      handle'.file = file ∧ Kept v v₁ := by
  subst hfile
  have hpos := hdisk.blkSize_pos
  have hlen : (dirBytes v c k).length = k * v.root.blkSize := by
    rw [length_dirBytes (Nat.le_of_eq hstored.entries.dirBlocks_eq.symm), Nat.mul_comm]
  have hprogress := @fseek_progress v.root pos handle (by omega)
  have hrequest : u64 (u64sub (fseek v.root handle pos).progress v.root.blkSize + n) =
      pos + n := by
    rw [u64sub_fseek handle (by omega)]
    exact u64_of_lt (by omega)
  have hbytes : fsize v.root (fseek v.root handle pos).file = k * v.root.blkSize :=
    hstored.fsize_eq
  by_cases hin : pos + n ≤ k * v.root.blkSize
  case neg =>
    have hnone : readRange (dirBytes v c k) pos n = none :=
      if_neg fun hrange => hin (by rw [← hlen]; exact hrange.2)
    refine ⟨fseek v.root handle pos, v, ?_, rfl, Kept.refl v⟩
    rw [fread, hbytes, hrequest, if_pos (Nat.lt_of_not_le hin), hnone]
  case pos =>
    obtain ⟨v₁, hstamp, hkept⟩ := fupdatetstamp_kept hdisk hsize M hstored.entries.entry.1
      (by rw [hstored.entries.entry.2.2])
    have hstamp' : fupdatetstamp M v (fseek v.root handle pos).file false = .ok v₁ := hstamp
    rw [fread, hbytes, hrequest, if_neg (Nat.not_lt.mpr hin), hstamp']
    dsimp only
    by_cases hn : n = 0
    · have hnone : readRange (dirBytes v c k) pos n = none := if_neg fun hrange => hrange.1 hn
      rw [if_pos hn, hnone, hn]
      exact ⟨_, v₁, rfl, rfl, hkept⟩
    · have hsome : readRange (dirBytes v c k) pos n = some (slice (dirBytes v c k) pos n) :=
        if_pos ⟨hn, by rw [hlen]; exact hin⟩
      have hroot := hkept.root
      have hstored₁ : Stored v₁.root (fseek v.root handle pos).file c k := by
        rw [hroot]
        exact hstored
      have hdisk₁ : DiskHolds v₁.root size := by rwa [hroot]
      have hsize₁ := Nat.le_trans hsize hkept.size
      have hlow : v₁.root.blkSize ≤ v.root.blkSize + pos := by
        rw [hroot]
        exact Nat.le_add_right _ _
      have hrange : v.root.blkSize + pos - v₁.root.blkSize + n ≤ k * v₁.root.blkSize := by
        rw [hroot, Nat.add_sub_cancel_left]
        exact hin
      have hk := hstored.entries.lt
      have hinside : ∀ x, v.root.blkSize + pos ≤ x → x < v.root.blkSize + pos + n →
          1 ≤ x / v₁.root.blkSize ∧ x / v₁.root.blkSize ≤ k ∧
            ∃ byte, fileByte v₁ c x = some byte := fun x hx hx' =>
        @exists_fileByte v₁ ⟨handle.file, v.root.blkSize + pos, handle.path⟩ c k n
          hstored₁.entries (by rw [hroot]; exact hpos) hlow hrange x hx hx'
      have hloop := hstored₁.freadLoop_eq hdisk₁ hsize₁ M n [] hlow hrange
      have hget : ∀ x, v.root.blkSize + pos ≤ x → x < v.root.blkSize + pos + n →
          fileByte v₁ c x = some ((fileByte v₁ c x).getD 0) := by
        intro x hx hx'
        obtain ⟨-, -, byte, hbyte⟩ := hinside x hx hx'
        rw [hbyte]
        rfl
      have hcollected := @freadLoop_bytes v₁ (fseek v.root handle pos).file c
        hstored₁.entries.entry hdisk₁.blkSize_pos (fun x => (fileByte v₁ c x).getD 0)
        (hdisk₁.allHeld hsize₁) n (v.root.blkSize + pos) n [] hlow (by omega) (Nat.le_refl _)
        (fun x hx hx' => ⟨hstored₁.plain _ (hinside x hx hx').1 (hinside x hx hx').2.1,
          hget x hx hx'⟩)
      have hslice := map_fileByte_eq_slice hstored₁.entries.dirBlocks_eq hdisk₁.blkSize_pos hlow
        hrange hget
      have hsame : dirBytes v₁ c k = dirBytes v c k := hkept.dirBytes_eq (by omega)
      rw [hsame, hroot, Nat.add_sub_cancel_left] at hslice
      rw [if_neg hn, hprogress, hloop, hcollected]
      dsimp only
      rw [List.nil_append, hslice, Nat.sub_zero, hsome, padTo_of_length]
      · exact ⟨_, v₁, rfl, rfl, hkept⟩
      · rw [← hslice, List.length_map, List.length_range]

end Stored

end BlockyOS.Frat.Uefi
