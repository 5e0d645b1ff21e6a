import BlockyOS.HostTool.Blocks
import BlockyOS.HostTool.MapInvariant
import BlockyOS.HostTool.Mounting

/-!
# Unmounting and mounting again

A flush writes the root block and the map through one environment, a mount reads
them through others.  On a partition whose map needs no wrapping, the root that
comes back is the root that was flushed, whatever was done to it since it was
mounted.
-/

namespace BlockyOS.HostTool

open BlockyOS.Foundation

/-! ## What a run leaves alone -/

theorem allocatecluster_sameGeometry {fr fr' : ConfFsroot} {fb : Option Nat}
    (h : allocatecluster fr = (fr', fb)) : ConfFsroot.SameGeometry fr fr' := by
  cases fb with
  | none =>
      obtain ⟨rfl, -⟩ := allocatecluster_none h
      exact .setCursor fr 0
  | some fb =>
      obtain ⟨rfl, -⟩ := allocatecluster_some h
      exact .setCursor fr fb

theorem Created.sameGeometry {E : Host} {fr fr' : ConfFsroot} {path : Path}
    {flags : List Char} (h : Created E fr path flags fr') :
    ConfFsroot.SameGeometry fr fr' := by
  cases h with
  | full _ halloc => exact allocatecluster_sameGeometry halloc
  | entered fr₁ _ fb halloc hedits =>
      exact (allocatecluster_sameGeometry halloc).trans
        ((ConfFsroot.SameGeometry.setBlock fr₁ fb _).trans hedits.sameGeometry)

theorem fcreate_sameGeometry {E : Host} {v v' : Volume} {path : Path} {flags : List Char}
    (h : fcreate E v path flags = .ok v') : ConfFsroot.SameGeometry v.root v'.root := by
  cases fcreate_spec h with
  | new _ _ hspec => exact hspec.sameGeometry
  | replaced _ fb _ _ hspec =>
      exact (ConfFsroot.SameGeometry.setBlock v.root fb _).trans hspec.sameGeometry
  | kept => exact .refl v.root

theorem step_sameGeometry {E : Host} {s s' : Session} {op : Op}
    (h : s.step E op = .ok s') : ConfFsroot.SameGeometry s.vol.root s'.vol.root := by
  have hroot := step_root h
  cases op with
  | remove path =>
      obtain ⟨fb, -, -, heq⟩ := ffremove_ok hroot
      rw [heq]
      exact .setBlock s.vol.root fb _
  | create path flags => exact fcreate_sameGeometry hroot
  | loadh path args =>
      rw [StepRoot] at hroot
      split at hroot
      case isTrue => exact fcreate_sameGeometry hroot
      case isFalse =>
        rw [hroot]
        exact .refl s.vol.root
  | _ => exact Edits.sameGeometry hroot

theorem run_sameGeometry {E : Host} {s s' : Session} {ops : List Op}
    (h : run (Session.step E) s ops = .ok s') :
    ConfFsroot.SameGeometry s.vol.root s'.vol.root :=
  run_invariant (P := fun t => ConfFsroot.SameGeometry s.vol.root t.vol.root)
    (fun _ _ _ hsame hstep => hsame.trans (step_sameGeometry hstep)) (.refl _) h

/-! ## Roots as a mount builds them -/

structure AsMounted (fr : ConfFsroot) : Prop where
  signature : fr.root.signature = fratSig
  nLogSectors : fr.nLogSectors = fr.root.confLogSectors.toNat
  nClusterSectors : fr.nClusterSectors =
    safediv fr.root.confClusterSize.toNat fr.root.confBlockSize.toNat
  clusterSize : fr.clusterSize = fr.root.confClusterSize.toNat
  nClusterItems : fr.nClusterItems = safediv fr.root.confClusterSize.toNat sizeofFsBlock

theorem asMounted_of_fmount {img : Image} {fr : ConfFsroot}
    (h : fmount img = .ok (.mounted fr)) : AsMounted fr := by
  obtain ⟨sector, map, -, hsig, -, heq⟩ := fmount_mounted h
  rw [heq]
  exact ⟨hsig, rfl, rfl, rfl, rfl⟩

theorem AsMounted.of_sameGeometry {fr fr' : ConfFsroot} (h : AsMounted fr)
    (hsame : ConfFsroot.SameGeometry fr fr') : AsMounted fr' := by
  obtain ⟨hsig, hlogs, hsectors, hsize, hitems⟩ := h
  constructor
  · rw [hsame.root, hsig]
  · rw [hsame.nLogSectors, hsame.root, hlogs]
  · rw [hsame.nClusterSectors, hsame.root, hsectors]
  · rw [hsame.clusterSize, hsame.root, hsize]
  · rw [hsame.nClusterItems, hsame.root, hitems]

theorem ConfFsroot.eq_of_sameGeometry {fr fr' : ConfFsroot} (h : SameGeometry fr fr')
    (hmap : fr'.clusterMap = fr.clusterMap)
    (hcursor : fr'.lastClusterAlloc = fr.lastClusterAlloc) : fr' = fr := by
  obtain ⟨hloc, hroot, hlogs, hsectors, hsize, hitems, hslack⟩ := h
  cases fr
  cases fr'
  simp only at hloc hroot hlogs hsectors hsize hitems hslack hmap hcursor
  subst hloc hroot hlogs hsectors hsize hitems hslack hmap hcursor
  rfl

theorem length_mapBytes (fr : ConfFsroot) : (mapBytes fr).length = fr.clusterSize := by
  rw [mapBytes, List.length_append, Codec.length_encodeAll, fr.length_clusterMap,
    fr.size_clusterMap]
  rfl

theorem mountedRoot_mapBytes {fr : ConfFsroot} (h : AsMounted fr) (rest : Bytes) :
    mountedRoot fr.loc fr.root (mapBytes fr ++ rest) = fr.setCursor 0 := by
  have hitems : safediv fr.root.confClusterSize.toNat sizeofFsBlock = fr.clusterMap.length := by
    rw [fr.length_clusterMap, h.nClusterItems]
  have hsize := fr.size_clusterMap
  rw [h.clusterSize, ← fr.length_clusterMap] at hsize
  have hquot : fr.root.confClusterSize.toNat / sizeofFsBlock = fr.clusterMap.length := by
    rw [← hitems, safediv_of_ne_zero (by decide)]
  have hrem : fr.slack.length = fr.root.confClusterSize.toNat % sizeofFsBlock := by
    have hdiv := Nat.div_add_mod fr.root.confClusterSize.toNat sizeofFsBlock
    rw [hquot] at hdiv
    omega
  apply ConfFsroot.eq_of_sameGeometry
  · refine ⟨rfl, rfl, h.nLogSectors.symm, h.nClusterSectors.symm, h.clusterSize.symm,
      h.nClusterItems.symm, ?_⟩
    change field (mapBytes fr ++ rest) _ _ = fr.slack
    rw [mapBytes, List.append_assoc, hquot]
    exact field_append_right rest (Codec.length_encodeAll _ _) hrem
  · change fsBlockCodec.getAll (mapBytes fr ++ rest) _ = fr.clusterMap
    rw [hitems, mapBytes, List.append_assoc]
    exact fsBlockCodec.getAll_encodeAll _ _
  · rfl

/-! ## The two writes of a flush -/

def ConfFsroot.mapOffset (fr : ConfFsroot) : Nat :=
  fr.loc * 512 + (fr.nLogSectors + 2) * fr.blkSize * fr.span

/-- Position and size of the map are computed without wrapping, on a disk that holds it. -/
structure MapFits (fr : ConfFsroot) : Prop where
  block : 512 ≤ fr.blkSize
  position : (fr.nLogSectors + 2) * fr.blkSize < 2 ^ 32
  disk : fr.mapOffset + (rootEnv fr).span fr.clusterSize < 2 ^ 63

section Flush

variable {fr : ConfFsroot} (hfits : MapFits fr)

include hfits

theorem MapFits.blkSize_lt : 2 * fr.blkSize < 2 ^ 32 := by
  have hmul := Nat.mul_le_mul_right fr.blkSize (Nat.le_add_left 2 fr.nLogSectors)
  have hpos := hfits.position
  omega

theorem MapFits.span_lt : fr.span < 2 ^ 32 := by
  have hlt := hfits.blkSize_lt
  rw [ConfFsroot.span, blockSpan, sectorsPerBlock_eq]
  omega

theorem MapFits.root_lt_map : fr.loc * 512 + fr.span ≤ fr.mapOffset := by
  have hone : 1 ≤ (fr.nLogSectors + 2) * fr.blkSize :=
    Nat.mul_pos (by omega) (by have := hfits.block; omega)
  have hmul := Nat.mul_le_mul_right fr.span hone
  unfold ConfFsroot.mapOffset
  omega

theorem MapFits.clusterMapPos_eq :
    clusterMapPos fr.loc fr.nLogSectors fr.blkSize =
      fr.loc + (fr.nLogSectors + 2) * fr.blkSize := by
  have hdisk := hfits.disk
  have hblock := hfits.block
  unfold ConfFsroot.mapOffset at hdisk
  exact HostTool.clusterMapPos_eq (by omega) hfits.position (by omega)

theorem MapFits.offset_map :
    fr.loc * 512 + (clusterMapPos fr.loc fr.nLogSectors fr.blkSize - fr.loc) *
      blockSpan fr.blkSize = fr.mapOffset := by
  rw [hfits.clusterMapPos_eq, Nat.add_sub_cancel_left]
  rfl

theorem MapFits.readblocks_map (img : Image) :
    readblocks (rootEnv fr) img (clusterMapPos fr.loc fr.nLogSectors fr.blkSize)
        fr.clusterSize = img.read fr.mapOffset ((rootEnv fr).span fr.clusterSize) := by
  have hoffset := hfits.offset_map
  have hdisk := hfits.disk
  have hpos := hfits.clusterMapPos_eq
  rw [rootEnv, readblocks_startup img (by omega) (by omega), hoffset]

theorem fuloadroot_image {v : Volume} (hroot : v.root = fr) :
    (fuloadroot v).image =
      (v.image.write (fr.loc * 512) (padTo fr.span fr.root.encode)).write fr.mapOffset
        (padTo ((rootEnv fr).span fr.clusterSize) (mapBytes fr)) := by
  subst hroot
  have hoffset := hfits.offset_map
  have hdisk := hfits.disk
  have hpos := hfits.clusterMapPos_eq
  have hlow := hfits.root_lt_map
  have hstart : v.root.loc * 512 + (v.root.loc - v.root.loc) * blockSpan v.root.blkSize =
      v.root.loc * 512 := by
    rw [Nat.sub_self, Nat.zero_mul, Nat.add_zero]
  have hspan : (startup v.root.loc v.root.blkSize).span sizeofFsRoot = v.root.span :=
    span_one v.root.blkSize_lt (by decide)
      (Nat.le_trans (by decide) v.root.sizeofMetaFsBlock_le_span)
  have htake : v.root.root.encode.take sizeofFsRoot = v.root.root.encode :=
    List.take_of_length_le (by rw [FsRoot.length_encode]; decide)
  have htake' : (mapBytes v.root).take v.root.clusterSize = mapBytes v.root :=
    List.take_of_length_le (by rw [length_mapBytes])
  simp only [fuloadroot, rootEnv]
  rw [writeblocks_startup _ _ (Nat.le_refl _) (by omega),
    writeblocks_startup _ _ (by omega) (by omega), hoffset, hstart, hspan, htake, htake']

theorem readSector_fuloadroot {v : Volume} (hroot : v.root = fr) :
    ∃ rest, readSector (fuloadroot v).image fr.loc = some (fr.root.encode ++ rest) := by
  have hlow := hfits.root_lt_map
  have hdisk := hfits.disk
  have hsector : 512 ≤ fr.span := fr.sizeofMetaFsBlock_le_span
  have hlen : fr.root.encode.length = 60 := FsRoot.length_encode fr.root
  have hseek : seekable (u64 (fr.loc * 512)) = true := by
    rw [u64_of_lt (by omega)]
    exact decide_eq_true (by omega)
  have hinitial : slice (padTo fr.span fr.root.encode) 0 512 =
      fr.root.encode ++ (zeros (fr.span - 60)).take (512 - 60) := by
    rw [padTo_of_le (by omega), slice, List.drop_zero, List.take_append,
      List.take_of_length_le (by omega), hlen]
  refine ⟨(zeros (fr.span - 60)).take (512 - 60), ?_⟩
  rw [readSector, if_pos hseek, u64_of_lt (by omega), fuloadroot_image hfits hroot]
  apply Image.read_write_disjoint (.inl (by omega))
  have hend := @Image.end_le_write v.image (fr.loc * 512) (padTo fr.span fr.root.encode)
    (by rw [length_padTo]; omega)
  have hwindow := Image.window_write_same v.image (fr.loc * 512)
    (padTo fr.span fr.root.encode)
  rw [length_padTo] at hend hwindow
  have hslice := @Image.slice_window (v.image.write (fr.loc * 512)
    (padTo fr.span fr.root.encode)) (fr.loc * 512) fr.span 0 512 (by omega)
  rw [hwindow, hinitial, Nat.add_zero] at hslice
  rw [Image.read_of_le (by omega), ← hslice]

theorem readMap_fuloadroot {v : Volume} (hroot : v.root = fr) (hmounted : AsMounted fr) :
    ∃ rest, readMap (fuloadroot v).image fr.loc fr.root = some (mapBytes fr ++ rest) := by
  have hblock := hfits.block
  have hlt := hfits.blkSize_lt
  have henv : mapEnv fr.loc fr.root.confBlockSize.toNat = rootEnv fr :=
    mapEnv_eq (by change 0 < fr.blkSize; omega) (by change fr.blkSize + 511 < _; omega)
  have hspan : fr.clusterSize ≤ (rootEnv fr).span fr.clusterSize :=
    le_span_startup hfits.span_lt (Nat.lt_trans fr.size_lt (by decide))
  have hpad : padTo ((rootEnv fr).span fr.clusterSize) (mapBytes fr) =
      mapBytes fr ++ zeros ((rootEnv fr).span fr.clusterSize - (mapBytes fr).length) :=
    padTo_of_le (by rw [length_mapBytes]; exact hspan)
  refine ⟨zeros ((rootEnv fr).span fr.clusterSize - (mapBytes fr).length), ?_⟩
  rw [← hpad, readMap, henv, ← hmounted.nLogSectors, ← hmounted.clusterSize]
  change readblocks _ _ (clusterMapPos fr.loc fr.nLogSectors fr.blkSize) _ = _
  rw [hfits.readblocks_map, fuloadroot_image hfits hroot]
  have hwritten := @Image.read_write_same
    (v.image.write (fr.loc * 512) (padTo fr.span fr.root.encode)) fr.mapOffset
    (padTo ((rootEnv fr).span fr.clusterSize) (mapBytes fr))
  rwa [length_padTo] at hwritten

end Flush

/-! ## The round trip -/

theorem MapFits.of_sameGeometry {fr fr' : ConfFsroot} (h : MapFits fr)
    (hsame : ConfFsroot.SameGeometry fr fr') : MapFits fr' := by
  have hoffset : fr'.mapOffset = fr.mapOffset := by
    rw [ConfFsroot.mapOffset, ConfFsroot.mapOffset, hsame.loc, hsame.nLogSectors,
      hsame.blkSize, hsame.span]
  constructor
  · rw [hsame.blkSize]
    exact h.block
  · rw [hsame.nLogSectors, hsame.blkSize]
    exact h.position
  · rw [hoffset, hsame.rootEnv, hsame.clusterSize]
    exact h.disk

theorem fmount_fuloadroot_eq {v : Volume} (hfits : MapFits v.root)
    (hmounted : AsMounted v.root) (hlisted : ListedFirst (fuloadroot v).image v.root.loc) :
    fmount (fuloadroot v).image = .ok (.mounted (v.root.setCursor 0)) := by
  obtain ⟨tail, hsector⟩ := readSector_fuloadroot hfits rfl
  obtain ⟨rest, hmap⟩ := readMap_fuloadroot hfits rfl hmounted
  have hdecode : FsRoot.decode (v.root.root.encode ++ tail) = v.root.root :=
    FsRoot.decode_encode_append _ _
  rw [← hdecode] at hmap
  rw [fmount_listed hlisted hsector (by rw [hdecode]; exact hmounted.signature) hmap, hdecode,
    mountedRoot_mapBytes hmounted]

/-- The blocks of a file: their indices and where they lie. -/
def fileBlocks (fr : ConfFsroot) (c : Fcode) : Set (Nat × Nat) :=
  {block | ∃ slot, HasEntry fr slot c block.1 ∧ getloc fr slot = block.2}

/--
Whatever is done to a mounted root, flushing it and mounting the image again
gives back its root block, its map and so the blocks of every file.
-/
theorem fmount_fuloadroot (E : Host) {img : Image} {fr : ConfFsroot} {ticks : Nat}
    {ops : List Op} {s : Session} (hmount : fmount img = .ok (.mounted fr))
    (hrun : run (Session.step E) (.initial ⟨fr, img, ticks⟩) ops = .ok s)
    (hfits : MapFits fr) (hlisted : ListedFirst (fuloadroot s.vol).image s.vol.root.loc) :
    ∃ fr', fmount (fuloadroot s.vol).image = .ok (.mounted fr') ∧
      fr'.loc = s.vol.root.loc ∧ fr'.root = s.vol.root.root ∧
      fr'.clusterMap = s.vol.root.clusterMap ∧
      ∀ c, fileBlocks fr' c = fileBlocks s.vol.root c := by
  have hsame : ConfFsroot.SameGeometry fr s.vol.root := run_sameGeometry hrun
  have hmounted := (asMounted_of_fmount hmount).of_sameGeometry hsame
  exact ⟨s.vol.root.setCursor 0,
    fmount_fuloadroot_eq (hfits.of_sameGeometry hsame) hmounted hlisted,
    rfl, rfl, rfl, fun _ => rfl⟩

/-- The small disk with a root of 512-byte blocks and one log sector on it. -/
def sampleImage : Image :=
  (sampleDisk 4000).write (40 * 512) (formattedRoot ⟨40, 4000⟩ 512 1 1 0).encode

/-- The root a mount gives, or another one when it gives none. -/
def mountedOr (img : Image) (other : ConfFsroot) : ConfFsroot :=
  match fmount img with
  | .ok (.mounted fr) => fr
  | _ => other

theorem fmount_mountedOr {img : Image} {fr : ConfFsroot} (other : ConfFsroot)
    (h : fmount img = .ok (.mounted fr)) : fmount img = .ok (.mounted (mountedOr img other)) := by
  rw [mountedOr, h]

def sampleMounted : ConfFsroot := mountedOr sampleImage (sampleRoot [] (by decide))

theorem fmount_sampleImage : fmount sampleImage = .ok (.mounted sampleMounted) := by
  have heval : ((fmount sampleImage).map fun
      | .mounted _ => true
      | _ => false).toOption = some true := by
    decide +kernel
  obtain ⟨mounted, hmount, hkind⟩ := ok_of_eval heval
  cases mounted with
  | null => cases hkind
  | unmapped base root => cases hkind
  | mounted fr => exact fmount_mountedOr _ hmount

/-- A file is created, and found again after the image was mounted anew. -/
theorem fmount_fuloadroot_sample :
    ∃ s fr', run (Session.step sampleHost) (.initial ⟨sampleMounted, sampleImage, 0⟩)
        [.create samplePath ['f']] = .ok s ∧
      fmount (fuloadroot s.vol).image = .ok (.mounted fr') ∧
      fr'.loc = s.vol.root.loc ∧ fr'.root = s.vol.root.root ∧
      fr'.clusterMap = s.vol.root.clusterMap ∧
      ∀ c, fileBlocks fr' c = fileBlocks s.vol.root c := by
  have heval : ((run (Session.step sampleHost) (.initial ⟨sampleMounted, sampleImage, 0⟩)
      [.create samplePath ['f']]).map fun s =>
        ((checkdisk (fuloadroot s.vol).image).toOption,
          (readTable (fuloadroot s.vol).image).toOption, s.vol.root.loc)).toOption =
      some (some true, some [⟨40, 4000, sampleName⟩], 40) := by
    decide +kernel
  obtain ⟨s, hrun, hs⟩ := ok_of_eval heval
  obtain ⟨hdisk, hrest⟩ := Prod.mk.inj hs
  obtain ⟨htable, hloc⟩ := Prod.mk.inj hrest
  have hlisted : ListedFirst (fuloadroot s.vol).image s.vol.root.loc :=
    ⟨ok_of_toOption hdisk, [], _, [], ok_of_toOption htable, hloc.symm, by decide, by simp⟩
  have hfits : MapFits sampleMounted :=
    ⟨by decide +kernel, by decide +kernel, by decide +kernel⟩
  obtain ⟨fr', hmount, hsame⟩ :=
    fmount_fuloadroot sampleHost fmount_sampleImage hrun hfits hlisted
  exact ⟨s, fr', hrun, hmount, hsame⟩

end BlockyOS.HostTool
