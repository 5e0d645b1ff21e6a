import Mathlib
import BlockyOS.HostTool.Formatting

/-!
# The regions of a partition

Root block, log, map and data blocks of a mounted root, as the byte ranges their
transfers address.  The placement macros already multiply block numbers by the
block size; the raw layer multiplies them again, so the data area ends far
beyond the blocks the map was sized for.
-/

namespace BlockyOS.HostTool

open BlockyOS.Foundation

/-- The bytes a transfer addresses. -/
def RawEnv.range (re : RawEnv) (pos bytes : Nat) : Set Nat :=
  Set.Ico (re.offset pos) (re.offset pos + re.span bytes)

inductive Region where
  | root
  | log
  | map
  | data (slot : Nat)
  deriving DecidableEq

def Region.rank : Region → Nat
  | .root => 0
  | .log => 1
  | .map => 2
  | .data slot => slot + 3

theorem Region.rank_inj {r r' : Region} (h : r.rank = r'.rank) : r = r' := by
  cases r <;> cases r' <;> simp [Region.rank] at h ⊢
  exact h

def ConfFsroot.region (fr : ConfFsroot) : Region → Set Nat
  | .root => (rootEnv fr).range fr.loc sizeofFsRoot
  | .log => (rootEnv fr).range (u64 (fr.loc + logBlockOffset)) (u32 (fr.blkSize * fr.nLogSectors))
  | .map => (rootEnv fr).range (clusterMapPos fr.loc fr.nLogSectors fr.blkSize) fr.clusterSize
  | .data slot => (rootEnv fr).range (getloc fr slot) fr.blkSize

def ConfFsroot.HasRegion (fr : ConfFsroot) : Region → Prop
  | .data slot => slot < fr.nClusterItems
  | _ => True

/-- The regions do not overlap and lie inside the partition. -/
structure LayoutSound (fr : ConfFsroot) (high : Nat) : Prop where
  disjoint : ∀ r r', fr.HasRegion r → fr.HasRegion r' → r ≠ r' →
    Disjoint (fr.region r) (fr.region r')
  inside : ∀ r, fr.HasRegion r → fr.region r ⊆ Set.Ico (fr.loc * 512) ((high + 1) * 512)

/-! ## Where the regions should end -/

section Placement

variable (base high conf logs : Nat)

def logSpan : Nat := (startup base conf).span (u32 (conf * logs))

def mapSize : Nat := u32 (clusterMapSectorsCalc base high logs conf)

def mapSpan : Nat := (startup base conf).span (mapSize base high conf logs)

def mapBlock : Nat := u32 (clusterMapOffset logs * conf)

def dataBlock : Nat :=
  (clusterMapOffset logs + mapSize base high conf logs / conf + 1) * conf

/-- The block after that of the last slot. -/
def dataEnd : Nat :=
  dataBlock base high conf logs + mapSize base high conf logs / sizeofFsBlock

/--
The log ends before the map and the data area, and the last region there is ends
inside the partition.
-/
structure LayoutFits : Prop where
  log : base * 512 + blockSpan conf + logSpan base conf logs ≤ (high + 1) * 512
  map : mapSpan base high conf logs = 0 ∨
    blockSpan conf + logSpan base conf logs ≤ mapBlock conf logs * blockSpan conf ∧
      base * 512 + mapBlock conf logs * blockSpan conf + mapSpan base high conf logs ≤
        (high + 1) * 512
  data : mapSize base high conf logs < sizeofFsBlock ∨
    blockSpan conf + logSpan base conf logs ≤
        dataBlock base high conf logs * blockSpan conf ∧
      base * 512 + dataEnd base high conf logs * blockSpan conf ≤ (high + 1) * 512

end Placement

/-! ## Roots of a formatted partition -/

structure FormattedAs (fr : ConfFsroot) (base high conf logs : Nat) : Prop where
  loc : fr.loc = base
  blkSize : fr.blkSize = conf
  nLogSectors : fr.nLogSectors = logs
  nClusterSectors : fr.nClusterSectors = mapSize base high conf logs / conf
  clusterSize : fr.clusterSize = mapSize base high conf logs
  nClusterItems : fr.nClusterItems = mapSize base high conf logs / sizeofFsBlock

theorem formattedAs_mountedRoot {base high conf logs verMAJOR verMINOR : Nat} (map : Bytes)
    (hpos : 0 < conf) (hconf : conf < 2 ^ 32) (hlogs : logs < 2 ^ 32) :
    FormattedAs (mountedRoot base (formattedRoot ⟨base, high⟩ conf logs verMAJOR verMINOR) map)
      base high conf logs := by
  have hsize : (formattedRoot ⟨base, high⟩ conf logs verMAJOR verMINOR).confClusterSize.toNat =
      mapSize base high conf logs :=
    BitVec.toNat_ofNat _ _
  have hblock : (formattedRoot ⟨base, high⟩ conf logs verMAJOR verMINOR).confBlockSize.toNat =
      conf :=
    toNat_ofNat_of_lt hconf
  refine ⟨rfl, hblock, toNat_ofNat_of_lt hlogs, ?_, hsize, ?_⟩
  · change safediv _ _ = _
    rw [hsize, hblock, safediv_of_ne_zero (by omega)]
  · change safediv (formattedRoot ⟨base, high⟩ conf logs verMAJOR
      verMINOR).confClusterSize.toNat sizeofFsBlock = _
    rw [hsize, safediv_of_ne_zero (by decide)]

theorem span_startup_le {base conf bytes : Nat} (hconf : conf < 2 ^ 32)
    (hbytes : bytes < 2 ^ 63) :
    (startup base conf).span bytes ≤ max 1 bytes * blockSpan conf := by
  have hpos := blockSpan_pos conf
  rcases Nat.lt_or_eq_of_le (blockSpan_le hconf) with hlt | heq
  · rw [span_startup hlt hbytes]
    apply Nat.mul_le_mul_right
    rw [Nat.div_le_iff_le_mul_add_pred hpos]
    have hmul : max 1 bytes ≤ blockSpan conf * max 1 bytes := Nat.le_mul_of_pos_left _ hpos
    omega
  · -- a block of 2^32 bytes wraps to 0, and every transfer takes one block
    have hblock : (startup base conf).blockBytes = 0 := by
      change u32 (blockSpan conf) = 0
      rw [heq]
      rfl
    have hspan : (startup base conf).span bytes = blockSpan conf := by
      have hcalc := sectorsPerBlock_le hconf
      have hcount : u64 (sectorsPerBlock conf) = sectorsPerBlock conf := u64_of_lt (by omega)
      rw [RawEnv.span, RawEnv.nBlocks, hblock, safediv, if_neg (by simp), startup_calcBlock,
        startup_realBlock, Nat.one_mul, hcount, Nat.mul_comm]
      exact u64_of_lt (Nat.lt_of_le_of_lt (blockSpan_le hconf) (by decide))
    rw [hspan]
    exact Nat.le_mul_of_pos_left _ (by omega)

theorem map_le_data {base high conf logs : Nat} (hpos : 0 < conf) (hconf : conf < 2 ^ 32) :
    mapBlock conf logs * blockSpan conf + mapSpan base high conf logs ≤
      dataBlock base high conf logs * blockSpan conf := by
  have hbytes : mapSize base high conf logs < 2 ^ 63 :=
    Nat.lt_trans (u32_lt _) (by decide)
  have hstart : mapBlock conf logs ≤ clusterMapOffset logs * conf := u32_le _
  have hround : mapSize base high conf logs < (mapSize base high conf logs / conf + 1) * conf :=
    Nat.lt_mul_of_div_lt (Nat.lt_succ_self _) hpos
  have hcount : max 1 (mapSize base high conf logs) ≤
      (mapSize base high conf logs / conf + 1) * conf := by
    omega
  calc
    mapBlock conf logs * blockSpan conf + mapSpan base high conf logs
        ≤ clusterMapOffset logs * conf * blockSpan conf +
          max 1 (mapSize base high conf logs) * blockSpan conf :=
      Nat.add_le_add (Nat.mul_le_mul_right _ hstart) (span_startup_le hconf hbytes)
    _ ≤ clusterMapOffset logs * conf * blockSpan conf +
          (mapSize base high conf logs / conf + 1) * conf * blockSpan conf :=
      Nat.add_le_add_left (Nat.mul_le_mul_right _ hcount) _
    _ = dataBlock base high conf logs * blockSpan conf := by
      rw [dataBlock]
      ring

/-! ## The regions as intervals -/

section Regions

variable {fr : ConfFsroot} {base high conf logs : Nat}
  (hfr : FormattedAs fr base high conf logs) (hconf : conf < 2 ^ 32)

include hfr

theorem FormattedAs.rootEnv : rootEnv fr = startup base conf := by
  rw [HostTool.rootEnv, hfr.loc, hfr.blkSize]

theorem FormattedAs.region_root (hconf : conf < 2 ^ 32) (hbase : base * 512 < 2 ^ 64) :
    fr.region .root = Set.Ico (base * 512) (base * 512 + blockSpan conf) := by
  have hspan : (startup base conf).span sizeofFsRoot = blockSpan conf := by
    have hsectors := sectorsPerBlock_pos conf
    exact span_one hconf (by decide) (by unfold blockSpan sizeofFsRoot; omega)
  have hoffset : (startup base conf).offset base = base * 512 := by
    rw [offset_startup (by rw [Nat.sub_self, Nat.zero_mul, Nat.add_zero]; exact hbase),
      Nat.sub_self, Nat.zero_mul, Nat.add_zero]
  rw [ConfFsroot.region, RawEnv.range, hfr.rootEnv, hfr.loc, hspan, hoffset]

theorem FormattedAs.region_log (hfit : base * 512 + blockSpan conf < 2 ^ 64) :
    fr.region .log = Set.Ico (base * 512 + blockSpan conf)
      (base * 512 + blockSpan conf + logSpan base conf logs) := by
  have hpos : u64 (base + logBlockOffset) = base + 1 := u64_of_lt (by
    unfold logBlockOffset fratRootOffset
    omega)
  have hoffset : (startup base conf).offset (base + 1) = base * 512 + blockSpan conf := by
    rw [offset_startup (by rw [Nat.add_sub_cancel_left]; omega), Nat.add_sub_cancel_left,
      Nat.one_mul]
  rw [ConfFsroot.region, RawEnv.range, hfr.rootEnv, hfr.loc, hfr.blkSize, hfr.nLogSectors, hpos,
    hoffset, logSpan]

theorem FormattedAs.region_map
    (hfit : base * 512 + mapBlock conf logs * blockSpan conf < 2 ^ 64) :
    fr.region .map = Set.Ico (base * 512 + mapBlock conf logs * blockSpan conf)
      (base * 512 + mapBlock conf logs * blockSpan conf + mapSpan base high conf logs) := by
  have hblock : mapBlock conf logs < 2 ^ 32 := u32_lt _
  have hpos : clusterMapPos base logs conf = base + mapBlock conf logs := u64_of_lt (by
    change base + mapBlock conf logs < 2 ^ 64
    omega)
  have hoffset : (startup base conf).offset (base + mapBlock conf logs) =
      base * 512 + mapBlock conf logs * blockSpan conf := by
    rw [offset_startup (by rw [Nat.add_sub_cancel_left]; exact hfit), Nat.add_sub_cancel_left]
  rw [ConfFsroot.region, RawEnv.range, hfr.rootEnv, hfr.loc, hfr.blkSize, hfr.nLogSectors, hpos,
    hoffset, hfr.clusterSize, mapSpan]

theorem FormattedAs.region_data (hpos : 0 < conf) (hconf : conf < 2 ^ 32) {slot : Nat}
    (hfit : base * 512 + (dataBlock base high conf logs + slot) * blockSpan conf < 2 ^ 64) :
    fr.region (.data slot) =
      Set.Ico (base * 512 + (dataBlock base high conf logs + slot) * blockSpan conf)
        (base * 512 + (dataBlock base high conf logs + slot) * blockSpan conf +
          blockSpan conf) := by
  have hblocks : dataBlock base high conf logs + slot ≤
      (dataBlock base high conf logs + slot) * blockSpan conf :=
    Nat.le_mul_of_pos_right _ (blockSpan_pos conf)
  have hoffset_lt : clusterMapOffset logs + mapSize base high conf logs / conf + 1 ≤
      dataBlock base high conf logs :=
    Nat.le_mul_of_pos_right _ hpos
  have hfirst : dataFirstOffset logs (mapSize base high conf logs / conf) =
      clusterMapOffset logs + mapSize base high conf logs / conf + 1 :=
    u64_of_lt (by omega)
  have hdata : dataFirst fr = base + dataBlock base high conf logs := by
    rw [dataFirst, hfr.loc, hfr.nLogSectors, hfr.nClusterSectors, hfr.blkSize, hfirst, ← dataBlock]
    exact u64_of_lt (by omega)
  have hloc : getloc fr slot = base + (dataBlock base high conf logs + slot) := by
    rw [getloc, hdata, u64_of_lt (by omega)]
    omega
  have hspan : (startup base conf).span conf = blockSpan conf :=
    span_one hconf hpos (le_blockSpan conf)
  have hoffset : (startup base conf).offset (base + (dataBlock base high conf logs + slot)) =
      base * 512 + (dataBlock base high conf logs + slot) * blockSpan conf := by
    rw [offset_startup (by rw [Nat.add_sub_cancel_left]; exact hfit), Nat.add_sub_cancel_left]
  rw [ConfFsroot.region, RawEnv.range, hfr.rootEnv, hfr.blkSize, hloc, hoffset, hspan]

end Regions

/-! ## Soundness -/

theorem Ico_disjoint_of_le {a b c d : Nat} (h : b ≤ c) :
    Disjoint (Set.Ico a b) (Set.Ico c d) :=
  Set.Ico_disjoint_Ico.mpr ((min_le_left _ _).trans (h.trans (le_max_right _ _)))

/-- Intervals laid out one after another from `B` on; an empty map may lie anywhere. -/
structure Ordered (region : Region → Set Nat) (has : Region → Prop) (B E S L m k : Nat)
    (d : Nat → Nat) : Prop where
  root : region .root = Set.Ico B (B + S)
  log : region .log = Set.Ico (B + S) (B + S + L) ∧ B + S + L ≤ E
  map : region .map = ∅ ∨ region .map = Set.Ico (B + m) (B + m + k) ∧ S + L ≤ m ∧
    B + m + k ≤ E ∧ ∀ slot, m + k ≤ d slot
  data : ∀ slot, has (.data slot) → region (.data slot) = Set.Ico (B + d slot) (B + d slot + S) ∧
    S + L ≤ d slot ∧ B + d slot + S ≤ E
  next : ∀ slot slot', slot < slot' → d slot + S ≤ d slot'

section Ordered

variable {region : Region → Set Nat} {has : Region → Prop} {B E S L m k : Nat}
  {d : Nat → Nat} (h : Ordered region has B E S L m k d)

include h

theorem Ordered.disjoint_of_rank_lt {r r' : Region} (hr : has r) (hr' : has r')
    (hrank : r.rank < r'.rank) : Disjoint (region r) (region r') := by
  cases r with
  | root =>
      rw [h.root]
      cases r' with
      | root => cases hrank
      | log =>
          rw [h.log.1]
          exact Ico_disjoint_of_le (Nat.le_refl _)
      | map =>
          rcases h.map with hempty | ⟨heq, hbounds⟩
          · rw [hempty]
            exact Set.disjoint_empty _
          · rw [heq]
            exact Ico_disjoint_of_le (by omega)
      | data slot =>
          obtain ⟨heq, hbounds⟩ := h.data slot hr'
          rw [heq]
          exact Ico_disjoint_of_le (by omega)
  | log =>
      rw [h.log.1]
      cases r' with
      | root => cases hrank
      | log => exact absurd hrank (Nat.lt_irrefl _)
      | map =>
          rcases h.map with hempty | ⟨heq, hbounds⟩
          · rw [hempty]
            exact Set.disjoint_empty _
          · rw [heq]
            exact Ico_disjoint_of_le (by omega)
      | data slot =>
          obtain ⟨heq, hbounds⟩ := h.data slot hr'
          rw [heq]
          exact Ico_disjoint_of_le (by omega)
  | map =>
      cases r' with
      | root => cases hrank
      | log => exact absurd hrank (by decide)
      | map => exact absurd hrank (Nat.lt_irrefl _)
      | data slot =>
          rcases h.map with hempty | ⟨heq, -, -, hafter⟩
          · rw [hempty]
            exact Set.empty_disjoint _
          · have hlow := hafter slot
            rw [heq, (h.data slot hr').1]
            exact Ico_disjoint_of_le (by omega)
  | data slot =>
      cases r' with
      | root => cases hrank
      | log => exact absurd hrank (by simp [Region.rank])
      | map => exact absurd hrank (by simp [Region.rank])
      | data slot' =>
          have hnext := h.next slot slot' (by simpa [Region.rank] using hrank)
          rw [(h.data slot hr).1, (h.data slot' hr').1]
          exact Ico_disjoint_of_le (by omega)

theorem Ordered.disjoint {r r' : Region} (hr : has r) (hr' : has r') (hne : r ≠ r') :
    Disjoint (region r) (region r') := by
  rcases Nat.lt_trichotomy r.rank r'.rank with hlt | heq | hgt
  · exact h.disjoint_of_rank_lt hr hr' hlt
  · exact absurd (Region.rank_inj heq) hne
  · exact (h.disjoint_of_rank_lt hr' hr hgt).symm

theorem Ordered.inside {r : Region} (hr : has r) : region r ⊆ Set.Ico B E := by
  have hlog := h.log.2
  cases r with
  | root =>
      rw [h.root]
      exact Set.Ico_subset_Ico (Nat.le_refl _) (by omega)
  | log =>
      rw [h.log.1]
      exact Set.Ico_subset_Ico (by omega) hlog
  | map =>
      rcases h.map with hempty | ⟨heq, -, hend, -⟩
      · rw [hempty]
        exact Set.empty_subset _
      · rw [heq]
        exact Set.Ico_subset_Ico (by omega) hend
  | data slot =>
      obtain ⟨heq, -, hend⟩ := h.data slot hr
      rw [heq]
      exact Set.Ico_subset_Ico (by omega) hend

end Ordered

section Sound

variable {fr : ConfFsroot} {base high conf logs : Nat}
  (hfr : FormattedAs fr base high conf logs) (hpos : 0 < conf) (hconf : conf < 2 ^ 32)
  (hpart : (high + 1) * 512 ≤ 2 ^ 63)

theorem slot_fits {slot : Nat} (hslot : slot < mapSize base high conf logs / sizeofFsBlock) :
    (dataBlock base high conf logs + slot) * blockSpan conf + blockSpan conf ≤
      dataEnd base high conf logs * blockSpan conf := by
  rw [← Nat.succ_mul]
  apply Nat.mul_le_mul_right
  rw [dataEnd]
  omega

include hfr hpos hconf hpart

theorem FormattedAs.ordered (hfits : LayoutFits base high conf logs) :
    Ordered fr.region fr.HasRegion (base * 512) ((high + 1) * 512) (blockSpan conf)
      (logSpan base conf logs) (mapBlock conf logs * blockSpan conf)
      (mapSpan base high conf logs)
      fun slot => (dataBlock base high conf logs + slot) * blockSpan conf := by
  have hbefore : ∀ {n : Nat}, base * 512 + n ≤ (high + 1) * 512 → base * 512 + n < 2 ^ 64 :=
    fun hle => Nat.lt_of_le_of_lt (hle.trans hpart) (by decide)
  have hstart : ∀ slot, dataBlock base high conf logs * blockSpan conf ≤
      (dataBlock base high conf logs + slot) * blockSpan conf :=
    fun slot => Nat.mul_le_mul_right _ (Nat.le_add_right _ _)
  have hlog := hfits.log
  rw [Nat.add_assoc] at hlog
  constructor
  · exact hfr.region_root hconf
      (Nat.lt_of_le_of_lt (Nat.le_add_right _ _) (hbefore hlog))
  · rw [Nat.add_assoc (base * 512)]
    have hroom : base * 512 + blockSpan conf < 2 ^ 64 :=
      Nat.lt_of_le_of_lt (Nat.add_le_add_left (Nat.le_add_right _ _) _) (hbefore hlog)
    rw [hfr.region_log hroom, Nat.add_assoc (base * 512)]
    exact ⟨rfl, hlog⟩
  · rcases hfits.map with hempty | ⟨hafter, hinside⟩
    · left
      rw [mapSpan] at hempty
      rw [ConfFsroot.region, RawEnv.range, hfr.rootEnv, hfr.clusterSize, hempty, Nat.add_zero,
        Set.Ico_self]
    · right
      have hroom : base * 512 + mapBlock conf logs * blockSpan conf < 2 ^ 64 :=
        hbefore ((Nat.le_add_right _ _).trans hinside)
      exact ⟨hfr.region_map hroom, hafter, hinside, fun slot =>
        (map_le_data hpos hconf).trans (hstart slot)⟩
  · intro slot hslot
    have hlt : slot < mapSize base high conf logs / sizeofFsBlock := by
      rw [← hfr.nClusterItems]
      exact hslot
    rcases hfits.data with hnone | ⟨hafter, hinside⟩
    · rw [Nat.div_eq_of_lt hnone] at hlt
      exact absurd hlt (Nat.not_lt_zero _)
    · have hend : base * 512 + (dataBlock base high conf logs + slot) * blockSpan conf +
          blockSpan conf ≤ (high + 1) * 512 := by
        rw [Nat.add_assoc]
        exact (Nat.add_le_add_left (slot_fits hlt) _).trans hinside
      have hroom : base * 512 + (dataBlock base high conf logs + slot) * blockSpan conf <
          2 ^ 64 :=
        hbefore ((Nat.le_add_right _ _).trans hend)
      exact ⟨hfr.region_data hpos hconf hroom, hafter.trans (hstart slot), hend⟩
  · intro slot slot' hlt
    rw [← Nat.succ_mul]
    exact Nat.mul_le_mul_right _ (by omega)

theorem FormattedAs.layoutSound (hfits : LayoutFits base high conf logs) :
    LayoutSound fr high := by
  have hordered := hfr.ordered hpos hconf hpart hfits
  refine ⟨fun r r' hr hr' hne => hordered.disjoint hr hr' hne, fun r hr => ?_⟩
  rw [hfr.loc]
  exact hordered.inside hr

omit hfr hpos hconf hpart in
theorem beyond_log {B S L x n : Nat} (hS : 0 < S) (hn : 0 < n)
    (hroot : Disjoint (Set.Ico B (B + S)) (Set.Ico (B + x) (B + x + n)))
    (hlog : Disjoint (Set.Ico (B + S) (B + S + L)) (Set.Ico (B + x) (B + x + n))) :
    S + L ≤ x := by
  have hroot_le := Set.Ico_disjoint_Ico.mp hroot
  have hlog_le := Set.Ico_disjoint_Ico.mp hlog
  omega

omit hpart in
theorem FormattedAs.layoutFits
    (hwrap : base * 512 + dataEnd base high conf logs * blockSpan conf < 2 ^ 64)
    (hsound : LayoutSound fr high) : LayoutFits base high conf logs := by
  obtain ⟨hdisjoint, hinside⟩ := hsound
  rw [hfr.loc] at hinside
  have hS := blockSpan_pos conf
  have hdata_le : dataBlock base high conf logs * blockSpan conf ≤
      dataEnd base high conf logs * blockSpan conf :=
    Nat.mul_le_mul_right _ (Nat.le_add_right _ _)
  have hmap_le := (Nat.le_add_right _ _).trans
    ((@map_le_data base high conf logs hpos hconf).trans hdata_le)
  have hdata_pos : blockSpan conf ≤ dataBlock base high conf logs * blockSpan conf :=
    Nat.le_mul_of_pos_left _ (Nat.mul_pos (Nat.succ_pos _) hpos)
  have hroot := hfr.region_root hconf (Nat.lt_of_le_of_lt (Nat.le_add_right _ _) hwrap)
  have hlog := hfr.region_log (Nat.lt_of_le_of_lt
    (Nat.add_le_add_left (hdata_pos.trans hdata_le) _) hwrap)
  have hmap := hfr.region_map (Nat.lt_of_le_of_lt (Nat.add_le_add_left hmap_le _) hwrap)
  have hroot_end : base * 512 + blockSpan conf ≤ (high + 1) * 512 := by
    have hsub := hinside .root trivial
    rw [hroot] at hsub
    exact ((Set.Ico_subset_Ico_iff (Nat.lt_add_of_pos_right hS)).mp hsub).2
  constructor
  · rcases Nat.eq_zero_or_pos (logSpan base conf logs) with hempty | hsome
    · rw [hempty, Nat.add_zero]
      exact hroot_end
    · have hsub := hinside .log trivial
      rw [hlog] at hsub
      exact ((Set.Ico_subset_Ico_iff (Nat.lt_add_of_pos_right hsome)).mp hsub).2
  · rcases Nat.eq_zero_or_pos (mapSpan base high conf logs) with hempty | hsome
    · exact .inl hempty
    · right
      have hapart := hdisjoint .root .map trivial trivial (by decide)
      have hapart' := hdisjoint .log .map trivial trivial (by decide)
      have hsub := hinside .map trivial
      rw [hroot, hmap] at hapart
      rw [hlog, hmap] at hapart'
      rw [hmap] at hsub
      exact ⟨beyond_log hS hsome hapart hapart',
        ((Set.Ico_subset_Ico_iff (Nat.lt_add_of_pos_right hsome)).mp hsub).2⟩
  · by_cases hnone : mapSize base high conf logs < sizeofFsBlock
    · exact .inl hnone
    · right
      have hcount : 0 < mapSize base high conf logs / sizeofFsBlock :=
        Nat.div_pos (Nat.not_lt.mp hnone) (by decide)
      have hhas : ∀ slot, slot < mapSize base high conf logs / sizeofFsBlock →
          fr.HasRegion (.data slot) := by
        intro slot hslot
        rw [← hfr.nClusterItems] at hslot
        exact hslot
      have hdata : ∀ slot, slot < mapSize base high conf logs / sizeofFsBlock →
          fr.region (.data slot) =
            Set.Ico (base * 512 + (dataBlock base high conf logs + slot) * blockSpan conf)
              (base * 512 + (dataBlock base high conf logs + slot) * blockSpan conf +
                blockSpan conf) := fun slot hslot =>
        hfr.region_data hpos hconf (Nat.lt_of_le_of_lt (Nat.add_le_add_left
          ((Nat.le_add_right _ _).trans (slot_fits hslot)) _) hwrap)
      constructor
      · have hapart := hdisjoint .root (.data 0) trivial (hhas 0 hcount) (by simp)
        have hapart' := hdisjoint .log (.data 0) trivial (hhas 0 hcount) (by simp)
        rw [hroot, hdata 0 hcount, Nat.add_zero] at hapart
        rw [hlog, hdata 0 hcount, Nat.add_zero] at hapart'
        exact beyond_log hS hS hapart hapart'
      · -- the last slot ends the data area
        obtain ⟨last, hlast⟩ := Nat.exists_eq_add_of_lt hcount
        rw [Nat.zero_add] at hlast
        have hslot : last < mapSize base high conf logs / sizeofFsBlock := by omega
        have hsub := hinside (.data last) (hhas last hslot)
        rw [hdata last hslot, Set.Ico_subset_Ico_iff (Nat.lt_add_of_pos_right hS)] at hsub
        have hend := hsub.2
        rwa [Nat.add_assoc, ← Nat.succ_mul, Nat.succ_eq_add_one, Nat.add_assoc, ← hlast,
          ← dataEnd] at hend

end Sound

/--
The regions of a root mounted after a format are apart from each other and
inside the partition when the layout fits; and unless the data area wraps around
the 64-bit positions, only then.
-/
theorem layoutSound_iff {img img' : Image} {name : Bytes} {part : PartDim}
    {conf logs verMAJOR verMINOR : Nat} {fr : ConfFsroot}
    (hload : loadpart img name = .ok part) (hbase : part.base < part.high)
    (hpart : (part.high + 1) * 512 ≤ 2 ^ 63) (hpos : 0 < conf) (hconf : conf < 2 ^ 32)
    (hlogs : logs < 2 ^ 32)
    (hformat : formatpart img name conf logs verMAJOR verMINOR = .ok img')
    (hmount : fmount img' = .ok (.mounted fr)) (hloc : fr.loc = part.base) :
    (LayoutFits part.base part.high conf logs → LayoutSound fr part.high) ∧
      (part.base * 512 + dataEnd part.base part.high conf logs * blockSpan conf < 2 ^ 64 →
        LayoutSound fr part.high → LayoutFits part.base part.high conf logs) := by
  obtain ⟨-, rfl⟩ := (formatpart_ok hload (by omega)).mp hformat
  obtain ⟨map, rfl⟩ := mounted_formatted hpart hbase hconf hmount hloc
  have hfr := @formattedAs_mountedRoot part.base part.high conf logs verMAJOR verMINOR map hpos
    hconf hlogs
  exact ⟨hfr.layoutSound hpos hconf hpart, hfr.layoutFits hpos hconf⟩

/-- A partition of 422 sectors with blocks of 60 bytes has room for its seven slots. -/
theorem layoutSound_iff_sample :
    ∃ img' fr, formatpart (sampleDisk 461) sampleName 60 1 1 0 = .ok img' ∧
      fmount img' = .ok (.mounted fr) ∧ fr.nClusterItems = 7 ∧ LayoutSound fr 461 := by
  have hload : loadpart (sampleDisk 461) sampleName = .ok ⟨40, 461⟩ :=
    ok_of_toOption (by decide +kernel)
  have hformat := (@formatpart_ok (sampleDisk 461) _ sampleName _ 60 1 1 0 hload
    (by decide)).mpr ⟨by decide, rfl⟩
  have hmount := @fmount_formatted (sampleDisk 461) ⟨40, 461⟩ 60 1 1 0 (by decide)
    (by decide) (by decide) (by decide) (by decide) (by decide) (by decide) (by decide)
    (listedFirst_formatted (by decide +kernel) (by decide +kernel) (by decide))
  exact ⟨_, _, hformat, hmount, by decide,
    (layoutSound_iff hload (by decide) (by decide) (by decide) (by decide) (by decide) hformat
      hmount rfl).1 ⟨by decide, .inr (by decide), .inr (by decide)⟩⟩

/-- With the default sizes, the map of a small partition lies beyond its last sector. -/
theorem not_layoutSound_default :
    loadpart (sampleDisk 100) sampleName = .ok ⟨40, 100⟩ ∧
      ∃ img' fr, formatpart (sampleDisk 100) sampleName 512 5 1 0 = .ok img' ∧
        fmount img' = .ok (.mounted fr) ∧ fr.loc = 40 ∧ ¬ LayoutSound fr 100 := by
  have hload := @loadpart_sampleDisk 100 (.inl rfl)
  have hmount := @fmount_formatted (sampleDisk 100) ⟨40, 100⟩ 512 5 1 0 (by decide)
    (by decide) (by decide) (by decide) (by decide) (by decide) (by decide) (by decide)
    (listedFirst_formatted (by decide +kernel) (by decide +kernel) (by decide))
  refine ⟨hload, _, _, (formatpart_ok hload (by decide)).mpr ⟨by decide, rfl⟩, hmount, rfl,
    fun hsound => ?_⟩
  have hfits := (formattedAs_mountedRoot _ (by decide) (by decide) (by decide)).layoutFits
    (by decide) (by decide) (by decide) hsound
  exact absurd hfits.map (by decide)

end BlockyOS.HostTool
