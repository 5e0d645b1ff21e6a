import Mathlib.Algebra.BigOperators.Intervals
import Mathlib.Algebra.Order.BigOperators.Group.Finset
import BlockyOS.HostTool.MapInvariant

/-!
# How far a file reaches

The extent of a file is the first index it has no entry for.  Sizing and reading
go up to the extent; the next cluster is numbered by counting.  The two agree
when the file's indices are dense.
-/

namespace BlockyOS.HostTool

open BlockyOS.Foundation

/-! ## Lookup after an edit -/

theorem ffindhi_setBlock_other {fr : ConfFsroot} {fb index : Nat} {entry : FsBlock}
    {c : Fcode} (hlt : fb < fr.clusterMap.length)
    (hold : matchesIndex c index (fr.block fb) = false)
    (hnew : matchesIndex c index entry = false) :
    ffindhi (fr.setBlock fb entry) c index = ffindhi fr c index := by
  have hmap : (fr.clusterMap.set fb entry).map (matchesIndex c index) =
      fr.clusterMap.map (matchesIndex c index) := by
    rw [List.map_set, hnew, ← hold, ConfFsroot.block_eq_getElem hlt]
    have hself := @List.set_getElem_self _ (fr.clusterMap.map (matchesIndex c index)) fb
        (by rwa [List.length_map])
    rwa [List.getElem_map] at hself
  have hfind : ∀ map : List FsBlock, map.findIdx? (matchesIndex c index) =
      (map.map (matchesIndex c index)).findIdx? id := by
    intro map
    rw [List.findIdx?_map]
    rfl
  rw [ffindhi, ffindhi, ConfFsroot.setBlock_clusterMap, hfind, hfind, hmap]

theorem ffindhi_setBlock_new {fr : ConfFsroot} {fb index : Nat} {entry : FsBlock}
    {c : Fcode} (hlt : fb < fr.clusterMap.length) (hnone : ffindhi fr c index = none)
    (hnew : matchesIndex c index entry = true) :
    ffindhi (fr.setBlock fb entry) c index = some fb := by
  rw [ffindhi, ConfFsroot.setBlock_clusterMap, List.findIdx?_eq_some_iff_getElem]
  refine ⟨by rwa [List.length_set], by simpa using hnew, fun s hs => ?_⟩
  have hmiss := List.findIdx?_eq_none_iff.mp hnone
  rw [List.getElem_set_ne (by omega)]
  rw [hmiss _ (List.getElem_mem _)]
  exact Bool.false_ne_true

theorem matchesIndex_eq_false {fb : FsBlock} {c : Fcode} {index : Nat}
    (h : fb.fcode ≠ c ∨ fb.index.toNat ≠ u32 index) : matchesIndex c index fb = false := by
  rw [matchesIndex, decide_eq_false_iff_not]
  rintro ⟨hcode, hindex⟩
  rcases h with hne | hne
  · exact hne hcode
  · exact hne hindex

/-! ## The extent -/

def Present (fr : ConfFsroot) (c : Fcode) (index : Nat) : Prop :=
  ∃ slot, HasEntry fr slot c index

theorem Present.lt {fr : ConfFsroot} {c : Fcode} {index : Nat} (h : Present fr c index) :
    index < 2 ^ 32 := by
  obtain ⟨slot, -, -, rfl⟩ := h
  exact (fr.block slot).index.isLt

theorem ffindhi_of_present {fr : ConfFsroot} {c : Fcode} {index : Nat}
    (h : Present fr c index) :
    ∃ slot, ffindhi fr c index = some slot ∧ HasEntry fr slot c index := by
  have hlt := h.lt
  have hsome : (ffindhi fr c index).isSome := by
    rw [ffindhi_isSome_iff, u32_of_lt hlt]
    exact h
  obtain ⟨slot, hslot⟩ := Option.isSome_iff_exists.mp hsome
  have hentry := ffindhi_some hslot
  rw [u32_of_lt hlt] at hentry
  exact ⟨slot, hslot, hentry⟩

theorem ffindhi_isNone_iff {fr : ConfFsroot} {c : Fcode} {index : Nat}
    (hlt : index < 2 ^ 32) : ffindhi fr c index = none ↔ ¬ Present fr c index := by
  constructor
  · rintro hnone ⟨slot, hentry⟩
    have hmiss := ffindhi_none hnone slot
    rw [u32_of_lt hlt] at hmiss
    exact hmiss hentry
  · intro habsent
    exact ffindhi_eq_none hlt fun slot hentry => habsent ⟨slot, hentry⟩

/-- The first index without an entry. -/
def extent (fr : ConfFsroot) (c : Fcode) : Nat :=
  (List.range (fr.nClusterItems + 1)).findIdx fun i => (ffindhi fr c i).isNone

theorem exists_not_present (fr : ConfFsroot) (c : Fcode) :
    ∃ i ≤ countFcode fr c, ¬ Present fr c i := by
  obtain ⟨i, hle, hmem⟩ := exists_le_card_notMem
    (numbers FsBlock.fcode FsBlock.number fr.clusterMap c)
  rw [card_numbers] at hle
  rw [mem_numbers_iff] at hmem
  exact ⟨i, hle, hmem⟩

theorem extent_spec (fr : ConfFsroot) (c : Fcode) :
    extent fr c ≤ countFcode fr c ∧ ¬ Present fr c (extent fr c) ∧
      ∀ i, i < extent fr c → Present fr c i := by
  obtain ⟨i, hle, habsent⟩ := exists_not_present fr c
  have hcount := countFcode_le fr c
  have hitems := fr.nClusterItems_lt
  have hnone : (ffindhi fr c i).isNone := by
    rw [Option.isNone_iff_eq_none, ffindhi_isNone_iff (by omega)]
    exact habsent
  have hmem : i ∈ List.range (fr.nClusterItems + 1) := List.mem_range.mpr (by omega)
  have hlt : (List.range (fr.nClusterItems + 1)).findIdx (fun i => (ffindhi fr c i).isNone) <
      (List.range (fr.nClusterItems + 1)).length :=
    List.findIdx_lt_length_of_exists ⟨i, hmem, hnone⟩
  have hfound : (ffindhi fr c (extent fr c)).isNone := by
    have hget := List.findIdx_getElem (w := hlt)
    rwa [List.getElem_range] at hget
  rw [List.length_range] at hlt
  change extent fr c < _ at hlt
  have hbefore : ∀ j, j < extent fr c → Present fr c j := by
    intro j hj
    have hnot := List.not_of_lt_findIdx (p := fun i => (ffindhi fr c i).isNone) hj
    rw [List.getElem_range] at hnot
    by_contra hj'
    have hj_none := (@ffindhi_isNone_iff fr _ _ (by omega)).mpr hj'
    simp [hj_none] at hnot
  refine ⟨?_, ?_, hbefore⟩
  · by_contra hgt
    exact habsent (hbefore i (by omega))
  · rw [← ffindhi_isNone_iff (by omega), ← Option.isNone_iff_eq_none]
    exact hfound

theorem extent_le_count (fr : ConfFsroot) (c : Fcode) : extent fr c ≤ countFcode fr c :=
  (extent_spec fr c).1

theorem not_present_extent (fr : ConfFsroot) (c : Fcode) : ¬ Present fr c (extent fr c) :=
  (extent_spec fr c).2.1

theorem present_of_lt_extent {fr : ConfFsroot} {c : Fcode} {i : Nat}
    (h : i < extent fr c) : Present fr c i :=
  (extent_spec fr c).2.2 i h

theorem extent_eq {fr : ConfFsroot} {c : Fcode} {n : Nat}
    (hfilled : ∀ i, i < n → Present fr c i) (hmissing : ¬ Present fr c n) :
    extent fr c = n := by
  rcases Nat.lt_trichotomy (extent fr c) n with hlt | heq | hgt
  · exact absurd (hfilled _ hlt) (not_present_extent fr c)
  · exact heq
  · exact absurd (present_of_lt_extent hgt) hmissing

theorem extent_lt (fr : ConfFsroot) (c : Fcode) : extent fr c < 2 ^ 28 := by
  have hle := extent_le_count fr c
  have hcount := countFcode_le fr c
  have hsize := fr.size_clusterMap
  have hlt := fr.size_lt
  unfold sizeofFsBlock at hsize
  omega

theorem denseCode_iff_extent {fr : ConfFsroot} {c : Fcode} :
    DenseCode fr c ↔ countFcode fr c = extent fr c :=
  dense_iff_card (fun _ hi => mem_numbers_iff.mpr (present_of_lt_extent hi))
    (fun hmem => not_present_extent fr c (mem_numbers_iff.mp hmem))

theorem DenseCode.present_iff {fr : ConfFsroot} {c : Fcode} (h : DenseCode fr c) (i : Nat) :
    Present fr c i ↔ i < countFcode fr c :=
  h.exists_iff i

/-! ## Sizes -/

def blockShare (fr : ConfFsroot) (c : Fcode) (index : Nat) : Nat :=
  match ffindhi fr c index with
  | none => 0
  | some slot =>
      if flagcheck (fr.block slot).attributes fsMetadataCluster then 0 else fr.blkSize

theorem blockShare_le (fr : ConfFsroot) (c : Fcode) (index : Nat) :
    blockShare fr c index ≤ fr.blkSize := by
  unfold blockShare
  split
  case h_1 => exact Nat.zero_le _
  case h_2 => split <;> omega

theorem fsizeFrom_eq_sum {fr : ConfFsroot} {c : Fcode} (fuel cc : Nat)
    (hcc : cc ≤ extent fr c) (hfuel : extent fr c < cc + fuel) :
    fsizeFrom fr c fuel cc = ∑ i ∈ Finset.Ico cc (extent fr c), blockShare fr c i := by
  have hlt := extent_lt fr c
  induction fuel generalizing cc with
  | zero => omega
  | succ fuel ih =>
      rw [fsizeFrom]
      by_cases hend : cc = extent fr c
      · rw [hend, (ffindhi_isNone_iff (by omega)).mpr (not_present_extent fr c)]
        simp
      · obtain ⟨slot, hslot, -⟩ :=
          ffindhi_of_present (present_of_lt_extent (show cc < extent fr c by omega))
        have hshare : blockShare fr c cc =
            if flagcheck (fr.block slot).attributes fsMetadataCluster then 0
            else fr.blkSize := by
          rw [blockShare, hslot]
        rw [hslot, Finset.sum_eq_sum_Ico_succ_bot (by omega), hshare,
          ← ih (cc + 1) (by omega) (by omega)]

theorem fsize_eq_sum (fr : ConfFsroot) (file : Nat) :
    fsize fr file = ∑ i ∈ Finset.range (extent fr (fr.block file).fcode),
      blockShare fr (fr.block file).fcode i := by
  have hext := extent_lt fr (fr.block file).fcode
  have hcount := countFcode_le fr (fr.block file).fcode
  have hle := extent_le_count fr (fr.block file).fcode
  have hbound : ∑ i ∈ Finset.range (extent fr (fr.block file).fcode),
      blockShare fr (fr.block file).fcode i ≤ 2 ^ 28 * 2 ^ 32 := by
    calc
      ∑ i ∈ Finset.range (extent fr (fr.block file).fcode),
          blockShare fr (fr.block file).fcode i
          ≤ (Finset.range (extent fr (fr.block file).fcode)).card * fr.blkSize :=
        Finset.sum_le_card_nsmul _ _ _ fun i _ => blockShare_le fr _ i
      _ ≤ 2 ^ 28 * 2 ^ 32 := by
        rw [Finset.card_range]
        exact Nat.mul_le_mul (by omega) (Nat.le_of_lt fr.blkSize_lt)
  rw [fsize, fsizeFrom_eq_sum _ 0 (Nat.zero_le _) (by omega), ← Finset.range_eq_Ico]
  exact u64_of_lt (by omega)

theorem fsize_le_extent (fr : ConfFsroot) (file : Nat) :
    fsize fr file ≤ extent fr (fr.block file).fcode * fr.blkSize := by
  rw [fsize_eq_sum]
  have hle := Finset.sum_le_card_nsmul (Finset.range (extent fr (fr.block file).fcode))
    (blockShare fr (fr.block file).fcode) fr.blkSize fun i _ => blockShare_le fr _ i
  rwa [Finset.card_range] at hle

/-! ## Room for more clusters -/

/-- The free slots the scan of `allocatecluster` still meets. -/
def freeFrom (fr : ConfFsroot) : Nat :=
  (fr.clusterMap.drop fr.lastClusterAlloc).countP FsBlock.isFree

theorem freeFrom_of_none {fr fr' : ConfFsroot} (h : allocatecluster fr = (fr', none)) :
    freeFrom fr = 0 := by
  obtain ⟨-, hbusy⟩ := allocatecluster_none h
  rw [freeFrom, List.countP_eq_zero]
  intro entry hmem hfree
  obtain ⟨k, hk, rfl⟩ := List.mem_drop_iff_getElem.mp hmem
  have hlive := hbusy (fr.lastClusterAlloc + k) (by omega) (by omega)
  rw [ConfFsroot.block_eq_getElem (by omega)] at hlive
  refine hlive ?_
  simpa [FsBlock.isFree] using hfree

theorem freeFrom_of_some {fr fr' : ConfFsroot} {fb : Nat} {entry : FsBlock}
    (h : allocatecluster fr = (fr', some fb)) (hlive : entry.fcode ≠ Fcode.zero) :
    freeFrom ((fr.setCursor fb).setBlock fb entry) + 1 = freeFrom fr := by
  obtain ⟨-, hlt, hlow, hfree, hbusy⟩ := allocatecluster_some h
  rw [ConfFsroot.block_eq_getElem hlt] at hfree
  have hskip : freeFrom fr = (fr.clusterMap.drop fb).countP FsBlock.isFree := by
    obtain ⟨d, rfl⟩ := Nat.exists_eq_add_of_le hlow
    have hsplit : fr.clusterMap.drop fr.lastClusterAlloc =
        (fr.clusterMap.drop fr.lastClusterAlloc).take d ++
          fr.clusterMap.drop (fr.lastClusterAlloc + d) := by
      rw [← List.drop_drop, List.take_append_drop]
    rw [freeFrom, hsplit, List.countP_append, List.countP_eq_zero.mpr, Nat.zero_add]
    intro e hmem hefree
    obtain ⟨k, hk, rfl⟩ := List.mem_iff_getElem.mp hmem
    rw [List.length_take, List.length_drop] at hk
    have hke := hbusy (fr.lastClusterAlloc + k) (by omega) (by omega)
    rw [ConfFsroot.block_eq_getElem (by omega)] at hke
    refine hke ?_
    simpa [FsBlock.isFree] using hefree
  have hbefore : fr.clusterMap.drop fb =
      fr.clusterMap[fb] :: fr.clusterMap.drop (fb + 1) :=
    List.drop_eq_getElem_cons hlt
  have hafter : (fr.clusterMap.set fb entry).drop fb =
      entry :: fr.clusterMap.drop (fb + 1) := by
    rw [List.drop_eq_getElem_cons (by rwa [List.length_set]), List.getElem_set_self,
      List.drop_set_of_lt (by omega)]
  have hused : freeFrom ((fr.setCursor fb).setBlock fb entry) =
      ((fr.clusterMap.set fb entry).drop fb).countP FsBlock.isFree := rfl
  rw [hused, hafter, hskip, hbefore, List.countP_cons, List.countP_cons]
  simp [FsBlock.isFree, hfree, hlive]

end BlockyOS.HostTool
