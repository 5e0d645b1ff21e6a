import BlockyOS.HostTool.FileView

/-!
# What a directory holds

The blocks of a directory have the indices from 1 on.  Refreshing a handle loads
the first block, and the others only when no record of the first block is marked
as the last one.
-/

namespace BlockyOS.HostTool

open BlockyOS.Foundation

/-! ## The blocks of a directory -/

def dirBlocks (fr : ConfFsroot) (c : Fcode) : Nat :=
  (List.range (fr.nClusterItems + 1)).findIdx fun k => (ffindhi fr c (k + 1)).isNone

theorem exists_not_present_succ (fr : ConfFsroot) (c : Fcode) :
    ∃ k ≤ fr.nClusterItems, ¬ Present fr c (k + 1) := by
  obtain ⟨k, hle, hmiss⟩ := exists_le_card_notMem
    ((numbers FsBlock.fcode FsBlock.number fr.clusterMap c).map Nat.pred)
  rw [Multiset.card_map, card_numbers] at hle
  refine ⟨k, Nat.le_trans hle (countFcode_le fr c), fun hpresent => hmiss ?_⟩
  exact Multiset.mem_map.mpr ⟨k + 1, mem_numbers_iff.mpr hpresent, rfl⟩

theorem dirBlocks_spec (fr : ConfFsroot) (c : Fcode) :
    dirBlocks fr c ≤ fr.nClusterItems ∧ ffindhi fr c (dirBlocks fr c + 1) = none ∧
      ∀ k, k < dirBlocks fr c → Present fr c (k + 1) := by
  obtain ⟨k, hle, habsent⟩ := exists_not_present_succ fr c
  have hitems := fr.nClusterItems_lt
  have hsize := fr.size_clusterMap
  have hlt := fr.size_lt
  unfold sizeofFsBlock at hsize
  have hnone : (ffindhi fr c (k + 1)).isNone := by
    rw [Option.isNone_iff_eq_none, ffindhi_isNone_iff (by omega)]
    exact habsent
  have hbound : (List.range (fr.nClusterItems + 1)).findIdx
      (fun k => (ffindhi fr c (k + 1)).isNone) <
        (List.range (fr.nClusterItems + 1)).length :=
    List.findIdx_lt_length_of_exists ⟨k, List.mem_range.mpr (by omega), hnone⟩
  have hfound : (ffindhi fr c (dirBlocks fr c + 1)).isNone := by
    have hget := List.findIdx_getElem (w := hbound)
    rwa [List.getElem_range] at hget
  rw [List.length_range] at hbound
  change dirBlocks fr c < _ at hbound
  refine ⟨by omega, Option.isNone_iff_eq_none.mp hfound, fun j hj => ?_⟩
  have hnot := List.not_of_lt_findIdx (p := fun k => (ffindhi fr c (k + 1)).isNone) hj
  rw [List.getElem_range] at hnot
  by_contra hmiss
  have hmiss' := (@ffindhi_isNone_iff fr c (j + 1) (by omega)).mpr hmiss
  simp [hmiss'] at hnot

/-- The bytes of block `k` of the directory with code `c`. -/
def dirBlock (v : Volume) (c : Fcode) (k : Nat) : Bytes :=
  match ffindhi v.root c (k + 1) with
  | none => []
  | some s => (v.window s).take v.root.blkSize

/-- The first `n` blocks, one after the other. -/
def dirBytes (v : Volume) (c : Fcode) (n : Nat) : Bytes :=
  (List.range n).flatMap (dirBlock v c)

@[simp] theorem dirBytes_zero (v : Volume) (c : Fcode) : dirBytes v c 0 = [] := rfl

theorem dirBytes_succ (v : Volume) (c : Fcode) (n : Nat) :
    dirBytes v c (n + 1) = dirBytes v c n ++ dirBlock v c n := by
  simp [dirBytes, List.range_succ]

theorem length_dirBlock {v : Volume} {c : Fcode} {k : Nat} (h : k < dirBlocks v.root c) :
    (dirBlock v c k).length = v.root.blkSize := by
  obtain ⟨s, hfind, -⟩ := ffindhi_of_present ((dirBlocks_spec v.root c).2.2 k h)
  have hspan := v.root.blkSize_le_span
  rw [dirBlock, hfind]
  simp only [List.length_take, Volume.length_window]
  omega

theorem length_dirBytes {v : Volume} {c : Fcode} {n : Nat} (h : n ≤ dirBlocks v.root c) :
    (dirBytes v c n).length = v.root.blkSize * n := by
  induction n with
  | zero => rfl
  | succ n ih =>
      rw [dirBytes_succ, List.length_append, ih (by omega), length_dirBlock (by omega),
        Nat.mul_succ]

/-! ## Refreshing a handle -/

theorem hasEndMarker_append {first : Bytes} {blkSize : Nat} (rest : Bytes)
    (h : first.length = blkSize) :
    hasEndMarker (first ++ rest) blkSize = hasEndMarker first blkSize := by
  unfold hasEndMarker
  rw [Bool.eq_iff_iff, List.any_eq_true, List.any_eq_true]
  refine exists_congr fun cc => and_congr_right fun hcc => ?_
  have hfit : dirItemCodec.width * cc + dirItemCodec.width ≤ first.length := by
    have hmul := Nat.div_mul_le_self blkSize 28
    rw [List.mem_range, safediv_of_ne_zero (by decide)] at hcc
    change cc < blkSize / 28 at hcc
    change 28 * cc + 28 ≤ first.length
    omega
  rw [Codec.get, Codec.get, slice_append_left _ _ hfit]

def loadedBlocks (v : Volume) (c : Fcode) : Nat :=
  if hasEndMarker (dirBytes v c 1) v.root.blkSize then min 1 (dirBlocks v.root c)
  else dirBlocks v.root c

theorem loadedBlocks_le (v : Volume) (c : Fcode) :
    loadedBlocks v c ≤ dirBlocks v.root c := by
  unfold loadedBlocks
  split <;> omega

theorem hasEndMarker_dirBytes {v : Volume} {c : Fcode} {n : Nat}
    (h : 0 < dirBlocks v.root c) :
    hasEndMarker (dirBytes v c (n + 1)) v.root.blkSize =
      hasEndMarker (dirBytes v c 1) v.root.blkSize := by
  have hfirst : dirBytes v c 1 = dirBlock v c 0 := by
    rw [dirBytes_succ, dirBytes_zero, List.nil_append]
  have hsplit : dirBytes v c (n + 1) = dirBytes v c 1 ++
      ((List.range n).flatMap fun k => dirBlock v c (k + 1)) := by
    rw [hfirst]
    simp [dirBytes, List.range_succ_eq_map, List.flatMap_map]
  rw [hsplit]
  exact hasEndMarker_append _ (by rw [hfirst, length_dirBlock h])

theorem fdirrefreshLoop_eq {E : Host} {v : Volume} {path : Path} (hheld : v.AllHeld)
    (hblk : 0 < v.root.blkSize) (fuel k : Nat)
    (hfuel : dirBlocks v.root (getfcode E path) < k + fuel)
    (hk : k ≤ dirBlocks v.root (getfcode E path))
    (hmore : k = 0 ∨
      hasEndMarker (dirBytes v (getfcode E path) 1) v.root.blkSize = false) :
    fdirrefreshLoop E v path fuel k (dirBytes v (getfcode E path) k) =
      .ok (loadedBlocks v (getfcode E path),
        dirBytes v (getfcode E path) (loadedBlocks v (getfcode E path))) := by
  obtain ⟨-, hend, hblocks⟩ := dirBlocks_spec v.root (getfcode E path)
  induction fuel generalizing k with
  | zero => omega
  | succ fuel ih =>
      rw [fdirrefreshLoop, ffindi]
      rcases Nat.lt_or_eq_of_le hk with hlt | rfl
      · obtain ⟨s, hfind, hentry⟩ := ffindhi_of_present (hblocks k hlt)
        have hread := hheld.readAt hentry.1 hblk v.root.blkSize_le_span
        have hload : dirBytes v (getfcode E path) k ++ (v.window s).take v.root.blkSize =
            dirBytes v (getfcode E path) (k + 1) := by
          rw [dirBytes_succ, dirBlock, hfind]
        have hmarker := @hasEndMarker_dirBytes v (getfcode E path) k (by omega)
        simp only [hfind, hread, hload, hmarker]
        split
        case isTrue hmark =>
          rcases hmore with rfl | hnone
          · have hone : loadedBlocks v (getfcode E path) = 1 := by
              rw [loadedBlocks, if_pos hmark]
              omega
            rw [hone]
          · rw [hnone] at hmark
            cases hmark
        case isFalse hmark =>
          exact ih (k + 1) (by omega) hlt (.inr (Bool.eq_false_iff.mpr hmark))
      · simp only [hend]
        have hall : loadedBlocks v (getfcode E path) =
            dirBlocks v.root (getfcode E path) := by
          unfold loadedBlocks
          rcases hmore with hzero | hnone
          · split <;> omega
          · rw [if_neg (by rw [hnone]; exact Bool.false_ne_true)]
        rw [hall]

theorem fdirrefresh_eq (E : Host) {v : Volume} (dir : DirHandle) (hheld : v.AllHeld)
    (hblk : 0 < v.root.blkSize) :
    fdirrefresh E v dir = .ok { dir with
      loadedblocks := loadedBlocks v (getfcode E dir.path)
      dirarray := if loadedBlocks v (getfcode E dir.path) = 0 then dir.dirarray
        else some (dirBytes v (getfcode E dir.path)
          (loadedBlocks v (getfcode E dir.path))) } := by
  have hitems := (dirBlocks_spec v.root (getfcode E dir.path)).1
  have hloop := @fdirrefreshLoop_eq E v dir.path hheld hblk (v.root.nClusterItems + 1) 0
    (by omega) (Nat.zero_le _) (.inl rfl)
  rw [dirBytes_zero] at hloop
  rw [fdirrefresh, hloop]

/-! ## Records of a directory -/

theorem dirBytes_prefix (v : Volume) (c : Fcode) {n m : Nat} (h : n ≤ m) :
    ∃ rest, dirBytes v c m = dirBytes v c n ++ rest := by
  obtain ⟨d, rfl⟩ := Nat.exists_eq_add_of_le h
  induction d with
  | zero => exact ⟨[], (List.append_nil _).symm⟩
  | succ d ih =>
      obtain ⟨rest, hrest⟩ := ih (Nat.le_add_right _ _)
      refine ⟨rest ++ dirBlock v c (n + d), ?_⟩
      rw [← Nat.add_assoc, dirBytes_succ, hrest, List.append_assoc]

theorem fcode_get_append {first : Bytes} (rest : Bytes) {i : Nat}
    (h : dirItemCodec.width * i + 16 ≤ first.length) :
    (dirItemCodec.get (first ++ rest) i).f.fcode = (dirItemCodec.get first i).f.fcode := by
  have hfield : ∀ off width, off + width ≤ 16 →
      fieldNat (slice (first ++ rest) (dirItemCodec.width * i) dirItemCodec.width) off width =
        fieldNat (slice first (dirItemCodec.width * i) dirItemCodec.width) off width := by
    intro off width hle
    have hwidth : off + width ≤ dirItemCodec.width := Nat.le_trans hle (by decide)
    rw [fieldNat, field, slice_slice _ _ _ _ _ hwidth, slice_append_left _ _ (by omega),
      fieldNat, field, slice_slice _ _ _ _ _ hwidth]
  change Fcode.mk _ _ = Fcode.mk _ _
  rw [hfield 0 8 (by decide), hfield 8 6 (by decide)]

theorem get_append {α : Type} (codec : Codec α) {first : Bytes} (rest : Bytes) {i : Nat}
    (h : codec.Inside first i) : codec.get (first ++ rest) i = codec.get first i := by
  rw [Codec.get, Codec.get, slice_append_left _ _ h]

theorem hasEndMarker_iff {bytes : Bytes} {blkSize : Nat} :
    hasEndMarker bytes blkSize = true ↔
      ∃ i, i < blkSize / dirItemCodec.width ∧ (dirItemCodec.get bytes i).local' = 0 := by
  have hwidth : dirItemCodec.width ≠ 0 := by decide
  rw [hasEndMarker, List.any_eq_true, safediv_of_ne_zero hwidth]
  refine exists_congr fun i => ?_
  rw [List.mem_range, decide_eq_true_iff]

end BlockyOS.HostTool
