import BlockyOS.HostTool.Extent
import BlockyOS.HostTool.Isolation

/-!
# A file as a sequence of bytes

Position `x` of a file lies in the block of index `x / b`.  The byte found there
is what the read loop collects, and a pass of the write loop changes the bytes
of one block.
-/

namespace BlockyOS.HostTool

open BlockyOS.Foundation

/-! ## Images that hold the volume -/

/-- The image is large enough for the block of every slot. -/
def Volume.AllHeld (v : Volume) : Prop :=
  ∀ s, s < v.root.clusterMap.length → v.root.Addressable s ∧ v.Holds s

theorem Volume.AllHeld.writeAt {v : Volume} (h : v.AllHeld) (slot : Nat) (data : Bytes)
    (bytes : Nat) : (v.writeAt slot data bytes).AllHeld :=
  fun s hs => ⟨(h s hs).1, (h s hs).2.writeAt slot data bytes⟩

theorem Volume.AllHeld.withRoot {v : Volume} (h : v.AllHeld) {fr : ConfFsroot}
    (hgeometry : ConfFsroot.SameGeometry v.root fr) : ({ v with root := fr }).AllHeld := by
  intro s hs
  obtain ⟨haddr, hholds⟩ := h s (by rwa [← hgeometry.length])
  refine ⟨(hgeometry.addressable s).mpr haddr, ?_⟩
  unfold Volume.Holds at hholds ⊢
  rw [hgeometry.slotOffset, hgeometry.span]
  exact hholds

theorem Volume.AllHeld.readAt {v : Volume} (h : v.AllHeld) {s bytes : Nat}
    (hs : s < v.root.clusterMap.length) (hpos : 0 < bytes) (hle : bytes ≤ v.root.span) :
    v.readAt s bytes = some (v.window s) := by
  rw [Volume.readAt_eq hpos hle, if_pos (h s hs)]

/-! ## Bytes of a file -/

def fileByte (v : Volume) (c : Fcode) (x : Nat) : Option UInt8 :=
  (ffindhi v.root c (x / v.root.blkSize)).bind fun s =>
    (v.window s)[x % v.root.blkSize]?

theorem fileByte_writeAt_other {v : Volume} {slot bytes x : Nat} {data : Bytes} {c : Fcode}
    (hslot : slot < v.root.clusterMap.length) (hpos : 0 < bytes)
    (hle : bytes ≤ v.root.span) (hheld : v.AllHeld)
    (hne : ∀ t, ffindhi v.root c (x / v.root.blkSize) = some t → t ≠ slot) :
    fileByte (v.writeAt slot data bytes) c x = fileByte v c x := by
  unfold fileByte
  rw [Volume.writeAt_root]
  cases hfind : ffindhi v.root c (x / v.root.blkSize) with
  | none => rfl
  | some t =>
      have ht := (ffindhi_some hfind).1
      simp only [Option.bind_some]
      rw [Volume.window_writeAt_other hpos hle hslot ht (hne t hfind) (hheld t ht).1]

theorem ffindhi_ne {fr : ConfFsroot} {c : Fcode} {i j s t : Nat}
    (hs : ffindhi fr c i = some s) (ht : ffindhi fr c j = some t) (hi : i < 2 ^ 32)
    (hj : j < 2 ^ 32) (hne : i ≠ j) : s ≠ t := by
  rintro rfl
  have hsi := (ffindhi_some hs).2.2
  have hsj := (ffindhi_some ht).2.2
  rw [u32_of_lt hi] at hsi
  rw [u32_of_lt hj] at hsj
  exact hne (hsi.symm.trans hsj)

theorem fileByte_writeAt_same {v : Volume} {slot i x : Nat} {data : Bytes} {c : Fcode}
    (hfind : ffindhi v.root c i = some slot) (hx : x / v.root.blkSize = i)
    (hblk : 0 < v.root.blkSize) (hdata : v.root.blkSize ≤ data.length) (hheld : v.AllHeld) :
    fileByte (v.writeAt slot data v.root.blkSize) c x = data[x % v.root.blkSize]? := by
  have hspan := v.root.blkSize_le_span
  have hlt := (ffindhi_some hfind).1
  unfold fileByte
  rw [Volume.writeAt_root, hx, hfind, Option.bind_some,
    Volume.window_writeAt_same hblk hspan (hheld slot hlt).1]
  exact getElem?_padTo_take hspan hdata (Nat.mod_lt _ hblk)

/-! ## Reading one block -/

/-- The entry found for an index is not an extension cluster. -/
def Plain (fr : ConfFsroot) (c : Fcode) (index : Nat) : Prop :=
  ∀ s, ffindhi fr c index = some s →
    flagcheck (fr.block s).attributes fsExtensionAllocatedCluster = false

theorem skipExtension_plain {fr : ConfFsroot} {c : Fcode} {index : Nat}
    (hplain : Plain fr c index) (fuel : Nat) :
    skipExtension fr c (fuel + 1) (ffindhi fr c index) index =
      (ffindhi fr c index, index) := by
  cases hfind : ffindhi fr c index with
  | none => rfl
  | some s =>
      rw [skipExtension, hplain s hfind]
      rfl

section OneBlock

variable {v : Volume} {file i : Nat} {c : Fcode} (hfile : HasEntry v.root file c 0)
  (hi : i ≠ 0)

include hfile hi

theorem fread1_of_missing (hnone : ffindhi v.root c i = none) :
    fread1 v file i = (none, i) := by
  obtain ⟨-, hcode, hindex⟩ := hfile
  unfold fread1
  rw [hindex, hcode, if_pos hi, hnone]
  rfl

theorem fread1_of_found {s : Nat} (hplain : Plain v.root c i)
    (hfind : ffindhi v.root c i = some s) (hheld : v.AllHeld) (hblk : 0 < v.root.blkSize) :
    fread1 v file i = (some (v.window s), i) := by
  obtain ⟨-, hcode, hindex⟩ := hfile
  unfold fread1
  rw [hindex, hcode, if_pos hi, skipExtension_plain hplain, hfind]
  simp only
  rw [hheld.readAt (ffindhi_some hfind).1 hblk v.root.blkSize_le_span]

/-! ## Writing one block -/

/-- The block `_fwrite` pushes: `src` laid over the old contents. -/
def merged (blkSize : Nat) (old : Bytes) (blkOffset : Nat) (src : Bytes) : Bytes :=
  if src.length < blkSize then splice old blkOffset src else src

theorem fwriteBlock_of_found {s blkOffset : Nat} {src : Bytes} (hplain : Plain v.root c i)
    (hfind : ffindhi v.root c i = some s) (hheld : v.AllHeld) (hblk : 0 < v.root.blkSize) :
    fwriteBlock v file i blkOffset src =
      v.writeAt s (merged v.root.blkSize (v.window s) blkOffset src) v.root.blkSize := by
  have hpush : ∀ buffer, fpush1 v file i buffer = (v.writeAt s buffer v.root.blkSize, i) := by
    intro buffer
    obtain ⟨-, hcode, hindex⟩ := hfile
    unfold fpush1
    rw [hindex, hcode, if_pos hi, skipExtension_plain hplain, hfind]
  unfold fwriteBlock merged
  rw [fread1_of_found hfile hi hplain hfind hheld hblk]
  simp only [hpush, Option.getD_some]
  split <;> rfl

theorem fwriteBlock_of_missing {blkOffset : Nat} {src : Bytes}
    (hnone : ffindhi v.root c i = none) :
    fwriteBlock v file i blkOffset src =
      match faddr v file with
      | (v', some fb) =>
          v'.writeAt fb (merged v.root.blkSize (zeros v.root.blkSize) blkOffset src)
            v'.root.blkSize
      | (v', none) => v' := by
  have hpush : ∀ buffer, (fpush1 v file i buffer).1 =
      match faddr v file with
      | (v', some fb) => v'.writeAt fb buffer v'.root.blkSize
      | (v', none) => v' := by
    intro buffer
    obtain ⟨-, hcode, hindex⟩ := hfile
    unfold fpush1
    rw [hindex, hcode, if_pos hi, hnone, skipExtension]
    cases faddr v file with
    | mk v' fb => cases fb <;> rfl
    intro hzero
    cases hzero
  unfold fwriteBlock merged
  rw [fread1_of_missing hfile hi hnone]
  simp only [hpush, Option.getD_none]
  split <;> rfl

theorem fwriteBlock_of_full {blkOffset : Nat} {src : Bytes}
    (hnone : ffindhi v.root c i = none)
    (hfull : allocatecluster v.root = (v.root.setCursor 0, none)) :
    fwriteBlock v file i blkOffset src = { v with root := v.root.setCursor 0 } := by
  rw [fwriteBlock_of_missing hfile hi hnone, faddr, hfull]

theorem fwriteBlock_of_alloc {fb blkOffset : Nat} {src : Bytes}
    (hnone : ffindhi v.root c i = none)
    (halloc : allocatecluster v.root = (v.root.setCursor fb, some fb)) :
    fwriteBlock v file i blkOffset src =
      ((v.extended file fb).writeAt fb (zeros v.root.blkSize) v.root.blkSize).writeAt fb
        (merged v.root.blkSize (zeros v.root.blkSize) blkOffset src) v.root.blkSize := by
  rw [fwriteBlock_of_missing hfile hi hnone, faddr, halloc]
  rfl

end OneBlock

theorem length_merged {blkSize blkOffset : Nat} {old src : Bytes}
    (hold : blkSize ≤ old.length) (hsrc : blkOffset + src.length ≤ blkSize) :
    blkSize ≤ (merged blkSize old blkOffset src).length := by
  unfold merged
  split
  case isTrue => rwa [length_splice _ (by omega)]
  case isFalse h => omega

theorem getElem?_merged {blkSize blkOffset k : Nat} {old src : Bytes}
    (hold : blkSize ≤ old.length) (hsrc : blkOffset + src.length ≤ blkSize)
    (hk : blkOffset ≤ k) (hk' : k < blkOffset + src.length) :
    (merged blkSize old blkOffset src)[k]? = src[k - blkOffset]? := by
  unfold merged
  split
  case isTrue => rw [getElem?_splice _ (by omega), if_pos ⟨hk, hk'⟩]
  case isFalse h =>
    have hzero : blkOffset = 0 := by omega
    rw [hzero, Nat.sub_zero]

/-! ## What a pass does to the bytes -/

theorem ffindhi_extended {v : Volume} {file fb i : Nat} {c : Fcode}
    (hfile : HasEntry v.root file c 0) (hc : c ≠ Fcode.zero)
    (hnone : ffindhi v.root c i = none)
    (halloc : allocatecluster v.root = (v.root.setCursor fb, some fb))
    (hcount : countFcode v.root c = i) (j : Nat) (hj : j < 2 ^ 32) :
    ffindhi (v.extended file fb).root c j =
      if j = i then some fb else ffindhi v.root c j := by
  obtain ⟨-, hlt, -, hfree, -⟩ := allocatecluster_some halloc
  have hentry : (extensionEntry v.root file).index.toNat = i := by
    rw [extensionEntry_index, hfile.2.1, hcount]
  have hcode : (extensionEntry v.root file).fcode = c := hfile.2.1
  unfold Volume.extended
  split
  case isTrue h =>
    subst h
    refine @ffindhi_setBlock_new (v.root.setCursor fb) _ _ _ _ hlt hnone ?_
    rw [matchesIndex, decide_eq_true_iff, u32_of_lt hj]
    exact ⟨hcode, hentry⟩
  case isFalse h =>
    refine @ffindhi_setBlock_other (v.root.setCursor fb) _ _ _ _ hlt ?_ ?_
    · refine matchesIndex_eq_false (.inl ?_)
      rw [ConfFsroot.setCursor_block, hfree]
      exact hc.symm
    · refine matchesIndex_eq_false (.inr ?_)
      rw [hentry, u32_of_lt hj]
      exact fun heq => h heq.symm

section Pass

variable {v : Volume} {file i blkOffset : Nat} {c : Fcode} {src : Bytes}
  (hfile : HasEntry v.root file c 0) (hc : c ≠ Fcode.zero) (hi : i ≠ 0) (hi32 : i < 2 ^ 32)
  (hheld : v.AllHeld) (hblk : 0 < v.root.blkSize)
  (hsrc : blkOffset + src.length ≤ v.root.blkSize)

include hfile hi hi32 hheld hblk hsrc

theorem fileByte_fwriteBlock_found (hplain : Plain v.root c i) {s : Nat}
    (hfind : ffindhi v.root c i = some s) (x : Nat) (hx32 : x / v.root.blkSize < 2 ^ 32) :
    (x / v.root.blkSize ≠ i →
      fileByte (fwriteBlock v file i blkOffset src) c x = fileByte v c x) ∧
    (x / v.root.blkSize = i → blkOffset ≤ x % v.root.blkSize →
      x % v.root.blkSize < blkOffset + src.length →
      fileByte (fwriteBlock v file i blkOffset src) c x =
        src[x % v.root.blkSize - blkOffset]?) := by
  have hspan := v.root.blkSize_le_span
  have hold : v.root.blkSize ≤ (v.window s).length := by
    rwa [Volume.length_window]
  rw [fwriteBlock_of_found hfile hi hplain hfind hheld hblk]
  constructor
  · intro hx
    exact fileByte_writeAt_other (ffindhi_some hfind).1 hblk hspan hheld
      fun t ht => ffindhi_ne ht hfind hx32 hi32 hx
  · intro hx hlow hhigh
    rw [fileByte_writeAt_same hfind hx hblk (length_merged hold hsrc) hheld,
      getElem?_merged hold hsrc hlow hhigh]

include hc

theorem fileByte_fwriteBlock_extended {fb : Nat} (hnone : ffindhi v.root c i = none)
    (halloc : allocatecluster v.root = (v.root.setCursor fb, some fb))
    (hcount : countFcode v.root c = i) (x : Nat) (hx32 : x / v.root.blkSize < 2 ^ 32) :
    (x / v.root.blkSize ≠ i →
      fileByte (fwriteBlock v file i blkOffset src) c x = fileByte v c x) ∧
    (x / v.root.blkSize = i → blkOffset ≤ x % v.root.blkSize →
      x % v.root.blkSize < blkOffset + src.length →
      fileByte (fwriteBlock v file i blkOffset src) c x =
        src[x % v.root.blkSize - blkOffset]?) := by
  have hspan := v.root.blkSize_le_span
  have hfound := ffindhi_extended hfile hc hnone halloc hcount
  obtain ⟨hlt, -⟩ := @extended_slot _ file _ halloc
  have hheld' : (v.extended file fb).AllHeld :=
    hheld.withRoot (@extended_edits _ file _ halloc).sameGeometry
  have hslot : ffindhi (v.extended file fb).root c i = some fb := by
    rw [hfound i hi32, if_pos rfl]
  have hold : v.root.blkSize ≤ (zeros v.root.blkSize).length := by
    rw [length_zeros]
  rw [fwriteBlock_of_alloc hfile hi hnone halloc]
  constructor
  · intro hx
    have hother : ∀ t, ffindhi (v.extended file fb).root c (x / v.root.blkSize) = some t →
        t ≠ fb :=
      fun t ht => ffindhi_ne ht hslot hx32 hi32 hx
    have hkeep : fileByte (v.extended file fb) c x = fileByte v c x := by
      unfold fileByte
      change (ffindhi (v.extended file fb).root c (x / v.root.blkSize)).bind _ = _
      rw [hfound _ hx32, if_neg hx]
      rfl
    rw [← hkeep, ← @fileByte_writeAt_other _ _ _ _ (zeros v.root.blkSize) _ hlt hblk hspan hheld'
        hother]
    exact fileByte_writeAt_other hlt hblk hspan (hheld'.writeAt _ _ _) hother
  · intro hx hlow hhigh
    have hwrite := @fileByte_writeAt_same
      ((v.extended file fb).writeAt fb (zeros v.root.blkSize) v.root.blkSize) _ _ _
      (merged v.root.blkSize (zeros v.root.blkSize) blkOffset src) _ hslot hx hblk
      (length_merged hold hsrc) (hheld'.writeAt _ _ _)
    exact hwrite.trans (getElem?_merged hold hsrc hlow hhigh)

end Pass

end BlockyOS.HostTool
