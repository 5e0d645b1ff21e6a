import Mathlib.Data.Nat.ModEq
import BlockyOS.HostTool.FileIO

/-!
# Where the slots lie on the disk

Every slot of the map owns one block of the disk.  Positions are computed in 64
bits, and still the blocks of two slots never overlap: their distance is too
small to wrap.
-/

namespace BlockyOS.HostTool

open BlockyOS.Foundation

/-! ## Positions -/

namespace ConfFsroot

/-- The bytes one block of the root takes on the disk. -/
def span (fr : ConfFsroot) : Nat := blockSpan fr.blkSize

/-- The file offset of the block of a slot. -/
def slotOffset (fr : ConfFsroot) (slot : Nat) : Nat :=
  (rootEnv fr).offset (getloc fr slot)

/-- `readblocks` and `writeblocks` accept the position of the slot. -/
def Addressable (fr : ConfFsroot) (slot : Nat) : Prop :=
  fr.loc ≤ getloc fr slot ∧ fr.slotOffset slot < 2 ^ 63

instance (fr : ConfFsroot) (slot : Nat) : Decidable (fr.Addressable slot) :=
  inferInstanceAs (Decidable (_ ∧ _))

theorem span_pos (fr : ConfFsroot) : 0 < fr.span := blockSpan_pos _

theorem span_le (fr : ConfFsroot) : fr.span ≤ 2 ^ 32 := blockSpan_le fr.blkSize_lt

theorem blkSize_le_span (fr : ConfFsroot) : fr.blkSize ≤ fr.span := le_blockSpan _

theorem sizeofMetaFsBlock_le_span (fr : ConfFsroot) : sizeofMetaFsBlock ≤ fr.span := by
  have := sectorsPerBlock_pos fr.blkSize
  unfold span blockSpan sizeofMetaFsBlock
  omega

theorem SameGeometry.span {fr fr' : ConfFsroot} (h : SameGeometry fr fr') :
    fr'.span = fr.span := by
  rw [ConfFsroot.span, ConfFsroot.span, h.blkSize]

theorem SameGeometry.rootEnv {fr fr' : ConfFsroot} (h : SameGeometry fr fr') :
    rootEnv fr' = rootEnv fr := by
  rw [HostTool.rootEnv, HostTool.rootEnv, h.loc, h.blkSize]

theorem SameGeometry.slotOffset {fr fr' : ConfFsroot} (h : SameGeometry fr fr')
    (slot : Nat) : fr'.slotOffset slot = fr.slotOffset slot := by
  rw [ConfFsroot.slotOffset, ConfFsroot.slotOffset, h.rootEnv, h.getloc]

theorem SameGeometry.addressable {fr fr' : ConfFsroot} (h : SameGeometry fr fr')
    (slot : Nat) : fr'.Addressable slot ↔ fr.Addressable slot := by
  rw [Addressable, Addressable, h.slotOffset, h.getloc, h.loc]

theorem slotOffset_eq (fr : ConfFsroot) (slot : Nat) :
    fr.slotOffset slot = u64 (fr.loc * 512 + (getloc fr slot - fr.loc) * fr.span) := by
  rw [slotOffset, RawEnv.offset, span, blockSpan, ← Nat.mul_assoc]
  rfl

theorem slotOffset_add {fr : ConfFsroot} {slot d : Nat} (hd : d < 2 ^ 28)
    (h : fr.Addressable slot) (h' : fr.Addressable (slot + d)) :
    fr.slotOffset (slot + d) = fr.slotOffset slot + d * fr.span := by
  have hloc : getloc fr (slot + d) ≡ getloc fr slot + d [MOD 2 ^ 64] := by
    have hslot : getloc fr slot ≡ dataFirst fr + slot [MOD 2 ^ 64] := Nat.mod_modEq _ _
    have hslot' : getloc fr (slot + d) ≡ dataFirst fr + (slot + d) [MOD 2 ^ 64] :=
      Nat.mod_modEq _ _
    rw [← Nat.add_assoc] at hslot'
    exact hslot'.trans (hslot.add_right d).symm
  have hdist : getloc fr (slot + d) - fr.loc ≡ getloc fr slot - fr.loc + d
      [MOD 2 ^ 64] := by
    apply Nat.ModEq.add_right_cancel' fr.loc
    rw [Nat.sub_add_cancel h'.1, Nat.add_right_comm, Nat.sub_add_cancel h.1]
    exact hloc
  have hoffset : fr.slotOffset (slot + d) ≡ fr.slotOffset slot + d * fr.span
      [MOD 2 ^ 64] := by
    rw [slotOffset_eq, slotOffset_eq]
    calc
      u64 (fr.loc * 512 + (getloc fr (slot + d) - fr.loc) * fr.span)
          ≡ fr.loc * 512 + (getloc fr (slot + d) - fr.loc) * fr.span [MOD 2 ^ 64] :=
        Nat.mod_modEq _ _
      _ ≡ fr.loc * 512 + (getloc fr slot - fr.loc + d) * fr.span [MOD 2 ^ 64] :=
        (hdist.mul_right _).add_left _
      _ ≡ u64 (fr.loc * 512 + (getloc fr slot - fr.loc) * fr.span) + d * fr.span
          [MOD 2 ^ 64] := by
        rw [Nat.add_mul, ← Nat.add_assoc]
        exact ((Nat.mod_modEq _ _).symm).add_right _
  have hsmall : d * fr.span < 2 ^ 60 := by
    calc
      d * fr.span < 2 ^ 28 * fr.span := Nat.mul_lt_mul_of_pos_right hd fr.span_pos
      _ ≤ 2 ^ 28 * 2 ^ 32 := Nat.mul_le_mul_left _ fr.span_le
      _ = 2 ^ 60 := by decide
  have hlow := h.2
  have hhigh := h'.2
  exact hoffset.eq_of_lt_of_lt (by omega) (by omega)

theorem length_lt (fr : ConfFsroot) : fr.clusterMap.length < 2 ^ 28 := by
  have hlen := fr.length_clusterMap
  have hsize := fr.size_clusterMap
  have hlt := fr.size_lt
  unfold sizeofFsBlock at hsize
  omega

theorem slots_disjoint {fr : ConfFsroot} {s t : Nat} (hs : s < fr.clusterMap.length)
    (ht : t < fr.clusterMap.length) (hne : s ≠ t) (has : fr.Addressable s)
    (hat : fr.Addressable t) :
    fr.slotOffset s + fr.span ≤ fr.slotOffset t ∨
      fr.slotOffset t + fr.span ≤ fr.slotOffset s := by
  have hlen := fr.length_lt
  have hstep : ∀ {s t : Nat}, s < t → t < fr.clusterMap.length → fr.Addressable s →
      fr.Addressable t → fr.slotOffset s + fr.span ≤ fr.slotOffset t := by
    intro s t hst ht has hat
    obtain ⟨d, rfl⟩ := Nat.exists_eq_add_of_lt hst
    have hadd := slotOffset_add (d := d + 1) (by omega) has (by rwa [← Nat.add_assoc])
    rw [← Nat.add_assoc] at hadd
    rw [hadd, Nat.add_mul, Nat.one_mul]
    omega
  rcases Nat.lt_or_gt_of_ne hne with hlt | hgt
  · exact .inl (hstep hlt ht has hat)
  · exact .inr (hstep hgt hs hat has)

end ConfFsroot

/-! ## Transfers of one block -/

/-- What the block of a slot holds. -/
def Volume.window (v : Volume) (slot : Nat) : Bytes :=
  v.image.window (v.root.slotOffset slot) v.root.span

/-- The image reaches to the end of the slot's block. -/
def Volume.Holds (v : Volume) (slot : Nat) : Prop :=
  v.root.slotOffset slot + v.root.span ≤ v.image.size

instance (v : Volume) (slot : Nat) : Decidable (v.Holds slot) :=
  inferInstanceAs (Decidable (_ ≤ _))

@[simp] theorem Volume.length_window (v : Volume) (slot : Nat) :
    (v.window slot).length = v.root.span :=
  Image.length_window _ _ _

section Transfers

variable {v : Volume} {slot bytes : Nat}

theorem seekable_slotOffset (fr : ConfFsroot) (slot : Nat) :
    (¬ getloc fr slot < fr.loc ∧ seekable (fr.slotOffset slot)) ↔ fr.Addressable slot := by
  rw [ConfFsroot.Addressable, seekable, decide_eq_true_iff, Nat.not_lt]

theorem Volume.readAt_eq (hpos : 0 < bytes) (hle : bytes ≤ v.root.span) :
    v.readAt slot bytes =
      if v.root.Addressable slot ∧ v.Holds slot then some (v.window slot) else none := by
  have hspan : (rootEnv v.root).span bytes = v.root.span :=
    span_one v.root.blkSize_lt hpos hle
  have hspan_pos := v.root.span_pos
  have haddr := seekable_slotOffset v.root slot
  change (if getloc v.root slot < v.root.loc then none
    else if seekable (v.root.slotOffset slot) then
      v.image.read (v.root.slotOffset slot) ((rootEnv v.root).span bytes)
    else none) = _
  rw [hspan]
  by_cases hlow : getloc v.root slot < v.root.loc
  · rw [if_pos hlow, if_neg]
    exact fun h => (haddr.mpr h.1).1 hlow
  · rw [if_neg hlow]
    by_cases hseek : seekable (v.root.slotOffset slot)
    · rw [if_pos hseek]
      by_cases hholds : v.Holds slot
      · rw [if_pos ⟨haddr.mp ⟨hlow, hseek⟩, hholds⟩]
        exact Image.read_of_le hholds
      · rw [if_neg fun h => hholds h.2, Image.read, if_neg]
        rintro (hzero | hin)
        · omega
        · exact hholds hin
    · rw [if_neg hseek, if_neg]
      exact fun h => hseek (haddr.mpr h.1).2

theorem Volume.writeAt_image (data : Bytes) (hpos : 0 < bytes) (hle : bytes ≤ v.root.span) :
    (v.writeAt slot data bytes).image =
      if v.root.Addressable slot then
        v.image.write (v.root.slotOffset slot) (padTo v.root.span (data.take bytes))
      else v.image := by
  have hspan : (rootEnv v.root).span bytes = v.root.span :=
    span_one v.root.blkSize_lt hpos hle
  have haddr := seekable_slotOffset v.root slot
  change (if getloc v.root slot < v.root.loc then v.image
    else if seekable (v.root.slotOffset slot) then
      v.image.write (v.root.slotOffset slot)
        (padTo ((rootEnv v.root).span bytes) (data.take bytes))
    else v.image) = _
  rw [hspan]
  by_cases hlow : getloc v.root slot < v.root.loc
  · rw [if_pos hlow, if_neg]
    exact fun h => (haddr.mpr h).1 hlow
  · rw [if_neg hlow]
    by_cases hseek : seekable (v.root.slotOffset slot)
    · rw [if_pos hseek, if_pos (haddr.mp ⟨hlow, hseek⟩)]
    · rw [if_neg hseek, if_neg]
      exact fun h => hseek (haddr.mpr h).2

theorem Volume.size_le_writeAt (data : Bytes) :
    v.image.size ≤ (v.writeAt slot data bytes).image.size := by
  simp only [Volume.writeAt, writeblocks]
  split
  case isTrue => exact Nat.le_refl _
  case isFalse =>
    split
    case isTrue => exact Image.size_le_write _ _ _
    case isFalse => exact Nat.le_refl _

variable {data : Bytes} (hpos : 0 < bytes) (hle : bytes ≤ v.root.span)

include hpos hle

theorem Volume.window_writeAt_same (haddr : v.root.Addressable slot) :
    (v.writeAt slot data bytes).window slot = padTo v.root.span (data.take bytes) := by
  rw [Volume.window, Volume.writeAt_image data hpos hle, if_pos haddr, Volume.writeAt_root]
  have hsame := Image.window_write_same v.image (v.root.slotOffset slot)
    (padTo v.root.span (data.take bytes))
  rwa [length_padTo] at hsame

theorem Volume.window_writeAt_other {t : Nat} (hslot : slot < v.root.clusterMap.length)
    (ht : t < v.root.clusterMap.length) (hne : t ≠ slot) (hat : v.root.Addressable t) :
    (v.writeAt slot data bytes).window t = v.window t := by
  rw [Volume.window, Volume.writeAt_image data hpos hle, Volume.writeAt_root, Volume.window]
  split
  case isTrue haddr =>
    apply Image.window_write_disjoint
    rw [length_padTo]
    exact ConfFsroot.slots_disjoint ht hslot hne hat haddr
  case isFalse => rfl

end Transfers

theorem Volume.Holds.writeAt {v : Volume} {t : Nat} (h : v.Holds t) (slot : Nat)
    (data : Bytes) (bytes : Nat) : (v.writeAt slot data bytes).Holds t := by
  have hsize := @Volume.size_le_writeAt v slot bytes data
  unfold Volume.Holds at h ⊢
  rw [Volume.writeAt_root]
  omega

end BlockyOS.HostTool
