import BlockyOS.Kernel.PageAlloc

/-!
# The codec of virtual addresses

`VirtualAddressAToU64` and `InitVirtualAddress` against `InitPageCoordinate`.
The five indices come back in both directions.  The sign is always extended from
bit 56, which is the sign bit of five-level paging alone.
-/

namespace BlockyOS.Kernel

open BlockyOS.Foundation
open AllocState (virtualAddress)

/-! ## Canonical addresses -/

def Canonical (width v : Nat) : Prop :=
  v < 2 ^ (width - 1) ∨ 2 ^ 64 - 2 ^ (width - 1) ≤ v ∧ v < 2 ^ 64

instance (width v : Nat) : Decidable (Canonical width v) :=
  inferInstanceAs (Decidable (_ ∨ _))

def addressWidth (la57 : Bool) : Nat := if la57 then 57 else 48

theorem Canonical.widen {width width' v : Nat} (hwidth : width ≤ width') (h : Canonical width v) :
    Canonical width' v := by
  have hpow : 2 ^ (width - 1) ≤ 2 ^ (width' - 1) :=
    Nat.pow_le_pow_right (by decide) (Nat.sub_le_sub_right hwidth 1)
  rcases h with hlow | ⟨hhigh, hword⟩
  · exact Or.inl (Nat.lt_of_lt_of_le hlow hpow)
  · exact Or.inr ⟨Nat.le_trans (Nat.sub_le_sub_left hpow _) hhigh, hword⟩

theorem canonical_of_addressWidth {la57 : Bool} {v : Nat}
    (h : Canonical (addressWidth la57) v) : Canonical 57 v := by
  refine h.widen ?_
  cases la57 <;> decide

/-- A coordinate of the mode, as `InitPageCoordinate` gives it. -/
structure ModeCoordinate (la57 : Bool) extends PageCoordinate where
  enabled : enableL1 = true ∧ enableL2 = true ∧ enableL3 = true ∧ enableL4 = true ∧
    enableL5 = la57
  small : l1 < 512 ∧ l2 < 512 ∧ l3 < 512 ∧ l4 < 512 ∧ l5 < 512
  top : la57 = false → l5 = 0

/-- A canonical address of the mode on a page boundary. -/
structure PageAddress (la57 : Bool) where
  address : Nat
  canonical : Canonical (addressWidth la57) address
  aligned : 4096 ∣ address

/-! ## Indices -/

def packedIndices (c : PageCoordinate) : Nat :=
  c.l1 * 2 ^ 12 + c.l2 * 2 ^ 21 + c.l3 * 2 ^ 30 + c.l4 * 2 ^ 39 + c.l5 * 2 ^ 48

theorem virtualAddress_of_lt {c : PageCoordinate} (h : packedIndices c < 2 ^ 56) :
    virtualAddress c = packedIndices c := if_pos h

theorem virtualAddress_of_le {c : PageCoordinate} (h : 2 ^ 56 ≤ packedIndices c) :
    virtualAddress c = packedIndices c + (2 ^ 64 - 2 ^ 57) := if_neg (Nat.not_lt.mpr h)

theorem virtualAddress_eq_add (c : PageCoordinate) :
    ∃ sign, virtualAddress c = packedIndices c + sign * 2 ^ 57 := by
  rcases Nat.lt_or_ge (packedIndices c) (2 ^ 56) with h | h
  · exact ⟨0, by rw [virtualAddress_of_lt h]; omega⟩
  · exact ⟨127, virtualAddress_of_le h⟩

theorem indices_packed {l1 l2 l3 l4 l5 : Nat} (sign : Nat)
    (hsmall : l1 < 512 ∧ l2 < 512 ∧ l3 < 512 ∧ l4 < 512 ∧ l5 < 512) {v : Nat}
    (hv : v = l1 * 2 ^ 12 + l2 * 2 ^ 21 + l3 * 2 ^ 30 + l4 * 2 ^ 39 + l5 * 2 ^ 48 +
      sign * 2 ^ 57) :
    indexL1 v = l1 ∧ indexL2 v = l2 ∧ indexL3 v = l3 ∧ indexL4 v = l4 ∧ indexL5 v = l5 := by
  simp only [indexL1, indexL2, indexL3, indexL4, indexL5, bits]
  refine ⟨?_, ?_, ?_, ?_, ?_⟩ <;> omega

theorem ModeCoordinate.initPageCoordinate_virtualAddress {la57 : Bool}
    (c : ModeCoordinate la57) :
    initPageCoordinate la57 (virtualAddress c.toPageCoordinate) = c.toPageCoordinate := by
  obtain ⟨⟨l1, l2, l3, l4, l5, e1, e2, e3, e4, e5⟩, ⟨h1, h2, h3, h4, h5⟩, hsmall, -⟩ := c
  obtain ⟨sign, hsign⟩ := virtualAddress_eq_add ⟨l1, l2, l3, l4, l5, e1, e2, e3, e4, e5⟩
  obtain ⟨hl1, hl2, hl3, hl4, hl5⟩ := indices_packed sign hsmall hsign
  simp only [initPageCoordinate, PageCoordinate.mk.injEq]
  exact ⟨hl1, hl2, hl3, hl4, hl5, h1.symm, h2.symm, h3.symm, h4.symm, h5.symm⟩

theorem packedIndices_init {la57 : Bool} {v : Nat} (haligned : 4096 ∣ v) :
    packedIndices (initPageCoordinate la57 v) = v % 2 ^ 57 := by
  simp only [packedIndices, initPageCoordinate, indexL1, indexL2, indexL3, indexL4, indexL5,
    bits]
  omega

theorem virtualAddress_init {la57 : Bool} {v : Nat} (hcanonical : Canonical 57 v)
    (haligned : 4096 ∣ v) : virtualAddress (initPageCoordinate la57 v) = v := by
  have hpacked := @packedIndices_init la57 v haligned
  rcases hcanonical with hlow | ⟨hhigh, hword⟩
  · rw [virtualAddress_of_lt (by omega), hpacked]
    omega
  · rw [virtualAddress_of_le (by omega), hpacked]
    omega

/-! ## The sign -/

theorem ModeCoordinate.canonical_iff {la57 : Bool} (c : ModeCoordinate la57) :
    Canonical (addressWidth la57) (virtualAddress c.toPageCoordinate) ↔
      la57 = true ∨ c.l4 < 256 := by
  obtain ⟨hl1, hl2, hl3, hl4, hl5⟩ := c.small
  have hpacked : packedIndices c.toPageCoordinate =
    c.l1 * 2 ^ 12 + c.l2 * 2 ^ 21 + c.l3 * 2 ^ 30 + c.l4 * 2 ^ 39 + c.l5 * 2 ^ 48 := rfl
  cases la57 with
  | true =>
      refine iff_of_true ?_ (Or.inl rfl)
      change _ < 2 ^ 56 ∨ 2 ^ 64 - 2 ^ 56 ≤ _ ∧ _ < 2 ^ 64
      rcases Nat.lt_or_ge (packedIndices c.toPageCoordinate) (2 ^ 56) with h | h
      · rw [virtualAddress_of_lt h]
        exact Or.inl h
      · rw [virtualAddress_of_le h]
        omega
  | false =>
      have htop := c.top rfl
      rw [virtualAddress_of_lt (by omega)]
      change (_ < 2 ^ 47 ∨ 2 ^ 64 - 2 ^ 47 ≤ _ ∧ _ < 2 ^ 64) ↔ _
      have hmode : (false = true ∨ c.l4 < 256) ↔ c.l4 < 256 := by simp
      rw [hmode]
      omega

/-- The two directions of the codec, and addresses that the processor takes. -/
structure CodecRight (la57 : Bool) (c : ModeCoordinate la57) (v : PageAddress la57) :
    Prop where
  canonical : Canonical (addressWidth la57) (virtualAddress c.toPageCoordinate)
  decodes : initPageCoordinate la57 (virtualAddress c.toPageCoordinate) = c.toPageCoordinate
  encodes : virtualAddress (initPageCoordinate la57 v.address) = v.address

/-- The codec is right but for the upper half of four-level paging. -/
theorem codecRight_iff (la57 : Bool) (c : ModeCoordinate la57) (v : PageAddress la57) :
    CodecRight la57 c v ↔ la57 = true ∨ c.l4 < 256 := by
  rw [← c.canonical_iff]
  constructor
  · exact fun h => h.canonical
  · exact fun hcanonical =>
      ⟨hcanonical, c.initPageCoordinate_virtualAddress,
        virtualAddress_init (canonical_of_addressWidth v.canonical) v.aligned⟩

/-- The first page of the upper half with four levels. -/
def upperHalf : ModeCoordinate false where
  l1 := 0
  l2 := 0
  l3 := 0
  l4 := 256
  l5 := 0
  enableL1 := true
  enableL2 := true
  enableL3 := true
  enableL4 := true
  enableL5 := false
  enabled := ⟨rfl, rfl, rfl, rfl, rfl⟩
  small := ⟨by decide, by decide, by decide, by decide, by decide⟩
  top _ := rfl

def firstPage : PageAddress false := ⟨0, by decide, by decide⟩

/-- Its address is `0x0000800000000000`, with the bits above the sign clear. -/
theorem not_codecRight_upperHalf : ¬ CodecRight false upperHalf firstPage := by
  intro h
  exact absurd h.canonical (by decide)

end BlockyOS.Kernel
