import BlockyOS.Foundation.BitFields
import BlockyOS.Foundation.Strides

/-!
# The global descriptor table

Descriptors of code and data take one word of eight bytes, those of system segments
two, and the kernel tells them apart by their `S` bit.
-/

namespace BlockyOS.Kernel.GDT

open BlockyOS.Foundation

/-- The memory from the base of the table on, in words of eight bytes. -/
abbrev Words := Nat → Nat

/-- `sizeof(GDTDescriptor)`. -/
def descriptorSize : Nat := 8

/-- `sizeof(GDTSystemSegmentDescriptor64)`, a word more than the processor's descriptor: the forty
bits of `BaseHigh` do not fit behind bit 55 and begin a word of their own, and so do the last 32. -/
def systemDescriptorSize : Nat := 24

/-! ## Fields -/

/-- `ABSystemSegmentBit`, which is clear in a descriptor of a system segment. -/
def systemSegmentBit (word : Nat) : Nat := bits word 44 1

def present (word : Nat) : Nat := bits word 47 1

def type (word : Nat) : Nat := bits word 40 4

/-- `TSS64BitAvailable`. -/
def tss64BitAvailable : Nat := 0x9

def rawAt (m : Words) (i : Nat) : Nat := m i + 2 ^ 64 * m (i + 1)

/-- The base of a system segment, as the kernel puts it together. -/
def base (raw : Nat) : Nat := bits raw 64 40 <<< 24 + bits raw 16 24

def segmentBase (raw : Nat) : Nat := bits raw 56 40 <<< 24 + bits raw 16 24

def segmentLimit (raw : Nat) : Nat := bits raw 48 4 <<< 16 + bits raw 0 16

def storeAt (m : Words) (i raw : Nat) : Words := fun j =>
  if j = i then raw % 2 ^ 64 else if j = i + 1 then raw / 2 ^ 64 else m j

def storeWide (m : Words) (i raw : Nat) : Words :=
  storeAt (fun j => if j = i + 2 then raw / 2 ^ 128 else m j) i (raw % 2 ^ 128)

/-! ## Tables -/

inductive Descriptor where
  | null
  | segment (word : Nat) (lt : word < 2 ^ 64) (bit : systemSegmentBit word = 1)
  | system (raw : Nat) (lt : raw < 2 ^ 128) (bit : systemSegmentBit raw = 0)
      (reserved : bits raw 96 32 = 0)

/-- The words that a descriptor takes. -/
def Descriptor.size : Descriptor → Nat
  | null => 1
  | segment .. => 1
  | system .. => 2

def Descriptor.LiesAt (m : Words) (i : Nat) : Descriptor → Prop
  | null => m i = 0
  | segment word _ _ => m i = word
  | system raw _ _ _ => m i = raw % 2 ^ 64 ∧ m (i + 1) = raw / 2 ^ 64

def Descriptor.Present : Descriptor → Prop
  | null => False
  | segment word _ _ => present word = 1
  | system raw _ _ _ => present raw = 1

/-- A table, no larger than a limit of sixteen bits allows. -/
structure Image where
  descriptors : List Descriptor
  length_le : totalSize Descriptor.size descriptors ≤ 2 ^ 13

namespace Image

variable (img : Image)

def length : Nat := totalSize Descriptor.size img.descriptors

/-- `Limit`, the offset of the last byte. -/
def limit : Nat := img.length * descriptorSize - 1

def places : List (Nat × Descriptor) := placesFrom Descriptor.size 0 img.descriptors

def Holds (m : Words) : Prop := ∀ p ∈ img.places, p.2.LiesAt m p.1

end Image

instance (m : Words) (i : Nat) (d : Descriptor) : Decidable (d.LiesAt m i) :=
  match d with
  | .null => inferInstanceAs (Decidable (m i = 0))
  | .segment word _ _ => inferInstanceAs (Decidable (m i = word))
  | .system raw _ _ _ => inferInstanceAs (Decidable (m i = raw % 2 ^ 64 ∧ m (i + 1) = raw / 2 ^ 64))

instance (img : Image) (m : Words) : Decidable (img.Holds m) :=
  inferInstanceAs (Decidable (∀ p ∈ img.places, p.2.LiesAt m p.1))

/-! ## Reading a table -/

variable {m : Words} {img : Image} {i : Nat}

theorem bits_rawAt {off width : Nat} (h : off + width ≤ 64) :
    bits (rawAt m i) off width = bits (m i) off width := by
  have hsplit : 2 ^ 64 * m (i + 1) =
      2 ^ off * (2 ^ width * (2 ^ (64 - off - width) * m (i + 1))) := by
    rw [← Nat.mul_assoc, ← Nat.mul_assoc, ← Nat.pow_add, ← Nat.pow_add]
    congr 2
    omega
  rw [bits, bits, rawAt, hsplit, Nat.add_mul_div_left _ _ (Nat.two_pow_pos _),
    Nat.add_mul_mod_self_left]

theorem bits_mod {raw off width : Nat} (h : off + width ≤ 64) :
    bits (raw % 2 ^ 64) off width = bits raw off width := by
  conv_rhs => rw [← Nat.mod_add_div raw (2 ^ 64)]
  exact (bits_rawAt (m := fun j => if j = 0 then raw % 2 ^ 64 else raw / 2 ^ 64) (i := 0) h).symm

theorem bits_zero {off width : Nat} : bits 0 off width = 0 := by
  rw [bits, Nat.zero_div, Nat.zero_mod]

theorem bits_upper {raw off width : Nat} (hreserved : bits raw 96 32 = 0) (hoff : 32 ≤ off)
    (hwidth : off + width ≤ 64) : bits (raw / 2 ^ 64) off width = 0 := by
  have hshift : raw / 2 ^ 64 / 2 ^ off = raw / 2 ^ 96 / 2 ^ (off - 32) := by
    rw [Nat.div_div_eq_div_mul, Nat.div_div_eq_div_mul, ← Nat.pow_add, ← Nat.pow_add]
    congr 2
    omega
  obtain ⟨q, hq⟩ := Nat.dvd_of_mod_eq_zero (show raw / 2 ^ 96 % 2 ^ 32 = 0 from hreserved)
  have hsplit : 2 ^ 32 * q = 2 ^ (off - 32) * (2 ^ width * (2 ^ (64 - off - width) * q)) := by
    rw [← Nat.mul_assoc, ← Nat.mul_assoc, ← Nat.pow_add, ← Nat.pow_add]
    congr 2
    omega
  rw [bits, hshift, hq, hsplit, Nat.mul_div_cancel_left _ (Nat.two_pow_pos _), Nat.mul_mod_right]

theorem exists_system (h : img.Holds m) (hlt : i < img.length)
    (hbit : systemSegmentBit (m i) = 0) (htype : type (m i) ≠ 0) :
    ∃ raw lt bit reserved, (i, Descriptor.system raw lt bit reserved) ∈ img.places ∧
      type raw = type (m i) := by
  obtain ⟨j, d, hmem, hle, hin⟩ :=
    exists_mem_placesFrom img.descriptors
      (Nat.zero_le i) (by rw [Nat.zero_add]; exact hlt)
  have hlies := h (j, d) hmem
  cases d with
  | null =>
      have hij : i = j := Nat.le_antisymm (Nat.lt_succ_iff.mp hin) hle
      rw [hij, show m j = 0 from hlies, type, bits_zero] at htype
      exact absurd rfl htype
  | segment word lt bit =>
      have hij : i = j := Nat.le_antisymm (Nat.lt_succ_iff.mp hin) hle
      rw [hij, show m j = word from hlies, bit] at hbit
      cases hbit
  | system raw lt bit reserved =>
      obtain ⟨hlow, hhigh⟩ : m j = raw % 2 ^ 64 ∧ m (j + 1) = raw / 2 ^ 64 := hlies
      rcases Nat.eq_or_lt_of_le hle with rfl | hnext
      · refine ⟨raw, lt, bit, reserved, hmem, ?_⟩
        rw [hlow, type, type, bits_mod (by decide)]
      · have hi : i = j + 1 := Nat.le_antisymm (Nat.lt_succ_iff.mp hin) hnext
        rw [hi, hhigh, type, bits_upper reserved (by decide) (by decide)] at htype
        exact absurd rfl htype

end BlockyOS.Kernel.GDT
