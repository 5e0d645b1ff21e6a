import BlockyOS.Foundation.Bytes

/-!
# Checksummed headers

A header written as a list of little-endian fields, each with its width, and the
CRC-32 by which such headers protect themselves.
-/

namespace BlockyOS.Foundation

/-! ## Packed fields -/

def packed (fields : List (Nat × Nat)) : Bytes :=
  fields.flatMap fun f => leBytes f.1 f.2

def packedWidth (fields : List (Nat × Nat)) : Nat := (fields.map Prod.fst).sum

@[simp] theorem length_packed (fields : List (Nat × Nat)) :
    (packed fields).length = packedWidth fields := by
  induction fields with
  | nil => rfl
  | cons f fields ih =>
      have hcons : packed (f :: fields) = leBytes f.1 f.2 ++ packed fields := rfl
      rw [hcons, List.length_append, length_leBytes, ih]
      rfl

theorem packed_append (fields fields' : List (Nat × Nat)) :
    packed (fields ++ fields') = packed fields ++ packed fields' := by
  simp [packed]

theorem packed_cons (width n : Nat) (fields : List (Nat × Nat)) :
    packed ((width, n) :: fields) = leBytes width n ++ packed fields := rfl

theorem fieldNat_packed {fields : List (Nat × Nat)} {k width n : Nat} (rest : Bytes)
    (hfield : fields[k]? = some (width, n)) (hn : n < 256 ^ width) :
    fieldNat (packed fields ++ rest) (packedWidth (fields.take k)) width = n := by
  obtain ⟨hk, hat⟩ := List.getElem?_eq_some_iff.mp hfield
  have hsplit : fields = fields.take k ++ (width, n) :: fields.drop (k + 1) := by
    rw [← hat, ← List.drop_eq_getElem_cons hk, List.take_append_drop]
  have hread := fieldNat_append (packed (fields.take k)) (packed (fields.drop (k + 1)) ++ rest)
    width n
  rw [length_packed, Nat.mod_eq_of_lt hn] at hread
  calc
    fieldNat (packed fields ++ rest) (packedWidth (fields.take k)) width =
        fieldNat (packed (fields.take k) ++
          (leBytes width n ++ (packed (fields.drop (k + 1)) ++ rest)))
          (packedWidth (fields.take k)) width := by
      conv_lhs => rw [hsplit]
      rw [packed_append, packed_cons, List.append_assoc, List.append_assoc, ← hsplit]
    _ = n := hread

/-! ## CRC-32 -/

def crcBit (crc : BitVec 32) : BitVec 32 :=
  if crc.getLsbD 0 then (crc >>> 1) ^^^ 0xEDB88320 else crc >>> 1

def crcBits : Nat → BitVec 32 → BitVec 32
  | 0, crc => crc
  | bits + 1, crc => crcBits bits (crcBit crc)

def crcByte (crc : BitVec 32) (byte : UInt8) : BitVec 32 :=
  crcBits 8 (crc ^^^ BitVec.ofNat 32 byte.toNat)

def crc32 (bytes : Bytes) : BitVec 32 := ~~~bytes.foldl crcByte 0xFFFFFFFF

/-- The check value of the digits one to nine. -/
example : crc32 [0x31, 0x32, 0x33, 0x34, 0x35, 0x36, 0x37, 0x38, 0x39] = 0xCBF43926 := by
  decide +kernel

end BlockyOS.Foundation
