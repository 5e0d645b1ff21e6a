import BlockyOS.Foundation.Bytes

/-!
# Arrays of fixed-width records

A codec writes every value of a type in the same number of bytes and reads it
back.  A buffer is then an array of records: `get` and `put` address the record
at an index, and satisfy the array laws as long as the record lies inside the
buffer.
-/

namespace BlockyOS.Foundation

structure Codec (α : Type) where
  width : Nat
  encode : α → Bytes
  decode : Bytes → α
  length_encode : ∀ a, (encode a).length = width
  decode_encode : ∀ a, decode (encode a) = a

namespace Codec

variable {α : Type} (codec : Codec α)

def get (bytes : Bytes) (k : Nat) : α :=
  codec.decode (slice bytes (codec.width * k) codec.width)

def put (bytes : Bytes) (k : Nat) (a : α) : Bytes :=
  splice bytes (codec.width * k) (codec.encode a)

def getAll (bytes : Bytes) (count : Nat) : List α :=
  (List.range count).map (codec.get bytes)

def encodeAll (xs : List α) : Bytes := xs.flatMap codec.encode

/-- Record `k` lies inside the buffer. -/
def Inside (bytes : Bytes) (k : Nat) : Prop :=
  codec.width * k + codec.width ≤ bytes.length

instance (bytes : Bytes) (k : Nat) : Decidable (codec.Inside bytes k) :=
  inferInstanceAs (Decidable (_ ≤ _))

theorem length_put {bytes : Bytes} {k : Nat} (hk : codec.Inside bytes k) (a : α) :
    (codec.put bytes k a).length = bytes.length :=
  length_splice bytes (by rw [codec.length_encode]; exact hk)

theorem get_put_same {bytes : Bytes} {k : Nat} (hk : codec.Inside bytes k) (a : α) :
    codec.get (codec.put bytes k a) k = a := by
  have hpatch : codec.width * k + (codec.encode a).length ≤ bytes.length := by
    rw [codec.length_encode]
    exact hk
  have hinside := @slice_splice_inside _ bytes _ _ hpatch 0 codec.width
      (by rw [codec.length_encode]; omega)
  rw [Nat.add_zero] at hinside
  rw [get, put, hinside]
  have hfull := slice_full (codec.encode a)
  rw [codec.length_encode] at hfull
  rw [hfull, codec.decode_encode]

theorem get_put_other {bytes : Bytes} {k j : Nat} (hk : codec.Inside bytes k)
    (hj : j ≠ k) (a : α) :
    codec.get (codec.put bytes k a) j = codec.get bytes j := by
  have hpatch : codec.width * k + (codec.encode a).length ≤ bytes.length := by
    rw [codec.length_encode]
    exact hk
  have hapart : codec.width * j + codec.width ≤ codec.width * k ∨
      codec.width * k + (codec.encode a).length ≤ codec.width * j := by
    rw [codec.length_encode]
    rcases Nat.lt_or_gt_of_ne hj with hlt | hgt
    · exact .inl (Nat.mul_le_mul_left codec.width hlt)
    · exact .inr (Nat.mul_le_mul_left codec.width hgt)
  rw [get, put, slice_splice_outside bytes hpatch hapart, get]

@[simp] theorem length_encodeAll (xs : List α) :
    (codec.encodeAll xs).length = codec.width * xs.length := by
  induction xs with
  | nil => simp [encodeAll]
  | cons x xs ih =>
      simp only [encodeAll, List.flatMap_cons, List.length_append,
        codec.length_encode, List.length_cons] at ih ⊢
      rw [ih]
      ring

@[simp] theorem length_getAll (bytes : Bytes) (count : Nat) :
    (codec.getAll bytes count).length = count := by
  simp [getAll]

theorem getAll_encodeAll (xs : List α) (rest : Bytes) :
    codec.getAll (codec.encodeAll xs ++ rest) xs.length = xs := by
  induction xs with
  | nil => rfl
  | cons x xs ih =>
      have hsplit : codec.encodeAll (x :: xs) ++ rest =
          codec.encode x ++ (codec.encodeAll xs ++ rest) := by
        simp [encodeAll]
      have hhead : codec.get (codec.encodeAll (x :: xs) ++ rest) 0 = x := by
        have hfull := slice_full (codec.encode x)
        rw [codec.length_encode] at hfull
        rw [hsplit, get, Nat.mul_zero,
          slice_append_left _ _ (by rw [codec.length_encode]; omega), hfull,
          codec.decode_encode]
      have htail : ∀ k, codec.get (codec.encodeAll (x :: xs) ++ rest) (k + 1) =
          codec.get (codec.encodeAll xs ++ rest) k := by
        intro k
        have hoff : codec.width * (k + 1) = (codec.encode x).length + codec.width * k := by
          rw [codec.length_encode]
          ring
        rw [hsplit, get, hoff, slice_append_right, get]
      rw [getAll, List.length_cons, List.range_succ_eq_map, List.map_cons, hhead,
        List.map_map]
      congr 1
      calc
        List.map (codec.get (codec.encodeAll (x :: xs) ++ rest) ∘ Nat.succ)
            (List.range xs.length) =
            List.map (codec.get (codec.encodeAll xs ++ rest))
              (List.range xs.length) :=
          List.map_congr_left fun k _ => htail k
        _ = xs := ih

end Codec

end BlockyOS.Foundation
