import Mathlib.Data.List.Basic
import Mathlib.Tactic.Ring

/-!
# Byte strings

Little-endian integers inside byte strings, fixed-width fields, and the slices
and splices by which a program reads and patches a buffer.
-/

namespace BlockyOS.Foundation

abbrev Bytes := List UInt8

/-! ## Little-endian integers -/

/-- The `width` low bytes of `n`, least significant first. -/
def leBytes : Nat → Nat → Bytes
  | 0, _ => []
  | width + 1, n => UInt8.ofNat n :: leBytes width (n / 256)

def leNat : Bytes → Nat
  | [] => 0
  | byte :: rest => byte.toNat + 256 * leNat rest

@[simp] theorem length_leBytes (width n : Nat) :
    (leBytes width n).length = width := by
  induction width generalizing n with
  | zero => rfl
  | succ width ih => simp [leBytes, ih]

theorem leNat_leBytes (width n : Nat) :
    leNat (leBytes width n) = n % 256 ^ width := by
  induction width generalizing n with
  | zero => simp [leBytes, leNat, Nat.mod_one]
  | succ width ih =>
      have hlow : (UInt8.ofNat n).toNat = n % 256 := by simp
      rw [leBytes, leNat, ih, hlow, Nat.pow_succ, Nat.mul_comm (256 ^ width),
        Nat.mod_mul]

theorem leNat_lt (bytes : Bytes) : leNat bytes < 256 ^ bytes.length := by
  induction bytes with
  | nil => simp [leNat]
  | cons byte rest ih =>
      have hbyte : byte.toNat < 256 := byte.toNat_lt
      simp only [leNat, List.length_cons, Nat.pow_succ]
      omega

theorem leBytes_leNat (bytes : Bytes) :
    leBytes bytes.length (leNat bytes) = bytes := by
  induction bytes with
  | nil => rfl
  | cons byte rest ih =>
      have hbyte : byte.toNat < 256 := byte.toNat_lt
      have hdiv : (byte.toNat + 256 * leNat rest) / 256 = leNat rest := by
        omega
      have hlow : UInt8.ofNat (byte.toNat + 256 * leNat rest) = byte := by
        apply UInt8.toNat.inj
        simp
      simp [leBytes, leNat, hdiv, hlow, ih]

/-! ## Slices and splices -/

section Slices

variable {α : Type}

def slice (xs : List α) (off len : Nat) : List α := (xs.drop off).take len

/-- `xs` with the elements from `off` on overwritten by `patch`. -/
def splice (xs : List α) (off : Nat) (patch : List α) : List α :=
  xs.take off ++ patch ++ xs.drop (off + patch.length)

theorem length_slice (xs : List α) {off len : Nat}
    (h : off + len ≤ xs.length) : (slice xs off len).length = len := by
  simp [slice]
  omega

theorem length_splice (xs : List α) {off : Nat} {patch : List α}
    (h : off + patch.length ≤ xs.length) :
    (splice xs off patch).length = xs.length := by
  simp [splice]
  omega

theorem getElem?_slice (xs : List α) (off len k : Nat) :
    (slice xs off len)[k]? = if k < len then xs[off + k]? else none := by
  simp [slice, List.getElem?_take, List.getElem?_drop]

theorem getElem?_splice (xs : List α) {off : Nat} {patch : List α}
    (h : off + patch.length ≤ xs.length) (k : Nat) :
    (splice xs off patch)[k]? =
      if off ≤ k ∧ k < off + patch.length then patch[k - off]? else xs[k]? := by
  have htake : (xs.take off).length = off := by simp; omega
  unfold splice
  split
  case isTrue hk =>
    rw [List.append_assoc, List.getElem?_append_right (by omega), htake,
      List.getElem?_append_left (by omega)]
  case isFalse hk =>
    by_cases hlow : k < off
    · rw [List.append_assoc, List.getElem?_append_left (by omega),
        List.getElem?_take_of_lt hlow]
    · rw [List.getElem?_append_right (by simp; omega), List.getElem?_drop]
      congr 1
      simp
      omega

theorem slice_splice_inside (xs : List α) {off : Nat} {patch : List α}
    (h : off + patch.length ≤ xs.length) {k len : Nat}
    (hk : k + len ≤ patch.length) :
    slice (splice xs off patch) (off + k) len = slice patch k len := by
  apply List.ext_getElem?
  intro i
  rw [getElem?_slice, getElem?_slice, getElem?_splice xs h]
  split
  case isTrue hi =>
    rw [if_pos (by omega)]
    congr 1
    omega
  case isFalse => rfl

theorem slice_splice_outside (xs : List α) {off : Nat} {patch : List α}
    (h : off + patch.length ≤ xs.length) {k len : Nat}
    (hk : k + len ≤ off ∨ off + patch.length ≤ k) :
    slice (splice xs off patch) k len = slice xs k len := by
  apply List.ext_getElem?
  intro i
  rw [getElem?_slice, getElem?_slice, getElem?_splice xs h]
  split
  case isTrue hi => rw [if_neg (by omega)]
  case isFalse => rfl

theorem slice_append_left (xs ys : List α) {off len : Nat}
    (h : off + len ≤ xs.length) :
    slice (xs ++ ys) off len = slice xs off len := by
  apply List.ext_getElem?
  intro i
  rw [getElem?_slice, getElem?_slice]
  split
  case isTrue hi => rw [List.getElem?_append_left (by omega)]
  case isFalse => rfl

theorem slice_append_right (xs ys : List α) (k len : Nat) :
    slice (xs ++ ys) (xs.length + k) len = slice ys k len := by
  have hdrop : xs.drop (xs.length + k) = [] :=
    List.drop_eq_nil_of_le (Nat.le_add_right _ _)
  simp [slice, List.drop_append, hdrop]

theorem slice_slice (xs : List α) (off len k n : Nat) (h : k + n ≤ len) :
    slice (slice xs off len) k n = slice xs (off + k) n := by
  apply List.ext_getElem?
  intro i
  rw [getElem?_slice, getElem?_slice, getElem?_slice]
  split
  case isTrue hi => rw [if_pos (by omega), Nat.add_assoc]
  case isFalse => rfl

@[simp] theorem slice_full (xs : List α) : slice xs 0 xs.length = xs := by
  simp [slice]

theorem splice_eq_self_iff {xs : List α} {off : Nat} {patch : List α}
    (h : off + patch.length ≤ xs.length) :
    splice xs off patch = xs ↔ slice xs off patch.length = patch := by
  constructor
  · intro heq
    have hinside := @slice_splice_inside _ xs off patch h 0 patch.length (by omega)
    rwa [heq, Nat.add_zero, slice_full] at hinside
  · intro hslice
    apply List.ext_getElem?
    intro k
    rw [getElem?_splice xs h]
    split
    case isTrue hk =>
      have hat := getElem?_slice xs off patch.length (k - off)
      rw [hslice, if_pos (by omega)] at hat
      rw [hat]
      congr 1
      omega
    case isFalse => rfl

end Slices

/-! ## Zero padding and fixed-width fields -/

def zeros (n : Nat) : Bytes := List.replicate n 0

@[simp] theorem length_zeros (n : Nat) : (zeros n).length = n := by
  simp [zeros]

/-- The first `n` bytes, zero-filled when there are fewer. -/
def padTo (n : Nat) (bytes : Bytes) : Bytes :=
  bytes.take n ++ zeros (n - bytes.length)

@[simp] theorem length_padTo (n : Nat) (bytes : Bytes) :
    (padTo n bytes).length = n := by
  simp [padTo]
  omega

theorem padTo_of_length {n : Nat} {bytes : Bytes} (h : bytes.length = n) :
    padTo n bytes = bytes := by
  simp [padTo, zeros, ← h]

theorem padTo_of_le {n : Nat} {bytes : Bytes} (h : bytes.length ≤ n) :
    padTo n bytes = bytes ++ zeros (n - bytes.length) := by
  rw [padTo, List.take_of_length_le h]

@[simp] theorem take_zeros (k n : Nat) : (zeros n).take k = zeros (min k n) := by
  simp [zeros]

@[simp] theorem padTo_zeros (n m : Nat) : padTo n (zeros m) = zeros n := by
  rw [padTo, take_zeros, length_zeros, zeros, zeros, zeros, List.replicate_append_replicate]
  congr 1
  omega

theorem getElem?_zeros {n k : Nat} (h : k < n) : (zeros n)[k]? = some 0 := by
  simp [zeros, h]

theorem getElem?_padTo_take {n m k : Nat} {bytes : Bytes} (hm : m ≤ n)
    (hlen : m ≤ bytes.length) (hk : k < m) :
    (padTo n (bytes.take m))[k]? = bytes[k]? := by
  have htake : ((bytes.take m).take n).length = m := by
    rw [List.length_take, List.length_take]
    omega
  rw [padTo, List.getElem?_append_left (by omega), List.getElem?_take_of_lt (by omega),
    List.getElem?_take_of_lt hk]

theorem getElem?_padTo_take_rest {n m k : Nat} {bytes : Bytes} (hlen : m ≤ bytes.length)
    (hlow : m ≤ k) (hhigh : k < n) : (padTo n (bytes.take m))[k]? = some 0 := by
  have htake : (bytes.take m).length = m := List.length_take_of_le hlen
  rw [padTo_of_le (by omega), List.getElem?_append_right (by omega), htake,
    getElem?_zeros (by omega)]

/-- The `width` bytes of a record at `off`. -/
def field (bytes : Bytes) (off width : Nat) : Bytes :=
  padTo width (slice bytes off width)

@[simp] theorem length_field (bytes : Bytes) (off width : Nat) :
    (field bytes off width).length = width := by
  simp [field]

theorem field_eq_slice {bytes : Bytes} {off width : Nat}
    (h : off + width ≤ bytes.length) :
    field bytes off width = slice bytes off width :=
  padTo_of_length (length_slice bytes h)

def fieldNat (bytes : Bytes) (off width : Nat) : Nat :=
  leNat (field bytes off width)

@[simp] theorem leNat_zeros (n : Nat) : leNat (zeros n) = 0 := by
  induction n with
  | zero => rfl
  | succ n ih =>
      have hcons : zeros (n + 1) = 0 :: zeros n := rfl
      rw [hcons, leNat, ih]
      rfl

theorem slice_zeros (n off len : Nat) : slice (zeros n) off len = zeros (min len (n - off)) := by
  rw [slice, zeros, List.drop_replicate, List.take_replicate, zeros]

@[simp] theorem fieldNat_zeros (n off width : Nat) : fieldNat (zeros n) off width = 0 := by
  rw [fieldNat, field, slice_zeros, padTo_zeros, leNat_zeros]

theorem fieldNat_append (before after : Bytes) (width n : Nat) :
    fieldNat (before ++ (leBytes width n ++ after)) before.length width =
      n % 256 ^ width := by
  have hslice : slice (before ++ (leBytes width n ++ after)) before.length width =
      leBytes width n := by
    have hright := slice_append_right before (leBytes width n ++ after) 0 width
    rw [Nat.add_zero] at hright
    rw [hright, slice_append_left _ _ (by simp)]
    simpa using slice_full (leBytes width n)
  rw [fieldNat, field, hslice, padTo_of_length (length_leBytes width n),
    leNat_leBytes]

theorem fieldNat_slice (bytes : Bytes) {off len k width : Nat} (h : k + width ≤ len) :
    fieldNat (slice bytes off len) k width = fieldNat bytes (off + k) width := by
  rw [fieldNat, fieldNat, field, field, slice_slice bytes _ _ _ _ h]

theorem fieldNat_lt (bytes : Bytes) (off width : Nat) :
    fieldNat bytes off width < 256 ^ width := by
  simpa [fieldNat] using leNat_lt (field bytes off width)

end BlockyOS.Foundation
