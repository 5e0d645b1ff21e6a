import BlockyOS.Foundation.Bytes

/-!
# Seekable byte images

A random-access file: a size and the byte at each position, zero past the end.
A write past the end grows the image and leaves a hole of zeros; a read
succeeds only when every byte it asks for exists.
-/

namespace BlockyOS.Foundation

@[ext]
structure Image where
  size : Nat
  byte : Nat → UInt8
  beyond : ∀ x, size ≤ x → byte x = 0

namespace Image

def blank (size : Nat) : Image := ⟨size, fun _ => 0, fun _ _ => rfl⟩

/-- Overwrite `data.length` bytes from `off` on, growing the image if needed. -/
def write (img : Image) (off : Nat) (data : Bytes) : Image where
  size := if data.length = 0 then img.size else max img.size (off + data.length)
  byte x :=
    if off ≤ x ∧ x < off + data.length then data.getD (x - off) 0
    else img.byte x
  beyond x hx := by
    split at hx
    case isTrue hempty =>
      rw [if_neg (by omega)]
      exact img.beyond x hx
    case isFalse =>
      rw [if_neg (by omega)]
      exact img.beyond x (by omega)

/-- The bytes at `[off, off + len)`, whatever the size. -/
def window (img : Image) (off len : Nat) : Bytes :=
  (List.range len).map fun k => img.byte (off + k)

/-- The `len` bytes from `off` on, when all of them exist. -/
def read (img : Image) (off len : Nat) : Option Bytes :=
  if len = 0 ∨ off + len ≤ img.size then some (img.window off len) else none

@[simp] theorem length_window (img : Image) (off len : Nat) :
    (img.window off len).length = len := by
  simp [window]

theorem getElem?_window (img : Image) (off len k : Nat) :
    (img.window off len)[k]? = if k < len then some (img.byte (off + k)) else none := by
  unfold window
  split
  case isTrue hk => simp [hk]
  case isFalse hk => simp [hk]

theorem read_eq_some_iff (img : Image) (off len : Nat) (bytes : Bytes) :
    img.read off len = some bytes ↔
      (len = 0 ∨ off + len ≤ img.size) ∧ img.window off len = bytes := by
  unfold read
  split
  case isTrue h => simp [h]
  case isFalse h => simp [h]

theorem read_of_le {img : Image} {off len : Nat} (h : off + len ≤ img.size) :
    img.read off len = some (img.window off len) :=
  (read_eq_some_iff img off len _).mpr ⟨.inr h, rfl⟩

theorem window_congr {img img' : Image} {off len : Nat}
    (h : ∀ x, off ≤ x → x < off + len → img'.byte x = img.byte x) :
    img'.window off len = img.window off len := by
  apply List.ext_getElem?
  intro k
  rw [getElem?_window, getElem?_window]
  split
  case isTrue hk => rw [h _ (by omega) (by omega)]
  case isFalse => rfl

theorem slice_window (img : Image) {off len k n : Nat} (h : k + n ≤ len) :
    slice (img.window off len) k n = img.window (off + k) n := by
  apply List.ext_getElem?
  intro i
  rw [getElem?_slice, getElem?_window, getElem?_window]
  split
  case isTrue hi => rw [if_pos (by omega), Nat.add_assoc]
  case isFalse => rfl

/-! ## Writing -/

theorem write_byte_inside (img : Image) {off : Nat} {data : Bytes} {k : Nat}
    (hk : k < data.length) :
    (img.write off data).byte (off + k) = data[k] := by
  simp [write, hk, List.getD]

theorem write_byte_outside (img : Image) {off : Nat} {data : Bytes} {x : Nat}
    (hx : x < off ∨ off + data.length ≤ x) :
    (img.write off data).byte x = img.byte x := by
  simp only [write]
  rw [if_neg (by omega)]

theorem size_le_write (img : Image) (off : Nat) (data : Bytes) :
    img.size ≤ (img.write off data).size := by
  simp only [write]
  split <;> omega

theorem end_le_write (img : Image) {off : Nat} {data : Bytes}
    (h : data.length ≠ 0) : off + data.length ≤ (img.write off data).size := by
  simp only [write, if_neg h]
  omega

theorem size_write_of_le (img : Image) {off : Nat} {data : Bytes}
    (h : off + data.length ≤ img.size) : (img.write off data).size = img.size := by
  simp only [write]
  split <;> omega

theorem window_write_same (img : Image) (off : Nat) (data : Bytes) :
    (img.write off data).window off data.length = data := by
  apply List.ext_getElem?
  intro k
  rw [getElem?_window]
  split
  case isTrue hk => rw [write_byte_inside img hk, List.getElem?_eq_getElem hk]
  case isFalse hk => rw [List.getElem?_eq_none (by omega)]

theorem window_write_disjoint (img : Image) {off : Nat} {data : Bytes} {o len : Nat}
    (h : o + len ≤ off ∨ off + data.length ≤ o) :
    (img.write off data).window o len = img.window o len :=
  window_congr fun x hlow hhigh => write_byte_outside img (by omega)

theorem write_eq_self_iff {img : Image} {off : Nat} {data : Bytes}
    (h : off + data.length ≤ img.size) :
    img.write off data = img ↔ img.window off data.length = data := by
  constructor
  · intro heq
    have hsame := window_write_same img off data
    rwa [heq] at hsame
  · intro hwindow
    apply Image.ext
    · exact size_write_of_le img h
    · funext x
      by_cases hx : off ≤ x ∧ x < off + data.length
      · obtain ⟨k, rfl⟩ := Nat.exists_eq_add_of_le hx.1
        have hk : k < data.length := by omega
        have hat := getElem?_window img off data.length k
        rw [hwindow, if_pos hk, List.getElem?_eq_getElem hk] at hat
        rw [write_byte_inside img hk, Option.some.inj hat]
      · exact write_byte_outside img (by omega)

theorem read_write_same (img : Image) {off : Nat} {data : Bytes} :
    (img.write off data).read off data.length = some data := by
  rw [read_eq_some_iff]
  refine ⟨?_, window_write_same img off data⟩
  by_cases h : data.length = 0
  · exact .inl h
  · exact .inr (end_le_write img h)

theorem read_write_prefix (img : Image) (off : Nat) (data : Bytes) {len : Nat}
    (h : len ≤ data.length) :
    (img.write off data).read off len = some (data.take len) := by
  rw [read_eq_some_iff]
  constructor
  · by_cases hempty : data.length = 0
    · exact .inl (by omega)
    · have hend := @end_le_write img off data hempty
      exact .inr (by omega)
  · have hslice := @slice_window (img.write off data) off data.length 0 len (by omega)
    rw [Nat.add_zero, window_write_same, slice, List.drop_zero] at hslice
    exact hslice.symm

theorem read_write_disjoint {img : Image} {off : Nat} {data : Bytes} {o len : Nat}
    {bytes : Bytes} (h : o + len ≤ off ∨ off + data.length ≤ o)
    (hread : img.read o len = some bytes) :
    (img.write off data).read o len = some bytes := by
  rw [read_eq_some_iff] at hread ⊢
  rw [window_write_disjoint img h]
  have := size_le_write img off data
  exact ⟨by omega, hread.2⟩

theorem write_comm (img : Image) {off off' : Nat} {data data' : Bytes}
    (h : off + data.length ≤ off' ∨ off' + data'.length ≤ off) :
    (img.write off data).write off' data' = (img.write off' data').write off data := by
  apply Image.ext
  · simp only [write]
    split_ifs <;> omega
  · funext x
    by_cases hfirst : off ≤ x ∧ x < off + data.length
    · obtain ⟨k, rfl⟩ := Nat.exists_eq_add_of_le hfirst.1
      have hk : k < data.length := by omega
      rw [write_byte_outside _ (by omega), write_byte_inside _ hk, write_byte_inside _ hk]
    · by_cases hsecond : off' ≤ x ∧ x < off' + data'.length
      · obtain ⟨k, rfl⟩ := Nat.exists_eq_add_of_le hsecond.1
        have hk : k < data'.length := by omega
        rw [write_byte_inside _ hk, write_byte_outside _ (by omega), write_byte_inside _ hk]
      · rw [write_byte_outside _ (by omega), write_byte_outside _ (by omega),
          write_byte_outside _ (by omega), write_byte_outside _ (by omega)]

end Image

end BlockyOS.Foundation
