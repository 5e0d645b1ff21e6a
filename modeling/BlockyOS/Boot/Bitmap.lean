import BlockyOS.Foundation.Loops
import BlockyOS.Foundation.Words
import BlockyOS.HostTool.Raw
import BlockyOS.Loader.Sections

/-!
# Loading a bitmap

`OpenBMP` reads the payload that the header's size asks for, and
`FormatBMPImageData` converts it row by row.  Strides, sizes and offsets are
products of 32 bits, in the one function and in the other.
-/

namespace BlockyOS.Boot

open BlockyOS.Foundation
open BlockyOS.HostTool (Fault)
open BlockyOS.Loader (readSocket)

/-! ## The header -/

def sizeofBMPHeader : Nat := 14

def sizeofBITMAPV5HEADER : Nat := 120

structure BMPHeader where
  imageDataOffset : Nat
  width : Nat
  /-- The 32 bits of the signed height. -/
  height : Nat
  bitCount : Nat
  deriving DecidableEq, Repr

/-- The fields of the headers that the switch knows; for any other, nothing is set. -/
def decodeHeader (bytes : Bytes) : BMPHeader :=
  let imageDataOffset := fieldNat bytes 10 4
  let bcSize := fieldNat bytes 14 4
  if bcSize = 0x0C then
    ⟨imageDataOffset, fieldNat bytes 18 2, fieldNat bytes 20 2, fieldNat bytes 24 2⟩
  else if bcSize = 0x28 ∨ bcSize = 0x6C ∨ bcSize = 0x7C then
    ⟨imageDataOffset, fieldNat bytes 18 4, fieldNat bytes 22 4, fieldNat bytes 28 2⟩
  else ⟨imageDataOffset, 0, 0, 0⟩

namespace BMPHeader

variable (header : BMPHeader)

/-- `Height` is negative as a signed integer. -/
def TopDown : Prop := 2 ^ 31 ≤ header.height

instance : Decidable header.TopDown := inferInstanceAs (Decidable (_ ≤ _))

def absHeight : Nat := if header.TopDown then u32 (2 ^ 32 - header.height) else header.height

/-- `__roundup(bits, 8) / 8`. -/
def pixelSize : Nat := (header.bitCount + 7) / 8

/-- `(width * bpp + 3) & ~3`. -/
def rowStride : Nat := u32 (header.width * header.pixelSize + 3) / 4 * 4

def totalBytes : Nat := u32 (header.rowStride * header.absHeight)

end BMPHeader

/-! ## The conversion -/

inductive PixelFormat where
  | redGreenBlueReserved
  | blueGreenRedReserved
  deriving DecidableEq, Repr

structure Channels where
  r : UInt8
  g : UInt8
  b : UInt8
  a : UInt8
  deriving DecidableEq, Repr

def packPixel (format : PixelFormat) (c : Channels) : UInt32 :=
  match format with
  | .redGreenBlueReserved =>
      (c.a.toUInt32 <<< 24) ||| (c.b.toUInt32 <<< 16) ||| (c.g.toUInt32 <<< 8) ||| c.r.toUInt32
  | .blueGreenRedReserved =>
      (c.a.toUInt32 <<< 24) ||| (c.r.toUInt32 <<< 16) ||| (c.g.toUInt32 <<< 8) ||| c.b.toUInt32

def loadByte (srcBytes : Bytes) (i : Nat) : Except Fault UInt8 :=
  (srcBytes[i]?).elim (.error .outOfBounds) .ok

/-- The channels of pixel `x` in the row that starts at `srcRow`. -/
def loadPixel (srcBytes : Bytes) (bpp srcRow x : Nat) : Except Fault Channels :=
  if bpp = 3 then do
    let b ← loadByte srcBytes (srcRow + u32 (x * 3))
    let g ← loadByte srcBytes (srcRow + u32 (x * 3 + 1))
    let r ← loadByte srcBytes (srcRow + u32 (x * 3 + 2))
    .ok ⟨r, g, b, 0xFF⟩
  else if bpp = 4 then do
    let b ← loadByte srcBytes (srcRow + u32 (x * 4))
    let g ← loadByte srcBytes (srcRow + u32 (x * 4 + 1))
    let r ← loadByte srcBytes (srcRow + u32 (x * 4 + 2))
    let a ← loadByte srcBytes (srcRow + u32 (x * 4 + 3))
    .ok ⟨r, g, b, a⟩
  else if bpp = 1 then do
    let v ← loadByte srcBytes (srcRow + x)
    .ok ⟨v, v, v, 0xFF⟩
  else .ok ⟨0, 0, 0, 0xFF⟩

def storePixel (formattedData : List UInt32) (i : Nat) (pixel : UInt32) :
    Except Fault (List UInt32) :=
  if i < formattedData.length then .ok (formattedData.set i pixel) else .error .outOfBounds

section Conversion

variable (format : PixelFormat) (header : BMPHeader) (srcBytes : Bytes)

/-- The row of the payload that holds display row `y`. -/
def sourceRow (y : Nat) : Nat :=
  if header.TopDown then y else header.absHeight - 1 - y

def formatPixel (y x : Nat) (formattedData : List UInt32) : Except Fault (List UInt32) := do
  let channels ← loadPixel srcBytes header.pixelSize
    (u32 (sourceRow header y * header.rowStride)) x
  storePixel formattedData (u32 (y * header.width) + x) (packPixel format channels)

def formatRow (y : Nat) : List UInt32 → Except Fault (List UInt32) :=
  loop (formatPixel format header srcBytes y) header.width 0

/-- `FormatBMPImageData`: the converted pixels, where it gets to convert any. -/
def formatBMPImageData : Option Bytes → Except Fault (Option (List UInt32))
  | none => .ok none
  | some srcBytes =>
      if header.width = 0 ∨ header.height = 0 then .ok none
      else
        let pixels := u32 (header.width * header.absHeight)
        -- an allocation of nothing fails
        if pixels = 0 then .ok none
        else (loop (formatRow format header srcBytes) header.absHeight 0
          (List.replicate pixels 0)).map some

end Conversion

/--
`OpenBMP`, up to what it keeps besides the pixels.  The size that the header gives for itself
is what is copied out of the bytes that were read of it.
-/
def openBMP (file : Bytes) (format : PixelFormat) : Except Fault (Option (List UInt32)) :=
  match readSocket file 0 (sizeofBMPHeader + sizeofBITMAPV5HEADER) with
  | none => .ok none
  | some bytes =>
      if slice bytes 0 2 = [66, 77] then
        if sizeofBITMAPV5HEADER < fieldNat bytes 14 4 then .error .outOfBounds
        else
          let header := decodeHeader bytes
          formatBMPImageData format header
            (readSocket file header.imageDataOffset header.totalBytes)
      else .ok none

/-! ## What the loading is for -/

/-- The row of the file that holds display row `y`. -/
def fileRow (header : BMPHeader) (y : Nat) : Nat :=
  if header.TopDown then y else header.absHeight - 1 - y

def fileStride (header : BMPHeader) : Nat := (header.width * header.bitCount + 31) / 32 * 4

section FilePixels

variable (file : Bytes)

/-- `bcSize`, what kind of header there is. -/
def headerSize : Nat := fieldNat file 14 4

/-- `biCompression`; the smallest header has none. -/
def compression : Nat := if headerSize file = 0x0C then 0 else fieldNat file 30 4

def paletteColour (bitCount index : Nat) : Option Channels :=
  let size := if headerSize file = 0x0C then 3 else 4
  let used := if headerSize file = 0x0C then 0 else fieldNat file 46 4
  let entry := sizeofBMPHeader + headerSize file + size * index
  if index < (if used = 0 then 2 ^ bitCount else used) ∧ entry + size ≤ file.length then
    some ⟨file.getD (entry + 2) 0, file.getD (entry + 1) 0, file.getD entry 0, 0xFF⟩
  else none

def maskedChannel (bits mask : Nat) : UInt8 := UInt8.ofNat ((bits &&& mask) * 255 / mask)

/--
The channels of the file pixel in column `x` and row `row`: an index of the colour table, five
bits a channel, a byte a channel, or what the masks of the header select.  An image that is
compressed has none.
-/
def filePixel (header : BMPHeader) (x row : Nat) : Option Channels :=
  let start := header.imageDataOffset + row * fileStride header
  let byte := fun i => file.getD (start + i) 0
  if file.length < start + fileStride header then none
  else if compression file = 0 then
    if header.bitCount = 1 ∨ header.bitCount = 4 ∨ header.bitCount = 8 then
      paletteColour file header.bitCount ((byte (x * header.bitCount / 8)).toNat /
        2 ^ (8 - header.bitCount - x * header.bitCount % 8) % 2 ^ header.bitCount)
    else if header.bitCount = 16 then
      let bits := (byte (2 * x)).toNat + 256 * (byte (2 * x + 1)).toNat
      some ⟨maskedChannel bits 0x7C00, maskedChannel bits 0x3E0, maskedChannel bits 0x1F, 0xFF⟩
    else if header.bitCount = 24 then
      some ⟨byte (3 * x + 2), byte (3 * x + 1), byte (3 * x), 0xFF⟩
    else if header.bitCount = 32 then
      some ⟨byte (4 * x + 2), byte (4 * x + 1), byte (4 * x), byte (4 * x + 3)⟩
    else none
  else if compression file = 3 then
    let masked := fun bits alpha => some ⟨maskedChannel bits (fieldNat file 54 4),
      maskedChannel bits (fieldNat file 58 4), maskedChannel bits (fieldNat file 62 4), alpha⟩
    if header.bitCount = 16 then
      masked ((byte (2 * x)).toNat + 256 * (byte (2 * x + 1)).toNat) 0xFF
    else if header.bitCount = 32 then
      masked (leNat [byte (4 * x), byte (4 * x + 1), byte (4 * x + 2), byte (4 * x + 3)])
        (byte (4 * x + 3))
    else none
  else none

def bytePixel (header : BMPHeader) (x row : Nat) : Channels :=
  let byte := fun i => file.getD (header.imageDataOffset + row * header.rowStride + i) 0
  if header.pixelSize = 3 then ⟨byte (3 * x + 2), byte (3 * x + 1), byte (3 * x), 0xFF⟩
  else if header.pixelSize = 4 then
    ⟨byte (4 * x + 2), byte (4 * x + 1), byte (4 * x), byte (4 * x + 3)⟩
  else if header.pixelSize = 1 then ⟨byte x, byte x, byte x, 0xFF⟩
  else ⟨0, 0, 0, 0xFF⟩

end FilePixels

/-- Pixel `(x, y)` of the output is the file pixel at that place, in the order asked for. -/
def OutputRight (file : Bytes) (header : BMPHeader) (format : PixelFormat)
    (pixels : List UInt32) : Prop :=
  ∀ x y, x < header.width → y < header.absHeight →
    ∃ channels, filePixel file header x (fileRow header y) = some channels ∧
      pixels[y * header.width + x]? = some (packPixel format channels)

/-- `OpenBMP` takes the file for a bitmap. -/
structure Opens (file : Bytes) : Prop where
  size : sizeofBMPHeader + sizeofBITMAPV5HEADER ≤ file.length
  magic : slice file 0 2 = [66, 77]

/-- `OpenBMP` gets to convert the image. -/
structure Converts (file : Bytes) (header : BMPHeader) : Prop extends Opens file where
  payload : header.totalBytes ≠ 0 ∧ header.imageDataOffset + header.totalBytes ≤ file.length
  pixels : u32 (header.width * header.absHeight) ≠ 0

/-- The loading stays inside the payload and the output, and a picture is that of the file. -/
def LoadsRight (file : Bytes) (format : PixelFormat) : Prop :=
  ∃ out, openBMP file format = .ok out ∧
    ∀ pixels, out = some pixels → OutputRight file (decodeHeader file) format pixels

def ReadsBytes (header : BMPHeader) : Prop :=
  header.pixelSize = 1 ∨ header.pixelSize = 3 ∨ header.pixelSize = 4

/-- The products fit into 32 bits. -/
structure SizesFit (header : BMPHeader) : Prop where
  pixels : header.width * header.absHeight < 2 ^ 32
  row : ReadsBytes header → header.width * header.pixelSize + 3 < 2 ^ 32
  total : ReadsBytes header → header.rowStride * header.absHeight < 2 ^ 32

/-- The bytes of each pixel are its colour. -/
def ColoursFit (file : Bytes) (header : BMPHeader) : Prop :=
  ∀ x row, x < header.width → row < header.absHeight →
    filePixel file header x row = some (bytePixel file header x row)

/-! ## What is read of the file -/

theorem decodeHeader_slice (file : Bytes) :
    decodeHeader (slice file 0 (sizeofBMPHeader + sizeofBITMAPV5HEADER)) = decodeHeader file := by
  have hfield : ∀ {k width : Nat}, k + width ≤ sizeofBMPHeader + sizeofBITMAPV5HEADER →
      fieldNat (slice file 0 (sizeofBMPHeader + sizeofBITMAPV5HEADER)) k width =
        fieldNat file k width := by
    intro k width hk
    rw [fieldNat_slice file hk, Nat.zero_add]
  simp only [decodeHeader, sizeofBMPHeader, sizeofBITMAPV5HEADER] at hfield ⊢
  simp only [hfield (show 10 + 4 ≤ 14 + 120 by decide), hfield (show 14 + 4 ≤ 14 + 120 by decide),
    hfield (show 18 + 2 ≤ 14 + 120 by decide), hfield (show 20 + 2 ≤ 14 + 120 by decide),
    hfield (show 24 + 2 ≤ 14 + 120 by decide), hfield (show 18 + 4 ≤ 14 + 120 by decide),
    hfield (show 22 + 4 ≤ 14 + 120 by decide), hfield (show 28 + 2 ≤ 14 + 120 by decide)]

theorem width_lt (file : Bytes) : (decodeHeader file).width < 2 ^ 32 := by
  have h2 := fieldNat_lt file 18 2
  have h4 := fieldNat_lt file 18 4
  simp only [decodeHeader]
  split
  · dsimp only
    omega
  · split
    · dsimp only
      omega
    · exact Nat.two_pow_pos 32

theorem formatBMPImageData_some {format : PixelFormat} {header : BMPHeader} {srcBytes : Bytes} :
    formatBMPImageData format header (some srcBytes) =
      if u32 (header.width * header.absHeight) = 0 then .ok none
      else (loop (formatRow format header srcBytes) header.absHeight 0
        (List.replicate (u32 (header.width * header.absHeight)) 0)).map some := by
  rw [formatBMPImageData]
  by_cases hempty : header.width = 0 ∨ header.height = 0
  · have hpixels : header.width * header.absHeight = 0 := by
      rcases hempty with hwidth | hheight
      · rw [hwidth, Nat.zero_mul]
      · have hup : ¬ header.TopDown := by simp [BMPHeader.TopDown, hheight]
        rw [BMPHeader.absHeight, if_neg hup, hheight, Nat.mul_zero]
    rw [if_pos hempty, hpixels]
    rfl
  · rw [if_neg hempty]

section Opening

variable {file : Bytes} {format : PixelFormat}

theorem headerSize_slice (file : Bytes) :
    fieldNat (slice file 0 (sizeofBMPHeader + sizeofBITMAPV5HEADER)) 14 4 = headerSize file := by
  rw [fieldNat_slice file (by decide), Nat.zero_add, headerSize]

theorem openBMP_eq (h : Opens file) :
    openBMP file format =
      if sizeofBITMAPV5HEADER < headerSize file then .error .outOfBounds
      else formatBMPImageData format (decodeHeader file)
        (readSocket file (decodeHeader file).imageDataOffset (decodeHeader file).totalBytes) := by
  have hread := BlockyOS.Loader.readSocket_eq_some_iff.mpr
    ⟨show sizeofBMPHeader + sizeofBITMAPV5HEADER ≠ 0 by decide, by
      rw [Nat.zero_add]
      exact h.size, (rfl : slice file 0 (sizeofBMPHeader + sizeofBITMAPV5HEADER) = _)⟩
  rw [openBMP, hread]
  dsimp only
  rw [decodeHeader_slice, headerSize_slice, slice_slice file 0 _ 0 2 (by decide), Nat.add_zero,
    if_pos h.magic]

theorem openBMP_of_not_opens (h : ¬ Opens file) : openBMP file format = .ok none := by
  rw [openBMP]
  cases hread : readSocket file 0 (sizeofBMPHeader + sizeofBITMAPV5HEADER) with
  | none => rfl
  | some bytes =>
      obtain ⟨-, hsize, rfl⟩ := BlockyOS.Loader.readSocket_eq_some_iff.mp hread
      rw [Nat.zero_add] at hsize
      dsimp only
      rw [slice_slice file 0 _ 0 2 (by decide), Nat.add_zero,
        if_neg fun hmagic => h ⟨hsize, hmagic⟩]

variable (hinside : headerSize file ≤ sizeofBITMAPV5HEADER)

include hinside

theorem openBMP_of_converts (h : Converts file (decodeHeader file)) :
    openBMP file format =
      (loop (formatRow format (decodeHeader file)
          (slice file (decodeHeader file).imageDataOffset (decodeHeader file).totalBytes))
        (decodeHeader file).absHeight 0
        (List.replicate (u32 ((decodeHeader file).width * (decodeHeader file).absHeight)) 0)).map
          some := by
  have hread := BlockyOS.Loader.readSocket_eq_some_iff.mpr ⟨h.payload.1, h.payload.2, rfl⟩
  rw [openBMP_eq h.toOpens, if_neg (Nat.not_lt.mpr hinside), hread, formatBMPImageData_some,
    if_neg h.pixels]

theorem openBMP_of_not_converts (h : ¬ Converts file (decodeHeader file)) :
    openBMP file format = .ok none := by
  by_cases hopens : Opens file
  · rw [openBMP_eq hopens, if_neg (Nat.not_lt.mpr hinside)]
    cases hread : readSocket file (decodeHeader file).imageDataOffset
        (decodeHeader file).totalBytes with
    | none => rfl
    | some payload =>
        obtain ⟨hne, hle, -⟩ := BlockyOS.Loader.readSocket_eq_some_iff.mp hread
        rw [formatBMPImageData_some]
        by_contra hconverts
        exact h ⟨hopens, ⟨hne, hle⟩, fun hzero => hconverts (if_pos hzero)⟩
  · exact openBMP_of_not_opens hopens

end Opening

/-! ## The packing of a pixel -/

theorem toNat_shiftLeft_byte (x : UInt8) {k : UInt32} (hk : k.toNat ≤ 24) :
    (x.toUInt32 <<< k).toNat = x.toNat * 2 ^ k.toNat := by
  have hx := x.toNat_lt
  have hlt : x.toNat * 2 ^ k.toNat < 2 ^ 32 := by
    calc x.toNat * 2 ^ k.toNat ≤ 255 * 2 ^ 24 :=
          Nat.mul_le_mul (by omega) (Nat.pow_le_pow_right (by decide) hk)
      _ < 2 ^ 32 := by decide
  rw [UInt32.toNat_shiftLeft, Nat.mod_eq_of_lt (by omega : k.toNat < 32), Nat.shiftLeft_eq,
    UInt8.toNat_toUInt32, Nat.mod_eq_of_lt hlt]

theorem toNat_packed (a b c d : UInt8) :
    ((a.toUInt32 <<< 24) ||| (b.toUInt32 <<< 16) ||| (c.toUInt32 <<< 8) ||| d.toUInt32).toNat =
      a.toNat * 2 ^ 24 + b.toNat * 2 ^ 16 + c.toNat * 2 ^ 8 + d.toNat := by
  have hb := b.toNat_lt
  have hc := c.toNat_lt
  have hd := d.toNat_lt
  -- each byte stands below the multiple of a power of two that is packed so far
  have h1 : a.toNat * 2 ^ 24 ||| b.toNat * 2 ^ 16 = a.toNat * 2 ^ 24 + b.toNat * 2 ^ 16 := by
    rw [Nat.mul_comm, ← Nat.two_pow_add_eq_or_of_lt (by omega)]
  have h2 : a.toNat * 2 ^ 24 + b.toNat * 2 ^ 16 ||| c.toNat * 2 ^ 8 =
      a.toNat * 2 ^ 24 + b.toNat * 2 ^ 16 + c.toNat * 2 ^ 8 := by
    rw [show a.toNat * 2 ^ 24 + b.toNat * 2 ^ 16 = 2 ^ 16 * (a.toNat * 2 ^ 8 + b.toNat) by omega,
      ← Nat.two_pow_add_eq_or_of_lt (by omega)]
  have h3 : a.toNat * 2 ^ 24 + b.toNat * 2 ^ 16 + c.toNat * 2 ^ 8 ||| d.toNat =
      a.toNat * 2 ^ 24 + b.toNat * 2 ^ 16 + c.toNat * 2 ^ 8 + d.toNat := by
    rw [show a.toNat * 2 ^ 24 + b.toNat * 2 ^ 16 + c.toNat * 2 ^ 8 =
        2 ^ 8 * (a.toNat * 2 ^ 16 + b.toNat * 2 ^ 8 + c.toNat) by omega,
      ← Nat.two_pow_add_eq_or_of_lt (by omega)]
  rw [UInt32.toNat_or, UInt32.toNat_or, UInt32.toNat_or, toNat_shiftLeft_byte a (by decide),
    toNat_shiftLeft_byte b (by decide), toNat_shiftLeft_byte c (by decide), UInt8.toNat_toUInt32]
  simp only [UInt32.reduceToNat]
  rw [h1, h2, h3]

theorem packPixel_injective (format : PixelFormat) {c c' : Channels}
    (h : packPixel format c = packPixel format c') : c = c' := by
  have hnat := congrArg UInt32.toNat h
  have hbyte : ∀ x : UInt8, x.toNat < 2 ^ 8 := UInt8.toNat_lt
  obtain ⟨r, g, b, a⟩ := c
  obtain ⟨r', g', b', a'⟩ := c'
  have hr := hbyte r
  have hg := hbyte g
  have hb := hbyte b
  have ha := hbyte a
  have hr' := hbyte r'
  have hg' := hbyte g'
  have hb' := hbyte b'
  have ha' := hbyte a'
  cases format <;>
  · simp only [packPixel, toNat_packed] at hnat
    rw [Channels.mk.injEq, ← UInt8.toNat_inj, ← UInt8.toNat_inj, ← UInt8.toNat_inj,
      ← UInt8.toNat_inj]
    omega

/-! ## Rows and columns -/

section Rows

variable {file srcBytes : Bytes} {format : PixelFormat} {header : BMPHeader}

theorem loadByte_ok_iff {i : Nat} {b : UInt8} :
    loadByte srcBytes i = .ok b ↔ srcBytes[i]? = some b := by
  rw [loadByte]
  cases srcBytes[i]? with
  | none => simp
  | some c => simp

theorem loadByte_slice {off len i : Nat} (hlen : off + len ≤ file.length) (hi : i < len) :
    loadByte (slice file off len) i = .ok (file.getD (off + i) 0) := by
  have hin : off + i < file.length := by omega
  rw [loadByte_ok_iff, getElem?_slice, if_pos hi, List.getD_eq_getElem?_getD,
    List.getElem?_eq_getElem hin, Option.getD_some]

theorem sourceRow_lt {y : Nat} (hy : y < header.absHeight) :
    sourceRow header y < header.absHeight := by
  rw [sourceRow]
  split <;> omega

theorem sourceRow_sourceRow {y : Nat} (hy : y < header.absHeight) :
    sourceRow header (sourceRow header y) = y := by
  rw [sourceRow, sourceRow]
  split <;> omega

theorem loadPixel_inside {bpp srcRow x c : Nat} {channels : Channels}
    (hbpp : bpp = 1 ∨ bpp = 3 ∨ bpp = 4) (hx : x < 2 ^ 32) (hc : c < bpp)
    (h : loadPixel srcBytes bpp srcRow x = .ok channels) :
    srcRow + u32 (x * bpp + c) < srcBytes.length := by
  have hinside : ∀ {i : Nat} {b : UInt8}, loadByte srcBytes i = .ok b → i < srcBytes.length :=
    fun hload => (List.getElem?_eq_some_iff.mp (loadByte_ok_iff.mp hload)).1
  rw [loadPixel] at h
  rcases hbpp with rfl | rfl | rfl
  · obtain ⟨v, hv, -⟩ := bind_ok h
    obtain rfl : c = 0 := by omega
    rw [Nat.mul_one, Nat.add_zero, u32_of_lt hx]
    exact hinside hv
  · obtain ⟨b, hb, h⟩ := bind_ok h
    obtain ⟨g, hg, h⟩ := bind_ok h
    obtain ⟨r, hr, -⟩ := bind_ok h
    rcases (by omega : c = 0 ∨ c = 1 ∨ c = 2) with rfl | rfl | rfl
    · exact hinside hb
    · exact hinside hg
    · exact hinside hr
  · obtain ⟨b, hb, h⟩ := bind_ok h
    obtain ⟨g, hg, h⟩ := bind_ok h
    obtain ⟨r, hr, h⟩ := bind_ok h
    obtain ⟨a, ha, -⟩ := bind_ok h
    rcases (by omega : c = 0 ∨ c = 1 ∨ c = 2 ∨ c = 3) with rfl | rfl | rfl | rfl
    · exact hinside hb
    · exact hinside hg
    · exact hinside hr
    · exact hinside ha

theorem reads_inside {pixels after : List UInt32}
    (hbpp : header.pixelSize = 1 ∨ header.pixelSize = 3 ∨ header.pixelSize = 4)
    (hwidth : header.width < 2 ^ 32)
    (h : loop (formatRow format header srcBytes) header.absHeight 0 pixels = .ok after)
    {row i : Nat} (hrow : row < header.absHeight) (hi : i < header.width * header.pixelSize) :
    u32 (row * header.rowStride) + u32 i < srcBytes.length := by
  have hpos : 0 < header.pixelSize := by omega
  have hx : i / header.pixelSize < header.width := Nat.div_lt_of_lt_mul (by rwa [Nat.mul_comm])
  obtain ⟨s, s', -, hturn⟩ := turn_ok_of_loop (P := fun _ => True) trivial
    (fun _ _ _ _ _ => trivial) h (Nat.zero_le _)
    (by rw [Nat.zero_add]; exact sourceRow_lt hrow)
  obtain ⟨t, t', -, hpixel⟩ := turn_ok_of_loop (P := fun _ => True) trivial
    (fun _ _ _ _ _ => trivial) hturn (Nat.zero_le _) (by rwa [Nat.zero_add])
  obtain ⟨channels, hload, -⟩ := bind_ok hpixel
  have hinside := loadPixel_inside hbpp (hx.trans hwidth) (Nat.mod_lt i hpos) hload
  rwa [sourceRow_sourceRow hrow, Nat.div_add_mod'] at hinside

theorem totalBytes_le (header : BMPHeader) : header.totalBytes ≤ 2 ^ 32 - 4 := by
  have hmul : header.rowStride * header.absHeight =
      4 * (u32 (header.width * header.pixelSize + 3) / 4 * header.absHeight) := by
    rw [BMPHeader.rowStride]
    ring
  rw [BMPHeader.totalBytes, hmul]
  unfold u32
  omega

/--
A conversion that gets through has no product that wraps: some row would be read
up to the last four of the 32-bit offsets, which no payload holds.
-/
theorem fits_of_reads (hwidth : 0 < header.width) (hheight : 0 < header.absHeight)
    (hsize : 0 < header.pixelSize)
    (hreads : ∀ row i, row < header.absHeight → i < header.width * header.pixelSize →
      u32 (row * header.rowStride) + u32 i < header.totalBytes) :
    header.width * header.pixelSize + 3 < 2 ^ 32 ∧
      header.rowStride * header.absHeight < 2 ^ 32 := by
  have hle := totalBytes_le header
  have hrow : header.width * header.pixelSize + 3 < 2 ^ 32 := by
    by_contra hlarge
    have hread := hreads 0 (2 ^ 32 - 4) hheight (by omega)
    rw [Nat.zero_mul, u32_of_lt (by decide), u32_of_lt (by decide)] at hread
    omega
  refine ⟨hrow, ?_⟩
  by_contra hlarge
  have hpos : 0 < header.width * header.pixelSize := Nat.mul_pos hwidth hsize
  have hstride : header.rowStride = (header.width * header.pixelSize + 3) / 4 * 4 := by
    rw [BMPHeader.rowStride, u32_of_lt hrow]
  -- the last row that starts below `2 ^ 32` ends there or behind it
  have hstart := Nat.div_mul_le_self (2 ^ 32 - 1) header.rowStride
  have hend := Nat.lt_div_mul_add (a := 2 ^ 32 - 1) (show 0 < header.rowStride by omega)
  have hlast : (2 ^ 32 - 1) / header.rowStride < header.absHeight := by
    apply Nat.div_lt_of_lt_mul
    omega
  have hread := hreads _ (header.width * header.pixelSize - 1) hlast (by omega)
  rw [u32_of_lt (by omega), u32_of_lt (by omega)] at hread
  omega

end Rows

section Pixels

variable {file : Bytes} {format : PixelFormat} {header : BMPHeader}

/-- The first `k` pixels are the bytes of the file rows. -/
def PixelsRight (file : Bytes) (format : PixelFormat) (header : BMPHeader) (k : Nat)
    (pixels : List UInt32) : Prop :=
  pixels.length = header.width * header.absHeight ∧
    ∀ x y, x < header.width → y < header.absHeight → y * header.width + x < k →
      pixels[y * header.width + x]? =
        some (packPixel format (bytePixel file header x (fileRow header y)))

variable (hfits : SizesFit header)
  (hfile : header.imageDataOffset + header.totalBytes ≤ file.length)

include hfits hfile

theorem loadByte_row (hreads : ReadsBytes header) {row i : Nat} (hrow : row < header.absHeight)
    (hi : i < header.width * header.pixelSize) :
    loadByte (slice file header.imageDataOffset header.totalBytes)
        (u32 (row * header.rowStride) + u32 i) =
      .ok (file.getD (header.imageDataOffset + row * header.rowStride + i) 0) := by
  have hnext : (row + 1) * header.rowStride ≤ header.absHeight * header.rowStride :=
    Nat.mul_le_mul_right _ hrow
  have htotal := hfits.total hreads
  have hrowfits := hfits.row hreads
  have hstride : header.width * header.pixelSize ≤ header.rowStride := by
    rw [BMPHeader.rowStride, u32_of_lt hrowfits]
    omega
  rw [Nat.mul_comm] at htotal
  rw [Nat.add_mul, Nat.one_mul] at hnext
  rw [u32_of_lt (by omega), u32_of_lt (by omega)]
  have hinside : row * header.rowStride + i < header.totalBytes := by
    rw [BMPHeader.totalBytes, Nat.mul_comm header.rowStride, u32_of_lt htotal]
    omega
  rw [loadByte_slice hfile hinside, Nat.add_assoc]

theorem loadPixel_ok {x y : Nat} (hx : x < header.width) (hy : y < header.absHeight) :
    loadPixel (slice file header.imageDataOffset header.totalBytes) header.pixelSize
        (u32 (sourceRow header y * header.rowStride)) x =
      .ok (bytePixel file header x (fileRow header y)) := by
  have hload : ReadsBytes header → ∀ {i : Nat}, i < header.width * header.pixelSize → _ :=
    fun hreads _ hi => loadByte_row hfits hfile hreads (sourceRow_lt hy) hi
  have hrow : fileRow header y = sourceRow header y := rfl
  by_cases hthree : header.pixelSize = 3
  · have hload := @hload (.inr (.inl hthree))
    rw [hthree] at hload
    have hb := hload (i := x * 3) (by omega)
    have hg := hload (i := x * 3 + 1) (by omega)
    have hr := hload (i := x * 3 + 2) (by omega)
    rw [loadPixel, if_pos hthree, hb, hg, hr, bytePixel, if_pos hthree, hrow, Nat.mul_comm 3 x]
    rfl
  · by_cases hfour : header.pixelSize = 4
    · have hload := @hload (.inr (.inr hfour))
      rw [hfour] at hload
      have hb := hload (i := x * 4) (by omega)
      have hg := hload (i := x * 4 + 1) (by omega)
      have hr := hload (i := x * 4 + 2) (by omega)
      have ha := hload (i := x * 4 + 3) (by omega)
      rw [loadPixel, if_neg hthree, if_pos hfour, hb, hg, hr, ha, bytePixel, if_neg hthree,
        if_pos hfour, hrow, Nat.mul_comm 4 x]
      rfl
    · by_cases hone : header.pixelSize = 1
      · have hsmall := hfits.row (.inl hone)
        have hload := @hload (.inl hone)
        rw [hone] at hload hsmall
        have hv := hload (i := x) (by omega)
        rw [u32_of_lt (by omega : x < 2 ^ 32)] at hv
        rw [loadPixel, if_neg hthree, if_neg hfour, if_pos hone, hv, bytePixel, if_neg hthree,
          if_neg hfour, if_pos hone, hrow]
        rfl
      · rw [loadPixel, if_neg hthree, if_neg hfour, if_neg hone, bytePixel, if_neg hthree,
          if_neg hfour, if_neg hone]

theorem formatPixel_right {x y : Nat} (hx : x < header.width) (hy : y < header.absHeight)
    {pixels : List UInt32} (h : PixelsRight file format header (y * header.width + x) pixels) :
    ∃ after, formatPixel format header (slice file header.imageDataOffset header.totalBytes) y x
        pixels = .ok after ∧ PixelsRight file format header (y * header.width + x + 1) after := by
  obtain ⟨hlength, hpixels⟩ := h
  have hload := loadPixel_ok hfits hfile hx hy
  have hnext : (y + 1) * header.width ≤ header.absHeight * header.width :=
    Nat.mul_le_mul_right _ hy
  have hsmall := hfits.pixels
  rw [Nat.mul_comm] at hsmall hlength
  rw [Nat.add_mul, Nat.one_mul] at hnext
  have hstore : y * header.width + x < pixels.length := by omega
  refine ⟨pixels.set (y * header.width + x)
    (packPixel format (bytePixel file header x (fileRow header y))), ?_, ?_, ?_⟩
  · rw [formatPixel, hload, ok_bind, storePixel, u32_of_lt (by omega), if_pos hstore]
  · rw [List.length_set, hlength, Nat.mul_comm]
  · intro x' y' hx' hy' hlt
    rcases Nat.lt_or_eq_of_le (Nat.le_of_lt_succ hlt) with hlt | heq
    · rw [List.getElem?_set_ne (Nat.ne_of_gt hlt), hpixels x' y' hx' hy' hlt]
    · obtain rfl : y' = y := by
        have hpos := Nat.zero_lt_of_lt hx
        have hdiv : (x' + y' * header.width) / header.width =
            (x + y * header.width) / header.width := by
          rw [Nat.add_comm x', Nat.add_comm x, heq]
        rw [Nat.add_mul_div_right _ _ hpos, Nat.add_mul_div_right _ _ hpos, Nat.div_eq_of_lt hx,
          Nat.div_eq_of_lt hx'] at hdiv
        omega
      obtain rfl : x' = x := by omega
      exact List.getElem?_set_self hstore

theorem formatRow_right {y : Nat} (hy : y < header.absHeight) {pixels : List UInt32}
    (h : PixelsRight file format header (y * header.width) pixels) :
    ∃ after, formatRow format header (slice file header.imageDataOffset header.totalBytes) y
        pixels = .ok after ∧ PixelsRight file format header ((y + 1) * header.width) after := by
  have hpixel : ∀ x s, 0 ≤ x → x < 0 + header.width →
      PixelsRight file format header (y * header.width + x) s →
      ∃ s', formatPixel format header (slice file header.imageDataOffset header.totalBytes) y x
          s = .ok s' ∧ PixelsRight file format header (y * header.width + (x + 1)) s' :=
    fun x s _ hx hs => formatPixel_right hfits hfile (by omega) hy hs
  obtain ⟨after, hloop, hafter⟩ := loop_invariant
    (P := fun x => PixelsRight file format header (y * header.width + x)) h hpixel
  rw [Nat.zero_add, ← Nat.succ_mul] at hafter
  exact ⟨after, hloop, hafter⟩

theorem formatRows_right {pixels : List UInt32}
    (hlength : pixels.length = header.width * header.absHeight) :
    ∃ after, loop (formatRow format header
          (slice file header.imageDataOffset header.totalBytes)) header.absHeight 0 pixels =
        .ok after ∧ (OutputRight file header format after ↔ ColoursFit file header) := by
  have hrow : ∀ y s, 0 ≤ y → y < 0 + header.absHeight →
      PixelsRight file format header (y * header.width) s →
      ∃ s', formatRow format header (slice file header.imageDataOffset header.totalBytes) y s =
          .ok s' ∧ PixelsRight file format header ((y + 1) * header.width) s' :=
    fun y s _ hy hs => formatRow_right hfits hfile (by omega) hs
  have hstart : PixelsRight file format header (0 * header.width) pixels :=
    ⟨hlength, fun x y _ _ hlt => by omega⟩
  obtain ⟨after, hloop, -, hpixels⟩ := loop_invariant
    (P := fun y => PixelsRight file format header (y * header.width)) hstart hrow
  have hbytes : ∀ x y, x < header.width → y < header.absHeight →
      after[y * header.width + x]? =
        some (packPixel format (bytePixel file header x (fileRow header y))) := by
    intro x y hx hy
    refine hpixels x y hx hy ?_
    have hnext : (y + 1) * header.width ≤ (0 + header.absHeight) * header.width :=
      Nat.mul_le_mul_right _ (by omega)
    rw [Nat.add_mul, Nat.one_mul] at hnext
    omega
  refine ⟨after, hloop, ⟨fun h x row hx hrow => ?_, fun h x y hx hy => ?_⟩⟩
  · obtain ⟨channels, hfound, hpixel⟩ := h x (sourceRow header row) hx (sourceRow_lt hrow)
    have hback : fileRow header (sourceRow header row) = row := sourceRow_sourceRow hrow
    rw [hbytes _ _ hx (sourceRow_lt hrow), hback] at hpixel
    rw [hback] at hfound
    rw [hfound, packPixel_injective format (Option.some.inj hpixel)]
  · exact ⟨_, h x _ hx (sourceRow_lt hy), hbytes x y hx hy⟩

end Pixels

/-! ## When an image is loaded right -/

theorem length_formatRows {format : PixelFormat} {header : BMPHeader} {srcBytes : Bytes}
    {n : Nat} {pixels after : List UInt32}
    (h : loop (formatRow format header srcBytes) n 0 pixels = .ok after) :
    after.length = pixels.length := by
  refine loop_keeps (P := fun p => p.length = pixels.length) rfl (fun y s s' hs hrow => ?_) h
  refine loop_keeps (P := fun p => p.length = pixels.length) hs (fun x t t' ht hpixel => ?_) hrow
  obtain ⟨channels, -, hstore⟩ := bind_ok hpixel
  rw [storePixel] at hstore
  split at hstore
  · cases hstore
    rw [List.length_set, ht]
  · cases hstore

theorem sizesFit_of_loadsRight {file : Bytes} {format : PixelFormat}
    (hinside : headerSize file ≤ sizeofBITMAPV5HEADER)
    (hconverts : Converts file (decodeHeader file)) (h : LoadsRight file format) :
    SizesFit (decodeHeader file) := by
  obtain ⟨out, hopen, hright⟩ := h
  rw [openBMP_of_converts hinside hconverts] at hopen
  obtain ⟨pixels, hloop, rfl⟩ := map_ok hopen
  have hpixels := hconverts.pixels
  have hwidth : 0 < (decodeHeader file).width := by
    apply Nat.pos_of_ne_zero
    intro hzero
    rw [hzero, Nat.zero_mul] at hpixels
    exact hpixels rfl
  have hheight : 0 < (decodeHeader file).absHeight := by
    apply Nat.pos_of_ne_zero
    intro hzero
    rw [hzero, Nat.mul_zero] at hpixels
    exact hpixels rfl
  have hwraps : ReadsBytes (decodeHeader file) →
      (decodeHeader file).width * (decodeHeader file).pixelSize + 3 < 2 ^ 32 ∧
        (decodeHeader file).rowStride * (decodeHeader file).absHeight < 2 ^ 32 := by
    intro hreads
    have hlength := length_slice file hconverts.payload.2
    have hsize : 0 < (decodeHeader file).pixelSize := by
      rcases hreads with hsize | hsize | hsize <;> omega
    refine fits_of_reads hwidth hheight hsize fun row i hrow hi => ?_
    rw [← hlength]
    exact reads_inside hreads (width_lt file) hloop hrow hi
  refine ⟨?_, fun hreads => (hwraps hreads).1, fun hreads => (hwraps hreads).2⟩
  -- the last pixel of the picture lies inside the output
  obtain ⟨channels, -, hlast⟩ := hright pixels rfl ((decodeHeader file).width - 1)
    ((decodeHeader file).absHeight - 1) (by omega) (by omega)
  have hlt := (List.getElem?_eq_some_iff.mp hlast).1
  rw [length_formatRows hloop, List.length_replicate] at hlt
  have hend : ((decodeHeader file).absHeight - 1) * (decodeHeader file).width +
      ((decodeHeader file).width - 1) + 1 =
        (decodeHeader file).width * (decodeHeader file).absHeight := by
    obtain ⟨h, hh⟩ : ∃ h, (decodeHeader file).absHeight = h + 1 :=
      ⟨(decodeHeader file).absHeight - 1, by omega⟩
    rw [hh, Nat.add_sub_cancel, Nat.mul_succ, Nat.mul_comm]
    omega
  by_contra hlarge
  have hwrap : u32 ((decodeHeader file).width * (decodeHeader file).absHeight) < 2 ^ 32 :=
    Nat.mod_lt _ (by decide)
  omega

/--
An image is loaded right exactly when its header lies within what is read of it and, where it
is converted, its sizes fit into 32 bits and its pixels are the bytes there.
-/
theorem loadsRight_iff (file : Bytes) (format : PixelFormat) :
    LoadsRight file format ↔
      (Opens file → headerSize file ≤ sizeofBITMAPV5HEADER) ∧
        (Converts file (decodeHeader file) →
          SizesFit (decodeHeader file) ∧ ColoursFit file (decodeHeader file)) := by
  by_cases hopens : Opens file
  · by_cases hinside : headerSize file ≤ sizeofBITMAPV5HEADER
    · rw [and_iff_right fun _ => hinside]
      by_cases hconverts : Converts file (decodeHeader file)
      · rw [imp_iff_right hconverts]
        have hright : SizesFit (decodeHeader file) →
            (LoadsRight file format ↔ ColoursFit file (decodeHeader file)) := by
          intro hfits
          have hlength : (List.replicate (u32 ((decodeHeader file).width *
              (decodeHeader file).absHeight)) (0 : UInt32)).length =
                (decodeHeader file).width * (decodeHeader file).absHeight := by
            rw [List.length_replicate, u32_of_lt hfits.pixels]
          obtain ⟨after, hloop, hcolours⟩ :=
            @formatRows_right _ format _ hfits hconverts.payload.2 _ hlength
          rw [LoadsRight, openBMP_of_converts hinside hconverts, hloop, ← hcolours]
          exact ⟨fun ⟨out, hout, hright⟩ => hright after (Except.ok.inj hout).symm,
            fun hright => ⟨some after, rfl, fun pixels hpixels => by
              cases hpixels
              exact hright⟩⟩
        exact ⟨fun h => ⟨sizesFit_of_loadsRight hinside hconverts h,
            (hright (sizesFit_of_loadsRight hinside hconverts h)).mp h⟩,
          fun h => (hright h.1).mpr h.2⟩
      · refine iff_of_true ⟨none, openBMP_of_not_converts hinside hconverts,
          fun pixels hpixels => ?_⟩ fun h => absurd h hconverts
        cases hpixels
    · refine iff_of_false ?_ fun h => hinside (h.1 hopens)
      rintro ⟨out, hopen, -⟩
      rw [openBMP_eq hopens, if_pos (Nat.not_le.mp hinside)] at hopen
      cases hopen
  · refine iff_of_true ⟨none, openBMP_of_not_opens hopens, fun pixels hpixels => ?_⟩
      ⟨fun h => absurd h hopens, fun h => absurd h.toOpens hopens⟩
    cases hpixels

/-! ### Which pixels are their bytes -/

section Colours

variable {file : Bytes} {header : BMPHeader}

theorem SizesFit.stride (h : SizesFit header)
    (hbits : header.bitCount = 8 ∨ header.bitCount = 24 ∨ header.bitCount = 32) :
    header.rowStride = fileStride header := by
  have hreads : ReadsBytes header := by
    rw [ReadsBytes, BMPHeader.pixelSize]
    omega
  have hrow := h.row hreads
  rw [BMPHeader.rowStride, u32_of_lt hrow, fileStride]
  rcases hbits with hbits | hbits | hbits <;> rw [BMPHeader.pixelSize, hbits] <;> omega

theorem SizesFit.row_inside (h : SizesFit header)
    (hbits : header.bitCount = 8 ∨ header.bitCount = 24 ∨ header.bitCount = 32)
    (hfile : header.imageDataOffset + header.totalBytes ≤ file.length) {row : Nat}
    (hrow : row < header.absHeight) :
    header.imageDataOffset + row * fileStride header + fileStride header ≤ file.length := by
  have hreads : ReadsBytes header := by
    rw [ReadsBytes, BMPHeader.pixelSize]
    omega
  have hnext : (row + 1) * header.rowStride ≤ header.absHeight * header.rowStride :=
    Nat.mul_le_mul_right _ hrow
  rw [← h.stride hbits]
  rw [BMPHeader.totalBytes, u32_of_lt (h.total hreads), Nat.mul_comm] at hfile
  rw [Nat.add_mul, Nat.one_mul] at hnext
  omega

theorem coloursFit_of_bytes (h : SizesFit header)
    (hfile : header.imageDataOffset + header.totalBytes ≤ file.length)
    (hcompression : compression file = 0)
    (hbits : header.bitCount = 24 ∨ header.bitCount = 32) : ColoursFit file header := by
  intro x row _ hrow
  have hinside := h.row_inside (.inr hbits) hfile hrow
  have hstride := h.stride (.inr hbits)
  rw [filePixel, bytePixel, if_neg (Nat.not_lt.mpr hinside), if_pos hcompression, hstride]
  rcases hbits with hbits | hbits
  · have hsize : header.pixelSize = 3 := by rw [BMPHeader.pixelSize, hbits]
    rw [if_neg (by omega), if_neg (by omega), if_pos hbits, if_pos hsize]
  · have hsize : header.pixelSize = 4 := by rw [BMPHeader.pixelSize, hbits]
    rw [if_neg (by omega), if_neg (by omega), if_neg (by omega), if_pos hbits,
      if_neg (by omega), if_pos hsize]

theorem coloursFit_iff_grey (h : SizesFit header)
    (hfile : header.imageDataOffset + header.totalBytes ≤ file.length)
    (hcompression : compression file = 0) (hbits : header.bitCount = 8) :
    ColoursFit file header ↔ ∀ x row, x < header.width → row < header.absHeight →
      let v := file.getD (header.imageDataOffset + row * fileStride header + x) 0
      paletteColour file 8 v.toNat = some ⟨v, v, v, 0xFF⟩ := by
  have hsize : header.pixelSize = 1 := by rw [BMPHeader.pixelSize, hbits]
  refine forall₄_congr fun x row _ hrow => ?_
  have hinside := h.row_inside (.inl hbits) hfile hrow
  rw [filePixel, bytePixel, if_neg (Nat.not_lt.mpr hinside), if_pos hcompression,
    h.stride (.inl hbits), if_pos (.inr (.inr hbits)), hsize, if_neg (by decide),
    if_neg (by decide), if_pos rfl, hbits, Nat.mul_div_cancel _ (by decide), Nat.mul_mod_left]
  have hlt := (file.getD (header.imageDataOffset + row * fileStride header + x) 0).toNat_lt
  rw [Nat.sub_self, Nat.pow_zero, Nat.div_one, Nat.mod_eq_of_lt (by omega)]

end Colours

/-- An image whose rows of `2 ^ 30 + 1` pixels of four bytes wrap to a payload of four bytes. -/
def sampleImage : Bytes :=
  [66, 77] ++ (zeros 8 ++ (leBytes 4 134 ++ (leBytes 4 40 ++ (leBytes 4 (2 ^ 30 + 1) ++
    (leBytes 4 1 ++ ([1, 0, 32, 0] ++ zeros 108))))))

theorem not_loadsRight_sampleImage : ¬ LoadsRight sampleImage .blueGreenRedReserved := by
  intro hright
  have hconverts : Converts sampleImage (decodeHeader sampleImage) :=
    ⟨⟨by decide +kernel, by decide +kernel⟩, by decide +kernel, by decide +kernel⟩
  have hrow := (sizesFit_of_loadsRight (by decide +kernel) hconverts hright).row
    (.inr (.inr (by decide +kernel)))
  exact absurd hrow (by decide +kernel)

end BlockyOS.Boot
