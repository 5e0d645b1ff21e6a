import BlockyOS.Foundation.Bytes
import BlockyOS.Foundation.Loops
import BlockyOS.Foundation.Trails
import BlockyOS.Foundation.Words

/-!
# The decoder of GIF rasters

`GetGIFFrame` collects the sub-blocks of a raster and decodes the LZW codes in
them.  The strings of the codes are chains through the arrays `prefix` and
`suffix`; a code is unwound onto a stack, from its last pixel to its first.
-/

namespace BlockyOS.Boot.Gif

open BlockyOS.Foundation

/-- How the decoding goes wrong instead of ending. -/
inductive DecoderFault where
  | wideShift
  | outOfBounds
  deriving DecidableEq, Repr

/-- `1 << n` -/
def shiftOne (n : Nat) : Except DecoderFault Nat :=
  if n < 32 then .ok (2 ^ n) else .error .wideShift

/-! ## The stream -/

/--
The data bytes of the sub-blocks from `ptr` on, at most `room` of them; `left` bytes
of the current sub-block are still to come.
-/
def lzwBytes (raster : Nat → UInt8) : Nat → Nat → Nat → Bytes
  | 0, _, _ => []
  | room + 1, ptr, left + 1 => raster ptr :: lzwBytes raster room (ptr + 1) left
  | room + 1, ptr, 0 =>
      if raster ptr = 0 then []
      else raster (ptr + 1) :: lzwBytes raster room (ptr + 2) ((raster ptr).toNat - 1)

/-! ## The state of the decoder -/

/-- The size of `prefix` and of `suffix`. -/
def tableSize : Nat := 4096

/-- The size of `pixelStack`. -/
def stackSize : Nat := 4097

/-- `oldCode` when there is none. -/
def noCode : Nat := 0xFFFF

/-- `prefix` and `suffix`. -/
structure Tables where
  prefixes : Nat → UInt16
  suffixes : Nat → UInt8

def Tables.put (tables : Tables) (i : Nat) (link : UInt16) (char : UInt8) :
    Except DecoderFault Tables :=
  if i < tableSize then
    .ok ⟨Function.update tables.prefixes i link, Function.update tables.suffixes i char⟩
  else .error .outOfBounds

def blankTables : Tables := ⟨fun _ => 0, fun _ => 0⟩

structure Raster where
  initCodeSize : Nat
  clearCode : Nat
  totalPixels : Nat
  lzwStream : Bytes

def Raster.eoiCode (r : Raster) : Nat := r.clearCode + 1

/-- `pixelStack` with its top first, and the `pixelIdx` first of the `indices`. -/
structure Decoder where
  tables : Tables
  availableCode : Nat
  codeSize : Nat
  maxCode : Nat
  oldCode : Nat
  firstChar : UInt8
  bitPos : Nat
  pixelStack : Bytes
  indices : Bytes

/-- `pixelStack[stackPtr++] = char` -/
def push (stack : Bytes) (char : UInt8) : Except DecoderFault Bytes :=
  if stack.length < stackSize then .ok (char :: stack) else .error .outOfBounds

/-! ## One code -/

section Codes

variable (r : Raster)

def readCode (s : Decoder) : Except DecoderFault Nat := do
  let codeBits := leNat (slice r.lzwStream (s.bitPos / 8) 4)
  let mask ← shiftOne s.codeSize
  .ok ((codeBits >>> (s.bitPos % 8)) &&& (mask - 1))

def clearTables (s : Decoder) : Except DecoderFault Decoder := do
  let maxCode ← shiftOne (r.initCodeSize + 1)
  .ok
    { s with
      codeSize := r.initCodeSize + 1
      maxCode := maxCode
      availableCode := r.eoiCode + 1
      oldCode := noCode }

def resolveCode (s : Decoder) (code : Nat) : Except DecoderFault (Nat × Bytes) :=
  if s.availableCode ≤ code then do
    let stack ← push s.pixelStack s.firstChar
    .ok (s.oldCode, stack)
  else .ok (code, s.pixelStack)

def unwind (tables : Tables) : Nat → Nat → Bytes → Except DecoderFault (Nat × Bytes)
  | 0, code, stack =>
      if r.clearCode ≤ code ∧ code < tableSize then .error .outOfBounds else .ok (code, stack)
  | room + 1, code, stack =>
      if r.clearCode ≤ code ∧ code < tableSize then
        unwind tables room (tables.prefixes code).toNat (tables.suffixes code :: stack)
      else .ok (code, stack)

def pushFirst (s : Decoder) (code : Nat) (stack : Bytes) : Except DecoderFault (UInt8 × Bytes) :=
  if code < tableSize then do
    let stack ← push stack (s.tables.suffixes code)
    .ok (s.tables.suffixes code, stack)
  else .ok (s.firstChar, stack)

/-- The code size when the table has grown to `availableCode`. -/
def growCodeSize (s : Decoder) : Except DecoderFault Decoder :=
  if s.maxCode ≤ s.availableCode ∧ s.codeSize < 12 then do
    let maxCode ← shiftOne (s.codeSize + 1)
    .ok { s with codeSize := s.codeSize + 1, maxCode := maxCode }
  else .ok s

def addEntry (s : Decoder) : Except DecoderFault Decoder :=
  if s.availableCode < tableSize ∧ s.oldCode ≠ noCode then do
    let tables ← s.tables.put s.availableCode (UInt16.ofNat s.oldCode) s.firstChar
    growCodeSize { s with tables := tables, availableCode := s.availableCode + 1 }
  else .ok s

/-- The stack is emptied into `indices`, as far as there are pixels. -/
def popPixels (totalPixels : Nat) : Bytes → Bytes → Bytes × Bytes
  | [], indices => ([], indices)
  | char :: stack, indices =>
      if indices.length < totalPixels then popPixels totalPixels stack (indices ++ [char])
      else (char :: stack, indices)

def emitCode (s : Decoder) (inCode : Nat) : Except DecoderFault Decoder := do
  let (code, stack) ← resolveCode s inCode
  let (code, stack) ← unwind r s.tables (stackSize - stack.length) code stack
  let (firstChar, stack) ← pushFirst s code stack
  let s ← addEntry { s with firstChar := firstChar }
  let (pixelStack, indices) := popPixels r.totalPixels stack s.indices
  .ok { s with oldCode := inCode, pixelStack := pixelStack, indices := indices }

/-- What one code does; the decoding goes on unless it is the end of information. -/
def decodeCode (s : Decoder) : Except DecoderFault (Decoder ⊕ Decoder) := do
  let code ← readCode r s
  let s := { s with bitPos := u32 (s.bitPos + s.codeSize) }
  if code = r.clearCode then (clearTables r s).map .inl
  else if code = r.eoiCode then .ok (.inr s)
  else (emitCode r s code).map .inl

def HasCode (s : Decoder) : Prop :=
  s.indices.length < r.totalPixels ∧ s.bitPos / 8 + 3 < r.lzwStream.length

instance (s : Decoder) : Decidable (HasCode r s) := inferInstanceAs (Decidable (_ ∧ _))

/-- One turn of the loop. -/
def decodeStep (s : Decoder) : Decoder ⊕ Except DecoderFault Decoder :=
  if HasCode r s then
    match decodeCode r s with
    | .ok (.inl s) => .inl s
    | .ok (.inr s) => .inr (.ok s)
    | .error fault => .inr (.error fault)
  else .inr (.ok s)

end Codes

/-! ## A raster -/

def fillTables (clearCode : Nat) (garbage : Tables) : Except DecoderFault Tables :=
  loop (fun i tables => tables.put i 0 (UInt8.ofNat i)) clearCode 0 garbage

/--
The raster at `raster`, which is the code size and the sub-blocks, of a frame of so
many pixels.
-/
def openRaster (raster : Nat → UInt8) (width height : Nat) : Except DecoderFault Raster := do
  let totalPixels := u32 (width * height)
  let maxLzwBytes := u32 (totalPixels * 2)
  let initCodeSize := (raster 0).toNat
  let clearCode ← shiftOne initCodeSize
  .ok
    { initCodeSize := initCodeSize
      clearCode := clearCode
      totalPixels := totalPixels
      lzwStream := lzwBytes raster maxLzwBytes 1 0 }

/-- The tables hold `garbage` before they are filled. -/
def initialDecoder (r : Raster) (garbage : Tables) : Except DecoderFault Decoder := do
  let maxCode ← shiftOne (r.initCodeSize + 1)
  let tables ← fillTables r.clearCode garbage
  .ok
    { tables := tables
      availableCode := r.eoiCode + 1
      codeSize := r.initCodeSize + 1
      maxCode := maxCode
      oldCode := noCode
      firstChar := 0
      bitPos := 0
      pixelStack := []
      indices := [] }

def startDecoder (raster : Nat → UInt8) (width height : Nat) (garbage : Tables) :
    Except DecoderFault (Raster × Decoder) := do
  let r ← openRaster raster width height
  let s ← initialDecoder r garbage
  .ok (r, s)

/-- The `indices` of a frame, zero where nothing was decoded. -/
def decodeIndices (raster : Nat → UInt8) (width height : Nat) (garbage : Tables) (fuel : Nat) :
    Option (Except DecoderFault Bytes) :=
  match startDecoder raster width height garbage with
  | .error fault => some (.error fault)
  | .ok (r, s) => (follow (decodeStep r) fuel s).map fun result =>
      result.map fun s => padTo r.totalPixels s.indices

end BlockyOS.Boot.Gif
