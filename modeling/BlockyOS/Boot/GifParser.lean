import BlockyOS.Boot.GifDecoder
import BlockyOS.Boot.GifFormat
import BlockyOS.Loader.Sections

/-!
# Opening a GIF

`OpenGIF` goes through the blocks of the file behind the color map.  It keeps the
extensions and the frames, and decodes every frame as soon as it is recorded.
-/

namespace BlockyOS.Boot.Gif

open BlockyOS.Foundation
open BlockyOS.Loader (readSocket)

/-- How `GetGIFFrame` fails to return. -/
inductive FrameFault where
  | unfinished
  | decoder (fault : DecoderFault)
  deriving DecidableEq, Repr

/-- `gifFrame_t`, with the indices that the frame buffer is made from. -/
structure GifFrame where
  ld : Bytes
  lcmLength : Nat
  lcm : Option Bytes
  rdb : Option Bytes
  gce : Option Bytes
  indices : Option Bytes
  deriving DecidableEq, Repr

/-- `gifDescriptionSpace_t`; the last four are those of the first frame. -/
structure GifDescriptionSpace where
  hdr : Bytes
  lsd : Option Bytes
  gcmLength : Nat
  gcm : Option Bytes
  ext : List Bytes
  frames : List GifFrame
  ld : Option Bytes
  lcmLength : Nat
  lcm : Option Bytes
  rdb : Option Bytes
  deriving DecidableEq, Repr

/-- What `OpenGIF` keeps track of. -/
structure Parser where
  out : GifDescriptionSpace
  offset : Nat
  activeGCE : Option Bytes
  deriving DecidableEq, Repr

/-! ## Parts of the file -/

section Reads

variable (file : Bytes)

def readByte (offset : Nat) : Option UInt8 := (readSocket file offset 1).bind List.head?

def readColorMap (offset flags : Nat) : Option (Nat × Nat × Option Bytes) :=
  if HasColorMap flags then
    let count := colorMapLength flags
    (readSocket file offset (sizeofColor * count)).map fun map =>
      (offset + sizeofColor * count, count, some map)
  else some (offset, 0, none)

/--
The loop over sub-blocks, with the size of what it passed over.  Every turn that goes
on moves the offset up inside the file, so that the turns suffice when they are more
than the bytes from the offset on.
-/
def skipSubBlocks : Nat → Nat × Nat → Nat × Nat
  | 0, place => place
  | turns + 1, (offset, size) =>
      match readByte file offset with
      | none => (offset, size)
      | some subLen =>
          if subLen = 0 then (offset + 1, size)
          else skipSubBlocks turns (offset + 1 + subLen.toNat, size + 1 + subLen.toNat)

end Reads

/-! ## The blocks -/

section Blocks

variable (garbage : Tables) (beyond : Nat → UInt8) (fuel : Nat) (file : Bytes)

/-- The pixels of a recorded frame; `beyond` is the memory behind the raster. -/
def getGIFFrame (frame : GifFrame) : Except FrameFault (Option Bytes) :=
  let width := fieldNat frame.ld 5 2
  let height := fieldNat frame.ld 7 2
  frame.rdb.elim (.ok none) fun rdb =>
    if width = 0 ∨ height = 0 then .ok none
    else
      match decodeIndices (fun i => rdb.getD i (beyond i)) width height garbage fuel with
      | none => .error .unfinished
      | some (.error fault) => .error (.decoder fault)
      | some (.ok indices) => .ok (some indices)

def parseExtension (s : Parser) : Parser ⊕ Except FrameFault Parser :=
  match readSocket file s.offset sizeofExtensionBlock with
  | none => .inr (.ok s)
  | some hdrBlock =>
      let firstSize := sizeofExtensionBlock + fieldNat hdrBlock 2 1
      let place := skipSubBlocks file (file.length + 1) (s.offset + firstSize, firstSize)
      match readSocket file (place.1 - place.2) place.2 with
      | none => .inl { s with offset := place.1 }
      | some extBlock =>
          .inl
            { s with
              offset := place.1
              out := { s.out with ext := s.out.ext ++ [extBlock] }
              activeGCE :=
                if fieldNat extBlock 1 1 = localDescriptorExtension then some extBlock
                else s.activeGCE }

/-- The frame is recorded, and the first one also where there was only one before. -/
def GifDescriptionSpace.record (out : GifDescriptionSpace) (frame : GifFrame) :
    GifDescriptionSpace :=
  if out.frames = [] then
    { out with
      frames := [frame]
      ld := some frame.ld
      lcm := frame.lcm
      lcmLength := frame.lcmLength
      rdb := frame.rdb }
  else { out with frames := out.frames ++ [frame] }

def parseRaster (s : Parser) (ld : Bytes) (rdbStart lcmLength : Nat) (lcm : Option Bytes) :
    Parser ⊕ Except FrameFault Parser :=
  let offset := (skipSubBlocks file (file.length + 1) (rdbStart + 1, 0)).1
  let frame : GifFrame :=
    { ld := ld
      lcmLength := lcmLength
      lcm := lcm
      rdb := readSocket file rdbStart (offset - rdbStart)
      gce := s.activeGCE
      indices := none }
  match getGIFFrame garbage beyond fuel frame with
  | .error fault => .inr (.error fault)
  | .ok indices =>
      .inl
        { out := s.out.record { frame with indices := indices }
          offset := offset
          activeGCE := none }

def parseImage (s : Parser) : Parser ⊕ Except FrameFault Parser :=
  match readSocket file s.offset sizeofImageDescriptor with
  | none => .inr (.ok s)
  | some ld =>
      match readColorMap file (s.offset + sizeofImageDescriptor) (fieldNat ld 9 1) with
      | none => .inr (.ok { s with offset := s.offset + sizeofImageDescriptor })
      | some (rdbStart, lcmLength, lcm) =>
          parseRaster garbage beyond fuel file s ld rdbStart lcmLength lcm

def parseBlock (s : Parser) : Parser ⊕ Except FrameFault Parser :=
  match readByte file s.offset with
  | none => .inr (.ok s)
  | some sentinel =>
      if sentinel = extensionBlockMagic then parseExtension file s
      else if sentinel = localImageDescriptorMagic then parseImage garbage beyond fuel file s
      else if sentinel = trailer then .inr (.ok { s with offset := s.offset + 1 })
      else .inr (.ok s)

/-- What is read before the blocks; the rest is not read where something is missing. -/
def openHeader : Option (Parser ⊕ Parser) :=
  (readSocket file 0 sizeofHeader).bind fun hdr =>
    if hdr.take 3 ≠ signature then none
    else
      let out : GifDescriptionSpace := ⟨hdr, none, 0, none, [], [], none, 0, none, none⟩
      some <|
        match readSocket file sizeofHeader sizeofScreenDescriptor with
        | none => .inr ⟨out, sizeofHeader, none⟩
        | some lsd =>
            let offset := sizeofHeader + sizeofScreenDescriptor
            match readColorMap file offset (fieldNat lsd 4 1) with
            | none => .inr ⟨{ out with lsd := some lsd }, offset, none⟩
            | some (offset, gcmLength, gcm) =>
                .inl
                  ⟨{ out with lsd := some lsd, gcmLength := gcmLength, gcm := gcm }, offset, none⟩

/-- The result with the place where the parser has stopped, `none` for a null pointer. -/
def openGIF : Option (Except FrameFault (Option Parser)) :=
  match openHeader file with
  | none => some (.ok none)
  | some (.inr s) => some (.ok (some s))
  | some (.inl s) =>
      (follow (parseBlock garbage beyond fuel file) fuel s).map fun result => result.map some

end Blocks

end BlockyOS.Boot.Gif
