import BlockyOS.Foundation.Bytes

/-!
# The format of GIF streams

A stream is a header, a screen descriptor and a color map, then extensions and
images up to a trailer.  Data of any length stands in it as sub-blocks, each behind
its length, with an empty one at the end.
-/

namespace BlockyOS.Boot.Gif

open BlockyOS.Foundation

/-! ## Sub-blocks -/

/-- A sub-block has a length that one byte can tell, and is not the one that ends them. -/
def IsSubBlock (block : Bytes) : Prop := block ≠ [] ∧ block.length < 256

instance (block : Bytes) : Decidable (IsSubBlock block) := inferInstanceAs (Decidable (_ ∧ _))

def subBlockBytes (block : Bytes) : Bytes := UInt8.ofNat block.length :: block

def subBlocksBytes (blocks : List Bytes) : Bytes := blocks.flatMap subBlockBytes ++ [0]

@[simp] theorem subBlocksBytes_nil : subBlocksBytes [] = [0] := rfl

@[simp] theorem subBlocksBytes_cons (block : Bytes) (blocks : List Bytes) :
    subBlocksBytes (block :: blocks) =
      UInt8.ofNat block.length :: (block ++ subBlocksBytes blocks) := by
  simp [subBlocksBytes, subBlockBytes]

/-! ## Sizes and marks -/

def sizeofHeader : Nat := 6

def sizeofScreenDescriptor : Nat := 7

def sizeofExtensionBlock : Nat := 3

def sizeofImageDescriptor : Nat := 10

def sizeofColor : Nat := 3

/-- `GIF` -/
def signature : Bytes := [0x47, 0x49, 0x46]

def extensionBlockMagic : UInt8 := 0x21

def localImageDescriptorMagic : UInt8 := 0x2C

def trailer : UInt8 := 0x3B

def localDescriptorExtension : Nat := 0xF9

def HasColorMap (flags : Nat) : Prop := 128 ≤ flags

instance (flags : Nat) : Decidable (HasColorMap flags) := inferInstanceAs (Decidable (_ ≤ _))

/-- `1 << (N + 1)`, where `N` are the lowest three bits. -/
def colorMapLength (flags : Nat) : Nat := 2 ^ (flags % 8 + 1)

def colorMapSize (flags : Nat) : Nat :=
  if HasColorMap flags then sizeofColor * colorMapLength flags else 0

/-! ## Streams -/

structure Extension where
  label : UInt8
  data : List Bytes

structure Image where
  descriptor : Bytes
  colorMap : Bytes
  codeSize : UInt8
  data : List Bytes

inductive Block where
  | extension (e : Extension)
  | image (i : Image)

structure GifStream where
  header : Bytes
  screen : Bytes
  colorMap : Bytes
  blocks : List Block

namespace Extension

variable (e : Extension)

def bytes : Bytes := extensionBlockMagic :: e.label :: subBlocksBytes e.data

structure WellFormed : Prop where
  data : ∀ block ∈ e.data, IsSubBlock block

end Extension

namespace Image

variable (i : Image)

def flags : Nat := fieldNat i.descriptor 9 1

/-- The raster: the code size and the data. -/
def raster : Bytes := i.codeSize :: subBlocksBytes i.data

def bytes : Bytes := i.descriptor ++ (i.colorMap ++ i.raster)

structure WellFormed : Prop where
  descriptor : i.descriptor.length = sizeofImageDescriptor
  magic : i.descriptor.head? = some localImageDescriptorMagic
  colorMap : i.colorMap.length = colorMapSize i.flags
  data : ∀ block ∈ i.data, IsSubBlock block

end Image

namespace Block

def bytes : Block → Bytes
  | extension e => e.bytes
  | image i => i.bytes

def WellFormed : Block → Prop
  | extension e => e.WellFormed
  | image i => i.WellFormed

def extension? : Block → Option Extension
  | extension e => some e
  | image _ => none

end Block

def imagesOf : Option Extension → List Block → List (Image × Option Extension)
  | _, [] => []
  | _, .extension e :: rest => imagesOf (some e) rest
  | before, .image i :: rest =>
      (i, before.filter fun e => e.label.toNat = localDescriptorExtension) :: imagesOf none rest

namespace GifStream

variable (g : GifStream)

def flags : Nat := fieldNat g.screen 4 1

def head : Bytes := g.header ++ (g.screen ++ g.colorMap)

def bytes : Bytes := g.head ++ (g.blocks.flatMap Block.bytes ++ [trailer])

structure WellFormed : Prop where
  header : g.header.length = sizeofHeader
  signature : g.header.take 3 = signature
  screen : g.screen.length = sizeofScreenDescriptor
  colorMap : g.colorMap.length = colorMapSize g.flags
  blocks : ∀ block ∈ g.blocks, block.WellFormed

end GifStream

end BlockyOS.Boot.Gif
