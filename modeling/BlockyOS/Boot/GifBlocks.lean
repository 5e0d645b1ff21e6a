import BlockyOS.Boot.GifParser

/-!
# What `OpenGIF` makes of a stream

Images are passed over and recorded byte by byte.  The size of an extension leaves
out the byte that ends its sub-blocks, so that what is stored starts behind the
introducer.
-/

namespace BlockyOS.Boot.Gif

open BlockyOS.Foundation Relation
open BlockyOS.Loader (readSocket)

/-! ## The stream in the file -/

section Reads

variable {file : Bytes}

theorem prefix_of_append {a b : Bytes} {off : Nat} (h : a ++ b <+: file.drop off) :
    a <+: file.drop off ∧ b <+: file.drop (off + a.length) := by
  obtain ⟨rest, hrest⟩ := h
  refine ⟨⟨b ++ rest, by rw [← hrest, List.append_assoc]⟩, rest, ?_⟩
  rw [← List.drop_drop, ← hrest, List.append_assoc, List.drop_left]

theorem readSocket_of_prefix {bytes : Bytes} {off : Nat} (h : bytes <+: file.drop off)
    (hne : bytes ≠ []) : readSocket file off bytes.length = some bytes := by
  have hlength := h.length_le
  have hpos := List.length_pos_iff.mpr hne
  rw [List.length_drop] at hlength
  rw [readSocket, if_pos (by omega), slice, ← List.prefix_iff_eq_take.mp h]

theorem readByte_eq (off : Nat) : readByte file off = file[off]? := by
  rw [readByte, readSocket]
  split
  · next h =>
    rw [slice, List.getElem?_eq_getElem (by omega), List.drop_eq_getElem_cons (by omega)]
    rfl
  · next h =>
    rw [List.getElem?_eq_none (by omega)]
    rfl

theorem readByte_of_prefix {byte : UInt8} {rest : Bytes} {off : Nat}
    (h : byte :: rest <+: file.drop off) : readByte file off = some byte := by
  obtain ⟨more, hmore⟩ := h
  rw [readByte_eq, ← Nat.add_zero off, ← List.getElem?_drop, ← hmore]
  rfl

def announced (flags : Nat) (map : Bytes) : Option Bytes :=
  if HasColorMap flags then some map else none

def announcedLength (flags : Nat) : Nat := if HasColorMap flags then colorMapLength flags else 0

theorem readColorMap_of_prefix {map : Bytes} {off flags : Nat} (h : map <+: file.drop off)
    (hsize : map.length = colorMapSize flags) :
    readColorMap file off flags =
      some (off + map.length, announcedLength flags, announced flags map) := by
  rw [readColorMap, announcedLength, announced]
  rw [colorMapSize] at hsize
  split
  · next hmap =>
    rw [if_pos hmap] at hsize
    have hne : map ≠ [] := by
      rintro rfl
      have hpos : 0 < colorMapLength flags := Nat.two_pow_pos _
      simp [sizeofColor] at hsize
      omega
    simp only [← hsize, readSocket_of_prefix h hne]
    rfl
  · next hnone =>
    rw [if_neg hnone] at hsize
    simp [hsize]

theorem inside_of_prefix {byte : UInt8} {rest : Bytes} {off : Nat}
    (h : byte :: rest <+: file.drop off) : off < file.length := by
  have hlength := h.length_le
  rw [List.length_drop, List.length_cons] at hlength
  omega

theorem skipSubBlocks_of_prefix {blocks : List Bytes} {off turns : Nat} (size : Nat)
    (h : subBlocksBytes blocks <+: file.drop off)
    (hblocks : ∀ block ∈ blocks, IsSubBlock block) (hturns : file.length < off + turns) :
    (skipSubBlocks file turns (off, size)).1 = off + (subBlocksBytes blocks).length := by
  induction blocks generalizing off turns size with
  | nil =>
      have hinside := inside_of_prefix h
      obtain ⟨turns, rfl⟩ := Nat.exists_eq_add_of_le' (show 1 ≤ turns by omega)
      rw [subBlocksBytes_nil] at h
      rw [skipSubBlocks, readByte_of_prefix h]
      rfl
  | cons block blocks ih =>
      rw [subBlocksBytes_cons] at h
      have hinside := inside_of_prefix h
      obtain ⟨turns, rfl⟩ := Nat.exists_eq_add_of_le' (show 1 ≤ turns by omega)
      obtain ⟨hne, hlength⟩ := hblocks block (List.mem_cons_self ..)
      have hcount : (UInt8.ofNat block.length).toNat = block.length :=
        UInt8.toNat_ofNat_of_lt' hlength
      have hsome : UInt8.ofNat block.length ≠ 0 := by
        intro hzero
        rw [hzero] at hcount
        exact hne (List.length_eq_zero_iff.mp hcount.symm)
      have hrest := (prefix_of_append (a := UInt8.ofNat block.length :: block) h).2
      rw [List.length_cons, ← Nat.add_assoc, Nat.add_right_comm] at hrest
      rw [skipSubBlocks, readByte_of_prefix h]
      simp only [if_neg hsome, hcount]
      rw [ih _ hrest (fun b hb => hblocks b (List.mem_cons_of_mem _ hb)) (by omega),
        subBlocksBytes_cons]
      simp only [List.length_cons, List.length_append]
      omega

end Reads

/-! ## What is right -/

/-- The record of an image, before it is decoded. -/
def Image.frame (i : Image) (gce indices : Option Bytes) : GifFrame where
  ld := i.descriptor
  lcmLength := announcedLength i.flags
  lcm := announced i.flags i.colorMap
  rdb := some i.raster
  gce := gce
  indices := indices

def StoresExtension (stored : Bytes) (e : Extension) : Prop :=
  stored = e.bytes ∨ stored = e.bytes.dropLast

structure RecordsImage (frame : GifFrame) (i : Image × Option Extension) : Prop where
  ld : frame.ld = i.1.descriptor
  lcm : frame.lcm = announced i.1.flags i.1.colorMap
  rdb : frame.rdb = some i.1.raster
  gce : Option.Rel StoresExtension frame.gce i.2

section Parsing

variable (garbage : Tables) (beyond : Nat → UInt8)

/-- `GetGIFFrame` returns for the image. -/
def Image.Decodes (i : Image) : Prop :=
  ∃ fuel indices, getGIFFrame garbage beyond fuel (i.frame none none) = .ok indices

/-- From `s₀` the blocks of the stream are parsed, one turn for each, and it ends with `s`. -/
structure Parses (fuel : Nat) (file : Bytes) (g : GifStream) (s₀ s : Parser) : Prop where
  consumes : ∀ before block after, g.blocks = before ++ block :: after →
    ∃ s₁ s₂, Trail (parseBlock garbage beyond fuel file) s₀ s₁ ∧
      Moves (parseBlock garbage beyond fuel file) s₁ s₂ ∧
      s₁.offset = g.head.length + (before.flatMap Block.bytes).length ∧
      s₂.offset = s₁.offset + block.bytes.length
  offset : s.offset = g.bytes.length
  ext : List.Forall₂ StoresExtension s.out.ext (g.blocks.filterMap Block.extension?)
  frames : List.Forall₂ RecordsImage s.out.frames (imagesOf none g.blocks)

/-- The file, which is the stream and what may come behind it, is parsed block for block. -/
def ParsesRight (g : GifStream) (rest : Bytes) : Prop :=
  ∃ fuel s₀ s, openHeader (g.bytes ++ rest) = some (.inl s₀) ∧
    openGIF garbage beyond fuel (g.bytes ++ rest) = some (.ok (some s)) ∧
    Parses garbage beyond fuel (g.bytes ++ rest) g s₀ s

end Parsing

/-! ## Images -/

section Images

variable {garbage : Tables} {beyond : Nat → UInt8} {fuel : Nat} {file : Bytes}

theorem getGIFFrame_frame (i : Image) (gce indices : Option Bytes) :
    getGIFFrame garbage beyond fuel (i.frame gce indices) =
      getGIFFrame garbage beyond fuel (i.frame none none) := rfl

theorem raster_of_prefix {i : Image} {rdbStart : Nat} (hi : i.WellFormed)
    (h : i.raster <+: file.drop rdbStart) :
    (skipSubBlocks file (file.length + 1) (rdbStart + 1, 0)).1 = rdbStart + i.raster.length ∧
      readSocket file rdbStart (rdbStart + i.raster.length - rdbStart) = some i.raster := by
  have hdata : subBlocksBytes i.data <+: file.drop (rdbStart + 1) :=
    (prefix_of_append (a := [i.codeSize]) h).2
  have hskip := skipSubBlocks_of_prefix 0 hdata hi.data
    (show file.length < rdbStart + 1 + (file.length + 1) by omega)
  refine ⟨?_, ?_⟩
  · rw [hskip, Image.raster, List.length_cons]
    omega
  · rw [Nat.add_sub_cancel_left]
    exact readSocket_of_prefix h (List.cons_ne_nil _ _)

theorem parseBlock_of_image {i : Image} {s : Parser} (hi : i.WellFormed)
    (h : i.bytes <+: file.drop s.offset) :
    parseBlock garbage beyond fuel file s =
      parseRaster garbage beyond fuel file s i.descriptor
        (s.offset + i.descriptor.length + i.colorMap.length) (announcedLength i.flags)
        (announced i.flags i.colorMap) := by
  obtain ⟨hdescriptor, hrest⟩ := prefix_of_append h
  obtain ⟨hmap, -⟩ := prefix_of_append hrest
  have hne : i.descriptor ≠ [] := by
    intro hnil
    have hmagic := hi.magic
    rw [hnil] at hmagic
    cases hmagic
  have hsentinel : readByte file s.offset = some localImageDescriptorMagic := by
    obtain ⟨magic, fields, hcons⟩ := List.exists_cons_of_ne_nil hne
    have hmagic := hi.magic
    rw [hcons] at hdescriptor hmagic
    cases hmagic
    exact readByte_of_prefix hdescriptor
  have hread := readSocket_of_prefix hdescriptor hne
  have hcolors := readColorMap_of_prefix hmap hi.colorMap
  rw [hi.descriptor] at hread hcolors
  have hnot : localImageDescriptorMagic ≠ extensionBlockMagic := by decide
  rw [parseBlock, hsentinel]
  simp only [if_neg hnot, if_pos]
  rw [parseImage, hread]
  simp only
  rw [show fieldNat i.descriptor 9 1 = i.flags from rfl, hcolors, hi.descriptor]

theorem parseBlock_of_decoded {i : Image} {s : Parser} {indices : Option Bytes}
    (hi : i.WellFormed) (h : i.bytes <+: file.drop s.offset)
    (hdecode : getGIFFrame garbage beyond fuel (i.frame none none) = .ok indices) :
    parseBlock garbage beyond fuel file s =
      .inl
        { out := s.out.record (i.frame s.activeGCE indices)
          offset := s.offset + i.bytes.length
          activeGCE := none } := by
  have hraster := (prefix_of_append (prefix_of_append h).2).2
  obtain ⟨hskip, hread⟩ := raster_of_prefix hi hraster
  rw [← getGIFFrame_frame i s.activeGCE none, Image.frame] at hdecode
  rw [parseBlock_of_image hi h, parseRaster]
  simp only [hskip, hread, hdecode]
  simp [Image.frame, Image.bytes, Nat.add_assoc]

theorem parseBlock_of_fault {i : Image} {s : Parser} {fault : FrameFault}
    (hi : i.WellFormed) (h : i.bytes <+: file.drop s.offset)
    (hdecode : getGIFFrame garbage beyond fuel (i.frame none none) = .error fault) :
    parseBlock garbage beyond fuel file s = .inr (.error fault) := by
  have hraster := (prefix_of_append (prefix_of_append h).2).2
  obtain ⟨hskip, hread⟩ := raster_of_prefix hi hraster
  rw [← getGIFFrame_frame i s.activeGCE none, Image.frame] at hdecode
  rw [parseBlock_of_image hi h, parseRaster]
  simp only [hskip, hread, hdecode]

@[simp] theorem record_frames (out : GifDescriptionSpace) (frame : GifFrame) :
    (out.record frame).frames = out.frames ++ [frame] := by
  rw [GifDescriptionSpace.record]
  split
  · next hnone => simp [hnone]
  · rfl

@[simp] theorem record_ext (out : GifDescriptionSpace) (frame : GifFrame) :
    (out.record frame).ext = out.ext := by
  rw [GifDescriptionSpace.record]
  split <;> rfl

/-- From `s` to `s'` the images were passed over and recorded. -/
structure Passed (images : List Image) (s s' : Parser) : Prop where
  offset : s'.offset = s.offset + (images.flatMap Image.bytes).length
  ext : s'.out.ext = s.out.ext
  frames : ∃ frames, s'.out.frames = s.out.frames ++ frames ∧
    List.Forall₂ RecordsImage frames (images.map fun i => (i, none))
  activeGCE : s'.activeGCE = none

theorem Passed.refl {s : Parser} (h : s.activeGCE = none) : Passed [] s s where
  offset := rfl
  ext := rfl
  frames := ⟨[], by simp, .nil⟩
  activeGCE := h

theorem Passed.cons {i : Image} {images : List Image} {s s' : Parser} {indices : Option Bytes}
    (h : Passed images
      { out := s.out.record (i.frame none indices)
        offset := s.offset + i.bytes.length
        activeGCE := none } s') : Passed (i :: images) s s' := by
  obtain ⟨frames, hframes, hrecords⟩ := h.frames
  refine ⟨?_, ?_, ⟨i.frame none indices :: frames, ?_, ?_⟩, h.activeGCE⟩
  · rw [h.offset, List.flatMap_cons, List.length_append, Nat.add_assoc]
  · rw [h.ext, record_ext]
  · rw [hframes, record_frames, List.append_assoc]
    rfl
  · exact .cons ⟨rfl, rfl, rfl, .none⟩ hrecords

theorem trail_of_images {images : List Image} {s : Parser} (hactive : s.activeGCE = none)
    (himages : ∀ i ∈ images, i.WellFormed)
    (h : images.flatMap Image.bytes <+: file.drop s.offset)
    (hdecode : ∀ i ∈ images, ∃ indices,
      getGIFFrame garbage beyond fuel (i.frame none none) = .ok indices) :
    ∃ s', Trail (parseBlock garbage beyond fuel file) s s' ∧ Passed images s s' ∧
      ∀ turns, follow (parseBlock garbage beyond fuel file) (images.length + turns) s =
        follow (parseBlock garbage beyond fuel file) turns s' := by
  induction images generalizing s with
  | nil => exact ⟨s, .refl, .refl hactive, fun turns => by rw [List.length_nil, Nat.zero_add]⟩
  | cons i images ih =>
      rw [List.flatMap_cons] at h
      obtain ⟨himage, hrest⟩ := prefix_of_append h
      obtain ⟨indices, hindices⟩ := hdecode i (List.mem_cons_self ..)
      have hmove := parseBlock_of_decoded (himages i (List.mem_cons_self ..)) himage hindices
      rw [hactive] at hmove
      obtain ⟨s', htrail, hpassed, hturns⟩ := @ih
        { out := s.out.record (i.frame none indices)
          offset := s.offset + i.bytes.length
          activeGCE := none }
        rfl (fun j hj => himages j (List.mem_cons_of_mem _ hj)) hrest
        (fun j hj => hdecode j (List.mem_cons_of_mem _ hj))
      refine ⟨s', .head hmove htrail, hpassed.cons, ?_⟩
      intro turns
      rw [List.length_cons, Nat.add_right_comm, follow_of_moves hmove, hturns]

theorem decoded_of_follow {images : List Image} {s result : Parser} {turns : Nat}
    (himages : ∀ i ∈ images, i.WellFormed)
    (h : images.flatMap Image.bytes <+: file.drop s.offset)
    (hfollow : follow (parseBlock garbage beyond fuel file) turns s = some (.ok result)) :
    ∀ i ∈ images, ∃ indices,
      getGIFFrame garbage beyond fuel (i.frame none none) = .ok indices := by
  induction images generalizing s turns with
  | nil => simp
  | cons i images ih =>
      rw [List.flatMap_cons] at h
      obtain ⟨himage, hrest⟩ := prefix_of_append h
      have hi := himages i (List.mem_cons_self ..)
      cases turns with
      | zero => cases hfollow
      | succ turns =>
          cases hdecode : getGIFFrame garbage beyond fuel (i.frame none none) with
          | error fault =>
              rw [follow_of_answer (parseBlock_of_fault hi himage hdecode)] at hfollow
              cases hfollow
          | ok indices =>
              rw [follow_of_moves (parseBlock_of_decoded hi himage hdecode)] at hfollow
              have hlater := @ih
                { out := s.out.record (i.frame s.activeGCE indices)
                  offset := s.offset + i.bytes.length
                  activeGCE := none }
                _ (fun j hj => himages j (List.mem_cons_of_mem _ hj)) hrest hfollow
              rintro j (_ | ⟨_, hj⟩)
              · exact ⟨indices, hdecode⟩
              · exact hlater j hj

end Images

/-! ## Extensions -/

section Extensions

variable {garbage : Tables} {beyond : Nat → UInt8} {fuel : Nat} {file : Bytes}

theorem skipSubBlocks_cases {turns off size : Nat} (hsize : size ≤ off)
    (hturns : file.length < off + turns) :
    size ≤ (skipSubBlocks file turns (off, size)).2 ∧
      (((skipSubBlocks file turns (off, size)).1 =
            (off - size) + 1 + (skipSubBlocks file turns (off, size)).2 ∧
          (skipSubBlocks file turns (off, size)).1 ≤ file.length) ∨
        ((skipSubBlocks file turns (off, size)).1 =
            (off - size) + (skipSubBlocks file turns (off, size)).2 ∧
          file.length ≤ (skipSubBlocks file turns (off, size)).1)) := by
  induction turns generalizing off size with
  | zero =>
      rw [skipSubBlocks]
      exact ⟨Nat.le_refl _, .inr ⟨by omega, by omega⟩⟩
  | succ turns ih =>
      rw [skipSubBlocks, readByte_eq]
      cases hbyte : file[off]? with
      | none =>
          have hend := List.getElem?_eq_none_iff.mp hbyte
          exact ⟨Nat.le_refl _, .inr ⟨by dsimp only; omega, hend⟩⟩
      | some subLen =>
          have hinside := (List.getElem?_eq_some_iff.mp hbyte).1
          dsimp only
          split
          · exact ⟨Nat.le_refl _, .inl ⟨by dsimp only; omega, hinside⟩⟩
          · have hstart : off + 1 + subLen.toNat - (size + 1 + subLen.toNat) = off - size := by
              omega
            have hrest := @ih (off + 1 + subLen.toNat) (size + 1 + subLen.toNat) (by omega)
              (by omega)
            rw [hstart] at hrest
            exact ⟨by omega, hrest.2⟩

theorem readSocket_of_place {start : Nat} {place : Nat × Nat} (hpos : 0 < place.2)
    (hplace : (place.1 = start + 1 + place.2 ∧ place.1 ≤ file.length) ∨
      (place.1 = start + place.2 ∧ file.length ≤ place.1)) :
    (readSocket file (place.1 - place.2) place.2 = none ∧ file.length < place.1) ∨
      ∃ stored, readSocket file (place.1 - place.2) place.2 = some stored ∧
        (stored <+: file.drop (start + 1) ∨ stored.length = file.length - start) := by
  rcases hplace with ⟨hlate, hinside⟩ | ⟨hat, hend⟩
  · have hstart : place.1 - place.2 = start + 1 := by omega
    rw [hstart, readSocket, if_pos ⟨by omega, by omega⟩]
    exact .inr ⟨_, rfl, .inl (List.take_prefix _ _)⟩
  · have hstart : place.1 - place.2 = start := by omega
    rw [hstart, readSocket]
    split
    · next hread =>
      refine .inr ⟨_, rfl, .inr ?_⟩
      rw [length_slice _ hread.2]
      omega
    · next hread => exact .inl ⟨rfl, by omega⟩

theorem parseBlock_of_extension {e : Extension} {s : Parser}
    (h : e.bytes <+: file.drop s.offset) :
    ∃ s', parseBlock garbage beyond fuel file s = .inl s' ∧
      ((s'.out.ext = s.out.ext ∧ file.length < s'.offset) ∨
        ∃ stored, s'.out.ext = s.out.ext ++ [stored] ∧
          (stored <+: file.drop (s.offset + 1) ∨ stored.length = file.length - s.offset)) := by
  have hlength := h.length_le
  have hthree : sizeofExtensionBlock ≤ e.bytes.length := by
    simp [Extension.bytes, subBlocksBytes, sizeofExtensionBlock]
  rw [List.length_drop] at hlength
  have hpos : 0 < sizeofExtensionBlock := by decide
  have hhdr : readSocket file s.offset sizeofExtensionBlock =
      some (slice file s.offset sizeofExtensionBlock) := if_pos ⟨by omega, by omega⟩
  let firstSize :=
    sizeofExtensionBlock + fieldNat (slice file s.offset sizeofExtensionBlock) 2 1
  obtain ⟨hle, hplace⟩ := @skipSubBlocks_cases file (file.length + 1) (s.offset + firstSize)
    firstSize (Nat.le_add_left _ _) (by omega)
  rw [Nat.add_sub_cancel] at hplace
  rw [parseBlock, readByte_of_prefix h]
  simp only [if_pos]
  rw [parseExtension, hhdr]
  rcases readSocket_of_place (by omega) hplace with ⟨hread, hend⟩ | ⟨stored, hread, hstored⟩
  · simp only [firstSize] at hread hend
    simp only [hread]
    exact ⟨_, rfl, .inl ⟨rfl, hend⟩⟩
  · simp only [firstSize] at hread
    simp only [hread]
    exact ⟨_, rfl, .inr ⟨stored, rfl, hstored⟩⟩

theorem cons_eq_snoc {a b : UInt8} {l : Bytes} (h : a :: l = l ++ [b]) : a = b := by
  induction l with
  | nil => exact (List.cons.inj h).1
  | cons x l ih =>
      obtain ⟨rfl, hrest⟩ := List.cons.inj h
      exact ih hrest

theorem Extension.bytes_eq (e : Extension) :
    ∃ inner, e.bytes = extensionBlockMagic :: (inner ++ [0]) :=
  ⟨e.label :: e.data.flatMap subBlockBytes, rfl⟩

theorem not_storesExtension {e : Extension} {stored rest : Bytes} {off : Nat} (hne : rest ≠ [])
    (h : e.bytes ++ rest <+: file.drop off)
    (hstored : stored <+: file.drop (off + 1) ∨ stored.length = file.length - off) :
    ¬ StoresExtension stored e := by
  intro hright
  obtain ⟨inner, hbytes⟩ := e.bytes_eq
  rcases hstored with hlate | hend
  · have hdropped : extensionBlockMagic :: inner <+: stored := by
      have hlast : e.bytes.dropLast = extensionBlockMagic :: inner := by
        rw [hbytes, ← List.cons_append, List.dropLast_concat]
      rw [← hlast]
      rcases hright with rfl | rfl
      · exact List.dropLast_prefix _
      · exact List.prefix_rfl
    have htail : inner ++ [0] <+: file.drop (off + 1) := by
      rw [hbytes] at h
      exact (prefix_of_append (a := [extensionBlockMagic]) (prefix_of_append h).1).2
    have hsame : extensionBlockMagic :: inner = inner ++ [0] :=
      (List.prefix_of_prefix_length_le (hdropped.trans hlate) htail (by simp)).eq_of_length
        (by simp)
    exact absurd (cons_eq_snoc hsame) (by decide)
  · have hlength := h.length_le
    have hpos := List.length_pos_iff.mpr hne
    rw [List.length_append, List.length_drop] at hlength
    rcases hright with rfl | rfl
    · omega
    · rw [List.length_dropLast] at hend
      omega

theorem ext_of_moves {s s' : Parser}
    (h : Moves (parseBlock garbage beyond fuel file) s s') : s.out.ext <+: s'.out.ext := by
  rw [Moves, parseBlock] at h
  split at h
  · cases h
  · split at h
    · rw [parseExtension] at h
      split at h
      · cases h
      · dsimp only at h
        split at h
        · cases h
          exact List.prefix_rfl
        · cases h
          exact List.prefix_append _ _
    · split at h
      · rw [parseImage] at h
        split at h
        · cases h
        · split at h
          · cases h
          · rw [parseRaster] at h
            dsimp only at h
            split at h
            · cases h
            · cases h
              simp
      · split at h <;> cases h

theorem ext_of_answer {s s' : Parser}
    (h : parseBlock garbage beyond fuel file s = .inr (.ok s')) : s'.out.ext = s.out.ext := by
  rw [parseBlock] at h
  split at h
  · cases h
    rfl
  · split at h
    · rw [parseExtension] at h
      split at h
      · cases h
        rfl
      · dsimp only at h
        split at h <;> cases h
    · split at h
      · rw [parseImage] at h
        split at h
        · cases h
          rfl
        · split at h
          · cases h
            rfl
          · rw [parseRaster] at h
            dsimp only at h
            split at h <;> cases h
      · split at h <;>
        · cases h
          rfl

theorem ext_of_follow {s result : Parser} {turns : Nat}
    (h : follow (parseBlock garbage beyond fuel file) turns s = some (.ok result)) :
    s.out.ext <+: result.out.ext := by
  obtain ⟨last, htrail, hanswer⟩ := follow_eq_some_iff.mp ⟨turns, h⟩
  rw [ext_of_answer hanswer]
  clear hanswer h
  induction htrail with
  | refl => exact List.prefix_rfl
  | tail _ hmove ih => exact ih.trans (ext_of_moves hmove)

theorem parseBlock_behind {s : Parser} (h : file.length < s.offset) :
    parseBlock garbage beyond fuel file s = .inr (.ok s) := by
  rw [parseBlock, readByte_eq, List.getElem?_eq_none (Nat.le_of_lt h)]

theorem not_stored_of_extension {e : Extension} {rest : Bytes} {s result : Parser} {turns : Nat}
    {stores : List Extension} (hne : rest ≠ []) (h : e.bytes ++ rest <+: file.drop s.offset)
    (hnone : s.out.ext = [])
    (hfollow : follow (parseBlock garbage beyond fuel file) turns s = some (.ok result)) :
    ¬ List.Forall₂ StoresExtension result.out.ext (e :: stores) := by
  intro hright
  obtain ⟨s', hmove, hstored⟩ :=
    @parseBlock_of_extension garbage beyond fuel _ _ _ (prefix_of_append h).1
  obtain ⟨turns', hfollow'⟩ := follow_along (.single hmove) hfollow
  rcases hstored with ⟨hext, hbehind⟩ | ⟨stored, hext, hwrong⟩
  · cases turns' with
    | zero => cases hfollow'
    | succ turns' =>
        rw [follow_of_answer (parseBlock_behind hbehind)] at hfollow'
        cases hfollow'
        rw [hext, hnone] at hright
        cases hright
  · obtain ⟨later, hlater⟩ := ext_of_follow hfollow'
    rw [← hlater, hext, hnone] at hright
    cases hright with
    | cons hfirst _ => exact not_storesExtension hne h hwrong hfirst

end Extensions

/-! ## A whole stream -/

section Streams

variable {garbage : Tables} {beyond : Nat → UInt8} {g : GifStream} {rest : Bytes}

theorem images_or_extension (blocks : List Block) :
    (∃ images : List Image, blocks = images.map Block.image) ∨
      ∃ (images : List Image) (e : Extension) (after : List Block),
        blocks = images.map Block.image ++ .extension e :: after := by
  induction blocks with
  | nil => exact .inl ⟨[], rfl⟩
  | cons block blocks ih =>
      cases block with
      | extension e => exact .inr ⟨[], e, blocks, rfl⟩
      | image i =>
          rcases ih with ⟨images, rfl⟩ | ⟨images, e, after, rfl⟩
          · exact .inl ⟨i :: images, rfl⟩
          · exact .inr ⟨i :: images, e, after, rfl⟩

theorem flatMap_images (images : List Image) :
    (images.map Block.image).flatMap Block.bytes = images.flatMap Image.bytes := by
  rw [List.flatMap_map]
  rfl

theorem extensions_images (images : List Image) :
    (images.map Block.image).filterMap Block.extension? = [] := by
  simp [Block.extension?]

theorem imagesOf_images (images : List Image) :
    imagesOf none (images.map Block.image) = images.map fun i => (i, none) := by
  induction images with
  | nil => rfl
  | cons i images ih =>
      rw [List.map_cons, imagesOf, ih]
      rfl

theorem openHeader_of_prefix {file : Bytes} (hg : g.WellFormed) (h : g.head <+: file.drop 0) :
    ∃ s₀, openHeader file = some (.inl s₀) ∧ s₀.offset = g.head.length ∧ s₀.out.ext = [] ∧
      s₀.out.frames = [] ∧ s₀.activeGCE = none := by
  obtain ⟨hheader, hafter⟩ := prefix_of_append h
  obtain ⟨hscreen, hmap⟩ := prefix_of_append hafter
  have hheader' := readSocket_of_prefix hheader (by
    intro hnil
    have hlength := hg.header
    rw [hnil] at hlength
    cases hlength)
  have hscreen' := readSocket_of_prefix hscreen (by
    intro hnil
    have hlength := hg.screen
    rw [hnil] at hlength
    cases hlength)
  have hmap' := readColorMap_of_prefix hmap hg.colorMap
  rw [hg.header] at hheader' hscreen' hmap'
  rw [hg.screen] at hscreen' hmap'
  rw [Nat.zero_add] at hscreen' hmap'
  refine ⟨⟨⟨g.header, some g.screen, announcedLength g.flags, announced g.flags g.colorMap,
    [], [], none, 0, none, none⟩, g.head.length, none⟩, ?_, rfl, rfl, rfl, rfl⟩
  · rw [openHeader, hheader', Option.bind_some, if_neg (not_not.mpr hg.signature), hscreen']
    dsimp only
    rw [show fieldNat g.screen 4 1 = g.flags from rfl, hmap']
    simp [GifStream.head, hg.header, hg.screen, Nat.add_assoc]

theorem decodeIndices_mono {raster : Nat → UInt8} {width height fuel fuel' : Nat}
    {result : Except DecoderFault Bytes}
    (h : decodeIndices raster width height garbage fuel = some result) (hle : fuel ≤ fuel') :
    decodeIndices raster width height garbage fuel' = some result := by
  rw [decodeIndices] at h ⊢
  cases hstart : startDecoder raster width height garbage with
  | error fault =>
      rw [hstart] at h
      exact h
  | ok started =>
      rw [hstart] at h
      simp only [Option.map_eq_some_iff] at h ⊢
      obtain ⟨last, hfollow, hlast⟩ := h
      exact ⟨last, follow_mono hfollow hle, hlast⟩

theorem getGIFFrame_mono {frame : GifFrame} {fuel fuel' : Nat} {indices : Option Bytes}
    (h : getGIFFrame garbage beyond fuel frame = .ok indices) (hle : fuel ≤ fuel') :
    getGIFFrame garbage beyond fuel' frame = .ok indices := by
  rw [getGIFFrame] at h ⊢
  cases hrdb : frame.rdb with
  | none =>
      rw [hrdb] at h
      exact h
  | some rdb =>
      rw [hrdb] at h
      simp only [Option.elim_some] at h ⊢
      split at h
      · next hempty => rwa [if_pos hempty]
      · next hsize =>
        rw [if_neg hsize]
        cases hdecode : decodeIndices (fun i => rdb.getD i (beyond i)) (fieldNat frame.ld 5 2)
            (fieldNat frame.ld 7 2) garbage fuel with
        | none =>
            rw [hdecode] at h
            cases h
        | some result =>
            rw [hdecode] at h
            rwa [decodeIndices_mono hdecode hle]

theorem exists_fuel {images : List Image} (h : ∀ i ∈ images, i.Decodes garbage beyond)
    (turns : Nat) :
    ∃ fuel, turns ≤ fuel ∧ ∀ i ∈ images, ∃ indices,
      getGIFFrame garbage beyond fuel (i.frame none none) = .ok indices := by
  induction images with
  | nil => exact ⟨turns, Nat.le_refl _, by simp⟩
  | cons i images ih =>
      obtain ⟨fuel, hle, hrest⟩ := ih fun j hj => h j (List.mem_cons_of_mem _ hj)
      obtain ⟨fuel', indices, hfirst⟩ := h i (List.mem_cons_self ..)
      refine ⟨max fuel fuel', hle.trans (Nat.le_max_left _ _), ?_⟩
      rintro j (_ | ⟨_, hj⟩)
      · exact ⟨indices, getGIFFrame_mono hfirst (Nat.le_max_right _ _)⟩
      · obtain ⟨indices', hindices⟩ := hrest j hj
        exact ⟨indices', getGIFFrame_mono hindices (Nat.le_max_left _ _)⟩

theorem GifStream.WellFormed.image_of_mem {images : List Image} (hg : g.WellFormed)
    (h : ∀ i ∈ images, Block.image i ∈ g.blocks) : ∀ i ∈ images, i.WellFormed :=
  fun i hi => hg.blocks (.image i) (h i hi)

theorem stream_in_file (g : GifStream) (rest : Bytes) :
    g.head <+: (g.bytes ++ rest).drop 0 ∧
      g.blocks.flatMap Block.bytes ++ (trailer :: rest) <+:
        (g.bytes ++ rest).drop g.head.length := by
  have hwhole : g.head ++ (g.blocks.flatMap Block.bytes ++ (trailer :: rest)) <+:
      (g.bytes ++ rest).drop 0 := by
    simp [GifStream.bytes]
  have hsplit := prefix_of_append hwhole
  rwa [Nat.zero_add] at hsplit

theorem parsesRight_of_images {images : List Image} (hg : g.WellFormed)
    (hblocks : g.blocks = images.map Block.image)
    (hdecode : ∀ i ∈ images, i.Decodes garbage beyond) :
    ParsesRight garbage beyond g rest := by
  obtain ⟨hhead, hbody⟩ := stream_in_file g rest
  rw [hblocks, flatMap_images] at hbody
  obtain ⟨himages, hend⟩ := prefix_of_append hbody
  obtain ⟨s₀, hopen, hoffset, hext, hframes, hactive⟩ := openHeader_of_prefix hg hhead
  obtain ⟨fuel, hfuel, hindices⟩ := exists_fuel hdecode (images.length + 1)
  have hwell : ∀ i ∈ images, i.WellFormed := hg.image_of_mem (by simp [hblocks])
  rw [← hoffset] at himages hend
  obtain ⟨s', htrail, hpassed, hturns⟩ := trail_of_images hactive hwell himages hindices
  have hstop : parseBlock garbage beyond fuel (g.bytes ++ rest) s' =
      .inr (.ok { s' with offset := s'.offset + 1 }) := by
    rw [← hpassed.offset] at hend
    rw [parseBlock, readByte_of_prefix hend]
    rfl
  obtain ⟨more, hmore⟩ := Nat.exists_eq_add_of_le' (show 1 ≤ fuel - images.length by omega)
  have hfollow := hturns (fuel - images.length)
  rw [Nat.add_sub_cancel' (by omega), hmore, follow_of_answer hstop] at hfollow
  refine ⟨fuel, s₀, { s' with offset := s'.offset + 1 }, hopen, ?_, ?_, ?_, ?_, ?_⟩
  · rw [openGIF, hopen]
    dsimp only
    rw [hfollow]
    rfl
  · intro before block after hsplit
    rw [hblocks] at hsplit
    obtain ⟨images₁, images₂, rfl, rfl, hcons⟩ := List.map_eq_append_iff.mp hsplit
    obtain ⟨i, images₂, rfl, rfl, -⟩ := List.map_eq_cons_iff.mp hcons
    rw [List.flatMap_append, List.flatMap_cons] at himages
    obtain ⟨himages₁, hrest⟩ := prefix_of_append himages
    obtain ⟨s₁, htrail₁, hpassed₁, -⟩ := trail_of_images hactive
      (fun j hj => hwell j (List.mem_append_left _ hj)) himages₁
      (fun j hj => hindices j (List.mem_append_left _ hj))
    have hi : i ∈ images₁ ++ i :: images₂ := by simp
    obtain ⟨indices, hdecoded⟩ := hindices i hi
    rw [← hpassed₁.offset] at hrest
    refine ⟨s₁, _, htrail₁,
      parseBlock_of_decoded (hwell i hi) (prefix_of_append hrest).1 hdecoded, ?_, rfl⟩
    rw [hpassed₁.offset, hoffset, flatMap_images]
  · dsimp only
    rw [hpassed.offset, hoffset, GifStream.bytes, hblocks, flatMap_images]
    simp [Nat.add_assoc]
  · rw [hblocks, extensions_images, hpassed.ext, hext]
    exact .nil
  · obtain ⟨frames, happend, hrecords⟩ := hpassed.frames
    rw [hframes, List.nil_append] at happend
    rw [hblocks, imagesOf_images, happend]
    exact hrecords

theorem ParsesRight.follows (hg : g.WellFormed) (h : ParsesRight garbage beyond g rest) :
    ∃ fuel s₀ s, s₀.offset = g.head.length ∧ s₀.out.ext = [] ∧ s₀.activeGCE = none ∧
      follow (parseBlock garbage beyond fuel (g.bytes ++ rest)) fuel s₀ = some (.ok s) ∧
      List.Forall₂ StoresExtension s.out.ext (g.blocks.filterMap Block.extension?) := by
  obtain ⟨fuel, s₀, s, hopen, hresult, hparses⟩ := h
  obtain ⟨s₀', hopen', hoffset, hext, -, hactive⟩ :=
    openHeader_of_prefix hg (stream_in_file g rest).1
  cases hopen.symm.trans hopen'
  rw [openGIF, hopen] at hresult
  dsimp only at hresult
  obtain ⟨result, hfollow, hmap⟩ := Option.map_eq_some_iff.mp hresult
  cases result with
  | error fault => cases hmap
  | ok result =>
      cases hmap
      exact ⟨fuel, s₀, s, hoffset, hext, hactive, hfollow, hparses.ext⟩

theorem not_parsesRight_of_extension {images : List Image} {e : Extension} {after : List Block}
    (hg : g.WellFormed) (hblocks : g.blocks = images.map Block.image ++ .extension e :: after) :
    ¬ ParsesRight garbage beyond g rest := by
  intro h
  obtain ⟨fuel, s₀, s, hoffset, hext, hactive, hfollow, hstores⟩ := h.follows hg
  have hbody := (stream_in_file g rest).2
  rw [← hoffset, hblocks, List.flatMap_append, flatMap_images, List.flatMap_cons] at hbody
  simp only [List.append_assoc] at hbody
  obtain ⟨himages, hextension⟩ := prefix_of_append hbody
  have hwell : ∀ i ∈ images, i.WellFormed := hg.image_of_mem (by simp +contextual [hblocks])
  have hdecoded := decoded_of_follow hwell himages hfollow
  obtain ⟨s₁, htrail, hpassed, -⟩ := trail_of_images hactive hwell himages hdecoded
  obtain ⟨turns, hfollow₁⟩ := follow_along htrail hfollow
  have hnone : s₁.out.ext = [] := by rw [hpassed.ext, hext]
  rw [← hpassed.offset] at hextension
  rw [hblocks, List.filterMap_append, extensions_images] at hstores
  exact not_stored_of_extension (by simp) hextension hnone hfollow₁ hstores

/--
A stream is parsed as it should be exactly when it has no extensions, and its images are
those that `GetGIFFrame` returns for.
-/
theorem parsesRight_iff (hg : g.WellFormed) :
    ParsesRight garbage beyond g rest ↔
      ∃ images : List Image, g.blocks = images.map Block.image ∧
        ∀ i ∈ images, i.Decodes garbage beyond := by
  constructor
  · intro h
    rcases images_or_extension g.blocks with
      ⟨images, hblocks⟩ | ⟨images, e, after, hblocks⟩
    · obtain ⟨fuel, s₀, s, hoffset, -, -, hfollow, -⟩ := h.follows hg
      have hbody := (stream_in_file g rest).2
      rw [← hoffset, hblocks, flatMap_images] at hbody
      have hwell : ∀ i ∈ images, i.WellFormed := hg.image_of_mem (by simp [hblocks])
      have hdecoded := decoded_of_follow hwell (prefix_of_append hbody).1 hfollow
      refine ⟨images, hblocks, fun i hi => ?_⟩
      obtain ⟨indices, hindices⟩ := hdecoded i hi
      exact ⟨fuel, indices, hindices⟩
    · exact absurd h (not_parsesRight_of_extension hg hblocks)
  · rintro ⟨images, hblocks, hdecode⟩
    exact parsesRight_of_images hg hblocks hdecode

end Streams

/-- A graphic control extension, and an image of a single pixel. -/
def sampleStream : GifStream where
  header := [0x47, 0x49, 0x46, 0x38, 0x39, 0x61]
  screen := [1, 0, 1, 0, 0, 0, 0]
  colorMap := []
  blocks :=
    [.extension ⟨0xF9, [[0, 0, 0, 0]]⟩,
      .image ⟨[0x2C, 0, 0, 0, 0, 1, 0, 1, 0, 0], [], 2, [[41]]⟩]

theorem wellFormed_sampleStream : sampleStream.WellFormed where
  header := rfl
  signature := rfl
  screen := rfl
  colorMap := by decide
  blocks := by
    rintro block (_ | ⟨_, _ | ⟨_, ⟨⟩⟩⟩)
    · exact ⟨by decide⟩
    · exact ⟨rfl, rfl, by decide, by decide⟩

theorem parsesRight_sampleStream :
    ParsesRight blankTables (fun _ => 0) sampleStream [] ↔
      ∃ images : List Image, sampleStream.blocks = images.map Block.image ∧
        ∀ i ∈ images, i.Decodes blankTables (fun _ => 0) :=
  parsesRight_iff wellFormed_sampleStream

/-- Its extension is stored from `F9` on. -/
theorem not_parsesRight_sampleStream : ¬ ParsesRight blankTables (fun _ => 0) sampleStream [] :=
  @not_parsesRight_of_extension _ _ _ _ [] _ _ wellFormed_sampleStream rfl

end BlockyOS.Boot.Gif
