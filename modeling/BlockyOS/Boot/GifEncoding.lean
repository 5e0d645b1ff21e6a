import BlockyOS.Boot.GifFormat
import BlockyOS.Boot.GifStrings
import BlockyOS.Foundation.BitStreams

/-!
# Decoding what was encoded

What the decoder makes of an encoding is the frame, as far as it gets: it gives up at
the first code that does not start four bytes before the end of the data it has room
for.
-/

namespace BlockyOS.Boot.Gif

open BlockyOS.Foundation BlockyOS.Foundation.Lzw

/-- The bytes are in memory from `ptr` on. -/
def HoldsAt (memory : Nat → UInt8) : Nat → Bytes → Prop
  | _, [] => True
  | ptr, byte :: rest => memory ptr = byte ∧ HoldsAt memory (ptr + 1) rest

/-- The raster in memory encodes the frame, in these sub-blocks and with these codes. -/
structure Conforming (raster : Nat → UInt8) (width height : Nat) (frame : Bytes)
    (blocks : List Bytes) (tokens : List (Token UInt8)) : Prop where
  size : width < 2 ^ 16 ∧ height < 2 ^ 16
  pixels : 0 < width * height
  codeSize : 2 ≤ (raster 0).toNat ∧ (raster 0).toNat ≤ 8
  subBlock : ∀ block ∈ blocks, IsSubBlock block
  held : HoldsAt raster 1 (subBlocksBytes blocks)
  encodes : Encodes (rasterCoding (raster 0).toNat) .empty tokens
  packed : PackedAt (leNat blocks.flatten) 0 (written tokens)
  room : totalWidth tokens ≤ 8 * blocks.flatten.length
  text : text tokens = frame
  length : frame.length = width * height

/-- The decoded indices are those of the frame. -/
def DecodesRight (raster : Nat → UInt8) (width height : Nat) (garbage : Tables) (frame : Bytes) :
    Prop := ∃ fuel, decodeIndices raster width height garbage fuel = some (.ok frame)

/-! ## The data of the sub-blocks -/

section Data

variable {raster : Nat → UInt8}

theorem lzwBytes_of_holdsAt {blocks : List Bytes} (hblocks : ∀ block ∈ blocks, IsSubBlock block)
    {left : Bytes} {room ptr : Nat} (hheld : HoldsAt raster ptr (left ++ subBlocksBytes blocks)) :
    lzwBytes raster room ptr left.length = (left ++ blocks.flatten).take room := by
  induction room generalizing blocks left ptr with
  | zero => simp [lzwBytes]
  | succ room ih =>
      cases left with
      | cons byte left =>
          obtain ⟨hbyte, hrest⟩ := hheld
          rw [List.length_cons, lzwBytes, ih hblocks hrest, hbyte]
          rfl
      | nil =>
          cases blocks with
          | nil =>
              obtain ⟨hend, -⟩ := hheld
              simp [lzwBytes, hend]
          | cons block blocks =>
              obtain ⟨hne, hlength⟩ := hblocks block (List.mem_cons_self ..)
              cases block with
              | nil => exact absurd rfl hne
              | cons byte block =>
                  rw [List.nil_append, subBlocksBytes_cons] at hheld
                  obtain ⟨hhead, hbyte, hrest⟩ := hheld
                  have hcount : (raster ptr).toNat = block.length + 1 := by
                    rw [hhead]
                    exact UInt8.toNat_ofNat_of_lt' hlength
                  have hsome : raster ptr ≠ 0 := by
                    intro hzero
                    rw [hzero] at hcount
                    exact Nat.succ_ne_zero _ hcount.symm
                  have hstream := @ih _ (fun b hb => hblocks b (List.mem_cons_of_mem _ hb))
                    block _ hrest
                  simp [lzwBytes, hsome, hcount, hstream, hbyte]

end Data

/-! ## The whole raster -/

section Decoding

variable {r : Raster} {d : Dictionary UInt8} {s : Decoder} {data : Bytes} {room : Nat}
  {tokens : List (Token UInt8)}

theorem readCode_of_bitsAt (hm : Mirrors r d s)
    (hstream : r.lzwStream = data.take room) (hcode : HasCode r s) :
    readCode r s = .ok (bitsAt (leNat data) s.bitPos (r.coding.width d)) := by
  have hwidth : s.codeSize ≤ 12 := by
    rw [hm.codeSize]
    exact Nat.min_le_left _ _
  have hslice : slice (data.take room) (s.bitPos / 8) 4 = slice data (s.bitPos / 8) 4 := by
    have happend := @slice_append_left _ (data.take room) (data.drop room) (s.bitPos / 8) 4
      (by rw [← hstream]; exact hcode.2)
    rw [← happend, List.take_append_drop]
  rw [readCode, shiftOne_ok (by omega), ok_bind]
  simp only [hstream, hslice]
  rw [bitsAt_of_load data s.bitPos (by omega), hm.codeSize]

/-- The decoder has four bytes left at every code of `before`. -/
def Early (size : Nat) (before : List (Token UInt8)) : Prop :=
  ∀ a t b, before = a ++ t :: b → totalWidth a / 8 + 3 < size

/-- The bit position does not wrap as long as pixels are missing. -/
def NoWrap (size : Nat) (tokens : List (Token UInt8)) : Prop :=
  ∀ before after, tokens = before ++ after → text before ≠ text tokens →
    Early size before → totalWidth before < 2 ^ 32

/-- Every code that starts too late stands for zeros. -/
def LateZeros (size : Nat) (tokens : List (Token UInt8)) : Prop :=
  ∀ before t after, tokens = before ++ t :: after → size ≤ totalWidth before / 8 + 3 →
    ∀ pixel ∈ t.string, pixel = 0

theorem early_nil {size : Nat} : Early size [] := by
  intro a t b h
  simp at h

theorem Early.snoc {size : Nat} {before : List (Token UInt8)} {t : Token UInt8}
    (h : Early size before) (ht : totalWidth before / 8 + 3 < size) :
    Early size (before ++ [t]) := by
  intro a u b heq
  rcases List.eq_nil_or_concat b with rfl | ⟨b, last, rfl⟩
  · obtain ⟨rfl, -⟩ := List.append_inj' heq rfl
    exact ht
  · have hconcat : before ++ [t] = (a ++ u :: b) ++ [last] := by simpa using heq
    exact h a u b (List.append_inj' hconcat rfl).1

/-! ### One turn -/

section Turns

variable {code : Nat} {s' : Decoder}

theorem decodeStep_of_clear (hcode : HasCode r s) (hread : readCode r s = .ok r.clearCode)
    (hclear : clearTables r { s with bitPos := u32 (s.bitPos + s.codeSize) } = .ok s') :
    decodeStep r s = .inl s' := by
  simp [decodeStep, hcode, decodeCode, hread, ok_bind, hclear, Except.map]

theorem decodeStep_of_end (hcode : HasCode r s) (hread : readCode r s = .ok r.eoiCode) :
    decodeStep r s = .inr (.ok { s with bitPos := u32 (s.bitPos + s.codeSize) }) := by
  have hne : r.eoiCode ≠ r.clearCode := Nat.succ_ne_self _
  simp [decodeStep, hcode, decodeCode, hread, ok_bind, hne]

theorem decodeStep_of_emit (hcode : HasCode r s) (hread : readCode r s = .ok code)
    (hclear : code ≠ r.clearCode) (hend : code ≠ r.eoiCode)
    (hemit : emitCode r { s with bitPos := u32 (s.bitPos + s.codeSize) } code = .ok s') :
    decodeStep r s = .inl s' := by
  simp [decodeStep, hcode, decodeCode, hread, ok_bind, hclear, hend, hemit, Except.map]

end Turns

/-- The decoder has decoded the codes of `before`; those of `after` are still to come. -/
structure Decoded (r : Raster) (data : Bytes) (tokens before after : List (Token UInt8))
    (d : Dictionary UInt8) (s : Decoder) : Prop where
  split : tokens = before ++ after
  packed : PackedAt (leNat data) (totalWidth before) (written after)
  grown : Grown r.coding d
  mirrors : Mirrors r d s
  waiting : Waiting d s
  bitPos : s.bitPos = u32 (totalWidth before)
  indices : s.indices = text before
  early : Early r.lzwStream.length before

/-- The decoder has stopped with the text of `kept`, before the first code that is too late. -/
def Stopped (size : Nat) (tokens : List (Token UInt8)) (s : Decoder) : Prop :=
  ∃ kept lost, tokens = kept ++ lost ∧ s.indices = text kept ∧ Early size kept ∧
    (text lost = [] ∨ size ≤ totalWidth kept / 8 + 3)

section Runs

variable {before after : List (Token UInt8)} (htotal : (text tokens).length = r.totalPixels)
  (hstream : r.lzwStream = data.take room) (hnowrap : NoWrap r.lzwStream.length tokens)

theorem Decoded.text_after (h : Decoded r data tokens before after d s) :
    text before = text tokens ↔ text after = [] := by
  rw [h.split, text_append, eq_comm, List.append_right_eq_self]

include hnowrap in
theorem Decoded.pos_of_missing (h : Decoded r data tokens before after d s)
    (hmissing : text before ≠ text tokens) : s.bitPos = totalWidth before := by
  rw [h.bitPos, u32_of_lt (hnowrap before after h.split hmissing h.early)]

include htotal in
theorem Decoded.missing (h : Decoded r data tokens before after d s) (hcode : HasCode r s) :
    text before ≠ text tokens := by
  intro heq
  have hlt := hcode.1
  rw [h.indices, heq, htotal] at hlt
  exact Nat.lt_irrefl _ hlt

include htotal hnowrap in
theorem Decoded.stopped (h : Decoded r data tokens before after d s) (hcode : ¬ HasCode r s) :
    Stopped r.lzwStream.length tokens s := by
  refine ⟨before, after, h.split, h.indices, h.early, ?_⟩
  by_cases hmissing : text before = text tokens
  · exact .inl (h.text_after.mp hmissing)
  · have hpos := h.pos_of_missing hnowrap hmissing
    have hlt : s.indices.length < r.totalPixels := by
      have hne : text after ≠ [] := fun hnil => hmissing (h.text_after.mpr hnil)
      have hlength := congrArg List.length (congrArg text h.split)
      rw [text_append, List.length_append] at hlength
      have hpos := List.length_pos_iff.mpr hne
      rw [h.indices]
      omega
    rw [← hpos]
    exact .inr (Nat.le_of_not_lt fun hroom => hcode ⟨hlt, hroom⟩)

theorem Decoded.snoc {t : Token UInt8} {rest : List (Token UInt8)} {d' : Dictionary UInt8}
    {s' : Decoder} (h : Decoded r data tokens before (t :: rest) d s)
    (hroom : totalWidth before / 8 + 3 < r.lzwStream.length) (hgrown : Grown r.coding d')
    (hmirrors : Mirrors r d' s') (hwaiting : Waiting d' s')
    (hpos : s'.bitPos = u32 (totalWidth before + t.width))
    (hindices : s'.indices = s.indices ++ t.string) :
    Decoded r data tokens (before ++ [t]) rest d' s' where
  split := by simp [h.split]
  packed := by
    rw [totalWidth_append, totalWidth_singleton]
    exact h.packed.2
  grown := hgrown
  mirrors := hmirrors
  waiting := hwaiting
  bitPos := by rw [hpos, totalWidth_append, totalWidth_singleton]
  indices := by rw [hindices, h.indices, text_append, text_singleton]
  early := h.early.snoc hroom

include htotal hstream hnowrap in
theorem Decoded.turn (h : Decoded r data tokens before after d s) (hr : Sized r)
    (hencodes : Encodes r.coding d after) :
    (∃ s', decodeStep r s = .inr (.ok s') ∧ Stopped r.lzwStream.length tokens s') ∨
      ∃ t rest d' s', after = t :: rest ∧ Encodes r.coding d' rest ∧
        decodeStep r s = .inl s' ∧ Decoded r data tokens (before ++ [t]) rest d' s' := by
  by_cases hcode : HasCode r s
  · have hpos := h.pos_of_missing hnowrap (h.missing htotal hcode)
    have hread := readCode_of_bitsAt h.mirrors hstream hcode
    have hroom := hcode.2
    rw [hpos] at hread hroom
    have hwidth : s.codeSize = r.coding.width d := h.mirrors.codeSize
    have hnext : ∀ s' : Decoder, s'.bitPos = u32 (s.bitPos + s.codeSize) →
        s'.bitPos = u32 (totalWidth before + r.coding.width d) := by
      intro s' hs'
      rw [hs', hpos, hwidth]
    have hmirrors : Mirrors r d { s with bitPos := u32 (s.bitPos + s.codeSize) } :=
      { h.mirrors with }
    have hwaiting : Waiting d { s with bitPos := u32 (s.bitPos + s.codeSize) } :=
      { h.waiting with }
    have hclear : r.coding.clearCode = r.clearCode := hr.literals
    have hend : r.coding.endCode = r.eoiCode := congrArg (· + 1) hr.literals
    cases hencodes with
    | finish =>
        rw [h.packed.1, hend] at hread
        refine .inl ⟨_, decodeStep_of_end hcode hread, before, _, h.split, h.indices, h.early,
          .inl rfl⟩
    | clear hrest =>
        rw [h.packed.1, hclear] at hread
        obtain ⟨s', hcleared, hpos', hindices, hmirrors', hwaiting'⟩ :=
          clearTables_of_mirrors hr hmirrors hwaiting
        refine .inr ⟨_, _, .empty, s', rfl, hrest, decodeStep_of_clear hcode hread hcleared, ?_⟩
        exact h.snoc hroom (grown_empty hr.fits) hmirrors' hwaiting' (hnext s' hpos')
          (by simpa using hindices)
    | @code _ rest code string hnames hrest =>
        rw [h.packed.1] at hread
        obtain ⟨hne, hne'⟩ := hnames.code_ne
        rw [hclear] at hne
        rw [hend] at hne'
        have hlength : s.indices.length + string.length ≤ r.totalPixels := by
          rw [← htotal, h.split, h.indices]
          simp [text]
        obtain ⟨s', hemit, hpos', hindices, hmirrors', hwaiting'⟩ :=
          emitCode_of_names hr hmirrors hwaiting h.grown hnames hlength
        refine .inr ⟨_, _, _, s', rfl, hrest,
          decodeStep_of_emit hcode hread hne hne' hemit, ?_⟩
        exact h.snoc hroom (h.grown.enter hnames) hmirrors' hwaiting' (hnext s' hpos') hindices
  · exact .inl ⟨s, by rw [decodeStep, if_neg hcode], h.stopped htotal hnowrap hcode⟩

include htotal hstream hnowrap in
theorem Decoded.run (h : Decoded r data tokens before after d s) (hr : Sized r)
    (hencodes : Encodes r.coding d after) :
    ∃ fuel s', follow (decodeStep r) fuel s = some (.ok s') ∧
      Stopped r.lzwStream.length tokens s' := by
  induction after generalizing before d s with
  | nil => cases hencodes
  | cons t after ih =>
      rcases h.turn htotal hstream hnowrap hr hencodes with
        ⟨s', hstop, hstopped⟩ | ⟨t', rest, d', s', hsplit, hrest, hmove, hdecoded⟩
      · exact ⟨1, s', follow_of_answer hstop 0, hstopped⟩
      · cases hsplit
        obtain ⟨fuel, last, hfollow, hstopped⟩ := ih hdecoded hrest
        exact ⟨fuel + 1, last, (follow_of_moves hmove fuel).trans hfollow, hstopped⟩

end Runs

theorem lateZeros_iff {size : Nat} {kept lost : List (Token UInt8)}
    (hsplit : tokens = kept ++ lost) (hearly : Early size kept)
    (hlate : text lost = [] ∨ size ≤ totalWidth kept / 8 + 3) :
    LateZeros size tokens ↔ ∀ pixel ∈ text lost, pixel = 0 := by
  constructor
  · intro hzeros pixel hpixel
    have hsize := hlate.resolve_left (List.ne_nil_of_mem hpixel)
    obtain ⟨t, ht, hstring⟩ := List.mem_flatMap.mp hpixel
    obtain ⟨a, b, rfl⟩ := List.append_of_mem ht
    refine hzeros (kept ++ a) t b (by simp [hsplit]) ?_ pixel hstring
    rw [totalWidth_append]
    omega
  · intro hzeros before t after hbefore hsize pixel hpixel
    apply hzeros
    rw [hsplit] at hbefore
    rcases List.append_eq_append_iff.mp hbefore with ⟨a, -, rfl⟩ | ⟨a, rfl, ha⟩
    · simp [text, hpixel]
    · cases a with
      | nil =>
          rw [List.nil_append] at ha
          simp [← ha, text, hpixel]
      | cons u a =>
          cases ha
          exact absurd (hearly before t a rfl) (Nat.not_lt_of_le hsize)

end Decoding

section Frames

variable {raster : Nat → UInt8} {width height : Nat} {frame : Bytes} {blocks : List Bytes}
  {tokens : List (Token UInt8)} {garbage : Tables}

/-- The bytes that the decoder has room for. -/
def lzwSize (width height : Nat) (data : Bytes) : Nat :=
  min (u32 (width * height * 2)) data.length

theorem Conforming.start (h : Conforming raster width height frame blocks tokens) :
    ∃ r s, startDecoder raster width height garbage = .ok (r, s) ∧ Sized r ∧
      r.totalPixels = width * height ∧
      r.lzwStream = blocks.flatten.take (u32 (width * height * 2)) ∧
      Encodes r.coding .empty tokens ∧ Decoded r blocks.flatten tokens [] tokens .empty s := by
  obtain ⟨hlow, hhigh⟩ := h.codeSize
  have hclear : 2 ^ (raster 0).toNat ≤ 256 := Nat.pow_le_pow_right (by decide) hhigh
  have htotal : u32 (width * height) = width * height :=
    u32_of_lt ((Nat.mul_lt_mul'' h.size.1 h.size.2).trans_le (by decide))
  have hstream := @lzwBytes_of_holdsAt raster blocks h.subBlock []
    (u32 (width * height * 2)) 1 h.held
  obtain ⟨tables, hfill, hliteral⟩ :=
    @fillTables_literal _ garbage (hclear.trans (show 256 ≤ tableSize by decide))
  rw [startDecoder, openRaster, shiftOne_ok (by omega)]
  simp only [ok_bind, htotal]
  rw [initialDecoder, shiftOne_ok (by dsimp only; omega)]
  simp only [ok_bind, hfill]
  have hr : Sized
      ⟨(raster 0).toNat, 2 ^ (raster 0).toNat, width * height,
        lzwBytes raster (u32 (width * height * 2)) 1 0⟩ := ⟨h.codeSize, rfl⟩
  refine ⟨_, _, rfl, hr, rfl, hstream, h.encodes, ?_⟩
  exact
    { split := rfl
      packed := h.packed
      grown := grown_empty hr.fits
      mirrors := mirrors_empty hr rfl rfl rfl rfl hliteral
      waiting := ⟨rfl, fun p hp => by cases hp⟩
      bitPos := rfl
      indices := rfl
      early := early_nil }

theorem padTo_eq_append_iff {decoded rest : Bytes} {n : Nat} (h : (decoded ++ rest).length = n) :
    padTo n decoded = decoded ++ rest ↔ ∀ byte ∈ rest, byte = 0 := by
  rw [List.length_append] at h
  rw [padTo_of_le (by omega), List.append_cancel_left_eq, zeros, eq_comm, List.eq_replicate_iff]
  constructor
  · exact fun heq => heq.2
  · exact fun hzero => ⟨by omega, hzero⟩

theorem decodesRight_of_follow {r : Raster} {s s' : Decoder} {fuel : Nat}
    (hstart : startDecoder raster width height garbage = .ok (r, s))
    (hfollow : follow (decodeStep r) fuel s = some (.ok s')) :
    DecodesRight raster width height garbage frame ↔ padTo r.totalPixels s'.indices = frame := by
  constructor
  · rintro ⟨fuel', hdecode⟩
    simp only [decodeIndices, hstart, Option.map_eq_some_iff] at hdecode
    obtain ⟨result, hfollow', hresult⟩ := hdecode
    cases follow_unique hfollow hfollow'
    exact Except.ok.inj hresult
  · rintro rfl
    refine ⟨fuel, ?_⟩
    simp [decodeIndices, hstart, hfollow, Except.map]

/--
As long as the bit position does not wrap, the decoder decodes the frame exactly when
all that it gives up on is zero; it gives up on the codes that do not start four bytes
before the end of the data it has room for.
-/
theorem decodesRight_iff_lateZeros
    (h : Conforming raster width height frame blocks tokens) :
    (NoWrap (lzwSize width height blocks.flatten) tokens ∧
        LateZeros (lzwSize width height blocks.flatten) tokens →
      DecodesRight raster width height garbage frame) ∧
    (DecodesRight raster width height garbage frame →
      LateZeros (lzwSize width height blocks.flatten) tokens ∨
        ¬ NoWrap (lzwSize width height blocks.flatten) tokens) := by
  obtain ⟨r, s, hstart, hr, htotal, hstream, hencodes, hdecoded⟩ :=
    @Conforming.start _ _ _ _ _ _ garbage h
  have hsize : r.lzwStream.length = lzwSize width height blocks.flatten := by
    rw [hstream, List.length_take, lzwSize]
  have hlength : (text tokens).length = r.totalPixels := by rw [h.text, h.length, htotal]
  have hiff : NoWrap (lzwSize width height blocks.flatten) tokens →
      (DecodesRight raster width height garbage frame ↔
        LateZeros (lzwSize width height blocks.flatten) tokens) := by
    intro hnowrap
    rw [← hsize] at hnowrap ⊢
    obtain ⟨fuel, s', hfollow, kept, lost, hsplit, hindices, hearly, hlate⟩ :=
      hdecoded.run hlength hstream hnowrap hr hencodes
    have hframe : frame = text kept ++ text lost := by rw [← h.text, hsplit, text_append]
    have hcount : (text kept ++ text lost).length = r.totalPixels := by
      rw [← hframe, h.length, htotal]
    rw [lateZeros_iff hsplit hearly hlate, decodesRight_of_follow hstart hfollow, hindices, hframe,
      padTo_eq_append_iff hcount]
  constructor
  · rintro ⟨hnowrap, hzeros⟩
    exact (hiff hnowrap).mpr hzeros
  · intro hdecodes
    by_cases hnowrap : NoWrap (lzwSize width height blocks.flatten) tokens
    · exact .inl ((hiff hnowrap).mp hdecodes)
    · exact .inr hnowrap

end Frames

/-- A frame of a single pixel of color 1: its code, the end of information, and padding. -/
def dotRaster : Nat → UInt8 := fun i => [2, 1, 41, 0].getD i 0

def dotTokens : List (Token UInt8) := [⟨1, 3, [1]⟩, ⟨5, 3, []⟩]

theorem conforming_dotRaster : Conforming dotRaster 1 1 [1] [[41]] dotTokens where
  size := by decide
  pixels := by decide
  codeSize := by decide
  subBlock := by decide
  held := ⟨rfl, rfl, rfl, trivial⟩
  encodes := by
    have hwidth : (rasterCoding (dotRaster 0).toNat).width .empty = 3 := by
      rw [Coding.width, Coding.nextCode, rasterCoding]
      decide
    have hwidth' : (rasterCoding (dotRaster 0).toNat).width ⟨[], some [1]⟩ = 3 := hwidth
    have hlast := Encodes.finish (c := rasterCoding (dotRaster 0).toNat) (d := ⟨[], some [1]⟩)
    have hnames : (rasterCoding (dotRaster 0).toNat).Names .empty 1 [1] := .inl rfl
    have hfirst := Encodes.code hnames hlast
    rwa [hwidth, hwidth'] at hfirst
  packed := ⟨rfl, rfl, trivial⟩
  room := by decide
  text := rfl
  length := rfl

/-- Two pixels of colors 1 and 2, and data with room for their codes. -/
def pairRaster : Nat → UInt8 := fun i => [2, 4, 81, 1, 0, 0, 0].getD i 0

def pairTokens : List (Token UInt8) := [⟨1, 3, [1]⟩, ⟨2, 3, [2]⟩, ⟨5, 3, []⟩]

theorem conforming_pairRaster : Conforming pairRaster 2 1 [1, 2] [[81, 1, 0, 0]] pairTokens where
  size := by decide
  pixels := by decide
  codeSize := by decide
  subBlock := by decide
  held := ⟨rfl, rfl, rfl, rfl, rfl, rfl, trivial⟩
  encodes := by
    have hwidth : (rasterCoding (pairRaster 0).toNat).width .empty = 3 := by
      rw [Coding.width, Coding.nextCode, rasterCoding]
      decide
    have hwidth₁ : (rasterCoding (pairRaster 0).toNat).width
        ((rasterCoding (pairRaster 0).toNat).enter .empty [1]) = 3 := hwidth
    have hwidth₂ : (rasterCoding (pairRaster 0).toNat).width ⟨[[1, 2]], some [2]⟩ = 3 := by
      rw [Coding.width, Coding.nextCode, rasterCoding]
      decide
    have hlast := Encodes.finish (c := rasterCoding (pairRaster 0).toNat)
      (d := ⟨[[1, 2]], some [2]⟩)
    have hnames₂ : (rasterCoding (pairRaster 0).toNat).Names ⟨[], some [1]⟩ 2 [2] := .inl rfl
    have hnames : (rasterCoding (pairRaster 0).toNat).Names .empty 1 [1] := .inl rfl
    have hfirst := Encodes.code hnames (Encodes.code hnames₂ hlast)
    rwa [hwidth, hwidth₁, hwidth₂] at hfirst
  packed := ⟨rfl, rfl, rfl, trivial⟩
  room := by decide
  text := rfl
  length := rfl

theorem totalWidth_before_pairTokens {before after : List (Token UInt8)} {t : Token UInt8}
    (h : pairTokens = before ++ t :: after) : totalWidth before < 8 := by
  have hwidth : totalWidth pairTokens = 9 := rfl
  have hall : ∀ t ∈ pairTokens, t.width = 3 := by decide
  have hlast : t.width = 3 := hall t (by rw [h]; simp)
  rw [h, totalWidth_append, totalWidth] at hwidth
  omega

/-- Both codes start four bytes before the end of the data. -/
theorem decodesRight_pairRaster : DecodesRight pairRaster 2 1 blankTables [1, 2] := by
  refine (decodesRight_iff_lateZeros conforming_pairRaster).1 ⟨fun before after h _ _ => ?_,
    fun before t after h hlate => ?_⟩
  · have hwidth : totalWidth pairTokens = 9 := rfl
    rw [h, totalWidth_append] at hwidth
    omega
  · have hlt := totalWidth_before_pairTokens h
    have hsize : lzwSize 2 1 [[81, 1, 0, 0]].flatten = 4 := rfl
    rw [hsize] at hlate
    omega

/-- All its data is nearer to the end than four bytes, so the pixel is decoded as zero. -/
theorem not_decodesRight_dotRaster :
    Conforming dotRaster 1 1 [1] [[41]] dotTokens ∧
      ¬ DecodesRight dotRaster 1 1 blankTables [1] := by
  refine ⟨conforming_dotRaster, ?_⟩
  obtain ⟨r, s, hstart, hfollow, hne⟩ : ∃ r s,
      startDecoder dotRaster 1 1 blankTables = .ok (r, s) ∧
        follow (decodeStep r) 1 s = some (.ok s) ∧ padTo r.totalPixels s.indices ≠ [1] := by
    exact ⟨_, _, rfl, rfl, by decide⟩
  rwa [decodesRight_of_follow hstart hfollow]

end BlockyOS.Boot.Gif
