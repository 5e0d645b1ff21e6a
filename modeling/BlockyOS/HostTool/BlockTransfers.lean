import BlockyOS.HostTool.Raw

/-!
# Transfers of whole blocks

What is written at a block position is read back from there, nothing else on the
disk changes, and writes that are far enough apart do not meet.  The size of a
block is a 32-bit product, and the largest one wraps to zero.
-/

namespace BlockyOS.HostTool

open BlockyOS.Foundation

/-! ## Ranges of blocks -/

/-- The blocks that `bytes` bytes fill, the last one perhaps in part. -/
def blockCount (conf bytes : Nat) : Nat := (bytes + blockSpan conf - 1) / blockSpan conf

def blockStart (base conf pos : Nat) : Nat := base * 512 + (pos - base) * blockSpan conf

/-- The bytes of those blocks. -/
def blockRange (conf bytes : Nat) : Nat := blockCount conf bytes * blockSpan conf

def wholeBlocks (conf : Nat) (data : Bytes) : Bytes :=
  data ++ zeros (blockRange conf data.length - data.length)

def writeAt (base conf : Nat) (img : Image) (pos : Nat) (data : Bytes) : Image :=
  writeblocks (startup base conf) img data pos data.length

/-- The transfer stays inside the image and below the 64-bit limits. -/
structure BlockPlaced (base conf : Nat) (img : Image) (pos : Nat) (data : Bytes) : Prop where
  conf_pos : 0 < conf
  conf_lt : conf < 2 ^ 32
  base_le : base ≤ pos
  fits : blockStart base conf pos + blockRange conf data.length < 2 ^ 63
  inside : blockStart base conf pos + blockRange conf data.length ≤ img.size

/-- What is written is read back, and the rest of the image is left alone. -/
structure RoundTrips (base conf : Nat) (img : Image) (pos : Nat) (data : Bytes) : Prop where
  calcBlock : (startup base conf).calcBlock = (conf + 511) / 512
  reads : ∀ m, blockCount conf m = blockCount conf data.length →
    readblocks (startup base conf) (writeAt base conf img pos data) pos m =
      some (wholeBlocks conf data)
  frame : ∀ x, x < blockStart base conf pos ∨
      blockStart base conf pos + blockRange conf data.length ≤ x →
    (writeAt base conf img pos data).byte x = img.byte x
  size : (writeAt base conf img pos data).size = img.size

/-- The positions differ by the number of blocks written at the lower one, or more. -/
def Apart (conf pos : Nat) (data : Bytes) (pos' : Nat) (data' : Bytes) : Prop :=
  pos + blockCount conf data.length ≤ pos' ∨ pos' + blockCount conf data'.length ≤ pos

/-- Two writes in either order leave the same image, from which both are read back. -/
structure Independent (base conf : Nat) (img : Image) (pos : Nat) (data : Bytes)
    (pos' : Nat) (data' : Bytes) : Prop where
  commute : writeAt base conf (writeAt base conf img pos data) pos' data' =
    writeAt base conf (writeAt base conf img pos' data') pos data
  first : ∀ m, blockCount conf m = blockCount conf data.length →
    readblocks (startup base conf)
        (writeAt base conf (writeAt base conf img pos data) pos' data') pos m =
      some (wholeBlocks conf data)
  second : ∀ m, blockCount conf m = blockCount conf data'.length →
    readblocks (startup base conf)
        (writeAt base conf (writeAt base conf img pos data) pos' data') pos' m =
      some (wholeBlocks conf data')

/-- The product does not wrap, or one block is transferred in any case. -/
def Whole (conf bytes : Nat) : Prop := conf ≤ 2 ^ 32 - 512 ∨ 0 < bytes ∧ bytes ≤ 2 ^ 32

/-! ## The length of a transfer -/

theorem blockSpan_lt {conf : Nat} (h : conf ≤ 2 ^ 32 - 512) : blockSpan conf < 2 ^ 32 := by
  rw [blockSpan, sectorsPerBlock_eq]
  omega

theorem blockSpan_wraps {conf : Nat} (h : 2 ^ 32 - 512 < conf) (hconf : conf < 2 ^ 32) :
    blockSpan conf = 2 ^ 32 := by
  rw [blockSpan, sectorsPerBlock_eq]
  omega

theorem span_wraps {base conf : Nat} (bytes : Nat) (h : blockSpan conf = 2 ^ 32) :
    (startup base conf).span bytes = 2 ^ 32 := by
  have hblock : (startup base conf).blockBytes = 0 := by
    change u32 (blockSpan conf) = 0
    rw [h]
    rfl
  have hsectors : sectorsPerBlock conf = 2 ^ 23 := by
    unfold blockSpan at h
    omega
  have hquot : ∀ a, safediv a 0 = 1 := fun _ => rfl
  rw [RawEnv.span, RawEnv.nBlocks, hblock, hquot, startup_calcBlock, startup_realBlock, hsectors]
  decide

theorem le_blockRange (conf bytes : Nat) : bytes ≤ blockRange conf bytes := by
  have hlt := Nat.lt_div_mul_add (a := bytes + blockSpan conf - 1) (blockSpan_pos conf)
  have hpos := blockSpan_pos conf
  unfold blockRange blockCount
  omega

theorem blockCount_eq_one_iff {conf : Nat} (h : blockSpan conf = 2 ^ 32) {bytes : Nat} :
    blockCount conf bytes = 1 ↔ 0 < bytes ∧ bytes ≤ 2 ^ 32 := by
  rw [blockCount, h]
  omega

theorem span_eq_iff {base conf bytes : Nat} (hconf : conf < 2 ^ 32) (hbytes : bytes < 2 ^ 63) :
    (startup base conf).span bytes = blockRange conf bytes ↔ Whole conf bytes := by
  by_cases hsmall : conf ≤ 2 ^ 32 - 512
  · exact iff_of_true (span_startup (blockSpan_lt hsmall) hbytes) (.inl hsmall)
  · have hwrap := blockSpan_wraps (Nat.lt_of_not_le hsmall) hconf
    have hwhole : Whole conf bytes ↔ 0 < bytes ∧ bytes ≤ 2 ^ 32 := by
      rw [Whole, or_iff_right hsmall]
    rw [span_wraps bytes hwrap, hwhole, ← blockCount_eq_one_iff hwrap, blockRange, hwrap]
    omega

theorem Whole.of_blockCount_eq {conf bytes bytes' : Nat} (hconf : conf < 2 ^ 32)
    (hcount : blockCount conf bytes' = blockCount conf bytes) (h : Whole conf bytes) :
    Whole conf bytes' := by
  by_cases hsmall : conf ≤ 2 ^ 32 - 512
  · exact .inl hsmall
  · have hwrap := blockSpan_wraps (Nat.lt_of_not_le hsmall) hconf
    have hone := (blockCount_eq_one_iff hwrap).mpr (h.resolve_left hsmall)
    exact .inr ((blockCount_eq_one_iff hwrap).mp (hcount.trans hone))

theorem length_wholeBlocks (conf : Nat) (data : Bytes) :
    (wholeBlocks conf data).length = blockRange conf data.length := by
  have hle := le_blockRange conf data.length
  rw [wholeBlocks, List.length_append, length_zeros]
  omega

/-! ## One write -/

section

variable {base conf : Nat} {img : Image} {pos : Nat} {data : Bytes}

namespace BlockPlaced

theorem length_lt (h : BlockPlaced base conf img pos data) : data.length < 2 ^ 63 := by
  have hle := le_blockRange conf data.length
  have hfits := h.fits
  omega

theorem start_lt (h : BlockPlaced base conf img pos data) :
    base * 512 + (pos - base) * blockSpan conf < 2 ^ 63 :=
  Nat.lt_of_le_of_lt (Nat.le_add_right _ _) h.fits

theorem writeAt (h : BlockPlaced base conf img pos data) (hwhole : Whole conf data.length) :
    HostTool.writeAt base conf img pos data =
      img.write (blockStart base conf pos) (wholeBlocks conf data) := by
  have hspan := (@span_eq_iff base _ _ h.conf_lt h.length_lt).mpr hwhole
  rw [HostTool.writeAt, writeblocks_startup img data h.base_le h.start_lt, hspan,
    List.take_length, padTo_of_le (le_blockRange conf data.length)]
  rfl

theorem readblocks (h : BlockPlaced base conf img pos data) (hwhole : Whole conf data.length)
    (img' : Image) {m : Nat} (hm : blockCount conf m = blockCount conf data.length) :
    HostTool.readblocks (startup base conf) img' pos m =
      img'.read (blockStart base conf pos) (blockRange conf data.length) := by
  have hrange : blockRange conf m = blockRange conf data.length := by
    rw [blockRange, blockRange, hm]
  have hfits := h.fits
  have hle := le_blockRange conf m
  have hspan := (@span_eq_iff base conf m h.conf_lt (by omega)).mpr
    (hwhole.of_blockCount_eq h.conf_lt hm)
  rw [readblocks_startup img' h.base_le h.start_lt, hspan, hrange]
  rfl

theorem after (h : BlockPlaced base conf img pos data) {pos' : Nat} {data' : Bytes}
    (h' : BlockPlaced base conf img pos' data') (hwhole : Whole conf data.length) :
    BlockPlaced base conf (HostTool.writeAt base conf img pos data) pos' data' := by
  have hinside := h.inside
  rw [← length_wholeBlocks] at hinside
  refine ⟨h'.conf_pos, h'.conf_lt, h'.base_le, h'.fits, ?_⟩
  rw [h.writeAt hwhole, Image.size_write_of_le img hinside]
  exact h'.inside

end BlockPlaced

theorem roundTrips_of_whole (h : BlockPlaced base conf img pos data)
    (hwhole : Whole conf data.length) :
    RoundTrips base conf img pos data where
  calcBlock := by
    have hpos := h.conf_pos
    rw [startup_calcBlock, sectorsPerBlock_eq]
    omega
  reads m hm := by
    rw [h.readblocks hwhole _ hm, h.writeAt hwhole, ← length_wholeBlocks]
    exact Image.read_write_same img
  frame x hx := by
    rw [h.writeAt hwhole]
    rw [← length_wholeBlocks] at hx
    exact Image.write_byte_outside img hx
  size := by
    have hinside := h.inside
    rw [← length_wholeBlocks] at hinside
    rw [h.writeAt hwhole]
    exact Image.size_write_of_le img hinside

theorem whole_of_readblocks (h : BlockPlaced base conf img pos data) {img' : Image}
    (hread : readblocks (startup base conf) img' pos data.length =
      some (wholeBlocks conf data)) : Whole conf data.length := by
  rw [readblocks_startup img' h.base_le h.start_lt, Image.read_eq_some_iff] at hread
  have hlength := congrArg List.length hread.2
  rw [Image.length_window, length_wholeBlocks] at hlength
  exact (span_eq_iff h.conf_lt h.length_lt).mp hlength

theorem blockRoundTrips_iff (h : BlockPlaced base conf img pos data) :
    RoundTrips base conf img pos data ↔ Whole conf data.length := by
  constructor
  · intro htrips
    exact whole_of_readblocks h (htrips.reads _ rfl)
  · exact roundTrips_of_whole h

/-! ## Two writes -/

variable {pos' : Nat} {data' : Bytes}

theorem ranges_disjoint (hbase : base ≤ pos) (hcount : pos + blockCount conf data.length ≤ pos') :
    blockStart base conf pos + blockRange conf data.length ≤ blockStart base conf pos' := by
  have hblocks : pos - base + blockCount conf data.length ≤ pos' - base := by omega
  calc
    blockStart base conf pos + blockRange conf data.length =
        base * 512 + (pos - base + blockCount conf data.length) * blockSpan conf := by
      unfold blockStart blockRange
      ring
    _ ≤ blockStart base conf pos' :=
      Nat.add_le_add_left (Nat.mul_le_mul_right _ hblocks) _

theorem Apart.disjoint (happart : Apart conf pos data pos' data')
    (h : BlockPlaced base conf img pos data) (h' : BlockPlaced base conf img pos' data') :
    blockStart base conf pos + (wholeBlocks conf data).length ≤ blockStart base conf pos' ∨
      blockStart base conf pos' + (wholeBlocks conf data').length ≤
        blockStart base conf pos := by
  rw [length_wholeBlocks, length_wholeBlocks]
  rcases happart with hbelow | habove
  · exact .inl (ranges_disjoint h.base_le hbelow)
  · exact .inr (ranges_disjoint h'.base_le habove)

theorem independent_of_whole (h : BlockPlaced base conf img pos data)
    (h' : BlockPlaced base conf img pos' data') (happart : Apart conf pos data pos' data')
    (hwhole : Whole conf data.length) (hwhole' : Whole conf data'.length) :
    Independent base conf img pos data pos' data' where
  commute := by
    rw [(h.after h' hwhole).writeAt hwhole', h.writeAt hwhole, (h'.after h hwhole').writeAt hwhole,
      h'.writeAt hwhole']
    exact Image.write_comm img (happart.disjoint h h')
  first m hm := by
    have hsame := @Image.read_write_same img (blockStart base conf pos) (wholeBlocks conf data)
    have hapart := (happart.disjoint h h').symm
    rw [h.readblocks hwhole _ hm, (h.after h' hwhole).writeAt hwhole', h.writeAt hwhole,
      ← length_wholeBlocks]
    exact Image.read_write_disjoint hapart.symm hsame
  second m hm := by
    rw [h'.readblocks hwhole' _ hm, (h.after h' hwhole).writeAt hwhole', ← length_wholeBlocks]
    exact Image.read_write_same _

theorem independent_iff (h : BlockPlaced base conf img pos data)
    (h' : BlockPlaced base conf img pos' data') (happart : Apart conf pos data pos' data') :
    Independent base conf img pos data pos' data' ↔
      Whole conf data.length ∧ Whole conf data'.length := by
  constructor
  · intro hboth
    exact ⟨whole_of_readblocks h (hboth.first _ rfl), whole_of_readblocks h' (hboth.second _ rfl)⟩
  · rintro ⟨hwhole, hwhole'⟩
    exact independent_of_whole h h' happart hwhole hwhole'

/--
A write round-trips inside its own blocks, and two that are apart do not
interfere, unless the block size wraps and the data does not fill one block.
-/
theorem blockTransfers_iff (h : BlockPlaced base conf img pos data) :
    (RoundTrips base conf img pos data ↔ Whole conf data.length) ∧
      ∀ pos' data', BlockPlaced base conf img pos' data' → Apart conf pos data pos' data' →
        (Independent base conf img pos data pos' data' ↔
          Whole conf data.length ∧ Whole conf data'.length) :=
  ⟨blockRoundTrips_iff h, fun _ _ h' happart => independent_iff h h' happart⟩

end

/-- Three bytes in the second block of a partition at sector 2. -/
theorem blockTransfers_iff_sample :
    (RoundTrips 2 513 (Image.blank 8192) 3 [1, 2, 3] ↔ Whole 513 3) ∧
      ∀ pos' data', BlockPlaced 2 513 (Image.blank 8192) pos' data' →
        Apart 513 3 [1, 2, 3] pos' data' →
        (Independent 2 513 (Image.blank 8192) 3 [1, 2, 3] pos' data' ↔
          Whole 513 3 ∧ Whole 513 data'.length) :=
  blockTransfers_iff ⟨by decide, by decide, by decide, by decide, by decide⟩

/-- A disk of two sectors that begins with a one. -/
def markedDisk : Image := (Image.blank 1024).write 0 [1]

theorem blockPlaced_markedDisk : BlockPlaced 0 (2 ^ 32 - 1) markedDisk 0 [] :=
  ⟨by decide, by decide, by decide, by decide, by decide⟩

theorem writeAt_markedDisk :
    writeAt 0 (2 ^ 32 - 1) markedDisk 0 [] = markedDisk.write 0 (zeros (2 ^ 32)) := by
  have hplaced := blockPlaced_markedDisk
  have hspan := @span_wraps 0 (2 ^ 32 - 1) ([] : Bytes).length (by decide)
  rw [writeAt, writeblocks_startup markedDisk [] hplaced.base_le hplaced.start_lt, hspan,
    List.take_nil, Nat.sub_self, Nat.zero_mul, Nat.zero_mul]
  exact congrArg (markedDisk.write 0) (padTo_zeros (2 ^ 32) 0)

theorem byte_write_zeros (img : Image) (off : Nat) {n : Nat} (h : 0 < n) :
    (img.write off (zeros n)).byte off = 0 := by
  have hk : 0 < (zeros n).length := by rwa [length_zeros]
  have hinside := @Image.write_byte_inside img off (zeros n) 0 hk
  rw [Nat.add_zero] at hinside
  rw [hinside]
  exact List.getElem_replicate _

/-- Writing nothing clears the first block of the largest size. -/
theorem not_roundTrips_markedDisk :
    BlockPlaced 0 (2 ^ 32 - 1) markedDisk 0 [] ∧ blockRange (2 ^ 32 - 1) 0 = 0 ∧
      markedDisk.byte 0 = 1 ∧ (writeAt 0 (2 ^ 32 - 1) markedDisk 0 []).byte 0 = 0 ∧
      ¬ RoundTrips 0 (2 ^ 32 - 1) markedDisk 0 [] := by
  have hcleared : (writeAt 0 (2 ^ 32 - 1) markedDisk 0 []).byte 0 = 0 := by
    rw [writeAt_markedDisk]
    exact byte_write_zeros markedDisk 0 (by decide)
  have hempty : blockRange (2 ^ 32 - 1) 0 = 0 := by decide
  refine ⟨blockPlaced_markedDisk, hempty, by decide, hcleared, fun htrips => ?_⟩
  have hkept := htrips.frame 0 (.inr (Nat.le_of_eq hempty))
  rw [hcleared] at hkept
  exact absurd hkept (by decide)

end BlockyOS.HostTool
