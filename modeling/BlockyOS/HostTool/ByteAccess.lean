import BlockyOS.HostTool.Raw

/-!
# Byte access to the image

`writebytes` and `readbytes` go through whole blocks.  Positions are converted
to blocks and to offsets inside a block, each in its own way, and the buffer of
a read is cleared behind the bytes that were asked for.
-/

namespace BlockyOS.HostTool

open BlockyOS.Foundation

/-! ## The functions -/

/-- The block that `writebytes` reads and writes. -/
def writeBlock (re : RawEnv) (bytepos : Nat) : Nat :=
  safediv (u64 (bytepos * re.calcBlock)) re.confBlock

/-- Where `writebytes` puts the bytes in the buffer. -/
def writeOffset (re : RawEnv) (bytepos : Nat) : Nat :=
  u64 (bytepos * re.calcBlock) % re.confBlock

/--
The buffer is changed at the offset in it, but only its first `nbytes` bytes are
written back.  `calloc` refuses a size that is larger than a word, and
`writeblocks` writes nothing then.
-/
def writebytes (re : RawEnv) (img : Image) (data : Bytes) (bytepos nbytes : Nat) :
    Except Fault Image :=
  let rdata := readblocks re img (writeBlock re bytepos) nbytes
  if re.confBlock = 0 then .error .divByZero
  else
    match rdata with
    | none => if nbytes = 0 then .ok img else .error .nullDeref
    | some rdata =>
        if writeOffset re bytepos + nbytes ≤ rdata.length then
          let rdata := splice rdata (writeOffset re bytepos) (data.take nbytes)
          .ok (if re.nBlocks nbytes * re.realBlock < 2 ^ 64 then
            writeblocks re img rdata (writeBlock re bytepos) nbytes else img)
        else .error .outOfBounds

/-- The block that `readbytes` reads: whole blocks of the offset count as positions. -/
def readBlock (re : RawEnv) (pos offset : Nat) : Nat :=
  safediv (u64 (u64 (pos + safediv offset re.confBlock) * re.calcBlock)) re.confBlock

/-- Where `readbytes` finds the bytes in the buffer. -/
def readOffset (re : RawEnv) (offset : Nat) : Nat :=
  safediv offset re.confBlock + offset % re.confBlock

/-- The length of the `memset` behind the bytes. -/
def clearedBytes (re : RawEnv) (nbytes : Nat) : Nat :=
  u64sub (u64 (u64 (nbytes + re.blockBytes + 2 ^ 64 - 1) * re.realBlock)) nbytes

/--
The bytes are moved to the front of the buffer, as they were where the two
ranges meet, and what lies behind their old place is cleared.
-/
def readbytes (re : RawEnv) (img : Image) (pos offset nbytes : Nat) : Except Fault Bytes :=
  let rdata := readblocks re img (readBlock re pos offset) nbytes
  if re.confBlock = 0 then .error .divByZero
  else
    match rdata with
    | none => .error .nullDeref
    | some rdata =>
        if readOffset re offset + nbytes + clearedBytes re nbytes ≤ rdata.length then
          let rdata := splice rdata 0 (slice rdata (readOffset re offset) nbytes)
          .ok (splice rdata (readOffset re offset + nbytes) (zeros (clearedBytes re nbytes)))
        else .error .outOfBounds

/-! ## Writing -/

/--
`writebytes` and then `readbytes` for the `n` bytes at `place` of the image,
which the one is told as `bytepos` and the other as `pos` and `offset`.
-/
def ByteAccess (re : RawEnv) (img : Image) (place bytepos pos offset n : Nat) : Prop :=
  ∀ data : Bytes, data.length = n →
    writebytes re img data bytepos n = .ok (img.write place data) ∧
      (img.write place data).size = img.size ∧
      ∃ buf, readbytes re (img.write place data) pos offset n = .ok buf ∧ buf.take n = data

/--
The position is the start of a block of the partition that the image has, at its
place, and behind the bytes the block is zero.
-/
structure WriteFits (re : RawEnv) (img : Image) (place bytepos n : Nat) : Prop where
  conf : re.confBlock ≠ 0
  base : re.partition ≤ writeBlock re bytepos
  seek : re.offset (writeBlock re bytepos) < 2 ^ 63
  front : writeOffset re bytepos = 0
  start : re.offset (writeBlock re bytepos) = place
  large : n ≤ re.span n
  inside : place + re.span n ≤ img.size
  alloc : re.nBlocks n * re.realBlock < 2 ^ 64
  zero : ∀ x, place + n ≤ x → x < place + re.span n → img.byte x = 0

/-- The blocks that are read have the bytes at their place, and room for what is cleared. -/
structure ReadFits (re : RawEnv) (img : Image) (place pos offset n : Nat) : Prop where
  conf : re.confBlock ≠ 0
  base : re.partition ≤ readBlock re pos offset
  seek : re.offset (readBlock re pos offset) < 2 ^ 63
  start : re.offset (readBlock re pos offset) + readOffset re offset = place
  room : readOffset re offset + n + clearedBytes re n ≤ re.span n
  inside : re.offset (readBlock re pos offset) + re.span n ≤ img.size

theorem readblocks_eq_some {re : RawEnv} {img : Image} {pos bytes : Nat} {data : Bytes} :
    readblocks re img pos bytes = some data ↔
      re.partition ≤ pos ∧ re.offset pos < 2 ^ 63 ∧
        (re.span bytes = 0 ∨ re.offset pos + re.span bytes ≤ img.size) ∧
        img.window (re.offset pos) (re.span bytes) = data := by
  rw [readblocks]
  by_cases hbase : pos < re.partition
  · rw [if_pos hbase]
    exact iff_of_false (by simp) fun h => absurd h.1 (by omega)
  · rw [if_neg hbase]
    by_cases hseek : re.offset pos < 2 ^ 63
    · have hseekable : seekable (re.offset pos) = true := decide_eq_true hseek
      rw [if_pos hseekable, Image.read_eq_some_iff]
      exact ⟨fun h => ⟨by omega, hseek, h⟩, fun h => h.2.2⟩
    · rw [if_neg (by rw [seekable, decide_eq_true_eq]; exact hseek)]
      exact iff_of_false (by simp) fun h => absurd h.2.1 hseek

theorem writeblocks_eq {re : RawEnv} {img : Image} {data : Bytes} {pos bytes : Nat}
    (hbase : re.partition ≤ pos) (hseek : re.offset pos < 2 ^ 63) :
    writeblocks re img data pos bytes =
      img.write (re.offset pos) (padTo (re.span bytes) (data.take bytes)) := by
  have hseekable : seekable (re.offset pos) = true := decide_eq_true hseek
  rw [writeblocks, if_neg (by omega), if_pos hseekable]

theorem write_padTo_eq_iff {img : Image} {place len : Nat} {data : Bytes}
    (hlen : data.length ≤ len) (hinside : place + len ≤ img.size) :
    img.write place (padTo len data) = img.write place data ↔
      ∀ x, place + data.length ≤ x → x < place + len → img.byte x = 0 := by
  have hrest : ∀ x, place + data.length ≤ x → x < place + len →
      (img.write place (padTo len data)).byte x = 0 := by
    intro x hlow hhigh
    obtain ⟨k, rfl⟩ := Nat.exists_eq_add_of_le (show place ≤ x by omega)
    have hk : k < (padTo len data).length := by rw [length_padTo]; omega
    have hzero := @getElem?_padTo_take_rest len data.length k data (Nat.le_refl _)
      (by omega) (by omega)
    rw [List.take_length, List.getElem?_eq_getElem hk] at hzero
    rw [Image.write_byte_inside img hk]
    exact Option.some.inj hzero
  constructor
  · intro heq x hlow hhigh
    rw [← hrest x hlow hhigh, heq, Image.write_byte_outside img (by omega)]
  · intro hzero
    apply Image.ext
    · rw [Image.size_write_of_le img (by rw [length_padTo]; omega),
        Image.size_write_of_le img (by omega)]
    · funext x
      by_cases hlow : x < place ∨ place + len ≤ x
      · rw [Image.write_byte_outside img (by rw [length_padTo]; omega),
          Image.write_byte_outside img (by omega)]
      · by_cases hdata : x < place + data.length
        · obtain ⟨k, rfl⟩ := Nat.exists_eq_add_of_le (show place ≤ x by omega)
          have hk : k < (padTo len data).length := by rw [length_padTo]; omega
          have hsame := @getElem?_padTo_take len data.length k data hlen (Nat.le_refl _) (by omega)
          rw [List.take_length, List.getElem?_eq_getElem hk,
            List.getElem?_eq_getElem (by omega)] at hsame
          rw [Image.write_byte_inside img hk, Image.write_byte_inside img (by omega)]
          exact Option.some.inj hsame
        · rw [hrest x (by omega) (by omega), Image.write_byte_outside img (by omega),
            hzero x (by omega) (by omega)]

theorem take_splice_front {xs patch : Bytes} : (splice xs 0 patch).take patch.length = patch := by
  simp [splice]

section Write

variable {re : RawEnv} {img : Image} {place bytepos n : Nat}

theorem writebytes_eq_ok {data : Bytes} {img' : Image} (hn : 0 < n) (hdata : data.length = n) :
    writebytes re img data bytepos n = .ok img' ↔
      re.confBlock ≠ 0 ∧ re.partition ≤ writeBlock re bytepos ∧
        re.offset (writeBlock re bytepos) < 2 ^ 63 ∧
        writeOffset re bytepos + n ≤ re.span n ∧
        re.offset (writeBlock re bytepos) + re.span n ≤ img.size ∧
        img' = if re.nBlocks n * re.realBlock < 2 ^ 64 then
          img.write (re.offset (writeBlock re bytepos))
            (padTo (re.span n) ((splice (img.window (re.offset (writeBlock re bytepos))
              (re.span n)) (writeOffset re bytepos) data).take n)) else img := by
  have htake : data.take n = data := List.take_of_length_le (by omega)
  simp only [writebytes, htake]
  by_cases hconf : re.confBlock = 0
  · rw [if_pos hconf]
    exact iff_of_false (by simp) fun h => h.1 hconf
  rw [if_neg hconf]
  cases hread : readblocks re img (writeBlock re bytepos) n with
  | none =>
      rw [if_neg (by omega)]
      refine iff_of_false (by simp) fun h => ?_
      have hsome := readblocks_eq_some.mpr ⟨h.2.1, h.2.2.1, Or.inr h.2.2.2.2.1, rfl⟩
      rw [hread] at hsome
      cases hsome
  | some rdata =>
      obtain ⟨hbase, hseek, hinside, rfl⟩ := readblocks_eq_some.mp hread
      simp only [Image.length_window]
      by_cases hroom : writeOffset re bytepos + n ≤ re.span n
      · rw [if_pos hroom, writeblocks_eq hbase hseek]
        constructor
        · intro hok
          exact ⟨hconf, hbase, hseek, hroom, hinside.resolve_left (by omega),
            (Except.ok.inj hok).symm⟩
        · intro h
          rw [h.2.2.2.2.2]
      · rw [if_neg hroom]
        exact iff_of_false (by simp) fun h => hroom h.2.2.2.1

theorem take_splice_last (xs patch : Bytes) {off : Nat} (hoff : 0 < off) (hlen : off ≤ xs.length)
    (a : UInt8) :
    (splice xs off (patch ++ [a])).take (patch.length + 1) =
      (xs.take off ++ patch).take (patch.length + 1) := by
  have hsplit : splice xs off (patch ++ [a]) =
      (xs.take off ++ patch) ++ ([a] ++ xs.drop (off + (patch.length + 1))) := by
    simp [splice]
  have htake : (xs.take off ++ patch).length = off + patch.length := by
    rw [List.length_append, List.length_take_of_le hlen]
  rw [hsplit, List.take_append_of_le_length (by omega)]

theorem exists_ne_ne (b : UInt8) : ∃ a : UInt8, a ≠ 0 ∧ a ≠ b := by
  by_cases hb : b = 1
  · exact ⟨2, by decide, by rw [hb]; decide⟩
  · exact ⟨1, by decide, Ne.symm hb⟩

theorem place_of_window (img : Image) {place off n : Nat} (hn : 0 < n)
    (hwindow : ∀ data : Bytes, data.length = n → (img.write place data).window off n = data) :
    off = place := by
  obtain ⟨a, hzero, hdiff⟩ := exists_ne_ne (img.byte off)
  have hlen : (a :: List.replicate (n - 1) 0).length = n := by
    simp
    omega
  have hbyte : (img.write place (a :: List.replicate (n - 1) 0)).byte off = a := by
    have hfirst := Image.getElem?_window (img.write place (a :: List.replicate (n - 1) 0)) off n 0
    rw [hwindow _ hlen, if_pos hn, List.getElem?_cons_zero] at hfirst
    exact (Option.some.inj hfirst).symm
  by_contra hother
  by_cases hinside : place ≤ off ∧ off < place + n
  · obtain ⟨k, rfl⟩ := Nat.exists_eq_add_of_le hinside.1
    obtain ⟨j, rfl⟩ := Nat.exists_eq_add_of_lt (show 0 < k by omega)
    rw [Image.write_byte_inside img (by rw [hlen]; omega)] at hbyte
    simp at hbyte
    exact hzero hbyte.symm
  · rw [Image.write_byte_outside img (by rw [hlen]; omega)] at hbyte
    exact hdiff hbyte.symm

theorem writes_iff (hn : 0 < n) :
    (∀ data : Bytes, data.length = n →
      writebytes re img data bytepos n = .ok (img.write place data) ∧
        (img.write place data).size = img.size) ↔ WriteFits re img place bytepos n := by
  constructor
  · intro hwrites
    have hlen : ∀ a : UInt8, (List.replicate (n - 1) 0 ++ [a]).length = n := by
      intro a
      simp
      omega
    obtain ⟨hconf, hbase, hseek, hroom, hinside, hzeros⟩ :=
      (writebytes_eq_ok hn (hlen 0)).mp (hwrites _ (hlen 0)).1
    obtain ⟨-, -, -, -, -, hone⟩ := (writebytes_eq_ok hn (hlen 1)).mp (hwrites _ (hlen 1)).1
    -- The last byte tells the two writes apart.
    have hlast : ∀ a : UInt8,
        (img.write place (List.replicate (n - 1) 0 ++ [a])).byte (place + (n - 1)) = a := by
      intro a
      rw [Image.write_byte_inside img (by rw [hlen]; omega)]
      simp
    have hdiffer : img.write place (List.replicate (n - 1) 0 ++ [0]) ≠
        img.write place (List.replicate (n - 1) 0 ++ [1]) := by
      intro heq
      have hbyte := congrArg (fun i => Image.byte i (place + (n - 1))) heq
      simp only [hlast] at hbyte
      exact absurd hbyte (by decide)
    have halloc : re.nBlocks n * re.realBlock < 2 ^ 64 := by
      by_contra hrefused
      rw [if_neg hrefused] at hzeros hone
      exact hdiffer (hzeros.trans hone.symm)
    rw [if_pos halloc] at hzeros hone
    have hfront : writeOffset re bytepos = 0 := by
      by_contra hoffset
      have hcut := fun a => take_splice_last
        (img.window (re.offset (writeBlock re bytepos)) (re.span n)) (List.replicate (n - 1) 0)
        (Nat.pos_of_ne_zero hoffset) (by rw [Image.length_window]; omega) a
      rw [List.length_replicate, Nat.sub_add_cancel hn] at hcut
      rw [hcut] at hzeros hone
      exact hdiffer (hzeros.trans hone.symm)
    have hsize : place + n ≤ img.size := by
      have hend := @Image.end_le_write img place (List.replicate (n - 1) 0 ++ [0])
        (by rw [hlen]; omega)
      rw [hlen, (hwrites _ (hlen 0)).2] at hend
      exact hend
    rw [hfront, Nat.zero_add] at hroom
    have hpadded : ∀ data : Bytes, data.length = n →
        img.write place data = img.write (re.offset (writeBlock re bytepos))
          (padTo (re.span n) data) := by
      rintro data rfl
      obtain ⟨-, -, -, -, -, heq⟩ := (writebytes_eq_ok hn rfl).mp (hwrites data rfl).1
      rwa [if_pos halloc, hfront, take_splice_front] at heq
    have hstart : re.offset (writeBlock re bytepos) = place := by
      refine place_of_window img hn fun data hdata => ?_
      rw [hpadded data hdata]
      have hread := @Image.read_write_prefix img (re.offset (writeBlock re bytepos))
        (padTo (re.span n) data) n (by rw [length_padTo]; exact hroom)
      rw [((Image.read_eq_some_iff _ _ _ _).mp hread).2, padTo_of_le (by omega), ← hdata,
        List.take_left]
    refine ⟨hconf, hbase, hseek, hfront, hstart, hroom, hstart ▸ hinside, halloc, ?_⟩
    have hzero := hpadded _ (hlen 0)
    rw [hstart] at hzero hinside
    have hbehind := (write_padTo_eq_iff (by rw [hlen]; exact hroom) hinside).mp hzero.symm
    rwa [hlen] at hbehind
  · rintro hfits data rfl
    have hlarge := hfits.large
    have hinside := hfits.inside
    have hsize : (img.write place data).size = img.size :=
      Image.size_write_of_le img (by omega)
    refine ⟨(writebytes_eq_ok hn rfl).mpr ⟨hfits.conf, hfits.base, hfits.seek, ?_, ?_, ?_⟩,
      hsize⟩
    · rw [hfits.front]
      omega
    · rw [hfits.start]
      omega
    · rw [if_pos hfits.alloc, hfits.front, hfits.start, take_splice_front]
      exact ((write_padTo_eq_iff hlarge hinside).mpr hfits.zero).symm

end Write

/-! ## Reading -/

theorem take_splice_behind (xs patch : Bytes) {off n : Nat} (hn : n ≤ off)
    (hoff : off ≤ xs.length) : (splice xs off patch).take n = xs.take n := by
  have htake : (xs.take off).length = off := List.length_take_of_le hoff
  rw [splice, List.append_assoc, List.take_append_of_le_length (by omega), List.take_take,
    Nat.min_eq_left hn]

section Read

variable {re : RawEnv} {img : Image} {place pos offset n : Nat}

theorem readbytes_take_iff {data : Bytes} (hn : 0 < n) :
    (∃ buf, readbytes re img pos offset n = .ok buf ∧ buf.take n = data) ↔
      re.confBlock ≠ 0 ∧ re.partition ≤ readBlock re pos offset ∧
        re.offset (readBlock re pos offset) < 2 ^ 63 ∧
        re.offset (readBlock re pos offset) + re.span n ≤ img.size ∧
        readOffset re offset + n + clearedBytes re n ≤ re.span n ∧
        img.window (re.offset (readBlock re pos offset) + readOffset re offset) n = data := by
  simp only [readbytes]
  by_cases hconf : re.confBlock = 0
  · rw [if_pos hconf]
    exact iff_of_false (by simp) fun h => h.1 hconf
  rw [if_neg hconf]
  cases hread : readblocks re img (readBlock re pos offset) n with
  | none =>
      refine iff_of_false (by simp) fun h => ?_
      have hsome := readblocks_eq_some.mpr ⟨h.2.1, h.2.2.1, Or.inr h.2.2.2.1, rfl⟩
      rw [hread] at hsome
      cases hsome
  | some rdata =>
      obtain ⟨hbase, hseek, hinside, rfl⟩ := readblocks_eq_some.mp hread
      simp only [Image.length_window]
      generalize re.offset (readBlock re pos offset) = off at hseek hinside
      generalize readOffset re offset = skip
      by_cases hroom : skip + n + clearedBytes re n ≤ re.span n
      · rw [if_pos hroom]
        have hslice := @Image.slice_window img off (re.span n) skip n (by omega)
        have hfront := @take_splice_front (img.window off (re.span n)) (img.window (off + skip) n)
        have hmoved := @length_splice _ (img.window off (re.span n)) 0
          (img.window (off + skip) n) (by simp only [Image.length_window]; omega)
        rw [Image.length_window] at hfront hmoved
        have hbehind := take_splice_behind
          (splice (img.window off (re.span n)) 0 (img.window (off + skip) n))
          (zeros (clearedBytes re n)) (Nat.le_add_left n skip) (by omega)
        rw [hslice]
        constructor
        · rintro ⟨buf, hbuf, hdata⟩
          obtain rfl := Except.ok.inj hbuf
          rw [hbehind, hfront] at hdata
          exact ⟨hconf, hbase, hseek, hinside.resolve_left (by omega), hroom, hdata⟩
        · intro h
          refine ⟨_, rfl, ?_⟩
          rw [hbehind, hfront]
          exact h.2.2.2.2.2
      · rw [if_neg hroom]
        exact iff_of_false (by simp) fun h => hroom h.2.2.2.2.1

theorem reads_iff (hn : 0 < n) (hinside : place + n ≤ img.size) :
    (∀ data : Bytes, data.length = n →
      ∃ buf, readbytes re (img.write place data) pos offset n = .ok buf ∧ buf.take n = data) ↔
      ReadFits re img place pos offset n := by
  have hsize : ∀ data : Bytes, data.length = n → (img.write place data).size = img.size :=
    fun data hdata => Image.size_write_of_le img (by omega)
  constructor
  · intro hreads
    have hall := fun data hdata => (readbytes_take_iff hn).mp (hreads data hdata)
    obtain ⟨hconf, hbase, hseek, hread, hroom, -⟩ := hall (zeros n) (length_zeros n)
    rw [hsize _ (length_zeros n)] at hread
    refine ⟨hconf, hbase, hseek, ?_, hroom, hread⟩
    exact place_of_window img hn fun data hdata => (hall data hdata).2.2.2.2.2
  · rintro hfits data rfl
    rw [readbytes_take_iff hn]
    refine ⟨hfits.conf, hfits.base, hfits.seek, ?_, hfits.room, ?_⟩
    · rw [hsize data rfl]
      exact hfits.inside
    · rw [hfits.start, Image.window_write_same]

end Read

/--
For every environment, image and position, the bytes written are where they
belong and are read back if and only if the position is the start of a block
that is zero behind them, and the room for the clearing of `readbytes` wraps
around to fit in the blocks.
-/
theorem byteAccess_iff {re : RawEnv} {img : Image} {place bytepos pos offset n : Nat}
    (hn : 1 ≤ n) :
    ByteAccess re img place bytepos pos offset n ↔
      WriteFits re img place bytepos n ∧ ReadFits re img place pos offset n := by
  rw [← writes_iff hn]
  constructor
  · intro haccess
    have hwrites : ∀ data : Bytes, data.length = n →
        writebytes re img data bytepos n = .ok (img.write place data) ∧
          (img.write place data).size = img.size :=
      fun data hdata => ⟨(haccess data hdata).1, (haccess data hdata).2.1⟩
    have hfits := (writes_iff hn).mp hwrites
    have hlarge := hfits.large
    have hinside := hfits.inside
    exact ⟨hwrites, (reads_iff hn (by omega)).mp fun data hdata => (haccess data hdata).2.2⟩
  · rintro ⟨hwrites, hreads⟩ data hdata
    have hfits := (writes_iff hn).mp hwrites
    have hlarge := hfits.large
    have hinside := hfits.inside
    exact ⟨(hwrites data hdata).1, (hwrites data hdata).2,
      (reads_iff hn (by omega)).mpr hreads data hdata⟩

/-- Blocks of `2 ^ 32` bytes are counted as blocks of none, and the clearing fits in them. -/
theorem byteAccess_wideBlock :
    ByteAccess (startup 0 (2 ^ 32 - 1)) (.blank (2 ^ 32)) 0 0 0 0 2 := by
  refine (byteAccess_iff (by decide)).mpr ⟨?_, ?_⟩
  · exact ⟨by decide, by decide, by decide, by decide, by decide, by decide, by decide, by decide,
      fun _ _ _ => rfl⟩
  · exact ⟨by decide, by decide, by decide, by decide, by decide, by decide⟩

/-- The clearing behind one byte of a sector goes past the end of the buffer. -/
theorem not_byteAccess_sector :
    ¬ ByteAccess (startup 0 512) (.blank 1024) 0 0 0 0 1 := by
  intro haccess
  obtain ⟨-, -, buf, hread, -⟩ := haccess [7] rfl
  have hroom := ((readbytes_take_iff (by decide)).mp ⟨buf, hread, rfl⟩).2.2.2.2.1
  exact absurd hroom (by decide)

end BlockyOS.HostTool
