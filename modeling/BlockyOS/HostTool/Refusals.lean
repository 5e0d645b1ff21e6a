import BlockyOS.HostTool.Cursor

/-!
# Calls that are refused

`_fread` checks its range before it does anything; `_fwrite` stamps the times of
the file before it looks at the readonly flag.  The stamp reads the metadata
block and writes it back, zero behind the metadata.
-/

namespace BlockyOS.HostTool

open BlockyOS.Foundation

/-- The entry of index 0 carries the readonly flag. -/
def FlaggedReadonly (fr : ConfFsroot) (file : Nat) : Prop :=
  ∃ fb, ffindh fr (fr.block file).fcode = some fb ∧
    flagcheck (fr.block fb).attributes fsReadonly = true

theorem FlaggedReadonly.readonly {fr : ConfFsroot} {file : Nat} (h : FlaggedReadonly fr file) :
    Readonly fr file := by
  obtain ⟨fb, hfind, hflag⟩ := h
  intro fb' hfind'
  obtain rfl := Option.some.inj (hfind.symm.trans hfind')
  exact hflag

def OutsideFile (fr : ConfFsroot) (handle : FHandle) (nbytes : Nat) : Prop :=
  ¬ (fr.blkSize ≤ handle.progress ∧
    handle.progress + nbytes ≤ fr.blkSize + fsize fr handle.file)

structure NoTrace (v : Volume) (handle : FHandle) (v' : Volume) (handle' : FHandle) : Prop where
  image : v'.image = v.image
  root : v'.root = v.root
  handle : handle' = handle

def RejectsWriteCleanly (E : Host) (v : Volume) (handle : FHandle) (nbytes : Nat)
    (data : Option Bytes) : Prop :=
  ∀ handle' v', fwrite E v handle nbytes data = .ok (0, handle', v') →
    FlaggedReadonly v.root handle.file → NoTrace v handle v' handle'

def RejectsReadCleanly (E : Host) (v : Volume) (handle : FHandle) (nbytes : Nat) : Prop :=
  ∀ out handle' v', fread E v handle nbytes = .ok (0, out, handle', v') →
    OutsideFile v.root handle nbytes → out = none ∧ NoTrace v handle v' handle'

/-! ## A stamp that changes nothing -/

/-- The time fields of a metadata block hold `t` already. -/
structure HoldsStamp (t : Tm) (finfo : Bytes) : Prop where
  accessTime : slice finfo metaAccessTime 8 = leBytes 8 t.seconds
  writeTime : slice finfo metaWriteTime 8 = leBytes 8 t.seconds
  accessDate : slice finfo metaAccessDate 8 = leBytes 8 t.yday
  writeDate : slice finfo metaWriteDate 8 = leBytes 8 t.yday

def StampIdle (E : Host) (v : Volume) (file : Nat) : Prop :=
  HoldsStamp (E.localtime v.ticks) (v.window file) ∧ RestZero v file

theorem slice_stamp_other {finfo : Bytes} {off k n : Nat} (hlen : metaName ≤ finfo.length)
    (hoff : off + 8 ≤ metaName) (hk : k + 8 ≤ off ∨ off + 8 ≤ k) :
    slice (splice finfo off (leBytes 8 n)) k 8 = slice finfo k 8 := by
  apply slice_splice_outside <;> rw [length_leBytes] <;> omega

theorem slice_stamp_same {finfo : Bytes} {off n : Nat} (hlen : metaName ≤ finfo.length)
    (hoff : off + 8 ≤ metaName) :
    slice (splice finfo off (leBytes 8 n)) off 8 = leBytes 8 n := by
  have hpatch : (leBytes 8 n).length = 8 := length_leBytes 8 n
  have hinside := @slice_splice_inside _ finfo off (leBytes 8 n) (by omega) 0 8 (by omega)
  have hfull := slice_full (leBytes 8 n)
  rw [hpatch] at hfull
  rwa [Nat.add_zero, hfull] at hinside

theorem length_stamp {finfo : Bytes} {off n : Nat} (hlen : metaName ≤ finfo.length)
    (hoff : off + 8 ≤ metaName) :
    (splice finfo off (leBytes 8 n)).length = finfo.length :=
  length_splice _ (by rw [length_leBytes]; omega)

theorem stamp_eq_self_iff {finfo : Bytes} {off n : Nat} (hlen : metaName ≤ finfo.length)
    (hoff : off + 8 ≤ metaName) :
    splice finfo off (leBytes 8 n) = finfo ↔ slice finfo off 8 = leBytes 8 n := by
  have hself := @splice_eq_self_iff _ finfo off (leBytes 8 n) (by rw [length_leBytes]; omega)
  rwa [length_leBytes] at hself

theorem stamped_eq_self_iff {t : Tm} {finfo : Bytes} (hlen : metaName ≤ finfo.length) :
    stampAccess t (stampWrite t finfo) = finfo ↔ HoldsStamp t finfo := by
  have hlen₁ : metaName ≤ (splice finfo metaWriteTime (leBytes 8 t.seconds)).length := by
    rwa [length_stamp hlen (by decide)]
  have hlen₂ : metaName ≤ (stampWrite t finfo).length := by
    rwa [stampWrite, length_stamp hlen₁ (by decide)]
  have hlen₃ : metaName ≤
      (splice (stampWrite t finfo) metaAccessTime (leBytes 8 t.seconds)).length := by
    rwa [length_stamp hlen₂ (by decide)]
  constructor
  · intro heq
    constructor
    · rw [← heq, stampAccess, slice_stamp_other hlen₃ (by decide) (by decide),
        slice_stamp_same hlen₂ (by decide)]
    · rw [← heq, stampAccess, slice_stamp_other hlen₃ (by decide) (by decide),
        slice_stamp_other hlen₂ (by decide) (by decide), stampWrite,
        slice_stamp_other hlen₁ (by decide) (by decide), slice_stamp_same hlen (by decide)]
    · rw [← heq, stampAccess, slice_stamp_same hlen₃ (by decide)]
    · rw [← heq, stampAccess, slice_stamp_other hlen₃ (by decide) (by decide),
        slice_stamp_other hlen₂ (by decide) (by decide), stampWrite,
        slice_stamp_same hlen₁ (by decide)]
  · intro h
    have hwrite : stampWrite t finfo = finfo := by
      rw [stampWrite, (stamp_eq_self_iff hlen (by decide)).mpr h.writeTime]
      exact (stamp_eq_self_iff hlen (by decide)).mpr h.writeDate
    rw [hwrite, stampAccess, (stamp_eq_self_iff hlen (by decide)).mpr h.accessTime]
    exact (stamp_eq_self_iff hlen (by decide)).mpr h.accessDate

theorem fupdatetstamp_image_iff {E : Host} {v v₁ : Volume} {file : Nat}
    (hstamp : fupdatetstamp E v file true = .ok v₁) :
    v₁.image = v.image ↔ StampIdle E v file := by
  have hspan := v.root.sizeofMetaFsBlock_le_span
  have hsize : metaName ≤ sizeofMetaFsBlock := by decide
  obtain ⟨finfo, hread, rfl⟩ := fupdatetstamp_ok hstamp
  rw [freadinfo, Volume.readAt_eq (by decide) hspan] at hread
  split at hread
  case isFalse => cases hread
  case isTrue hheld =>
    obtain rfl := Option.some.inj hread
    have hwindow := v.length_window file
    obtain ⟨stamped, hstamped⟩ : ∃ stamped, stamped = stampAccess (E.localtime v.ticks)
        (stampWrite (E.localtime v.ticks) (v.window file)) := ⟨_, rfl⟩
    have hlen : stamped.length = v.root.span := by
      rw [hstamped, length_stamped (by omega), hwindow]
    have hbeside : ∀ k, metaName ≤ k → stamped[k]? = (v.window file)[k]? := by
      intro k hk
      rw [hstamped]
      exact getElem?_stamped (by omega) (.inr hk)
    change (v.writeAt file _ sizeofMetaFsBlock).image = _ ↔ _
    rw [if_pos rfl, ← hstamped, Volume.writeAt_image _ (by decide) hspan, if_pos hheld.1,
      Image.write_eq_self_iff (by rw [length_padTo]; exact hheld.2), length_padTo]
    rw [StampIdle, ← stamped_eq_self_iff (by omega), ← hstamped]
    change v.window file = _ ↔ _
    constructor
    · intro heq
      constructor
      · apply List.ext_getElem?
        intro k
        rcases Nat.lt_or_ge k sizeofMetaFsBlock with hlow | hhigh
        · rw [heq, getElem?_padTo_take hspan (by omega) hlow]
        · exact hbeside k (by omega)
      · intro k hlow hhigh
        rw [heq]
        exact getElem?_padTo_take_rest (by omega) hlow hhigh
    · rintro ⟨heq, hzero⟩
      apply List.ext_getElem?
      intro k
      rcases Nat.lt_or_ge k sizeofMetaFsBlock with hlow | hhigh
      · rw [getElem?_padTo_take hspan (by omega) hlow, heq]
      · rcases Nat.lt_or_ge k v.root.span with hin | hout
        · rw [getElem?_padTo_take_rest (by omega) hhigh hin, hzero k hhigh hin]
        · rw [List.getElem?_eq_none (by omega),
            List.getElem?_eq_none (by rw [length_padTo]; omega)]

/-! ## When a refusal leaves no trace -/

/-- The write is not refused for the flag, or its stamp changes nothing. -/
def WriteTraceless (E : Host) (v : Volume) (handle : FHandle) (nbytes : Nat)
    (data : Option Bytes) : Prop :=
  data = none ∨ nbytes = 0 ∨ ¬ FlaggedReadonly v.root handle.file ∨
    freadinfo v handle.file = none ∨ StampIdle E v handle.file

/--
The range check, whose sum may wrap, refuses the read; or the range lies in the
file; or the block at the cursor is read.
-/
def ReadTraceless (v : Volume) (handle : FHandle) (nbytes : Nat) : Prop :=
  FreadRefuses v.root handle nbytes ∨ ¬ OutsideFile v.root handle nbytes ∨
    freadinfo v handle.file = none ∨ v.root.blkSize = 0 ∨
    (fread1 v handle.file (handle.progress / v.root.blkSize)).1 ≠ none

section Calls

variable {E : Host} {v : Volume} {handle : FHandle} {nbytes : Nat}

theorem fupdatetstamp_isOk {wt : Bool} (file : Nat) (h : freadinfo v file ≠ none) :
    ∃ v₁, fupdatetstamp E v file wt = .ok v₁ := by
  obtain ⟨finfo, hinfo⟩ := Option.ne_none_iff_exists'.mp h
  rw [fupdatetstamp, hinfo]
  exact ⟨_, rfl⟩

theorem rejectsWriteCleanly_iff {data : Option Bytes} :
    RejectsWriteCleanly E v handle nbytes data ↔ WriteTraceless E v handle nbytes data := by
  constructor
  · intro hclean
    by_contra htrace
    simp only [WriteTraceless, not_or, not_not] at htrace
    obtain ⟨hdata, hn, hflagged, hinfo, hidle⟩ := htrace
    obtain ⟨bytes, rfl⟩ := Option.ne_none_iff_exists'.mp hdata
    obtain ⟨v₁, hstamp⟩ := @fupdatetstamp_isOk E v true handle.file hinfo
    obtain ⟨fb, hfind, hflag⟩ := hflagged
    have hroot := fupdatetstamp_root hstamp
    have hwrite := (@fwrite_readonly E v v₁ handle nbytes fb bytes hn hstamp
      (by rwa [hroot]) (by rwa [hroot])).1
    exact hidle ((fupdatetstamp_image_iff hstamp).mp
      (hclean handle v₁ hwrite ⟨fb, hfind, hflag⟩).image)
  · intro htraceless handle' v' hwrite hflagged
    generalize hcount : 0 = count at hwrite
    cases fwrite_wrote hwrite with
    | nothing => exact ⟨rfl, rfl, rfl⟩
    | refused bytes v₁ hn hstamp hreadonly =>
        refine ⟨(fupdatetstamp_image_iff hstamp).mpr ?_, fupdatetstamp_root hstamp, rfl⟩
        rcases htraceless with hnone | hzero | hnot | hinfo | hidle
        · cases hnone
        · exact absurd hzero hn
        · exact absurd hflagged hnot
        · obtain ⟨finfo, hread, -⟩ := fupdatetstamp_ok hstamp
          rw [hinfo] at hread
          cases hread
        · exact hidle
    | written bytes v₁ _ pos left hn hstamp hwritable =>
        exact absurd hflagged.readonly hwritable

theorem freadLoop_left_lt {v : Volume} {file pos : Nat} {fuel left : Nat} (hleft : left ≠ 0)
    (hfuel : fuel ≠ 0) (hblk : 0 < v.root.blkSize)
    (hread : (fread1 v file (pos / v.root.blkSize)).1 ≠ none) :
    (freadLoop v file fuel pos left []).2.2 < left := by
  obtain ⟨fuel, rfl⟩ := Nat.exists_eq_succ_of_ne_zero hfuel
  obtain ⟨blk, hblock⟩ := Option.ne_none_iff_exists'.mp hread
  have hmod := Nat.mod_lt pos hblk
  rw [Nat.succ_eq_add_one, freadLoop, if_neg hleft]
  simp only [hblock]
  exact Nat.lt_of_le_of_lt (freadLoop_left_le _ _ _ _ _ _) (by omega)

theorem freadRefuses_of_empty (hcursor : handle.progress < 2 ^ 64)
    (houtside : OutsideFile v.root handle 0) : FreadRefuses v.root handle 0 := by
  have hblk := v.root.blkSize_lt
  have hsize := fsize_le_extent v.root handle.file
  have hextent := extent_lt v.root (v.root.block handle.file).fcode
  have hbound : extent v.root (v.root.block handle.file).fcode * v.root.blkSize ≤
      2 ^ 28 * 2 ^ 32 := Nat.mul_le_mul (by omega) (by omega)
  unfold OutsideFile at houtside
  unfold FreadRefuses
  rcases Nat.lt_or_ge handle.progress v.root.blkSize with hlow | hhigh
  · unfold u64sub u64
    omega
  · rw [u64sub_of_le hcursor hhigh, u64_of_lt (by omega)]
    omega

theorem rejectsReadCleanly_iff (hcursor : handle.progress < 2 ^ 64) :
    RejectsReadCleanly E v handle nbytes ↔ ReadTraceless v handle nbytes := by
  constructor
  · intro hclean
    by_contra htrace
    simp only [ReadTraceless, not_or, not_not] at htrace
    obtain ⟨hrange, houtside, hinfo, hblk, hmissing⟩ := htrace
    obtain ⟨v₁, hstamp⟩ := @fupdatetstamp_isOk E v false handle.file hinfo
    have hroot := fupdatetstamp_root hstamp
    have hn : nbytes ≠ 0 := by
      rintro rfl
      exact hrange (freadRefuses_of_empty hcursor houtside)
    have hnone : (fread1 v₁ handle.file (handle.progress / v₁.root.blkSize)).1 = none := by
      rw [fread1_isNone_congr hroot (fupdatetstamp_size hstamp) (by omega), hroot]
      exact hmissing
    have hloop : freadLoop v₁ handle.file nbytes handle.progress nbytes [] =
        ([], handle.progress, nbytes) := by
      obtain ⟨fuel, rfl⟩ := Nat.exists_eq_succ_of_ne_zero hn
      rw [Nat.succ_eq_add_one, freadLoop, if_neg hn]
      simp only [hnone]
    have hread : fread E v handle nbytes =
        .ok (0, some (padTo nbytes []), handle, v₁) := by
      have hcheck : ¬ u64 (u64sub handle.progress v.root.blkSize + nbytes) >
          fsize v.root handle.file := hrange
      rw [fread, if_neg hcheck, hstamp]
      simp only [hroot, hblk, and_false, if_false, hloop, Nat.sub_self]
    exact absurd (hclean _ _ _ hread houtside).1 (by simp)
  · intro htraceless out handle' v' hread houtside
    generalize hcount : 0 = count at hread
    cases fread_hasRead hread with
    | refused => exact ⟨rfl, rfl, rfl, rfl⟩
    | done v₁ bytes pos left hrange hstamp hblk hloop =>
        have hroot := fupdatetstamp_root hstamp
        have hn : nbytes ≠ 0 := by
          rintro rfl
          exact hrange (freadRefuses_of_empty hcursor houtside)
        have hpos : 0 < v.root.blkSize := hblk.resolve_left hn
        rcases htraceless with hrefuses | hinside | hinfo | hzero | hfound
        · exact absurd hrefuses hrange
        · exact absurd houtside hinside
        · obtain ⟨finfo, hinfo', -⟩ := fupdatetstamp_ok hstamp
          rw [hinfo] at hinfo'
          cases hinfo'
        · omega
        · have hlt := @freadLoop_left_lt v' handle.file handle.progress nbytes nbytes hn hn
            (by rwa [hroot]) (by
              rw [hroot]
              intro hnone
              exact hfound ((fread1_isNone_congr hroot (fupdatetstamp_size hstamp) hpos _).mp
                hnone))
          rw [hloop] at hlt
          simp only at hlt
          omega

end Calls

/--
A write refused for the readonly flag and a read of a range outside the file
leave image, map, cursor and `*dataout` as they were, if and only if the stamp of
the write changes nothing and the read is refused by the range check before its
sum wraps, or finds a block at the cursor.
-/
theorem refusals_leave_no_trace_iff {E : Host} {v : Volume} {handle : FHandle} {nbytes : Nat}
    {data : Option Bytes} (hcursor : handle.progress < 2 ^ 64) :
    RejectsWriteCleanly E v handle nbytes data ∧ RejectsReadCleanly E v handle nbytes ↔
      WriteTraceless E v handle nbytes data ∧ ReadTraceless v handle nbytes :=
  and_congr rejectsWriteCleanly_iff (rejectsReadCleanly_iff hcursor)

theorem restZero_of_drop {v : Volume} {file : Nat}
    (h : (v.window file).drop sizeofMetaFsBlock = zeros (v.root.span - sizeofMetaFsBlock)) :
    RestZero v file := by
  intro k hlow hhigh
  obtain ⟨i, rfl⟩ := Nat.exists_eq_add_of_le hlow
  rw [← List.getElem?_drop, h, getElem?_zeros (by omega)]

/-- Where the clock stands still, a fresh readonly file is neither written nor stamped. -/
theorem refusals_leave_no_trace_sample :
    ∃ vol handle, floadh sampleHost (sampleVolume 4 (by decide)) samplePath ['c', 'r'] =
        .ok (vol, some handle) ∧ FlaggedReadonly vol.root handle.file ∧
      RejectsWriteCleanly sampleHost vol handle 1 (some [1]) ∧
      RejectsReadCleanly sampleHost vol handle 1 := by
  obtain ⟨⟨vol, fh⟩, hload, heval⟩ := @ok_of_eval _ _ _
    (floadh sampleHost (sampleVolume 4 (by decide)) samplePath ['c', 'r'])
    (fun r => (r.2, decide (flagcheck (r.1.root.block 0).attributes fsReadonly = true ∧
      ffindh r.1.root (r.1.root.block 0).fcode = some 0 ∧
      (∀ off ∈ [metaAccessTime, metaWriteTime, metaAccessDate, metaWriteDate],
        slice (r.1.window 0) off 8 = leBytes 8 0) ∧
      (r.1.window 0).drop sizeofMetaFsBlock = zeros (r.1.root.span - sizeofMetaFsBlock) ∧
      fsize r.1.root 0 < u64 (u64sub 512 r.1.root.blkSize + 1))))
    (some ⟨0, 512, samplePath⟩, true) (by decide +kernel)
  obtain ⟨hfh, hrest⟩ := Prod.mk.inj heval
  obtain ⟨hflag, hfind, hstamp, hzero, hrange⟩ := of_decide_eq_true hrest
  obtain rfl : fh = some ⟨0, 512, samplePath⟩ := hfh
  have hclock : sampleHost.localtime vol.ticks = ⟨0, 0, 0, 0⟩ := rfl
  have hseconds : (sampleHost.localtime vol.ticks).seconds = 0 := by
    rw [hclock]
    decide
  have hyday : (sampleHost.localtime vol.ticks).yday = 0 := by rw [hclock]
  have hidle : StampIdle sampleHost vol 0 := by
    refine ⟨⟨?_, ?_, ?_, ?_⟩, restZero_of_drop hzero⟩
    · rw [hseconds]
      exact hstamp metaAccessTime (by simp)
    · rw [hseconds]
      exact hstamp metaWriteTime (by simp)
    · rw [hyday]
      exact hstamp metaAccessDate (by simp)
    · rw [hyday]
      exact hstamp metaWriteDate (by simp)
  exact ⟨vol, _, hload, ⟨0, hfind, hflag⟩, (refusals_leave_no_trace_iff (by decide)).mpr
    ⟨.inr (.inr (.inr (.inr hidle))), .inl hrange⟩⟩

/-- The sample host with a clock that moves on. -/
def tickingHost : Host := { sampleHost with localtime := fun t => ⟨0, 0, 0, t⟩ }

/-- A write to a fresh readonly file is refused and leaves its time in the metadata block. -/
theorem not_rejectsWriteCleanly_readonly :
    ∃ vol handle, floadh tickingHost (sampleVolume 4 (by decide)) samplePath ['c', 'r'] =
        .ok (vol, some handle) ∧
      ¬ RejectsWriteCleanly tickingHost vol handle 1 (some [1]) := by
  obtain ⟨⟨vol, fh⟩, hload, heval⟩ := @ok_of_eval _ _ _
    (floadh tickingHost (sampleVolume 4 (by decide)) samplePath ['c', 'r'])
    (fun r => (r.2, decide (flagcheck (r.1.root.block 0).attributes fsReadonly = true ∧
      ffindh r.1.root (r.1.root.block 0).fcode = some 0 ∧
      ((fwrite tickingHost r.1 ⟨0, 512, samplePath⟩ 1 (some [1])).map fun w =>
        (w.1, w.2.2.image.byte 1069104, r.1.image.byte 1069104)).toOption = some (0, 1, 0))))
    (some ⟨0, 512, samplePath⟩, true) (by decide +kernel)
  obtain ⟨hfh, hrest⟩ := Prod.mk.inj heval
  obtain ⟨hflag, hfind, hcall⟩ := of_decide_eq_true hrest
  obtain rfl : fh = some ⟨0, 512, samplePath⟩ := hfh
  obtain ⟨⟨n, handle', v'⟩, hwrite, hresult⟩ := ok_of_eval hcall
  obtain ⟨hn, hbytes⟩ := Prod.mk.inj hresult
  obtain rfl : n = 0 := hn
  obtain ⟨hafter, hbefore⟩ := Prod.mk.inj hbytes
  refine ⟨vol, _, hload, fun hclean => ?_⟩
  have himage := (hclean handle' v' hwrite ⟨0, hfind, hflag⟩).image
  have hsame : v'.image.byte 1069104 = vol.image.byte 1069104 := by rw [himage]
  rw [show v'.image.byte 1069104 = 1 from hafter, show vol.image.byte 1069104 = 0 from hbefore]
    at hsame
  exact absurd hsame (by decide)

end BlockyOS.HostTool
