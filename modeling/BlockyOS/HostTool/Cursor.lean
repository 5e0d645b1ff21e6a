import BlockyOS.HostTool.Protection

/-!
# The cursor of an open file

`_fseek` and `_fseeko` saturate at the ends of the 64-bit range; the loops of
`_fwrite` and `_fread` add to the cursor plainly.  The lower end of the range is
one block, so that file data never touches the metadata block.
-/

namespace BlockyOS.HostTool

open BlockyOS.Foundation

/-- `_fseeko`; the argument is a signed 64-bit offset. -/
def fseeko (fr : ConfFsroot) (handle : FHandle) (progress : Int) : FHandle :=
  { handle with
    progress :=
      if progress < 0 then
        let minProgress := fr.blkSize
        let distance := (-(progress + 1)).toNat + 1
        if handle.progress ≤ minProgress ∨ distance ≥ handle.progress - minProgress then
          minProgress
        else handle.progress - distance
      else if progress.toNat > 2 ^ 64 - 1 - handle.progress then 2 ^ 64 - 1
      else handle.progress + progress.toNat }

theorem fseeko_progress {fr : ConfFsroot} {handle : FHandle} (progress : Int)
    (hlow : fr.blkSize ≤ handle.progress) (hhigh : handle.progress < 2 ^ 64) :
    ((fseeko fr handle progress).progress : Int) =
      max (fr.blkSize : Int) (min (2 ^ 64 - 1) (handle.progress + progress)) := by
  simp only [fseeko]
  split
  case isTrue hneg => split <;> omega
  case isFalse hpos => split <;> omega

theorem fseek_progress_eq (fr : ConfFsroot) (handle : FHandle) (progress : Nat) :
    (fseek fr handle progress).progress = min (fr.blkSize + progress) (2 ^ 64 - 1) := by
  have hblk := fr.blkSize_lt
  simp only [fseek]
  split <;> omega

/-! ## The ways a call returns -/

/-- `_fwrite` asked for nothing, refused a readonly file, or ran its loop. -/
inductive Wrote (E : Host) (v : Volume) (handle : FHandle) (nbytes : Nat) :
    Option Bytes → Nat → FHandle → Volume → Prop
  | nothing (data : Option Bytes) (hnone : data = none ∨ nbytes = 0) :
      Wrote E v handle nbytes data 0 handle v
  | refused (data : Bytes) (v₁ : Volume) (hn : nbytes ≠ 0)
      (hstamp : fupdatetstamp E v handle.file true = .ok v₁)
      (hreadonly : Readonly v.root handle.file) :
      Wrote E v handle nbytes (some data) 0 handle v₁
  | written (data : Bytes) (v₁ v' : Volume) (pos left : Nat) (hn : nbytes ≠ 0)
      (hstamp : fupdatetstamp E v handle.file true = .ok v₁)
      (hwritable : ¬ Readonly v.root handle.file) (hblk : 0 < v.root.blkSize)
      (hloop : fwriteLoop handle.file data nbytes v₁ handle.progress nbytes 0 = (v', pos, left)) :
      Wrote E v handle nbytes (some data) (nbytes - left) { handle with progress := pos } v'

theorem fwrite_wrote {E : Host} {v v' : Volume} {handle handle' : FHandle} {nbytes n : Nat}
    {data : Option Bytes} (h : fwrite E v handle nbytes data = .ok (n, handle', v')) :
    Wrote E v handle nbytes data n handle' v' := by
  unfold fwrite at h
  split at h
  case h_1 =>
    cases h
    exact .nothing _ (.inl rfl)
  case h_2 data =>
    split at h
    case isTrue hzero =>
      cases h
      exact .nothing _ (.inr hzero)
    case isFalse hn =>
      split at h
      case h_1 => cases h
      case h_2 v₁ hstamp =>
        have hroot := fupdatetstamp_root hstamp
        rw [hroot] at h
        split at h
        case h_1 => cases h
        case h_2 fb hfind =>
          split at h
          case isTrue hflag =>
            cases h
            refine .refused data _ hn hstamp fun fb' hfind' => ?_
            obtain rfl := Option.some.inj (hfind.symm.trans hfind')
            exact hflag
          case isFalse hflag =>
            split at h
            case isTrue => cases h
            case isFalse hblk =>
              split at h
              case isTrue => cases h
              case isFalse =>
                cases h
                exact .written data v₁ _ _ _ hn hstamp (fun h => hflag (h fb hfind))
                  (by omega) rfl

/-- The range check of `_fread`, whose sum may wrap, refuses the call. -/
def FreadRefuses (fr : ConfFsroot) (handle : FHandle) (nbytes : Nat) : Prop :=
  fsize fr handle.file < u64 (u64sub handle.progress fr.blkSize + nbytes)

/-- `_fread` refused the range, or ran its loop. -/
inductive HasRead (E : Host) (v : Volume) (handle : FHandle) (nbytes : Nat) :
    Nat → Option Bytes → FHandle → Volume → Prop
  | refused (hrange : FreadRefuses v.root handle nbytes) :
      HasRead E v handle nbytes 0 none handle v
  | done (v₁ : Volume) (out : Bytes) (pos left : Nat)
      (hrange : ¬ FreadRefuses v.root handle nbytes)
      (hstamp : fupdatetstamp E v handle.file false = .ok v₁)
      (hblk : nbytes = 0 ∨ 0 < v.root.blkSize)
      (hloop : freadLoop v₁ handle.file nbytes handle.progress nbytes [] = (out, pos, left)) :
      HasRead E v handle nbytes (nbytes - left) (some (padTo nbytes out))
        { handle with progress := pos } v₁

theorem fread_hasRead {E : Host} {v v' : Volume} {handle handle' : FHandle} {nbytes n : Nat}
    {out : Option Bytes} (h : fread E v handle nbytes = .ok (n, out, handle', v')) :
    HasRead E v handle nbytes n out handle' v' := by
  unfold fread at h
  split at h
  case isTrue hrange =>
    cases h
    exact .refused hrange
  case isFalse hrange =>
    split at h
    case h_1 => cases h
    case h_2 v₁ hstamp =>
      rw [fupdatetstamp_root hstamp] at h
      split at h
      case isTrue => cases h
      case isFalse hblk =>
        cases h
        exact .done _ _ _ _ hrange hstamp (by omega) rfl

/-! ## Where the loops leave the cursor -/

theorem fwriteLoop_pos {file : Nat} {data : Bytes} (fuel : Nat) {v : Volume} {pos left : Nat}
    (written : Nat) (hblk : 0 < v.root.blkSize) (hpos : pos < 2 ^ 64) (hfuel : left ≤ fuel) :
    (fwriteLoop file data fuel v pos left written).2.1 = u64 (pos + left) := by
  induction fuel generalizing v pos left written with
  | zero =>
      obtain rfl : left = 0 := by omega
      exact (u64_of_lt hpos).symm
  | succ fuel ih =>
      rw [fwriteLoop]
      split
      case isTrue hleft =>
        subst hleft
        exact (u64_of_lt hpos).symm
      case isFalse hleft =>
        have hmod := Nat.mod_lt pos hblk
        obtain ⟨chunk, hchunk⟩ :
            ∃ chunk, chunk = min (v.root.blkSize - pos % v.root.blkSize) left := ⟨_, rfl⟩
        simp only [← hchunk]
        have hgeometry := (fwriteBlock_edits v file (pos / v.root.blkSize)
          (pos % v.root.blkSize) (slice data written chunk)).sameGeometry
        rw [ih _ (by rw [hgeometry.blkSize]; exact hblk) (u64_lt _) (by omega)]
        unfold u64
        omega

section ReadLoop

variable {v : Volume} {file : Nat}

/-- Some block from the one at `pos` to the last of the 64-bit range is missing. -/
def MissingAhead (v : Volume) (file pos : Nat) : Prop :=
  ∃ i, pos / v.root.blkSize ≤ i ∧ i ≤ (2 ^ 64 - 1) / v.root.blkSize ∧
    (fread1 v file i).1 = none

theorem freadLoop_pos_lt (fuel : Nat) {pos left : Nat} (out : Bytes) (hpos : pos < 2 ^ 64) :
    (freadLoop v file fuel pos left out).2.1 < 2 ^ 64 := by
  induction fuel generalizing pos left out with
  | zero => exact hpos
  | succ fuel ih =>
      rw [freadLoop]
      split
      case isTrue => exact hpos
      case isFalse =>
        simp only
        split
        case h_1 => exact hpos
        case h_2 => exact ih _ (u64_lt _)

theorem freadLoop_advances (fuel : Nat) {pos left : Nat} (out : Bytes)
    (hblk : 0 < v.root.blkSize) (hpos : pos < 2 ^ 64)
    (hstop : pos + left < 2 ^ 64 ∨ MissingAhead v file pos) :
    (freadLoop v file fuel pos left out).2.1 + (freadLoop v file fuel pos left out).2.2 =
      pos + left := by
  induction fuel generalizing pos left out with
  | zero => rfl
  | succ fuel ih =>
      rw [freadLoop]
      split
      case isTrue => rfl
      case isFalse hleft =>
        simp only
        split
        case h_1 => rfl
        case h_2 blk hread =>
          have hmod := Nat.mod_lt pos hblk
          have hdiv := Nat.div_add_mod pos v.root.blkSize
          obtain ⟨chunk, hchunk⟩ :
              ∃ chunk, chunk = min (v.root.blkSize - pos % v.root.blkSize) left := ⟨_, rfl⟩
          simp only [← hchunk]
          have hnext : pos + chunk < 2 ^ 64 ∧
              (pos + chunk + (left - chunk) < 2 ^ 64 ∨
                MissingAhead v file (pos + chunk)) := by
            rcases hstop with hfit | ⟨i, hlow, hhigh, hnone⟩
            · exact ⟨by omega, .inl (by omega)⟩
            · -- the block at `pos` was read, so the missing one starts later
              have hne : i ≠ pos / v.root.blkSize := by
                rintro rfl
                rw [hnone] at hread
                cases hread
              have hstart : v.root.blkSize * (pos / v.root.blkSize + 1) ≤
                  v.root.blkSize * i := Nat.mul_le_mul_left _ (by omega)
              have hend := (Nat.le_div_iff_mul_le hblk).mp hhigh
              rw [Nat.mul_comm] at hend
              rw [Nat.mul_add] at hstart
              have hi : (pos + chunk) / v.root.blkSize ≤ i :=
                Nat.div_le_of_le_mul (by omega)
              exact ⟨by omega, .inr ⟨i, hi, hhigh, hnone⟩⟩
          rw [u64_of_lt hnext.1, ih _ hnext.1 hnext.2]
          omega

theorem freadLoop_passes (fuel : Nat) {pos left : Nat} (out : Bytes)
    (hblk : 0 < v.root.blkSize) (hpos : pos < 2 ^ 64) (hfuel : left ≤ fuel)
    (hover : 2 ^ 64 ≤ pos + left) (hpresent : ¬ MissingAhead v file pos) :
    2 ^ 64 ≤ pos + (left - (freadLoop v file fuel pos left out).2.2) := by
  induction fuel generalizing pos left out with
  | zero => omega
  | succ fuel ih =>
      have hmod := Nat.mod_lt pos hblk
      rw [freadLoop, if_neg (by omega)]
      simp only
      split
      case h_1 hread =>
        have hlast : pos / v.root.blkSize ≤ (2 ^ 64 - 1) / v.root.blkSize :=
          Nat.div_le_div_right (by omega)
        exact absurd ⟨_, Nat.le_refl _, hlast, hread⟩ hpresent
      case h_2 blk hread =>
        obtain ⟨chunk, hchunk⟩ :
            ∃ chunk, chunk = min (v.root.blkSize - pos % v.root.blkSize) left := ⟨_, rfl⟩
        simp only [← hchunk]
        have hle : chunk ≤ left := by omega
        have hrest := freadLoop_left_le v file fuel (u64 (pos + chunk)) (left - chunk)
          (out ++ slice blk (pos % v.root.blkSize) chunk)
        by_cases hend : pos + chunk < 2 ^ 64
        · rw [u64_of_lt hend] at hrest ⊢
          have hahead : ¬ MissingAhead v file (pos + chunk) := by
            rintro ⟨i, hlow, hhigh, hnone⟩
            exact hpresent ⟨i, Nat.le_trans (Nat.div_le_div_right (by omega)) hlow,
              hhigh, hnone⟩
          have hpass := @ih (pos + chunk) (left - chunk)
            (out ++ slice blk (pos % v.root.blkSize) chunk) hend (by omega) (by omega) hahead
          omega
        · omega

theorem freadLoop_advances_iff {pos nbytes : Nat} (hblk : 0 < v.root.blkSize)
    (hpos : pos < 2 ^ 64) :
    (freadLoop v file nbytes pos nbytes []).2.1 =
        pos + (nbytes - (freadLoop v file nbytes pos nbytes []).2.2) ↔
      pos + nbytes < 2 ^ 64 ∨ MissingAhead v file pos := by
  have hle := freadLoop_left_le v file nbytes pos nbytes []
  have hlt := @freadLoop_pos_lt v file nbytes pos nbytes [] hpos
  constructor
  · intro hadvance
    by_contra hstop
    obtain ⟨hover, hpresent⟩ := not_or.mp hstop
    have hpass := freadLoop_passes nbytes [] hblk hpos (Nat.le_refl _) (by omega) hpresent
    omega
  · intro hstop
    have hadvance := freadLoop_advances nbytes [] hblk hpos hstop
    omega

end ReadLoop

/-! ## Time stamps -/

section Stamps

variable {E : Host} {v v₁ : Volume} {file : Nat} {wt : Bool}

theorem fupdatetstamp_size (h : fupdatetstamp E v file wt = .ok v₁) :
    v₁.image.size = v.image.size := by
  have hspan := v.root.sizeofMetaFsBlock_le_span
  obtain ⟨finfo, hread, rfl⟩ := fupdatetstamp_ok h
  rw [freadinfo, Volume.readAt_eq (by decide) hspan] at hread
  split at hread
  case isFalse => cases hread
  case isTrue hheld =>
    change (v.writeAt file _ sizeofMetaFsBlock).image.size = _
    rw [Volume.writeAt_image _ (by decide) hspan, if_pos hheld.1]
    apply Image.size_write_of_le
    rw [length_padTo]
    exact hheld.2

theorem fread1_isNone_congr (hroot : v₁.root = v.root) (hsize : v₁.image.size = v.image.size)
    (hblk : 0 < v.root.blkSize) (i : Nat) :
    (fread1 v₁ file i).1 = none ↔ (fread1 v file i).1 = none := by
  have hread : ∀ slot, v₁.readAt slot v₁.root.blkSize = none ↔
      v.readAt slot v.root.blkSize = none := by
    intro slot
    have hheld : v₁.Holds slot ↔ v.Holds slot := by
      unfold Volume.Holds
      rw [hroot, hsize]
    rw [Volume.readAt_eq (by rwa [hroot]) v₁.root.blkSize_le_span,
      Volume.readAt_eq hblk v.root.blkSize_le_span, hroot]
    by_cases h : v.root.Addressable slot ∧ v.Holds slot
    · rw [if_pos h, if_pos ⟨h.1, hheld.mpr h.2⟩]
      simp
    · rw [if_neg h, if_neg fun h' => h ⟨h'.1, hheld.mp h'.2⟩]
  simp only [fread1, hroot] at hread ⊢
  split
  case isTrue =>
    split
    case h_1 => exact .rfl
    case h_2 => exact hread _
  case isFalse => exact hread _

theorem missingAhead_stamped (h : fupdatetstamp E v file wt = .ok v₁)
    (hblk : 0 < v.root.blkSize) (pos : Nat) :
    MissingAhead v₁ file pos ↔ MissingAhead v file pos := by
  have hroot := fupdatetstamp_root h
  have hsize := fupdatetstamp_size h
  unfold MissingAhead
  simp only [fread1_isNone_congr hroot hsize hblk, hroot]

end Stamps

/-! ## How far a call moves the cursor -/

section Moves

variable {E : Host} {v v' : Volume} {handle handle' : FHandle} {nbytes n : Nat}
  (hhigh : handle.progress < 2 ^ 64)

include hhigh

theorem fwrite_progress_iff {data : Option Bytes}
    (h : fwrite E v handle nbytes data = .ok (n, handle', v')) :
    handle'.progress < 2 ^ 64 ∧ (handle'.progress = handle.progress + n ↔
      handle.progress + nbytes < 2 ^ 64 ∨ data = none ∨ Readonly v.root handle.file) := by
  cases fwrite_wrote h with
  | nothing data hnone =>
      refine ⟨hhigh, iff_of_true rfl ?_⟩
      rcases hnone with rfl | rfl
      · exact .inr (.inl rfl)
      · exact .inl hhigh
  | refused data v₁ hn hstamp hreadonly =>
      exact ⟨hhigh, iff_of_true rfl (.inr (.inr hreadonly))⟩
  | written data v₁ _ pos left hn hstamp hwritable hblk hloop =>
      have hblk₁ : 0 < v₁.root.blkSize := by rwa [fupdatetstamp_root hstamp]
      have hpos := @fwriteLoop_pos handle.file data nbytes v₁ handle.progress nbytes 0 hblk₁
        hhigh (Nat.le_refl _)
      have hleft := @fwriteLoop_left handle.file data nbytes v₁ handle.progress nbytes 0 hblk₁
        (Nat.le_refl _)
      rw [hloop] at hpos hleft
      simp only at hpos hleft ⊢
      have hlt := u64_lt (handle.progress + nbytes)
      rw [or_iff_left (by simp [hwritable]), hpos, hleft, Nat.sub_zero]
      refine ⟨hlt, fun hadvance => by omega, u64_of_lt⟩

theorem fread_progress_iff {out : Option Bytes}
    (h : fread E v handle nbytes = .ok (n, out, handle', v')) :
    handle'.progress < 2 ^ 64 ∧ (handle'.progress = handle.progress + n ↔
      handle.progress + nbytes < 2 ^ 64 ∨ FreadRefuses v.root handle nbytes ∨
        MissingAhead v handle.file handle.progress) := by
  cases fread_hasRead h with
  | refused hrefuses => exact ⟨hhigh, iff_of_true rfl (.inr (.inl hrefuses))⟩
  | done v₁ out pos left hrange hstamp hblk hloop =>
      have hpos := @freadLoop_pos_lt v' handle.file nbytes handle.progress nbytes [] hhigh
      rw [hloop] at hpos
      refine ⟨hpos, ?_⟩
      simp only [hrange, false_or]
      rcases hblk with rfl | hblk
      · cases hloop
        exact iff_of_true rfl (.inl hhigh)
      · have hadvance := @freadLoop_advances_iff v' handle.file handle.progress nbytes
          (by rwa [fupdatetstamp_root hstamp]) hhigh
        rw [hloop] at hadvance
        rw [← missingAhead_stamped hstamp hblk]
        exact hadvance

end Moves

/-! ## Calls on an open file -/

structure OpenFile where
  vol : Volume
  handle : FHandle

inductive FileCall where
  | seek (progress : BitVec 64)
  | seeko (progress : BitVec 64)
  | write (nbytes : BitVec 64) (data : Option Bytes)
  | read (nbytes : BitVec 64)

/-- The count the call returns, 0 for the seeks, and what it leaves. -/
def OpenFile.call (E : Host) (s : OpenFile) : FileCall → Except Fault (Nat × OpenFile)
  | .seek progress => .ok (0, { s with handle := fseek s.vol.root s.handle progress.toNat })
  | .seeko progress => .ok (0, { s with handle := fseeko s.vol.root s.handle progress.toInt })
  | .write nbytes data =>
      (fwrite E s.vol s.handle nbytes.toNat data).map fun (n, handle, vol) => (n, ⟨vol, handle⟩)
  | .read nbytes =>
      (fread E s.vol s.handle nbytes.toNat).map fun (n, _, handle, vol) => (n, ⟨vol, handle⟩)

def OpenFile.step (E : Host) (s : OpenFile) (call : FileCall) : Except Fault OpenFile :=
  (s.call E call).map Prod.snd

/-- Where the cursor belongs after a call that returned `count`. -/
def OpenFile.target (s : OpenFile) (count : Nat) : FileCall → Int
  | .seek progress => min (s.vol.root.blkSize + progress.toNat) (2 ^ 64 - 1)
  | .seeko progress =>
      max (s.vol.root.blkSize : Int) (min (2 ^ 64 - 1) (s.handle.progress + progress.toInt))
  | .write _ _ | .read _ => s.handle.progress + count

/-- The call moves the cursor to its target, and not into the metadata block. -/
def KeepsCursor (E : Host) (s : OpenFile) (call : FileCall) : Prop :=
  ∀ count s', s.call E call = .ok (count, s') →
    s'.handle.progress = s.target count call ∧ s'.vol.root.blkSize ≤ s'.handle.progress

/--
The call does not carry the cursor past the end of the 64-bit range: a write
that is not refused ends before it, and a read ends, is refused or meets a
missing block before it.
-/
def StaysInRange (s : OpenFile) : FileCall → Prop
  | .seek _ | .seeko _ => True
  | .write nbytes data =>
      s.handle.progress + nbytes.toNat < 2 ^ 64 ∨ data = none ∨
        Readonly s.vol.root s.handle.file
  | .read nbytes =>
      s.handle.progress + nbytes.toNat < 2 ^ 64 ∨
        FreadRefuses s.vol.root s.handle nbytes.toNat ∨
        MissingAhead s.vol s.handle.file s.handle.progress

/-- The cursor lies in the 64-bit range and behind the metadata block. -/
def OpenFile.InRange (s : OpenFile) : Prop :=
  s.vol.root.blkSize ≤ s.handle.progress ∧ s.handle.progress < 2 ^ 64

theorem floadh_progress {E : Host} {v vol : Volume} {path : Path} {args : List Char}
    {handle : FHandle} (h : floadh E v path args = .ok (vol, some handle)) :
    handle.progress = vol.root.blkSize := by
  unfold floadh at h
  split at h
  case h_1 => cases h
  case h_2 v₁ hcreate =>
    obtain ⟨rfl, hfind⟩ := Prod.mk.inj (Except.ok.inj h)
    obtain ⟨fb, -, rfl⟩ := Option.map_eq_some_iff.mp hfind
    rfl

theorem OpenFile.call_ok {E : Host} {s s' : OpenFile} {call : FileCall} {count : Nat}
    (hrange : s.InRange) (h : s.call E call = .ok (count, s')) :
    s'.vol.root.blkSize = s.vol.root.blkSize ∧ s'.handle.progress < 2 ^ 64 := by
  obtain ⟨hlow, hhigh⟩ := hrange
  have hblk := s.vol.root.blkSize_lt
  cases call with
  | seek progress =>
      cases h
      have htarget := fseek_progress_eq s.vol.root s.handle progress.toNat
      refine ⟨rfl, ?_⟩
      simp only
      omega
  | seeko progress =>
      cases h
      have htarget := fseeko_progress progress.toInt hlow hhigh
      refine ⟨rfl, ?_⟩
      simp only
      omega
  | write nbytes data =>
      obtain ⟨⟨n, handle, vol⟩, hwrite, heq⟩ := map_ok h
      cases heq
      exact ⟨(fwrite_edits hwrite).sameGeometry.blkSize, (fwrite_progress_iff hhigh hwrite).1⟩
  | read nbytes =>
      obtain ⟨⟨n, out, handle, vol⟩, hread, heq⟩ := map_ok h
      cases heq
      exact ⟨by rw [fread_root hread], (fread_progress_iff hhigh hread).1⟩

theorem keepsCursor_of_ok {E : Host} {s s' : OpenFile} {call : FileCall} {count : Nat}
    (hrange : s.InRange) (h : s.call E call = .ok (count, s')) :
    KeepsCursor E s call ↔ (s'.handle.progress : Int) = s.target count call ∧
      s.vol.root.blkSize ≤ s'.handle.progress := by
  have hblk := (OpenFile.call_ok hrange h).1
  constructor
  · intro hkeep
    have htarget := hkeep count s' h
    rwa [hblk] at htarget
  · intro htarget count₁ s₁ h₁
    cases h.symm.trans h₁
    rwa [hblk]

theorem OpenFile.keepsCursor_iff {E : Host} {s s' : OpenFile} {call : FileCall}
    (hrange : s.InRange) (hstep : s.step E call = .ok s') :
    KeepsCursor E s call ↔ StaysInRange s call := by
  obtain ⟨⟨count, s'⟩, hcall, -⟩ := map_ok hstep
  rw [keepsCursor_of_ok hrange hcall]
  obtain ⟨hlow, hhigh⟩ := hrange
  have hblk := s.vol.root.blkSize_lt
  cases call with
  | seek progress =>
      cases hcall
      have htarget := fseek_progress_eq s.vol.root s.handle progress.toNat
      refine iff_of_true ?_ trivial
      simp only [target]
      omega
  | seeko progress =>
      cases hcall
      have htarget := fseeko_progress progress.toInt hlow hhigh
      refine iff_of_true ⟨htarget, ?_⟩ trivial
      simp only
      omega
  | write nbytes data =>
      obtain ⟨⟨n, handle, vol⟩, hwrite, heq⟩ := map_ok hcall
      cases heq
      rw [StaysInRange, ← (fwrite_progress_iff hhigh hwrite).2]
      simp only [target]
      omega
  | read nbytes =>
      obtain ⟨⟨n, out, handle, vol⟩, hread, heq⟩ := map_ok hcall
      cases heq
      rw [StaysInRange, ← (fread_progress_iff hhigh hread).2]
      simp only [target]
      omega

theorem OpenFile.inRange_step {E : Host} {s s' : OpenFile} {call : FileCall}
    (hrange : s.InRange) (hkeep : KeepsCursor E s call) (hstep : s.step E call = .ok s') :
    s'.InRange := by
  obtain ⟨⟨count, s₁⟩, hcall, rfl⟩ := map_ok hstep
  exact ⟨(hkeep count s₁ hcall).2, (call_ok hrange hcall).2⟩

/--
Every call of a run on a handle that was just opened moves the cursor to its
target, and behind the metadata block, if and only if no call of the run carries
it past the end of the 64-bit range.
-/
theorem keepsCursor_run_iff {E : Host} {v vol : Volume} {path : Path} {args : List Char}
    {handle : FHandle} (hload : floadh E v path args = .ok (vol, some handle))
    (calls : List FileCall) :
    Meets (OpenFile.step E) (KeepsCursor E) ⟨vol, handle⟩ calls ↔
      Meets (OpenFile.step E) StaysInRange ⟨vol, handle⟩ calls := by
  have hstart : OpenFile.InRange ⟨vol, handle⟩ := by
    have hprogress := floadh_progress hload
    have hblk := vol.root.blkSize_lt
    exact ⟨hprogress.ge, by change handle.progress < _; omega⟩
  refine meets_iff_under (I := OpenFile.InRange) (fun s call s' hrange hstep => ?_)
    (fun s call s' hrange hkeep hstep => ?_) hstart
  · exact OpenFile.keepsCursor_iff hrange hstep
  · exact OpenFile.inRange_step hrange hkeep hstep

/-- A byte is written at the far end of the range. -/
def sampleFarCalls : List FileCall := [.seek (BitVec.allOnes 64), .write 1 (some [0x78])]

theorem keepsCursor_run_sample :
    ∃ vol handle, floadh sampleHost (sampleVolume 4 (by decide)) samplePath ['c', 'f'] =
        .ok (vol, some handle) ∧
      (Meets (OpenFile.step sampleHost) (KeepsCursor sampleHost) ⟨vol, handle⟩ sampleFarCalls ↔
        Meets (OpenFile.step sampleHost) StaysInRange ⟨vol, handle⟩ sampleFarCalls) := by
  obtain ⟨⟨vol, fh⟩, hload, heval⟩ := @ok_of_eval _ _ _
    (floadh sampleHost (sampleVolume 4 (by decide)) samplePath ['c', 'f'])
    (fun r => r.2) (some ⟨0, 512, samplePath⟩) (by decide +kernel)
  obtain rfl : fh = some ⟨0, 512, samplePath⟩ := heval
  exact ⟨vol, _, hload, keepsCursor_run_iff hload sampleFarCalls⟩

/-- The write returns 1 and leaves the cursor at 0, inside the metadata block. -/
theorem not_keepsCursor_run_far :
    ∃ vol handle, floadh sampleHost (sampleVolume 4 (by decide)) samplePath ['c', 'f'] =
        .ok (vol, some handle) ∧
      ¬ Meets (OpenFile.step sampleHost) (KeepsCursor sampleHost) ⟨vol, handle⟩
        sampleFarCalls := by
  obtain ⟨⟨vol, fh⟩, hload, heval⟩ := @ok_of_eval _ _ _
    (floadh sampleHost (sampleVolume 4 (by decide)) samplePath ['c', 'f'])
    (fun r => (r.2, ((OpenFile.call sampleHost
      ⟨r.1, fseek r.1.root ⟨0, 512, samplePath⟩ (BitVec.allOnes 64).toNat⟩
      (.write 1 (some [0x78]))).map fun r => (r.1, r.2.handle.progress)).toOption))
    (some ⟨0, 512, samplePath⟩, some (1, 0)) (by decide +kernel)
  obtain ⟨hfh, hwrite⟩ := Prod.mk.inj heval
  obtain rfl : fh = some ⟨0, 512, samplePath⟩ := hfh
  obtain ⟨⟨count, s⟩, hcall, hresult⟩ := ok_of_eval hwrite
  obtain ⟨rfl, hzero⟩ := Prod.mk.inj hresult
  refine ⟨vol, _, hload, fun hmeets => ?_⟩
  obtain ⟨hkeep, -⟩ := (hmeets _ rfl).2 s (by rw [OpenFile.step, hcall]; rfl)
  have hadvance := (hkeep 1 s hcall).1
  rw [show s.handle.progress = 0 from hzero] at hadvance
  simp only [OpenFile.target] at hadvance
  omega

end BlockyOS.HostTool
