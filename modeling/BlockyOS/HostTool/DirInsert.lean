import BlockyOS.HostTool.Listing
import BlockyOS.HostTool.NextFit
import BlockyOS.HostTool.RoundTrip

/-!
# Adding a record to a directory

`__fdiradd` walks over the loaded records until it meets a free one or one of
the same item, counting up the `local` field of each record it passes.  Nothing
ends the walk at the end of the buffer, and only a field that wraps makes it
extend the directory.
-/

namespace BlockyOS.HostTool

open BlockyOS.Foundation

/-! ## The walk over the records -/

/-- The code of record `k`. -/
def recordCode (bytes : Bytes) (k : Nat) : Fcode := (dirItemCodec.get bytes k).f.fcode

/-- The walk for the code stops at record `k`. -/
def Usable (bytes : Bytes) (c : Fcode) (k : Nat) : Prop :=
  recordCode bytes k = Fcode.zero ∨ recordCode bytes k = c

/-- Counting up the field of record `k` brings it back to zero. -/
def Wraps (bytes : Bytes) (k : Nat) : Prop := (dirItemCodec.get bytes k).local' + 1 = 0

/-- From record `cc` on, the first usable record inside the buffer is `r`. -/
structure RoomAt (bytes : Bytes) (c : Fcode) (cc r : Nat) : Prop where
  inside : dirItemCodec.Inside bytes r
  usable : Usable bytes c r
  passed : ∀ k, cc ≤ k → k < r → ¬ Usable bytes c k ∧ ¬ Wraps bytes k

/-- The walk from record `cc` gives up behind record `r`. -/
structure GivesUpAt (bytes : Bytes) (c : Fcode) (cc r : Nat) : Prop where
  inside : dirItemCodec.Inside bytes r
  wraps : Wraps bytes r
  unusable : ∀ k, cc ≤ k → k ≤ r → ¬ Usable bytes c k

/-- `after` is `before` with a record of code `c` at `r`, whatever blocks follow. -/
structure PlacedAt (before : Bytes) (c : Fcode) (r : Nat) (after : Bytes) : Prop where
  length : after.length = before.length
  code : recordCode after r = c
  other : ∀ (rest : Bytes) (k : Nat), k ≠ r →
    recordCode (after ++ rest) k = recordCode (before ++ rest) k

theorem RoomAt.not_givesUp {bytes : Bytes} {c : Fcode} {cc r j : Nat}
    (h : RoomAt bytes c cc r) (hr : cc ≤ r) (hj : cc ≤ j) : ¬ GivesUpAt bytes c cc j := by
  intro hgives
  rcases Nat.lt_or_ge j r with hlt | hge
  · exact (h.passed j hj hlt).2 hgives.wraps
  · exact hgives.unusable r hr hge h.usable

theorem put_append {α : Type} (codec : Codec α) {bytes : Bytes} (rest : Bytes) {k : Nat}
    (h : codec.Inside bytes k) (a : α) :
    codec.put bytes k a ++ rest = codec.put (bytes ++ rest) k a := by
  have hlen := codec.length_encode a
  have hinside : codec.width * k + codec.width ≤ bytes.length := h
  rw [Codec.put, Codec.put, splice, splice, List.take_append_of_le_length (by omega),
    List.drop_append_of_le_length (by omega)]
  simp only [List.append_assoc]

theorem inside_append {α : Type} {codec : Codec α} {bytes : Bytes} {k : Nat} (rest : Bytes)
    (h : codec.Inside bytes k) : codec.Inside (bytes ++ rest) k := by
  unfold Codec.Inside at h ⊢
  rw [List.length_append]
  omega

section Walk

variable {bytes : Bytes} {cc : Nat} (hcc : dirItemCodec.Inside bytes cc)

def passRecord (bytes : Bytes) (cc : Nat) : Bytes :=
  dirItemCodec.put bytes cc
    { dirItemCodec.get bytes cc with local' := (dirItemCodec.get bytes cc).local' + 1 }

theorem scanRecords_succ (fb : FsBlock) (fuel : Nat) (bytes : Bytes) (cc : Nat) :
    scanRecords fb (fuel + 1) cc bytes =
      if ¬ dirItemCodec.Inside bytes cc then .error .outOfBounds
      else if recordCode bytes cc = Fcode.zero then
        .ok (.placed (dirItemCodec.put bytes cc ⟨fb, 0⟩))
      else if recordCode bytes cc = fb.fcode then
        .ok (.placed (dirItemCodec.put bytes cc { dirItemCodec.get bytes cc with
          f := { (dirItemCodec.get bytes cc).f with attributes := fb.attributes } }))
      else if (dirItemCodec.get bytes cc).local' + 1 = 0 then
        .ok (.missed (passRecord bytes cc))
      else scanRecords fb fuel (cc + 1) (passRecord bytes cc) := rfl

include hcc

theorem length_passRecord : (passRecord bytes cc).length = bytes.length :=
  dirItemCodec.length_put hcc _

theorem recordCode_passRecord_append (rest : Bytes) (k : Nat) :
    recordCode (passRecord bytes cc ++ rest) k = recordCode (bytes ++ rest) k := by
  have hcc' := inside_append rest hcc
  rw [passRecord, put_append dirItemCodec rest hcc, recordCode, recordCode]
  by_cases hk : k = cc
  · subst hk
    rw [dirItemCodec.get_put_same hcc', get_append dirItemCodec rest hcc]
  · rw [dirItemCodec.get_put_other hcc' hk]

theorem recordCode_passRecord (k : Nat) :
    recordCode (passRecord bytes cc) k = recordCode bytes k := by
  have hpass := recordCode_passRecord_append hcc [] k
  rwa [List.append_nil, List.append_nil] at hpass

theorem wraps_passRecord {k : Nat} (hk : k ≠ cc) :
    Wraps (passRecord bytes cc) k ↔ Wraps bytes k := by
  unfold Wraps passRecord
  rw [dirItemCodec.get_put_other hcc hk]

theorem usable_passRecord (c : Fcode) (k : Nat) :
    Usable (passRecord bytes cc) c k ↔ Usable bytes c k := by
  unfold Usable
  rw [recordCode_passRecord hcc]

theorem inside_passRecord (k : Nat) :
    dirItemCodec.Inside (passRecord bytes cc) k ↔ dirItemCodec.Inside bytes k := by
  unfold Codec.Inside
  rw [length_passRecord hcc]

theorem roomAt_passRecord {c : Fcode} {r : Nat} (hunusable : ¬ Usable bytes c cc)
    (hnowrap : ¬ Wraps bytes cc) :
    RoomAt (passRecord bytes cc) c (cc + 1) r ↔ RoomAt bytes c cc r := by
  constructor
  · intro h
    refine ⟨(inside_passRecord hcc r).mp h.inside, (usable_passRecord hcc c r).mp h.usable, ?_⟩
    intro k hlow hhigh
    rcases Nat.eq_or_lt_of_le hlow with rfl | hlow'
    · exact ⟨hunusable, hnowrap⟩
    · obtain ⟨hnot, hnot'⟩ := h.passed k hlow' hhigh
      exact ⟨fun husable => hnot ((usable_passRecord hcc c k).mpr husable),
        fun hwraps => hnot' ((wraps_passRecord hcc (by omega)).mpr hwraps)⟩
  · intro h
    refine ⟨(inside_passRecord hcc r).mpr h.inside, (usable_passRecord hcc c r).mpr h.usable, ?_⟩
    intro k hlow hhigh
    obtain ⟨hnot, hnot'⟩ := h.passed k (by omega) hhigh
    exact ⟨fun husable => hnot ((usable_passRecord hcc c k).mp husable),
      fun hwraps => hnot' ((wraps_passRecord hcc (by omega)).mp hwraps)⟩

theorem placedAt_put {item : DirItem} {c : Fcode} (hcode : item.f.fcode = c) :
    PlacedAt bytes c cc (dirItemCodec.put bytes cc item) := by
  refine ⟨dirItemCodec.length_put hcc item, ?_, fun rest k hk => ?_⟩
  · rw [recordCode, dirItemCodec.get_put_same hcc, hcode]
  · rw [put_append dirItemCodec rest hcc, recordCode,
      dirItemCodec.get_put_other (inside_append rest hcc) hk, recordCode]

end Walk

theorem scanRecords_of_room {fb : FsBlock} (fuel : Nat) {bytes : Bytes} {cc r : Nat}
    (hroom : RoomAt bytes fb.fcode cc r) (hcc : cc ≤ r) (hfuel : r - cc < fuel) :
    ∃ after, scanRecords fb fuel cc bytes = .ok (.placed after) ∧
      PlacedAt bytes fb.fcode r after := by
  induction fuel generalizing bytes cc with
  | zero => omega
  | succ fuel ih =>
      have hinside : dirItemCodec.Inside bytes cc := by
        have hr := hroom.inside
        unfold Codec.Inside at hr ⊢
        have hmul := Nat.mul_le_mul_left dirItemCodec.width hcc
        omega
      rw [scanRecords_succ, if_neg (not_not.mpr hinside)]
      rcases Nat.eq_or_lt_of_le hcc with rfl | hlt
      · by_cases hzero : recordCode bytes cc = Fcode.zero
        · rw [if_pos hzero]
          exact ⟨_, rfl, placedAt_put hinside rfl⟩
        · have hsame := hroom.usable.resolve_left hzero
          rw [if_neg hzero, if_pos hsame]
          exact ⟨_, rfl, placedAt_put hinside hsame⟩
      · obtain ⟨hunusable, hnowrap⟩ := hroom.passed cc (Nat.le_refl _) hlt
        obtain ⟨hzero, hsame⟩ := not_or.mp hunusable
        have hnext : ¬ (dirItemCodec.get bytes cc).local' + 1 = 0 := hnowrap
        rw [if_neg hzero, if_neg hsame, if_neg hnext]
        obtain ⟨after, hscan, hplaced⟩ := @ih (passRecord bytes cc) (cc + 1)
          ((roomAt_passRecord hinside hunusable hnowrap).mpr hroom) hlt (by omega)
        refine ⟨after, hscan, hplaced.length.trans (length_passRecord hinside),
          hplaced.code, fun rest k hk => ?_⟩
        rw [hplaced.other rest k hk, recordCode_passRecord_append hinside]

theorem room_of_scanRecords {fb : FsBlock} (fuel : Nat) {bytes after : Bytes} {cc : Nat}
    (h : scanRecords fb fuel cc bytes = .ok (.placed after)) :
    ∃ r, cc ≤ r ∧ RoomAt bytes fb.fcode cc r := by
  induction fuel generalizing bytes cc with
  | zero => cases h
  | succ fuel ih =>
      rw [scanRecords_succ] at h
      split at h
      case isTrue => cases h
      case isFalse hinside =>
        have hinside := not_not.mp hinside
        have hhere : ∀ k, cc ≤ k → k < cc → ¬ Usable bytes fb.fcode k ∧ ¬ Wraps bytes k :=
          fun k hlow hhigh => by omega
        split at h
        case isTrue hzero => exact ⟨cc, Nat.le_refl _, hinside, .inl hzero, hhere⟩
        case isFalse hzero =>
          split at h
          case isTrue hsame => exact ⟨cc, Nat.le_refl _, hinside, .inr hsame, hhere⟩
          case isFalse hsame =>
            split at h
            case isTrue => cases h
            case isFalse hnowrap =>
              obtain ⟨r, hr, hroom⟩ := ih h
              have hunusable : ¬ Usable bytes fb.fcode cc := not_or.mpr ⟨hzero, hsame⟩
              exact ⟨r, by omega, (roomAt_passRecord hinside hunusable hnowrap).mp hroom⟩

theorem givesUp_of_scanRecords {fb : FsBlock} (fuel : Nat) {bytes after : Bytes} {cc : Nat}
    (h : scanRecords fb fuel cc bytes = .ok (.missed after)) :
    ∃ r, cc ≤ r ∧ GivesUpAt bytes fb.fcode cc r := by
  induction fuel generalizing bytes cc with
  | zero => cases h
  | succ fuel ih =>
      rw [scanRecords_succ] at h
      split at h
      case isTrue => cases h
      case isFalse hinside =>
        have hinside := not_not.mp hinside
        split at h
        case isTrue => cases h
        case isFalse hzero =>
          split at h
          case isTrue => cases h
          case isFalse hsame =>
            have hunusable : ¬ Usable bytes fb.fcode cc := not_or.mpr ⟨hzero, hsame⟩
            split at h
            case isTrue hwraps =>
              refine ⟨cc, Nat.le_refl _, hinside, hwraps, fun k hlow hhigh => ?_⟩
              obtain rfl := Nat.le_antisymm hlow hhigh
              exact hunusable
            case isFalse hnowrap =>
              obtain ⟨r, hr, hgives⟩ := ih h
              refine ⟨r, by omega, (inside_passRecord hinside r).mp hgives.inside,
                (wraps_passRecord hinside (by omega)).mp hgives.wraps, fun k hlow hhigh => ?_⟩
              rcases Nat.eq_or_lt_of_le hlow with rfl | hlow'
              · exact hunusable
              · exact fun husable => hgives.unusable k hlow' hhigh
                  ((usable_passRecord hinside _ k).mpr husable)

theorem GivesUpAt.append {bytes : Bytes} {c : Fcode} {r : Nat} (rest : Bytes)
    (h : GivesUpAt bytes c 0 r) : GivesUpAt (bytes ++ rest) c 0 r := by
  have hget : ∀ k, k ≤ r →
      dirItemCodec.get (bytes ++ rest) k = dirItemCodec.get bytes k := by
    intro k hk
    refine get_append dirItemCodec rest ?_
    have hr := h.inside
    have hmul := Nat.mul_le_mul_left dirItemCodec.width hk
    unfold Codec.Inside at hr ⊢
    omega
  refine ⟨inside_append rest h.inside, ?_, fun k hlow hhigh => ?_⟩
  · rw [Wraps, hget r (Nat.le_refl _)]
    exact h.wraps
  · rw [Usable, recordCode, hget k hhigh]
    exact h.unusable k hlow hhigh

/-! ## The directory behind a handle -/

/-- `dir` is a handle on a live directory with code `c`, as `floadhdir` returns it. -/
structure OpenOn (E : Host) (v : Volume) (dir : DirHandle) (c : Fcode) : Prop where
  code : getfcode E dir.path = c
  live : c ≠ Fcode.zero
  entry : HasEntry v.root dir.file c 0
  held : v.AllHeld
  blk : 0 < v.root.blkSize
  empty : dirBlocks v.root c = 0 → dir.dirarray = none

theorem floadhdir_opened {E : Host} {v v' : Volume} {path : Path} {args : List Char}
    {dir : DirHandle} (h : floadhdir E v path args = .ok (v', some dir)) :
    ∃ file, ffind E v'.root path = some file ∧ openDir E v' path file = .ok (v', some dir) := by
  rw [floadhdir, floadhdirFuel] at h
  split at h
  case h_1 file hfind =>
    obtain rfl := (openDir_ok h).1
    exact ⟨file, hfind, h⟩
  case h_2 =>
    split at h
    case isFalse => cases h
    case isTrue =>
      split at h
      case h_1 => cases h
      case h_2 v₁ hcreate =>
        split at h
        case h_1 => cases h
        case h_2 file hfind =>
          obtain rfl := (openDir_ok h).1
          exact ⟨file, hfind, h⟩

theorem loadedBlocks_eq_zero_iff {v : Volume} {c : Fcode} :
    loadedBlocks v c = 0 ↔ dirBlocks v.root c = 0 := by
  unfold loadedBlocks
  split <;> omega

theorem openOn_of_floadhdir {E : Host} {v₀ v : Volume} {path : Path} {args : List Char}
    {dir : DirHandle} (h : floadhdir E v₀ path args = .ok (v, some dir))
    (hlive : getfcode E path ≠ Fcode.zero) (hheld : v.AllHeld) (hblk : 0 < v.root.blkSize) :
    OpenOn E v dir (getfcode E path) := by
  obtain ⟨file, hfind, hopen⟩ := floadhdir_opened h
  obtain ⟨-, hdir⟩ := openDir_ok hopen
  obtain ⟨rfl, rfl⟩ := hdir dir rfl
  refine ⟨rfl, hlive, ffind_some hfind, hheld, hblk, fun hempty => ?_⟩
  unfold openDir at hopen
  split at hopen
  case isFalse => cases hopen
  case isTrue =>
    rw [fdirrefresh_eq E _ hheld hblk] at hopen
    obtain ⟨-, hsome⟩ := Prod.mk.inj (Except.ok.inj hopen)
    rw [← Option.some.inj hsome]
    exact if_pos (loadedBlocks_eq_zero_iff.mpr hempty)

theorem dirBlocks_lt (fr : ConfFsroot) (c : Fcode) : dirBlocks fr c < 2 ^ 28 := by
  have hle := (dirBlocks_spec fr c).1
  have hlen := fr.length_lt
  rw [fr.length_clusterMap] at hlen
  omega

theorem dirBlocks_lt_count {fr : ConfFsroot} {c : Fcode} {file : Nat}
    (hfile : HasEntry fr file c 0) : dirBlocks fr c < countFcode fr c := by
  obtain ⟨-, -, hblocks⟩ := dirBlocks_spec fr c
  have hle := extent_le_count fr c
  have habsent := not_present_extent fr c
  rcases hextent : extent fr c with _ | k
  · rw [hextent] at habsent
    exact absurd ⟨file, hfile⟩ habsent
  · rw [hextent] at hle habsent
    by_contra hlt
    exact habsent (hblocks k (by omega))

theorem ffindhi_extended_other {v : Volume} {file fb j : Nat} {c : Fcode}
    (hfile : HasEntry v.root file c 0) (hc : c ≠ Fcode.zero)
    (halloc : allocatecluster v.root = (v.root.setCursor fb, some fb)) (hj : j < 2 ^ 32)
    (hne : j ≠ countFcode v.root c) :
    ffindhi (v.extended file fb).root c j = ffindhi v.root c j := by
  obtain ⟨-, hlt, -, hfree, -⟩ := allocatecluster_some halloc
  refine @ffindhi_setBlock_other (v.root.setCursor fb) _ _ _ _ hlt ?_ ?_
  · refine matchesIndex_eq_false (.inl ?_)
    rw [ConfFsroot.setCursor_block, hfree]
    exact hc.symm
  · refine matchesIndex_eq_false (.inr ?_)
    rw [extensionEntry_index, hfile.2.1, u32_of_lt hj]
    exact hne.symm

section Growth

variable {E : Host} {v : Volume} {dir : DirHandle} {c : Fcode} (h : OpenOn E v dir c)

include h

theorem OpenOn.grown {loaded : Nat} {dirarray : Option Bytes}
    (hempty : dirBlocks (faddr v dir.file).1.root c = 0 → dirarray = none) :
    OpenOn E (faddr v dir.file).1 ⟨dir.file, dir.path, loaded, dirarray⟩ c := by
  have hedits := faddr_edits v dir.file
  have hgeometry := hedits.sameGeometry
  refine ⟨h.code, h.live, hedits.hasEntry_mono h.live h.entry, ?_, ?_, hempty⟩
  · rcases hadd : faddr v dir.file with ⟨v₁, slot⟩
    cases slot with
    | none =>
        obtain ⟨-, rfl⟩ := faddr_none hadd
        exact h.held.withRoot (.setCursor v.root 0)
    | some fb =>
        obtain ⟨halloc, rfl⟩ := faddr_some hadd
        exact (h.held.withRoot (extended_edits halloc).sameGeometry).writeAt _ _ _
  · rw [hgeometry.blkSize]
    exact h.blk

theorem OpenOn.faddr_block {k : Nat} (hk : k < dirBlocks v.root c) :
    ffindhi (faddr v dir.file).1.root c (k + 1) = ffindhi v.root c (k + 1) ∧
      dirBlock (faddr v dir.file).1 c k = dirBlock v c k := by
  have hbound := dirBlocks_lt v.root c
  have hcount := dirBlocks_lt_count h.entry
  rcases hadd : faddr v dir.file with ⟨v₁, slot⟩
  cases slot with
  | none =>
      obtain ⟨-, rfl⟩ := faddr_none hadd
      exact ⟨rfl, rfl⟩
  | some fb =>
      obtain ⟨halloc, rfl⟩ := faddr_some hadd
      obtain ⟨-, hlt, -, hfree, -⟩ := allocatecluster_some halloc
      have hfind := @ffindhi_extended_other v dir.file fb (k + 1) c h.entry h.live halloc
        (by omega) (by omega)
      refine ⟨hfind, ?_⟩
      obtain ⟨s, hs, hentry⟩ := ffindhi_of_present ((dirBlocks_spec v.root c).2.2 k hk)
      have hne : s ≠ fb := by
        rintro rfl
        rw [hentry.2.1] at hfree
        exact h.live hfree
      have hlength : (v.extended dir.file fb).root.clusterMap.length =
          v.root.clusterMap.length := (extended_edits halloc).sameGeometry.length
      have hwindow := @Volume.window_writeAt_other (v.extended dir.file fb) fb v.root.blkSize
        (zeros v.root.blkSize) h.blk (ConfFsroot.blkSize_le_span _) s (by rwa [hlength])
        (by rw [hlength]; exact hentry.1) hne
        (((extended_edits halloc).sameGeometry.addressable s).mpr (h.held s hentry.1).1)
      have hs' : ffindhi ((v.extended dir.file fb).writeAt fb (zeros v.root.blkSize)
          v.root.blkSize).root c (k + 1) = some s := hfind.trans hs
      rw [dirBlock, dirBlock, hs', hs]
      simp only [hwindow]
      rfl

theorem OpenOn.dirBlocks_le : dirBlocks v.root c ≤ dirBlocks (faddr v dir.file).1.root c := by
  by_contra hlt
  obtain ⟨-, hend, -⟩ := dirBlocks_spec (faddr v dir.file).1.root c
  obtain ⟨s, hs, -⟩ := ffindhi_of_present ((dirBlocks_spec v.root c).2.2
    (dirBlocks (faddr v dir.file).1.root c) (by omega))
  rw [(h.faddr_block (by omega)).1, hs] at hend
  cases hend

theorem OpenOn.faddr_bytes {n : Nat} (hn : n ≤ dirBlocks v.root c) :
    dirBytes (faddr v dir.file).1 c n = dirBytes v c n := by
  induction n with
  | zero => rfl
  | succ n ih => rw [dirBytes_succ, dirBytes_succ, ih (by omega), (h.faddr_block hn).2]

theorem OpenOn.loaded_prefix (hblocks : 0 < dirBlocks v.root c) :
    ∃ rest, dirBytes (faddr v dir.file).1 c (loadedBlocks (faddr v dir.file).1 c) =
      dirBytes v c (loadedBlocks v c) ++ rest := by
  have hle := h.dirBlocks_le
  have hfirst := @OpenOn.faddr_bytes _ _ _ _ h 1 hblocks
  have hblk := (faddr_edits v dir.file).sameGeometry.blkSize
  have hmono : loadedBlocks v c ≤ loadedBlocks (faddr v dir.file).1 c := by
    unfold loadedBlocks
    rw [hfirst, hblk]
    split <;> omega
  obtain ⟨rest, hrest⟩ := dirBytes_prefix (faddr v dir.file).1 c hmono
  rw [h.faddr_bytes (loadedBlocks_le v c)] at hrest
  exact ⟨rest, hrest⟩

end Growth

/-! ## Passes of the outer loop -/

section Passes

variable {E : Host} {v : Volume} {dir : DirHandle} {c : Fcode} {fb : Nat}
  (h : OpenOn E v dir c)

include h

theorem OpenOn.pass (fuel : Nat) (hblocks : 0 < dirBlocks v.root c) :
    fdiraddLoop E fb (fuel + 1) v dir =
      match scanRecords (v.root.block fb) ((dirBytes v c (loadedBlocks v c)).length + 1) 0
          (dirBytes v c (loadedBlocks v c)) with
      | .error e => .error e
      | .ok (.placed after) => .ok (v, ⟨dir.file, dir.path, loadedBlocks v c, some after⟩)
      | .ok (.missed after) => fdiraddLoop E fb fuel (faddr v dir.file).1
          ⟨dir.file, dir.path, loadedBlocks v c, some after⟩ := by
  have hloaded : loadedBlocks v c ≠ 0 := fun hzero =>
    absurd (loadedBlocks_eq_zero_iff.mp hzero) (by omega)
  rw [fdiraddLoop, fdirrefresh_eq E dir h.held h.blk, h.code]
  rcases hscan : scanRecords (v.root.block fb) ((dirBytes v c (loadedBlocks v c)).length + 1) 0
    (dirBytes v c (loadedBlocks v c)) with e | after | after <;>
    simp only [if_neg hloaded, hscan]

theorem OpenOn.pass_empty (fuel : Nat) (hblocks : dirBlocks v.root c = 0) :
    fdiraddLoop E fb (fuel + 1) v dir =
      fdiraddLoop E fb fuel (faddr v dir.file).1 ⟨dir.file, dir.path, 0, none⟩ := by
  have hloaded : loadedBlocks v c = 0 := loadedBlocks_eq_zero_iff.mpr hblocks
  rw [fdiraddLoop, fdirrefresh_eq E dir h.held h.blk, h.code]
  simp only [hloaded, if_pos, h.empty hblocks]

theorem OpenOn.never_of_givesUp (fuel : Nat) {r : Nat} (hblocks : 0 < dirBlocks v.root c)
    (hitem : (v.root.block fb).fcode ≠ Fcode.zero)
    (hgives : GivesUpAt (dirBytes v c (loadedBlocks v c)) (v.root.block fb).fcode 0 r)
    (result : Volume × DirHandle) : fdiraddLoop E fb fuel v dir ≠ .ok result := by
  induction fuel generalizing v dir with
  | zero => exact fun hok => by cases hok
  | succ fuel ih =>
      rw [h.pass fuel hblocks]
      intro hok
      split at hok
      case h_1 => cases hok
      case h_2 after hscan =>
        obtain ⟨r', -, hroom⟩ := room_of_scanRecords _ hscan
        exact hroom.not_givesUp (Nat.zero_le _) (Nat.zero_le _) hgives
      case h_3 after hscan =>
        have hlive := (faddr_edits v dir.file).block_of_live hitem
        obtain ⟨rest, hrest⟩ := h.loaded_prefix hblocks
        have hmore := h.dirBlocks_le
        have hgrown := @OpenOn.grown _ _ _ _ h (loadedBlocks v c) (some after)
          (fun hempty => by omega)
        refine ih hgrown (by omega) (by rwa [hlive]) ?_ hok
        rw [hrest, hlive]
        exact hgives.append rest

theorem OpenOn.never_of_empty (fuel : Nat) (hblocks : dirBlocks v.root c = 0)
    (hstuck : Full v.root ∨ 2 ≤ countFcode v.root c) (result : Volume × DirHandle) :
    fdiraddLoop E fb fuel v dir ≠ .ok result := by
  induction fuel generalizing v dir with
  | zero => exact fun hok => by cases hok
  | succ fuel ih =>
      rw [h.pass_empty fuel hblocks]
      refine ih (h.grown fun _ => rfl) ?_ ?_
      · rcases hadd : faddr v dir.file with ⟨v₁, slot⟩
        cases slot with
        | none =>
            obtain ⟨-, rfl⟩ := faddr_none hadd
            exact hblocks
        | some fb' =>
            obtain ⟨halloc, rfl⟩ := faddr_some hadd
            obtain ⟨-, hlt, -, hfree, -⟩ := allocatecluster_some halloc
            have htwo : 2 ≤ countFcode v.root c := hstuck.resolve_left fun hfull =>
              hfull fb' hlt hfree
            have hfind := @ffindhi_extended_other v dir.file fb' 1 c h.entry h.live halloc
              (by decide) (by omega)
            obtain ⟨-, hend, -⟩ := dirBlocks_spec v.root c
            rw [hblocks] at hend
            by_contra hpos
            obtain ⟨s, hs, -⟩ := ffindhi_of_present
              ((dirBlocks_spec (v.extended dir.file fb').root c).2.2 0 (Nat.pos_of_ne_zero hpos))
            rw [hfind, hend] at hs
            cases hs
      · rcases hadd : faddr v dir.file with ⟨v₁, slot⟩
        cases slot with
        | none =>
            obtain ⟨-, rfl⟩ := faddr_none hadd
            exact hstuck
        | some fb' =>
            obtain ⟨halloc, rfl⟩ := faddr_some hadd
            obtain ⟨-, hlt, -, hfree, -⟩ := allocatecluster_some halloc
            have htwo : 2 ≤ countFcode v.root c := hstuck.resolve_left fun hfull =>
              hfull fb' hlt hfree
            have hcount := extended_count h.entry h.live halloc
            refine .inr ?_
            change 2 ≤ countFcode (v.extended dir.file fb').root c
            omega

end Passes

/-! ## The first block of a directory -/

section FirstBlock

variable {E : Host} {v : Volume} {dir : DirHandle} {c : Fcode} (h : OpenOn E v dir c)
  (hblocks : dirBlocks v.root c = 0) (hcount : countFcode v.root c = 1)

include h hcount

theorem OpenOn.single_entry {s i : Nat} (hentry : HasEntry v.root s c i) : i = 0 := by
  have hcard : (numbers FsBlock.fcode FsBlock.number v.root.clusterMap c).card = 1 := by
    rw [card_numbers]
    exact hcount
  obtain ⟨n, hn⟩ := Multiset.card_eq_one.mp hcard
  have hzero := mem_numbers_iff.mpr ⟨dir.file, h.entry⟩
  have hi := mem_numbers_iff.mpr ⟨s, hentry⟩
  rw [hn, Multiset.mem_singleton] at hzero hi
  omega

include hblocks

theorem OpenOn.first_block (hreach : Reachable v.root) :
    dirBlocks (faddr v dir.file).1.root c = 1 ∧
      dirBytes (faddr v dir.file).1 c 1 = zeros v.root.blkSize := by
  have hspan := v.root.blkSize_le_span
  rcases hadd : faddr v dir.file with ⟨v₁, slot⟩
  cases slot with
  | none =>
      obtain ⟨halloc, -⟩ := faddr_none hadd
      have hnone := @allocatecluster_eq_none_iff v.root
      rw [halloc] at hnone
      exact absurd hreach (hnone.mp rfl)
  | some fb =>
      obtain ⟨halloc, rfl⟩ := faddr_some hadd
      obtain ⟨-, hlt, -, -, -⟩ := allocatecluster_some halloc
      obtain ⟨-, hend, -⟩ := dirBlocks_spec v.root c
      rw [hblocks] at hend
      have hfound : ∀ j, j < 2 ^ 32 → ffindhi (v.extended dir.file fb).root c j =
          if j = 1 then some fb else ffindhi v.root c j :=
        ffindhi_extended h.entry h.live hend halloc hcount
      have hone : ffindhi (v.extended dir.file fb).root c 1 = some fb := by
        rw [hfound 1 (by decide), if_pos rfl]
      have htwo : ffindhi (v.extended dir.file fb).root c 2 = none := by
        rw [hfound 2 (by decide), if_neg (by decide)]
        refine ffindhi_eq_none (by decide) fun s hs => ?_
        have := h.single_entry hcount hs
        omega
      obtain ⟨-, hend', hblocks'⟩ := dirBlocks_spec (v.extended dir.file fb).root c
      have hdir : dirBlocks (v.extended dir.file fb).root c = 1 := by
        rcases hn : dirBlocks (v.extended dir.file fb).root c with _ | _ | n
        · rw [hn, hone] at hend'
          cases hend'
        · rfl
        · obtain ⟨s, hs, -⟩ := ffindhi_of_present (hblocks' 1 (by omega))
          rw [htwo] at hs
          cases hs
      refine ⟨hdir, ?_⟩
      have haddr : (v.extended dir.file fb).root.Addressable fb :=
        ((extended_edits halloc).sameGeometry.addressable fb).mpr (h.held fb hlt).1
      have hwindow := @Volume.window_writeAt_same (v.extended dir.file fb) fb v.root.blkSize
        (zeros v.root.blkSize) h.blk hspan haddr
      have hone' : ffindhi ((v.extended dir.file fb).writeAt fb (zeros v.root.blkSize)
          v.root.blkSize).root c (0 + 1) = some fb := hone
      rw [dirBytes_succ, dirBytes_zero, List.nil_append, dirBlock, hone']
      simp only [hwindow, take_zeros, padTo_zeros, Nat.min_self]
      change zeros (min v.root.blkSize v.root.span) = _
      rw [Nat.min_eq_left hspan]

end FirstBlock

theorem recordCode_zeros (n k : Nat) : recordCode (zeros n) k = Fcode.zero := by
  rw [recordCode, Codec.get, slice_zeros]
  change Fcode.mk (BitVec.ofNat 64 (fieldNat (zeros _) 0 8))
    (BitVec.ofNat 48 (fieldNat (zeros _) 8 6)) = _
  rw [fieldNat_zeros, fieldNat_zeros]
  rfl

/-! ## When an insertion is right -/

def dirAll (v : Volume) (c : Fcode) : Bytes := dirBytes v c (dirBlocks v.root c)

def AddsOne (before : Bytes) (c : Fcode) (after : Bytes) : Prop :=
  ∃ r, dirItemCodec.Inside after r ∧ recordCode after r = c ∧
    Usable before c r ∧
    ∀ k, dirItemCodec.Inside after k → k ≠ r →
      recordCode after k = recordCode before k ∧ recordCode after k ≠ c

def flushed (v : Volume) (c : Fcode) (dirarray : Bytes) : Bytes :=
  dirarray ++ (dirAll v c).drop dirarray.length

/--
`__fdiradd` returns, having scanned no more than the blocks it loaded, and adds
the item as one record unless the map is full.
-/
def InsertsRight (E : Host) (v : Volume) (dir : DirHandle) (fb : Nat) : Prop :=
  ∃ v' dir' dirarray, fdiradd E v dir fb = .ok (v', dir') ∧ dir'.dirarray = some dirarray ∧
    dirarray.length = dir'.loadedblocks * v.root.blkSize ∧
    (¬ Full v.root → AddsOne (dirAll v (getfcode E dir.path)) (v.root.block fb).fcode
      (flushed v' (getfcode E dir.path) dirarray))

/--
The loaded blocks have a usable record before the first whose field wraps, and
unless the map is full no other record names the item; or the directory has no
block and no entry besides its own, and a free cluster holds a record.
-/
def InsertFits (v : Volume) (c item : Fcode) : Prop :=
  (0 < dirBlocks v.root c ∧ ∃ r, RoomAt (dirBytes v c (loadedBlocks v c)) item 0 r ∧
    (¬ Full v.root → ∀ k, k ≠ r → dirItemCodec.Inside (dirAll v c) k →
      recordCode (dirAll v c) k ≠ item)) ∨
  (dirBlocks v.root c = 0 ∧ ¬ Full v.root ∧ countFcode v.root c = 1 ∧
    dirItemCodec.width ≤ v.root.blkSize)

theorem addsOne_iff {v : Volume} {c item : Fcode} {after : Bytes} {r : Nat}
    (hroom : RoomAt (dirBytes v c (loadedBlocks v c)) item 0 r)
    (hplaced : PlacedAt (dirBytes v c (loadedBlocks v c)) item r after) :
    AddsOne (dirAll v c) item (flushed v c after) ↔
      ∀ k, k ≠ r → dirItemCodec.Inside (dirAll v c) k → recordCode (dirAll v c) k ≠ item := by
  obtain ⟨rest, hrest⟩ := dirBytes_prefix v c (loadedBlocks_le v c)
  have hall : dirAll v c = dirBytes v c (loadedBlocks v c) ++ rest := hrest
  have hflushed : flushed v c after = after ++ rest := by
    rw [flushed, hall, hplaced.length, List.drop_left]
  have hlength : (flushed v c after).length = (dirAll v c).length := by
    rw [hflushed, hall, List.length_append, List.length_append, hplaced.length]
  have hinside : ∀ k, dirItemCodec.Inside (flushed v c after) k ↔
      dirItemCodec.Inside (dirAll v c) k := by
    intro k
    unfold Codec.Inside
    rw [hlength]
  have hinside_after : dirItemCodec.Inside after r := by
    have hr := hroom.inside
    unfold Codec.Inside at hr ⊢
    rwa [hplaced.length]
  have hcode : recordCode (flushed v c after) r = item := by
    rw [hflushed, recordCode, get_append dirItemCodec rest hinside_after]
    exact hplaced.code
  have hother : ∀ k, k ≠ r → recordCode (flushed v c after) k = recordCode (dirAll v c) k := by
    intro k hk
    rw [hflushed, hall, hplaced.other rest k hk]
  have hr : dirItemCodec.Inside (flushed v c after) r := by
    rw [hflushed]
    exact inside_append rest hinside_after
  constructor
  · rintro ⟨r', hinside', hcode', husable, honce⟩ k hk hin
    have hsame : r = r' := by
      by_contra hne
      exact (honce r hr hne).2 hcode
    subst hsame
    rw [← hother k hk]
    exact (honce k ((hinside k).mpr hin) hk).2
  · intro honce
    refine ⟨r, hr, hcode, ?_, fun k hk hne => ?_⟩
    · have husable := hroom.usable
      rwa [Usable, hall, recordCode, get_append dirItemCodec rest hroom.inside]
    · rw [hother k hne]
      exact ⟨rfl, honce k hne ((hinside k).mp hk)⟩

section Insertion

variable {E : Host} {v : Volume} {dir : DirHandle} {c : Fcode} {fb : Nat}
  (h : OpenOn E v dir c)

include h

theorem OpenOn.insertsRight_iff_room (hblocks : 0 < dirBlocks v.root c)
    (hitem : (v.root.block fb).fcode ≠ Fcode.zero) :
    InsertsRight E v dir fb ↔
      ∃ r, RoomAt (dirBytes v c (loadedBlocks v c)) (v.root.block fb).fcode 0 r ∧
        (¬ Full v.root → ∀ k, k ≠ r → dirItemCodec.Inside (dirAll v c) k →
          recordCode (dirAll v c) k ≠ (v.root.block fb).fcode) := by
  have hfuel : fdiraddFuel v = (2 * v.root.nClusterItems + 2) + 1 := rfl
  have hpass := @OpenOn.pass _ _ _ _ fb h (2 * v.root.nClusterItems + 2) hblocks
  have hlength : (dirBytes v c (loadedBlocks v c)).length =
      loadedBlocks v c * v.root.blkSize := by
    rw [length_dirBytes (loadedBlocks_le v c), Nat.mul_comm]
  have hbound : ∀ {r}, dirItemCodec.Inside (dirBytes v c (loadedBlocks v c)) r →
      r - 0 < (dirBytes v c (loadedBlocks v c)).length + 1 := by
    intro r hinside
    have hle : 28 * r + 28 ≤ (dirBytes v c (loadedBlocks v c)).length := hinside
    omega
  have hcode := h.code
  constructor
  · rintro ⟨v', dir', dirarray, hadd, hsome, hlen, honce⟩
    rw [fdiradd, hfuel, hpass] at hadd
    split at hadd
    case h_1 => cases hadd
    case h_2 after hscan =>
      obtain ⟨r, -, hroom⟩ := room_of_scanRecords _ hscan
      obtain ⟨after', hscan', hplaced⟩ := scanRecords_of_room _ hroom (Nat.zero_le _)
        (hbound hroom.inside)
      obtain rfl : after' = after := by
        rw [hscan] at hscan'
        cases hscan'
        rfl
      cases hadd
      obtain rfl := Option.some.inj hsome
      rw [hcode] at honce
      exact ⟨r, hroom, fun hfull => (addsOne_iff hroom hplaced).mp (honce hfull)⟩
    case h_3 after hscan =>
      obtain ⟨r, -, hgives⟩ := givesUp_of_scanRecords _ hscan
      refine absurd (hpass.trans ?_) (h.never_of_givesUp _ hblocks hitem hgives (v', dir'))
      rw [hscan]
      exact hadd
  · rintro ⟨r, hroom, honce⟩
    obtain ⟨after, hscan, hplaced⟩ := scanRecords_of_room _ hroom (Nat.zero_le _)
      (hbound hroom.inside)
    refine ⟨v, ⟨dir.file, dir.path, loadedBlocks v c, some after⟩, after, ?_, rfl,
      hplaced.length.trans hlength, fun hfull => ?_⟩
    · rw [fdiradd, hfuel, hpass, hscan]
    · rw [hcode]
      exact (addsOne_iff hroom hplaced).mpr (honce hfull)

theorem OpenOn.insert_first (fuel : Nat) (hblocks : dirBlocks v.root c = 1)
    (hbytes : dirBytes v c 1 = zeros v.root.blkSize) :
    (dirItemCodec.width ≤ v.root.blkSize → ∃ after,
      fdiraddLoop E fb (fuel + 1) v dir =
        .ok (v, ⟨dir.file, dir.path, 1, some after⟩) ∧
      PlacedAt (zeros v.root.blkSize) (v.root.block fb).fcode 0 after) ∧
    ∀ result, fdiraddLoop E fb (fuel + 1) v dir = .ok result →
      dirItemCodec.width ≤ v.root.blkSize := by
  have hloaded : loadedBlocks v c = 1 := by
    unfold loadedBlocks
    rw [hblocks]
    split <;> rfl
  have hpass := @OpenOn.pass _ _ _ _ fb h fuel (by omega)
  rw [hloaded, hbytes] at hpass
  have hinside : ∀ {r}, dirItemCodec.Inside (zeros v.root.blkSize) r →
      dirItemCodec.width ≤ v.root.blkSize := by
    intro r hr
    unfold Codec.Inside at hr
    rw [length_zeros] at hr
    omega
  constructor
  · intro hfit
    have hroom : RoomAt (zeros v.root.blkSize) (v.root.block fb).fcode 0 0 := by
      refine ⟨?_, .inl (recordCode_zeros _ _), fun k hlow hhigh => by omega⟩
      unfold Codec.Inside
      rw [length_zeros]
      omega
    obtain ⟨after, hscan, hplaced⟩ := scanRecords_of_room ((zeros v.root.blkSize).length + 1)
      hroom (Nat.le_refl _) (by omega)
    refine ⟨after, ?_, hplaced⟩
    rw [hpass, hscan]
  · intro result hok
    rw [hpass] at hok
    split at hok
    case h_1 => cases hok
    case h_2 after hscan =>
      obtain ⟨r, -, hroom⟩ := room_of_scanRecords _ hscan
      exact hinside hroom.inside
    case h_3 after hscan =>
      obtain ⟨r, -, hgives⟩ := givesUp_of_scanRecords _ hscan
      exact hinside hgives.inside

theorem OpenOn.insert_empty (fuel : Nat) (hblocks : dirBlocks v.root c = 0)
    (hcount : countFcode v.root c = 1) (hroom : ¬ Full v.root)
    (hitem : (v.root.block fb).fcode ≠ Fcode.zero) :
    ∃ v₁ fuel₁, fdiraddLoop E fb (fuel + 3) v dir =
        fdiraddLoop E fb (fuel₁ + 1) v₁ ⟨dir.file, dir.path, 0, none⟩ ∧
      OpenOn E v₁ ⟨dir.file, dir.path, 0, none⟩ c ∧ dirBlocks v₁.root c = 1 ∧
      dirBytes v₁ c 1 = zeros v₁.root.blkSize ∧ v₁.root.blkSize = v.root.blkSize ∧
      v₁.root.block fb = v.root.block fb := by
  have hedits := faddr_edits v dir.file
  have hblk := hedits.sameGeometry.blkSize
  have hlive := hedits.block_of_live hitem
  have hgrown := @OpenOn.grown _ _ _ _ h 0 none (fun _ => rfl)
  by_cases hreach : Reachable v.root
  · obtain ⟨hone, hbytes⟩ := h.first_block hblocks hcount hreach
    exact ⟨_, fuel + 1, h.pass_empty (fuel + 2) hblocks, hgrown, hone, by rw [hbytes, hblk],
      hblk, hlive⟩
  · -- the scan starts over at the first slot, and meets the free one
    obtain ⟨v₁, hv₁⟩ : ∃ v₁, faddr v dir.file = (v₁, none) :=
      ⟨_, Prod.ext rfl ((faddr_eq_none_iff v dir.file).mpr
        (allocatecluster_eq_none_iff.mpr hreach))⟩
    have hpass := @OpenOn.pass_empty _ _ _ _ fb h (fuel + 2) hblocks
    rw [hv₁] at hpass hgrown hlive
    obtain ⟨-, rfl⟩ := faddr_none hv₁
    have hreach₁ : Reachable (v.root.setCursor 0) := by
      simp only [Full, not_forall, not_not] at hroom
      obtain ⟨slot, hlt, hfree⟩ := hroom
      exact ⟨slot, Nat.zero_le _, hlt, hfree⟩
    have hedits₁ := faddr_edits { v with root := v.root.setCursor 0 } dir.file
    have hblk₁ := hedits₁.sameGeometry.blkSize
    obtain ⟨hone, hbytes⟩ := hgrown.first_block hblocks hcount hreach₁
    exact ⟨_, fuel, hpass.trans (hgrown.pass_empty (fuel + 1) hblocks),
      hgrown.grown fun _ => rfl, hone, by rw [hbytes, hblk₁], hblk₁,
      (hedits₁.block_of_live hitem)⟩

theorem OpenOn.insertsRight_iff_empty (hblocks : dirBlocks v.root c = 0)
    (hitem : (v.root.block fb).fcode ≠ Fcode.zero) :
    InsertsRight E v dir fb ↔
      ¬ Full v.root ∧ countFcode v.root c = 1 ∧ dirItemCodec.width ≤ v.root.blkSize := by
  have hfuel : fdiraddFuel v = 2 * v.root.nClusterItems + 3 := rfl
  have hcode := h.code
  constructor
  · rintro ⟨v', dir', dirarray, hadd, -⟩
    have hok := hadd
    have hfull : ¬ Full v.root := fun hfull =>
      h.never_of_empty (fdiraddFuel v) hblocks (.inl hfull) (v', dir') hok
    have hcount : countFcode v.root c = 1 := by
      have hpos := countFcode_pos h.entry
      by_contra hne
      exact h.never_of_empty (fdiraddFuel v) hblocks (.inr (by omega)) (v', dir') hok
    refine ⟨hfull, hcount, ?_⟩
    obtain ⟨v₁, fuel₁, hloop, hopen, hone, hbytes, hblk, hlive⟩ :=
      h.insert_empty (2 * v.root.nClusterItems) hblocks hcount hfull hitem
    rw [fdiradd, hfuel, hloop] at hadd
    rw [← hblk]
    exact (hopen.insert_first fuel₁ hone hbytes).2 _ hadd
  · rintro ⟨hfull, hcount, hfit⟩
    obtain ⟨v₁, fuel₁, hloop, hopen, hone, hbytes, hblk, hlive⟩ :=
      h.insert_empty (2 * v.root.nClusterItems) hblocks hcount hfull hitem
    obtain ⟨after, hadd, hplaced⟩ := (hopen.insert_first fuel₁ hone hbytes).1
      (by rw [hblk]; exact hfit)
    rw [hlive] at hplaced
    have hlength : after.length = v₁.root.blkSize := by rw [hplaced.length, length_zeros]
    refine ⟨v₁, _, after, by rw [fdiradd, hfuel, hloop, hadd], rfl,
      by rw [hlength, hblk, Nat.one_mul], fun _ => ?_⟩
    have hbefore : dirAll v c = [] := by rw [dirAll, hblocks, dirBytes_zero]
    have hafter : flushed v₁ c after = after := by
      have hall : (dirAll v₁ c).length = after.length := by
        rw [dirAll, hone, hbytes, length_zeros, hlength]
      rw [flushed, List.drop_of_length_le (Nat.le_of_eq hall), List.append_nil]
    rw [hcode, hbefore, hafter]
    have hold : ∀ k, recordCode [] k = Fcode.zero := recordCode_zeros 0
    refine ⟨0, ?_, hplaced.code, .inl (hold 0), fun k _ hk => ?_⟩
    · unfold Codec.Inside
      omega
    · have hother := hplaced.other [] k hk
      rw [List.append_nil, List.append_nil, recordCode_zeros] at hother
      rw [hother, hold]
      exact ⟨rfl, hitem.symm⟩

end Insertion

/--
Adding an item to a directory that was just opened returns within the loaded
blocks and adds one record, if and only if there is room for it in those blocks
and the item has no second record, or the directory gets its first block.
-/
theorem insertsRight_iff {E : Host} {v₀ v : Volume} {path : Path} {args : List Char}
    {dir : DirHandle} {fb : Nat} (hload : floadhdir E v₀ path args = .ok (v, some dir))
    (hlive : getfcode E path ≠ Fcode.zero) (hitem : (v.root.block fb).fcode ≠ Fcode.zero)
    (hheld : v.AllHeld) (hblk : 0 < v.root.blkSize) :
    InsertsRight E v dir fb ↔
      InsertFits v (getfcode E path) (v.root.block fb).fcode := by
  have hopen := openOn_of_floadhdir hload hlive hheld hblk
  rcases Nat.eq_zero_or_pos (dirBlocks v.root (getfcode E path)) with hzero | hpos
  · rw [hopen.insertsRight_iff_empty hzero hitem, InsertFits]
    simp only [hzero, Nat.lt_irrefl, false_and, false_or, true_and]
  · rw [hopen.insertsRight_iff_room hpos hitem, InsertFits]
    simp only [hpos, hpos.ne', true_and, false_and, or_false]

/-- The directory `a` without blocks, a new item `a/b` in it, and what else the map holds. -/
def sampleParent (rest : List FsBlock) (h : sizeofFsBlock * (rest.length + 2) < 2 ^ 32) :
    Volume where
  root := sampleRoot (⟨getfcode sampleHost samplePath, fsDirectory ||| fsMetadataCluster, 0⟩ ::
    ⟨getfcode sampleHost slashPath, fsMetadataCluster, 0⟩ :: rest) h
  image := .blank (2 ^ 21)
  ticks := 0

theorem insertsRight_sample :
    ∃ dir, floadhdir sampleHost (sampleParent [FsBlock.zero] (by decide)) samplePath [] =
        .ok (sampleParent [FsBlock.zero] (by decide), some dir) ∧
      (InsertsRight sampleHost (sampleParent [FsBlock.zero] (by decide)) dir 1 ↔
        InsertFits (sampleParent [FsBlock.zero] (by decide)) (getfcode sampleHost samplePath)
          ((sampleParent [FsBlock.zero] (by decide)).root.block 1).fcode) := by
  have hheld : (sampleParent [FsBlock.zero] (by decide)).AllHeld := by
    have hall : ∀ s, s < 3 →
        (sampleParent [FsBlock.zero] (by decide)).root.Addressable s ∧
          (sampleParent [FsBlock.zero] (by decide)).Holds s := by
      decide +kernel
    exact hall
  obtain ⟨dir, hopen, -, -⟩ := @openDir_directory sampleHost
    (sampleParent [FsBlock.zero] (by decide)) samplePath 0 hheld (by decide) (by decide)
  have hload := (floadhdir_of_live [] (show ffind sampleHost
    (sampleParent [FsBlock.zero] (by decide)).root samplePath = some 0 by decide)).trans hopen
  exact ⟨dir, hload, insertsRight_iff hload (by decide) (by decide) hheld (by decide)⟩

/-- On a full map the directory gets no block, and the loop does not end. -/
theorem not_insertsRight_full :
    ∃ dir, floadhdir sampleHost (sampleParent [] (by decide)) samplePath [] =
        .ok (sampleParent [] (by decide), some dir) ∧
      ¬ InsertsRight sampleHost (sampleParent [] (by decide)) dir 1 := by
  have hfind : ffind sampleHost (sampleParent [] (by decide)).root samplePath = some 0 := by
    decide
  have hopen : openDir sampleHost (sampleParent [] (by decide)) samplePath 0 =
      .ok (sampleParent [] (by decide), some ⟨0, samplePath, 0, none⟩) := by
    have hrefresh : fdirrefresh sampleHost (sampleParent [] (by decide))
        ⟨0, samplePath, 0, none⟩ = .ok ⟨0, samplePath, 0, none⟩ := rfl
    rw [openDir, if_pos (by decide), hrefresh]
  refine ⟨_, (floadhdir_of_live [] hfind).trans hopen, ?_⟩
  rintro ⟨v', dir', dirarray, hadd, -⟩
  have heval : (fdiradd sampleHost (sampleParent [] (by decide)) ⟨0, samplePath, 0, none⟩
      1).toOption.isSome = false := by
    decide +kernel
  rw [hadd] at heval
  cases heval

end BlockyOS.HostTool
