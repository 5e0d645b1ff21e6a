import BlockyOS.HostTool.Blocks
import BlockyOS.HostTool.Edits

/-!
# Isolation of files

A write to one file touches slots of that file and free slots only.  Whatever
another file owns inside the image stays as it is, so its reads do not notice
the write.
-/

namespace BlockyOS.HostTool

open BlockyOS.Foundation

/-! ## What a write may touch -/

/-- From `v` to `v'` only the file with code `c` changed, or grew into free slots. -/
structure Confined (c : Fcode) (v v' : Volume) : Prop where
  edits : Edits {c} v.root v'.root
  window : ∀ s, (v.root.block s).fcode ≠ Fcode.zero → (v.root.block s).fcode ≠ c →
    v.root.Addressable s → v'.window s = v.window s
  size : v.image.size ≤ v'.image.size

section Confined

variable {c : Fcode} {v v' v'' : Volume}

theorem Confined.refl (c : Fcode) (v : Volume) : Confined c v v :=
  ⟨.refl, fun _ _ _ _ => rfl, Nat.le_refl _⟩

theorem Confined.trans (h : Confined c v v') (h' : Confined c v' v'') : Confined c v v'' := by
  refine ⟨h.edits.trans h'.edits, fun s hlive hother haddr => ?_,
    Nat.le_trans h.size h'.size⟩
  have hblock := h.edits.block_of_live hlive
  have haddr' := (h.edits.sameGeometry.addressable s).mpr haddr
  rw [h'.window s (by rwa [hblock]) (by rwa [hblock]) haddr', h.window s hlive hother haddr]

theorem Confined.fcode (h : Confined c v v') {s : Nat} (hs : (v.root.block s).fcode = c) :
    (v'.root.block s).fcode = c :=
  h.edits.fcode_of_mem hs

theorem Confined.of_edits {fr : ConfFsroot} (h : Edits {c} v.root fr) :
    Confined c v { v with root := fr } := by
  refine ⟨h, fun s _ _ _ => ?_, Nat.le_refl _⟩
  rw [Volume.window, Volume.window, h.sameGeometry.slotOffset, h.sameGeometry.span]

theorem Confined.writeAt {slot bytes : Nat} (data : Bytes)
    (hslot : slot < v.root.clusterMap.length) (hcode : (v.root.block slot).fcode = c)
    (hpos : 0 < bytes) (hle : bytes ≤ v.root.span) :
    Confined c v (v.writeAt slot data bytes) := by
  refine ⟨.refl, fun s hlive hother haddr => ?_, Volume.size_le_writeAt data⟩
  refine Volume.window_writeAt_other hpos hle hslot (slot_lt hlive) ?_ haddr
  rintro rfl
  exact hother hcode

end Confined

/-! ## Extending a file -/

theorem faddr_none {v v' : Volume} {family : Nat} (h : faddr v family = (v', none)) :
    allocatecluster v.root = (v.root.setCursor 0, none) ∧
      v' = { v with root := v.root.setCursor 0 } := by
  unfold faddr at h
  split at h
  case h_1 fr halloc =>
    obtain ⟨rfl, -⟩ := allocatecluster_none halloc
    exact ⟨halloc, (Prod.mk.inj h).1.symm⟩
  case h_2 => cases (Prod.mk.inj h).2

def Volume.extended (v : Volume) (family fb : Nat) : Volume :=
  { v with root := (v.root.setCursor fb).setBlock fb (extensionEntry v.root family) }

theorem faddr_some {v v' : Volume} {family fb : Nat} (h : faddr v family = (v', some fb)) :
    allocatecluster v.root = (v.root.setCursor fb, some fb) ∧
      v' = (v.extended family fb).writeAt fb (zeros v.root.blkSize) v.root.blkSize := by
  unfold faddr at h
  split at h
  case h_1 => cases (Prod.mk.inj h).2
  case h_2 fr fb' halloc =>
    obtain ⟨rfl, -⟩ := allocatecluster_some halloc
    obtain ⟨rfl, hfb⟩ := Prod.mk.inj h
    obtain rfl := Option.some.inj hfb
    exact ⟨halloc, rfl⟩

section Extended

variable {v : Volume} {family fb : Nat}
  (halloc : allocatecluster v.root = (v.root.setCursor fb, some fb))

include halloc

theorem extended_edits :
    Edits {(v.root.block family).fcode} v.root (v.extended family fb).root := by
  obtain ⟨-, hlt, -, hfree, -⟩ := allocatecluster_some halloc
  exact .tail (.single (.cursor fb)) (.extend family fb hlt hfree rfl)

theorem extended_slot :
    fb < (v.extended family fb).root.clusterMap.length ∧
      ((v.extended family fb).root.block fb).fcode = (v.root.block family).fcode := by
  obtain ⟨-, hlt, -, -, -⟩ := allocatecluster_some halloc
  refine ⟨by simpa [Volume.extended] using hlt, ?_⟩
  rw [Volume.extended, @ConfFsroot.block_setBlock_same (v.root.setCursor fb) _ _ hlt]
  rfl

end Extended

theorem faddr_confined {v : Volume} (family : Nat) (hblk : 0 < v.root.blkSize) :
    Confined (v.root.block family).fcode v (faddr v family).1 := by
  cases hadd : faddr v family with
  | mk v' slot =>
      cases slot with
      | none =>
          obtain ⟨-, rfl⟩ := faddr_none hadd
          exact .of_edits (.single (.cursor 0))
      | some fb =>
          obtain ⟨halloc, rfl⟩ := faddr_some hadd
          obtain ⟨hlt, hcode⟩ := @extended_slot _ family _ halloc
          exact (Confined.of_edits (extended_edits halloc)).trans
            (.writeAt _ hlt hcode hblk (ConfFsroot.blkSize_le_span _))

/-! ## The write loop -/

theorem skipExtension_some {fr : ConfFsroot} {c : Fcode} {fuel index index' slot : Nat}
    {fb : Option Nat}
    (hfb : ∀ s, fb = some s → s < fr.clusterMap.length ∧ (fr.block s).fcode = c)
    (h : skipExtension fr c fuel fb index = (some slot, index')) :
    slot < fr.clusterMap.length ∧ (fr.block slot).fcode = c := by
  induction fuel generalizing fb index with
  | zero =>
      rw [skipExtension] at h
      exact hfb slot (Prod.mk.inj h).1
  | succ fuel ih =>
      cases fb with
      | none =>
          rw [skipExtension] at h
          cases (Prod.mk.inj h).1
          intro hzero
          cases hzero
      | some s =>
          rw [skipExtension] at h
          split at h
          case isTrue =>
            refine ih (fun s' hs' => ?_) h
            have hentry := ffindhi_some hs'
            exact ⟨hentry.1, hentry.2.1⟩
          case isFalse =>
            obtain rfl := Option.some.inj (Prod.mk.inj h).1
            exact hfb s rfl

theorem fpush1_confined {v : Volume} {fb i : Nat} (buffer : Bytes)
    (hfb : fb < v.root.clusterMap.length) (hblk : 0 < v.root.blkSize) :
    Confined (v.root.block fb).fcode v (fpush1 v fb i buffer).1 := by
  unfold fpush1
  split
  case isTrue =>
    split
    case h_1 fb' i' hskip =>
      obtain ⟨hlt, hcode⟩ := skipExtension_some
        (fun s hs => ⟨(ffindhi_some hs).1, (ffindhi_some hs).2.1⟩) hskip
      exact .writeAt _ hlt hcode hblk (ConfFsroot.blkSize_le_span _)
    case h_2 i' hskip =>
      have hadd := faddr_confined fb hblk
      split
      case h_1 v' fb' heq =>
        rw [heq] at hadd
        obtain ⟨halloc, rfl⟩ := faddr_some heq
        obtain ⟨hlt, hcode⟩ := @extended_slot _ fb _ halloc
        exact hadd.trans (.writeAt _ hlt hcode hblk (ConfFsroot.blkSize_le_span _))
      case h_2 v' heq =>
        rw [heq] at hadd
        exact hadd
  case isFalse =>
    split
    case isTrue => exact .refl _ _
    case isFalse => exact .writeAt _ hfb rfl hblk (ConfFsroot.blkSize_le_span _)

theorem fwriteBlock_confined {v : Volume} {file : Nat} (blkIndex blkOffset : Nat)
    (src : Bytes) (hfile : file < v.root.clusterMap.length) (hblk : 0 < v.root.blkSize) :
    Confined (v.root.block file).fcode v (fwriteBlock v file blkIndex blkOffset src) := by
  unfold fwriteBlock
  split <;> exact fpush1_confined _ hfile hblk

theorem fwriteLoop_confined {v : Volume} {file : Nat} (data : Bytes)
    (fuel pos left written : Nat) (hfile : file < v.root.clusterMap.length)
    (hblk : 0 < v.root.blkSize) :
    Confined (v.root.block file).fcode v
      (fwriteLoop file data fuel v pos left written).1 := by
  induction fuel generalizing v pos left written with
  | zero => exact .refl _ _
  | succ fuel ih =>
      rw [fwriteLoop]
      split
      case isTrue => exact .refl _ _
      case isFalse =>
        have hblock := fwriteBlock_confined (v := v) (pos / v.root.blkSize)
          (pos % v.root.blkSize)
          (slice data written (min (v.root.blkSize - pos % v.root.blkSize) left)) hfile hblk
        have hgeometry := hblock.edits.sameGeometry
        have hrest := ih (v := fwriteBlock v file (pos / v.root.blkSize)
            (pos % v.root.blkSize)
            (slice data written (min (v.root.blkSize - pos % v.root.blkSize) left)))
          (u64 (pos + min (v.root.blkSize - pos % v.root.blkSize) left))
          (left - min (v.root.blkSize - pos % v.root.blkSize) left)
          (written + min (v.root.blkSize - pos % v.root.blkSize) left)
          (by rw [hgeometry.length]; exact hfile) (by rw [hgeometry.blkSize]; exact hblk)
        rw [hblock.fcode rfl] at hrest
        exact hblock.trans hrest

theorem fupdatetstamp_ok {E : Host} {v v' : Volume} {file : Nat} {wt : Bool}
    (h : fupdatetstamp E v file wt = .ok v') :
    ∃ finfo, freadinfo v file = some finfo ∧
      v' = { v.writeAt file
          (stampAccess (E.localtime v.ticks)
            (if wt then stampWrite (E.localtime v.ticks) finfo else finfo))
          sizeofMetaFsBlock with
        ticks := v.ticks + 1 } := by
  unfold fupdatetstamp at h
  split at h
  case h_1 => cases h
  case h_2 finfo hinfo =>
    cases h
    exact ⟨finfo, hinfo, rfl⟩

theorem Confined.withTicks {c : Fcode} {v v' : Volume} (h : Confined c v v') (ticks : Nat) :
    Confined c v { v' with ticks := ticks } :=
  ⟨h.edits, h.window, h.size⟩

theorem fupdatetstamp_confined {E : Host} {v v' : Volume} {file : Nat} {wt : Bool}
    (hfile : file < v.root.clusterMap.length) (h : fupdatetstamp E v file wt = .ok v') :
    Confined (v.root.block file).fcode v v' := by
  obtain ⟨finfo, -, rfl⟩ := fupdatetstamp_ok h
  exact (Confined.writeAt _ hfile rfl (by decide)
    (ConfFsroot.sizeofMetaFsBlock_le_span _)).withTicks _

theorem fwrite_ok {E : Host} {v v' : Volume} {handle handle' : FHandle} {nbytes n : Nat}
    {data : Option Bytes} (h : fwrite E v handle nbytes data = .ok (n, handle', v')) :
    v' = v ∨ ∃ v₁, fupdatetstamp E v handle.file true = .ok v₁ ∧
      (v' = v₁ ∨ ∃ bytes, data = some bytes ∧ v₁.root.blkSize ≠ 0 ∧
        v' = (fwriteLoop handle.file bytes nbytes v₁ handle.progress nbytes 0).1) := by
  unfold fwrite at h
  split at h
  case h_1 =>
    cases h
    exact .inl rfl
  case h_2 bytes =>
    split at h
    case isTrue =>
      cases h
      exact .inl rfl
    case isFalse =>
      split at h
      case h_1 => cases h
      case h_2 v₁ hstamp =>
        refine .inr ⟨v₁, hstamp, ?_⟩
        split at h
        case h_1 => cases h
        case h_2 fb hfind =>
          split at h
          case isTrue =>
            cases h
            exact .inl rfl
          case isFalse =>
            split at h
            case isTrue => cases h
            case isFalse hblk =>
              split at h
              case isTrue => cases h
              case isFalse =>
                cases h
                exact .inr ⟨bytes, rfl, hblk, rfl⟩

theorem fwrite_confined {E : Host} {v v' : Volume} {handle handle' : FHandle}
    {nbytes n : Nat} {data : Option Bytes} (hfile : handle.file < v.root.clusterMap.length)
    (h : fwrite E v handle nbytes data = .ok (n, handle', v')) :
    Confined (v.root.block handle.file).fcode v v' := by
  rcases fwrite_ok h with rfl | ⟨v₁, hstamp, hrest⟩
  · exact .refl _ _
  · have hfirst := fupdatetstamp_confined hfile hstamp
    rcases hrest with rfl | ⟨bytes, -, hblk, rfl⟩
    · exact hfirst
    · have hloop := @fwriteLoop_confined v₁ handle.file bytes nbytes handle.progress nbytes 0
          (by rw [hfirst.edits.sameGeometry.length]; exact hfile) (Nat.pos_of_ne_zero hblk)
      rw [hfirst.fcode rfl] at hloop
      exact hfirst.trans hloop

/-! ## What a file looks like from inside -/

/-- Everything the file with code `c` owns is the same in both volumes. -/
structure SameFile (c : Fcode) (v v' : Volume) : Prop where
  geometry : ConfFsroot.SameGeometry v.root v'.root
  owned : ∀ s, (v'.root.block s).fcode = c ↔ (v.root.block s).fcode = c
  block : ∀ s, (v.root.block s).fcode = c → v'.root.block s = v.root.block s
  window : ∀ s, (v.root.block s).fcode = c → v.root.Addressable s → v'.window s = v.window s
  holds : ∀ s, (v.root.block s).fcode = c → v.root.Addressable s → (v'.Holds s ↔ v.Holds s)

/-- Every block the file can reach exists in the image. -/
def FileHeld (c : Fcode) (v : Volume) : Prop :=
  ∀ s, (v.root.block s).fcode = c → v.root.Addressable s → v.Holds s

theorem Confined.sameFile {c c' : Fcode} {v v' : Volume} (h : Confined c v v')
    (hlive : c' ≠ Fcode.zero) (hother : c' ≠ c) (hheld : FileHeld c' v) :
    SameFile c' v v' := by
  have hgeometry := h.edits.sameGeometry
  refine ⟨hgeometry, fun s => ?_, fun s hs => ?_, fun s hs haddr => ?_,
    fun s hs haddr => ?_⟩
  · rcases h.edits.block s with hsame | ⟨hfree, hnew⟩
    · rw [hsame]
    · rw [hfree, show (v'.root.block s).fcode = c from hnew]
      exact iff_of_false hother.symm hlive.symm
  · exact h.edits.block_of_live (by rwa [hs])
  · exact h.window s (by rwa [hs]) (by rwa [hs]) haddr
  · have hin := hheld s hs haddr
    have hsize := h.size
    refine iff_of_true ?_ hin
    unfold Volume.Holds at hin ⊢
    rw [hgeometry.slotOffset, hgeometry.span]
    omega

section SameFile

variable {c : Fcode} {v v' : Volume} (h : SameFile c v v')

include h

theorem SameFile.ffindhi (index : Nat) :
    ffindhi v'.root c index = ffindhi v.root c index := by
  have hmatch : v'.root.clusterMap.map (matchesIndex c index) =
      v.root.clusterMap.map (matchesIndex c index) := by
    apply List.ext_getElem
    · rw [List.length_map, List.length_map, h.geometry.length]
    · intro s hs hs'
      rw [List.length_map] at hs hs'
      rw [List.getElem_map, List.getElem_map, ← ConfFsroot.block_eq_getElem hs,
        ← ConfFsroot.block_eq_getElem hs', Bool.eq_iff_iff]
      by_cases hcode : (v.root.block s).fcode = c
      · rw [h.block s hcode]
      · have hcode' : (v'.root.block s).fcode ≠ c := fun h' => hcode ((h.owned s).mp h')
        simp [matchesIndex, hcode, hcode']
  have hfind : ∀ map : List FsBlock, map.findIdx? (matchesIndex c index) =
      (map.map (matchesIndex c index)).findIdx? id := by
    intro map
    rw [List.findIdx?_map]
    rfl
  rw [HostTool.ffindhi, HostTool.ffindhi, hfind, hfind, hmatch]

theorem SameFile.readAt {s bytes : Nat} (hs : (v.root.block s).fcode = c)
    (hpos : 0 < bytes) (hle : bytes ≤ v.root.span) :
    v'.readAt s bytes = v.readAt s bytes := by
  rw [Volume.readAt_eq hpos hle, Volume.readAt_eq hpos (by rwa [h.geometry.span])]
  by_cases haddr : v.root.Addressable s
  · have haddr' := (h.geometry.addressable s).mpr haddr
    simp only [haddr, haddr', true_and, h.holds s hs haddr, h.window s hs haddr]
  · have haddr' : ¬ v'.root.Addressable s := fun h' => haddr ((h.geometry.addressable s).mp h')
    simp only [haddr, haddr', false_and, if_false]

theorem SameFile.skipExtension (fuel index : Nat) {fb : Option Nat}
    (hfb : ∀ s, fb = some s → (v.root.block s).fcode = c) :
    skipExtension v'.root c fuel fb index = skipExtension v.root c fuel fb index := by
  induction fuel generalizing fb index with
  | zero => rfl
  | succ fuel ih =>
      cases fb with
      | none => rfl
      | some s =>
          rw [HostTool.skipExtension, HostTool.skipExtension, h.block s (hfb s rfl),
            h.ffindhi]
          split
          case isTrue => exact ih _ fun s' hs' => (ffindhi_some hs').2.1
          case isFalse => rfl

theorem SameFile.fread1 {file : Nat} (index : Nat) (hfile : (v.root.block file).fcode = c)
    (hblk : 0 < v.root.blkSize) : fread1 v' file index = fread1 v file index := by
  have hspan := v.root.blkSize_le_span
  unfold HostTool.fread1
  rw [h.block file hfile, hfile, h.geometry.nClusterItems, h.ffindhi, h.geometry.blkSize,
    h.skipExtension _ _ fun s hs => (ffindhi_some hs).2.1]
  split
  case isTrue =>
    split
    case h_1 => rfl
    case h_2 fb' i' hskip =>
      obtain ⟨-, hcode⟩ := skipExtension_some
        (fun s hs => ⟨(ffindhi_some hs).1, (ffindhi_some hs).2.1⟩) hskip
      rw [h.readAt hcode hblk hspan]
  case isFalse => rw [h.readAt hfile hblk hspan]

theorem SameFile.fsizeFrom (fuel cc : Nat) :
    fsizeFrom v'.root c fuel cc = fsizeFrom v.root c fuel cc := by
  induction fuel generalizing cc with
  | zero => rfl
  | succ fuel ih =>
      rw [HostTool.fsizeFrom, HostTool.fsizeFrom, h.ffindhi]
      split
      case h_1 => rfl
      case h_2 tmp hfind =>
        rw [h.block tmp (ffindhi_some hfind).2.1, h.geometry.blkSize, ih]

theorem SameFile.fsize {file : Nat} (hfile : (v.root.block file).fcode = c) :
    fsize v'.root file = fsize v.root file := by
  rw [HostTool.fsize, HostTool.fsize, h.block file hfile, hfile, h.fsizeFrom,
    h.geometry.nClusterItems]

theorem SameFile.freadLoop {file : Nat} (fuel pos left : Nat) (out : Bytes)
    (hfile : (v.root.block file).fcode = c) (hblk : 0 < v.root.blkSize) :
    freadLoop v' file fuel pos left out = freadLoop v file fuel pos left out := by
  induction fuel generalizing pos left out with
  | zero => rfl
  | succ fuel ih =>
      simp only [HostTool.freadLoop, h.geometry.blkSize, h.fread1 _ hfile hblk, ih]

theorem SameFile.writeAt {slot bytes : Nat} (data : Bytes)
    (hslot : slot < v.root.clusterMap.length) (hcode : (v.root.block slot).fcode = c)
    (hlive : c ≠ Fcode.zero) (hpos : 0 < bytes) (hle : bytes ≤ v.root.span) :
    SameFile c (v.writeAt slot data bytes) (v'.writeAt slot data bytes) := by
  have hle' : bytes ≤ v'.root.span := by rwa [h.geometry.span]
  have hslot' : slot < v'.root.clusterMap.length := by rwa [h.geometry.length]
  refine ⟨h.geometry, h.owned, h.block, fun s hs haddr => ?_, fun s hs haddr => ?_⟩
  · have haddr' := (h.geometry.addressable s).mpr haddr
    by_cases hsame : s = slot
    · subst hsame
      rw [Volume.window_writeAt_same hpos hle haddr,
        Volume.window_writeAt_same hpos hle' haddr', h.geometry.span]
    · have hs_lt : s < v.root.clusterMap.length :=
        slot_lt (by rw [Volume.writeAt_root] at hs; rwa [hs])
      rw [Volume.window_writeAt_other hpos hle hslot hs_lt hsame haddr,
        Volume.window_writeAt_other hpos hle' hslot' (by rwa [h.geometry.length]) hsame
          haddr', h.window s hs haddr]
  · have hbefore := h.holds s hs haddr
    unfold Volume.Holds at hbefore ⊢
    rw [Volume.writeAt_image data hpos hle, Volume.writeAt_image data hpos hle']
    simp only [Volume.writeAt_root, h.geometry.slotOffset, h.geometry.span,
      h.geometry.addressable] at hbefore ⊢
    split
    case isFalse => exact hbefore
    case isTrue =>
      simp only [Image.write, length_padTo]
      split
      case isTrue => exact hbefore
      case isFalse => omega

theorem SameFile.fupdatetstamp {E : Host} {file : Nat} (wt : Bool)
    (hfile : (v.root.block file).fcode = c) (hlive : c ≠ Fcode.zero)
    (hticks : v'.ticks = v.ticks) :
    (∃ e, fupdatetstamp E v file wt = .error e ∧ fupdatetstamp E v' file wt = .error e) ∨
      ∃ v₁ v₁', fupdatetstamp E v file wt = .ok v₁ ∧ fupdatetstamp E v' file wt = .ok v₁' ∧
        SameFile c v₁ v₁' ∧ v₁.root = v.root := by
  have hslot : file < v.root.clusterMap.length := slot_lt (by rwa [hfile])
  have hspan := v.root.sizeofMetaFsBlock_le_span
  have hread : freadinfo v' file = freadinfo v file := h.readAt hfile (by decide) hspan
  unfold HostTool.fupdatetstamp
  rw [hread, hticks]
  cases freadinfo v file with
  | none => exact .inl ⟨_, rfl, rfl⟩
  | some finfo =>
      refine .inr ⟨_, _, rfl, rfl, ?_, rfl⟩
      have hwrite := h.writeAt
        (stampAccess (E.localtime v.ticks)
          (if wt then stampWrite (E.localtime v.ticks) finfo else finfo))
        hslot hfile hlive (by decide) hspan
      exact ⟨hwrite.geometry, hwrite.owned, hwrite.block, hwrite.window, hwrite.holds⟩

end SameFile

/-- What the caller of `_fread` sees: the count, the buffer and the handle. -/
def freadSeen (E : Host) (v : Volume) (handle : FHandle) (nbytes : Nat) :
    Except Fault (Nat × Option Bytes × FHandle) :=
  (fread E v handle nbytes).map fun (n, out, handle, _) => (n, out, handle)

theorem SameFile.freadSeen {E : Host} {c : Fcode} {v v' : Volume} (h : SameFile c v v')
    (handle : FHandle) (nbytes : Nat) (hfile : (v.root.block handle.file).fcode = c)
    (hlive : c ≠ Fcode.zero) (hticks : v'.ticks = v.ticks) :
    freadSeen E v' handle nbytes = freadSeen E v handle nbytes := by
  unfold HostTool.freadSeen fread
  rw [h.geometry.blkSize, h.fsize hfile]
  split
  case isTrue => rfl
  case isFalse =>
    rcases h.fupdatetstamp (E := E) false hfile hlive hticks with
      ⟨e, he, he'⟩ | ⟨v₁, v₁', hok, hok', hsame, hroot⟩
    · rw [he, he']
    · rw [hok, hok']
      have hroot' : v₁'.root.blkSize = v₁.root.blkSize := hsame.geometry.blkSize
      simp only [hroot']
      split
      case isTrue => rfl
      case isFalse hblk =>
        by_cases hzero : nbytes = 0
        · subst hzero
          rfl
        · have hpos : 0 < v₁.root.blkSize := by
            rcases Nat.eq_zero_or_pos v₁.root.blkSize with hb | hb
            · exact absurd ⟨hzero, hb⟩ hblk
            · exact hb
          rw [hsame.freadLoop _ _ _ _ (by rwa [hroot]) hpos]
          rfl

/-! ## The file that is not written -/

/-- The volume as it is, with the clock moved to another reading. -/
def Volume.atTime (v : Volume) (ticks : Nat) : Volume := { v with ticks := ticks }

/--
A write to one file leaves the entries and the blocks of any other file as they
are, as long as the image holds the other file's blocks.  A later read of the
other file sees what it would have seen at that time without the write.
-/
theorem fwrite_isolated {E : Host} {v v' : Volume} {handle handle' : FHandle}
    {nbytes n : Nat} {data : Option Bytes} {c : Fcode}
    (hopen : (v.root.block handle.file).fcode ≠ Fcode.zero) (hlive : c ≠ Fcode.zero)
    (hother : c ≠ (v.root.block handle.file).fcode) (hheld : FileHeld c v)
    (hwrite : fwrite E v handle nbytes data = .ok (n, handle', v')) :
    (∀ s, (v'.root.block s).fcode = c ↔ (v.root.block s).fcode = c) ∧
      (∀ s, (v.root.block s).fcode = c →
        v'.root.block s = v.root.block s ∧
          (v.root.Addressable s → v'.window s = v.window s)) ∧
      ∀ (reader : FHandle) (m : Nat), (v.root.block reader.file).fcode = c →
        freadSeen E v' reader m = freadSeen E (v.atTime v'.ticks) reader m := by
  have hconfined := fwrite_confined (slot_lt hopen) hwrite
  have hsame := hconfined.sameFile hlive hother hheld
  refine ⟨hsame.owned, fun s hs => ⟨hsame.block s hs, hsame.window s hs⟩,
    fun reader m hreader => ?_⟩
  have hsame' : SameFile c (v.atTime v'.ticks) v' :=
    ⟨hsame.geometry, hsame.owned, hsame.block, hsame.window, hsame.holds⟩
  exact hsame'.freadSeen reader m hreader hlive rfl

/-- The path `b`. -/
def sampleOther : Path := ⟨[0x62], by decide⟩

/-- Files `a` and `b` of one data cluster each; slot 2 is free. -/
def sampleMap : List FsBlock :=
  [⟨getfcode sampleHost samplePath, fsMetadataCluster, 0⟩,
    ⟨getfcode sampleHost sampleOther, fsMetadataCluster, 0⟩, FsBlock.zero,
    ⟨getfcode sampleHost sampleOther, 0, 1⟩, ⟨getfcode sampleHost samplePath, 0, 1⟩]

/-- The two files on an image that ends after `blocks` blocks of the data area. -/
def sampleFiles (blocks : Nat) : Volume where
  root := sampleRoot sampleMap (by decide)
  image := .blank (512 * 2088 + 512 * blocks)
  ticks := 0

/-- One byte is written to `a` while the image holds every block. -/
theorem fwrite_isolated_sample :
    ∃ n handle' v', fwrite sampleHost (sampleFiles 5) ⟨0, 512, samplePath⟩ 1 (some [1]) =
        .ok (n, handle', v') ∧
      freadSeen sampleHost v' ⟨1, 512, sampleOther⟩ 512 =
        freadSeen sampleHost ((sampleFiles 5).atTime v'.ticks)
          ⟨1, 512, sampleOther⟩ 512 := by
  have heval : ((fwrite sampleHost (sampleFiles 5) ⟨0, 512, samplePath⟩ 1 (some [1])).map
      fun r => r.1).toOption = some 1 := by
    decide +kernel
  obtain ⟨⟨n, handle', v'⟩, hwrite, -⟩ := ok_of_eval heval
  have hheld : FileHeld (getfcode sampleHost sampleOther) (sampleFiles 5) := by
    have hall : ∀ s, s < 5 →
        ((sampleFiles 5).root.block s).fcode = getfcode sampleHost sampleOther →
        (sampleFiles 5).Holds s := by
      decide +kernel
    intro s hs _
    exact hall s (slot_lt (by rw [hs]; decide)) hs
  exact ⟨n, handle', v', hwrite,
    (fwrite_isolated (by decide) (by decide) (by decide) hheld hwrite).2.2
      ⟨1, 512, sampleOther⟩ 512 (by decide)⟩

/--
The image ends before the data block of `b`.  Writing a later block of `a` makes
it longer, and `b` reads zeros where it read nothing.
-/
theorem fwrite_extends_image :
    DistinctEntries (sampleFiles 3).root ∧ 512 ≤ (sampleFiles 3).root.blkSize ∧
      (∀ s, s < 5 → (rootEnv (sampleFiles 3).root).offset
            (clusterMapPos (sampleFiles 3).root.loc (sampleFiles 3).root.nLogSectors
              (sampleFiles 3).root.blkSize) +
          (rootEnv (sampleFiles 3).root).span (sampleFiles 3).root.clusterSize ≤
        (sampleFiles 3).root.slotOffset s) ∧
      ∃ n handle' v', fwrite sampleHost (sampleFiles 3) ⟨0, 512, samplePath⟩ 1 (some [1]) =
          .ok (n, handle', v') ∧
        freadSeen sampleHost v' ⟨1, 512, sampleOther⟩ 512 ≠
          freadSeen sampleHost ((sampleFiles 3).atTime v'.ticks)
            ⟨1, 512, sampleOther⟩ 512 := by
  have hdistinct : DistinctEntries (sampleFiles 3).root :=
    distinctEntries_of_pairwise (by decide)
  have heval : ((fwrite sampleHost (sampleFiles 3) ⟨0, 512, samplePath⟩ 1 (some [1])).map
      fun r => (r.2.2.ticks, ((freadSeen sampleHost r.2.2 ⟨1, 512, sampleOther⟩ 512).map
        fun seen => seen.1).toOption)).toOption = some (1, some 512) := by
    decide +kernel
  have hbefore : ((freadSeen sampleHost ((sampleFiles 3).atTime 1)
      ⟨1, 512, sampleOther⟩ 512).map fun seen => seen.1).toOption = some 0 := by
    decide +kernel
  obtain ⟨⟨n, handle', v'⟩, hwrite, hseen⟩ := ok_of_eval heval
  obtain ⟨hticks, hcount⟩ := Prod.mk.inj hseen
  refine ⟨hdistinct, by decide, by decide +kernel, n, handle', v', hwrite, fun heq => ?_⟩
  simp only at hticks hcount
  rw [heq, hticks, hbefore] at hcount
  cases hcount

end BlockyOS.HostTool
