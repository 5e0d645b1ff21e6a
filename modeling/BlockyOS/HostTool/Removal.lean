import BlockyOS.HostTool.NextFit
import BlockyOS.HostTool.ParentPath

/-!
# Removal and re-creation

Removal clears one entry, so it reclaims an item exactly when the item owns one
entry.  Whatever else the item owned is still counted as part of the next item
of the same path.  Replacing an item by an empty one needs more: the scan for a slot
starts at the cursor, and the directory above has to take the entry again.
-/

namespace BlockyOS.HostTool

open BlockyOS.Foundation

/-! ## Sizes -/

theorem fsizeFrom_of_missing {fr : ConfFsroot} {c : Fcode} {cc : Nat} (hcc : cc < 2 ^ 32)
    (h : ∀ slot, ¬ HasEntry fr slot c cc) (fuel : Nat) : fsizeFrom fr c fuel cc = 0 := by
  cases fuel with
  | zero => rfl
  | succ fuel => rw [fsizeFrom, ffindhi_eq_none hcc h]

/-- The code has no entry, or only one that describes an item. -/
def Bare (fr : ConfFsroot) (c : Fcode) : Prop :=
  ∀ slot i, HasEntry fr slot c i →
    i = 0 ∧ flagcheck (fr.block slot).attributes fsMetadataCluster

theorem Bare.fsize {fr : ConfFsroot} {file : Nat} (h : Bare fr (fr.block file).fcode) :
    fsize fr file = 0 := by
  have hone : ∀ slot, ¬ HasEntry fr slot (fr.block file).fcode 1 := by
    intro slot hentry
    exact absurd (h slot 1 hentry).1 (by decide)
  rw [HostTool.fsize, fsizeFrom]
  cases hfind : ffindhi fr (fr.block file).fcode 0 with
  | none => rfl
  | some slot =>
      have hflag := (h slot _ (ffindhi_some hfind)).2
      simp only [hflag, if_true]
      rw [fsizeFrom_of_missing (by decide) hone]
      rfl

/-! ## When a create completes -/

def Records (E : Host) (v : Volume) (fb : Nat) (dhandle : Option DirHandle) : Prop :=
  ∀ dir, dhandle = some dir →
    (v.root.block dir.file).fcode.low ≠ (v.root.block fb).fcode.low →
    (v.root.block dir.file).fcode.high ≠ (v.root.block fb).fcode.high →
    ∃ v₁ dir₁ v₂, fdiradd E v dir fb = .ok (v₁, dir₁) ∧ fuloaddir v₁ dir₁ = .ok v₂

/-- What the rest of a create needs once the entry `fb` of its path is in place. -/
structure Enters (E : Host) (v : Volume) (fb : Nat) (path : Path) : Prop where
  block : sizeofMetaFsBlock ≤ v.root.blkSize
  name : 0 ∈ nameSpan (0x5C :: path.chars)
  parent : ∃ v₁ dhandle, fgetparent E v path = .ok (v₁, dhandle) ∧ Records E v₁ fb dhandle

theorem finit_ok_iff (E : Host) (v : Volume) (fb : Nat) (name : Bytes) :
    (∃ v', finit E v fb name = .ok v') ↔
      sizeofMetaFsBlock ≤ v.root.blkSize ∧ 0 ∈ nameSpan name := by
  rw [finit]
  by_cases hsize : v.root.blkSize < sizeofMetaFsBlock
  · simp [hsize, Nat.not_le.mpr hsize]
  · by_cases hname : 0 ∈ nameSpan name
    · simp [hsize, hname, Nat.not_lt.mp hsize]
    · simp [hsize, hname]

theorem fcreateFinish_ok_iff (E : Host) (v : Volume) (fb : Nat) (path : Path)
    (dhandle : Option DirHandle) :
    (∃ v', fcreateFinish E v fb path dhandle = .ok v') ↔
      sizeofMetaFsBlock ≤ v.root.blkSize ∧ 0 ∈ nameSpan (0x5C :: path.chars) ∧
        Records E v fb dhandle := by
  cases dhandle with
  | none =>
      rw [fcreateFinish, finit_ok_iff]
      exact and_congr_right fun _ => ⟨fun h => ⟨h, fun _ hdir => nomatch hdir⟩, And.left⟩
  | some dir =>
      have hrecords : Records E v fb (some dir) ↔
          ((v.root.block dir.file).fcode.low ≠ (v.root.block fb).fcode.low ∧
            (v.root.block dir.file).fcode.high ≠ (v.root.block fb).fcode.high →
            ∃ v₁ dir₁ v₂, fdiradd E v dir fb = .ok (v₁, dir₁) ∧
              fuloaddir v₁ dir₁ = .ok v₂) :=
        ⟨fun h hcodes => h dir rfl hcodes.1 hcodes.2, fun h dir' hdir hlow hhigh => by
          cases hdir
          exact h ⟨hlow, hhigh⟩⟩
      rw [hrecords]
      simp only [fcreateFinish]
      split
      case isFalse hsame =>
        rw [finit_ok_iff]
        exact and_congr_right fun _ => ⟨fun h => ⟨h, fun hcodes => absurd hcodes hsame⟩, And.left⟩
      case isTrue hcodes =>
        rw [imp_iff_right hcodes]
        cases hadd : fdiradd E v dir fb with
        | error e => simp
        | ok added =>
            obtain ⟨v₁, dir₁⟩ := added
            cases hflush : fuloaddir v₁ dir₁ with
            | error e => simp [hflush]
            | ok v₂ =>
                have hblk : v₂.root.blkSize = v.root.blkSize := by
                  rw [fuloaddir_root hflush]
                  exact (fdiraddLoop_edits hadd).sameGeometry.blkSize
                simp only [hflush, finit_ok_iff, hblk]
                exact and_congr_right fun _ => (and_iff_left ⟨v₁, dir₁, v₂, rfl, hflush⟩).symm

theorem fgetparent_edits {E : Host} {v v' : Volume} {path : Path}
    {dhandle : Option DirHandle} (h : fgetparent E v path = .ok (v', dhandle)) :
    Edits (ancestorCodes E path) v.root v'.root := by
  unfold fgetparent at h
  split at h
  case h_1 =>
    cases h
    exact .refl
  case h_2 parent hparent =>
    exact (floadhdir_edits h).mono (createCodes_parent hparent)

theorem fcreate_ok_iff {E : Host} {v : Volume} {path : Path} {flags : List Char}
    {fr fr₁ : ConfFsroot} {slot : Nat} (hclear : fcreateClear E v.root path flags = some fr)
    (halloc : allocatecluster fr = (fr₁, some slot)) :
    (∃ v', fcreate E v path flags = .ok v') ↔
      Enters E (v.enter E fr₁ slot path flags) slot path := by
  have hcreate : fcreate E v path flags =
      fgetparent E (v.enter E fr₁ slot path flags) path >>= fun opened =>
        fcreateFinish E opened.1 slot path opened.2 := by
    rw [fcreate_eq_rec, fcreateRec, hclear]
    simp only [halloc, fgetparent_eq, Volume.enter]
    split
    · next hnone => rw [hnone]; rfl
    · next parent hparent =>
        rw [hparent, openParent, floadhdir,
          (createFuel_rec E _).2 _ parent _ (by rw [createFuel]; omega)]
        generalize floadhdirRec E _ parent ['d', 'c'] = opened
        cases opened <;> rfl
  rw [hcreate]
  cases hopen : fgetparent E (v.enter E fr₁ slot path flags) path with
  | error e =>
      constructor
      · rintro ⟨v', hv'⟩
        cases hv'
      · intro henters
        obtain ⟨v₁, dhandle, hok, -⟩ := henters.parent
        cases hopen.symm.trans hok
  | ok opened =>
      obtain ⟨v₁, dhandle⟩ := opened
      have hblk : v₁.root.blkSize = (v.enter E fr₁ slot path flags).root.blkSize :=
        (fgetparent_edits hopen).sameGeometry.blkSize
      simp only [ok_bind, fcreateFinish_ok_iff, hblk]
      constructor
      · rintro ⟨hblock, hname, hrecords⟩
        exact ⟨hblock, hname, v₁, dhandle, hopen, hrecords⟩
      · rintro ⟨hblock, hname, v₂, dhandle₂, hok, hrecords⟩
        cases hopen.symm.trans hok
        exact ⟨hblock, hname, hrecords⟩

/-! ## What is left of a removed item -/

/-- The item of `path` is reclaimed whole. -/
structure Reclaims (E : Host) (v : Volume) (path : Path) : Prop where
  removed : ∃ fr', ffremove E v.root path = .ok fr' ∧
    (∀ slot i, ¬ HasEntry fr' slot (getfcode E path) i) ∧
    ∀ slot, (v.root.block slot).fcode ≠ getfcode E path → fr'.block slot = v.root.block slot
  replaced : ∀ flags : List Char, strcheck flags 'F' → strcheck flags 'f' →
    ∃ v' fb, fcreate E v path flags = .ok v' ∧ ffind E v'.root path = some fb ∧
      fsize v'.root fb = 0
  recreated : ∀ (v₁ v' : Volume) (flags : List Char) (fb : Nat),
    ffremove E v.root path = .ok v₁.root → fcreate E v₁ path flags = .ok v' →
    ffind E v'.root path = some fb →
    fsize v'.root fb = 0 ∧
      ∀ p n, 0 < n → v'.root.blkSize + p + n < 2 ^ 64 →
        fread E v' (fseek v'.root ⟨fb, v'.root.blkSize, path⟩ p) n =
          .ok (0, none, fseek v'.root ⟨fb, v'.root.blkSize, path⟩ p, v')

theorem clearBlock_block_other {fr : ConfFsroot} {fb slot : Nat} (h : slot ≠ fb) :
    (clearBlock fr fb).block slot = fr.block slot :=
  ConfFsroot.block_setBlock_other h

theorem hasEntry_clearBlock_iff {fr : ConfFsroot} {fb slot i : Nat} {c : Fcode}
    (hlt : fb < fr.clusterMap.length) (hc : c ≠ Fcode.zero) :
    HasEntry (clearBlock fr fb) slot c i ↔ slot ≠ fb ∧ HasEntry fr slot c i := by
  unfold clearBlock
  rw [hasEntry_setBlock_iff hlt]
  simp [hc.symm]

theorem clearBlock_of_single {fr : ConfFsroot} {fb : Nat} {c : Fcode}
    (hinv : MapInvariant fr) (hc : c ≠ Fcode.zero) (hentry : HasEntry fr fb c 0)
    (hsingle : countFcode fr c = 1) (slot i : Nat) :
    ¬ HasEntry (clearBlock fr fb) slot c i := by
  rw [hasEntry_clearBlock_iff hentry.1 hc]
  rintro ⟨hslot, hentry'⟩
  have hi := ((hinv.denseCode hc).exists_iff i).mp ⟨slot, hentry'⟩
  obtain rfl : i = 0 := by omega
  exact hslot (hinv.distinct hc hentry' hentry)

theorem Created.bare {E : Host} {fr fr' : ConfFsroot} {path : Path} {flags : List Char}
    (h : Created E fr path flags fr') (hc : getfcode E path ≠ Fcode.zero)
    (hnone : ∀ slot i, ¬ HasEntry fr slot (getfcode E path) i)
    (hapart : getfcode E path ∉ ancestorCodes E path) :
    Bare fr' (getfcode E path) := by
  cases h with
  | full _ halloc =>
      obtain ⟨rfl, -⟩ := allocatecluster_none halloc
      exact fun slot i hentry => absurd hentry (hnone slot i)
  | entered fr₁ _ fb halloc hedits =>
      obtain ⟨rfl, hlt, -, -, -⟩ := allocatecluster_some halloc
      intro slot i hentry
      have hbefore := (hedits.hasEntry_iff hc hapart).mp hentry
      rcases (hasEntry_setBlock_iff hlt).mp hbefore with ⟨rfl, -, hindex⟩ | ⟨-, hold⟩
      · have hblock := @Edits.block_of_live _ _ _ hedits slot
          (by rw [hbefore.2.1]; exact hc)
        rw [hblock, @ConfFsroot.block_setBlock_same (fr.setCursor slot) _ _ hlt]
        exact ⟨hindex.symm, flagcheck_createAttributes _ _⟩
      · exact absurd hold (hnone slot i)

theorem countFcode_le_one_of_removed {fr : ConfFsroot} {fb : Nat} {c : Fcode}
    (hinv : MapInvariant fr) (hc : c ≠ Fcode.zero) (hentry : HasEntry fr fb c 0)
    (hnone : ∀ slot i, ¬ HasEntry (clearBlock fr fb) slot c i) : countFcode fr c ≤ 1 := by
  by_contra hmany
  obtain ⟨slot, hslot⟩ := ((hinv.denseCode hc).exists_iff 1).mpr (by omega)
  refine hnone slot 1 ((hasEntry_clearBlock_iff hentry.1 hc).mpr ⟨?_, hslot⟩)
  rintro rfl
  have hzero := hentry.2.2.symm.trans hslot.2.2
  cases hzero

/--
What a path needs for its item in `fb` to be reclaimed: one entry, a free slot behind the
cursor once that entry is cleared, and whatever the create of its replacement goes on to.
-/
structure Reclaimable (E : Host) (v : Volume) (path : Path) (fb : Nat) : Prop where
  single : countFcode v.root (getfcode E path) = 1
  room : Reachable (clearBlock v.root fb)
  enters : ∀ (flags : List Char) (fr : ConfFsroot) (slot : Nat), strcheck flags 'F' →
    strcheck flags 'f' → allocatecluster (clearBlock v.root fb) = (fr, some slot) →
    Enters E (v.enter E fr slot path flags) slot path

theorem fcreateClear_replaced {E : Host} {fr : ConfFsroot} {path : Path} {fb : Nat}
    {flags : List Char} (hlive : ffind E fr path = some fb) (hF : strcheck flags 'F') :
    fcreateClear E fr path flags = some (clearBlock fr fb) := by
  rw [fcreateClear, hlive]
  simp only [hF, if_true]

theorem Reclaims.reclaimable {E : Host} {v : Volume} {path : Path} {fb : Nat}
    (h : Reclaims E v path) (hinv : MapInvariant v.root) (hc : getfcode E path ≠ Fcode.zero)
    (hlive : ffind E v.root path = some fb) : Reclaimable E v path fb := by
  have hentry := ffind_some hlive
  obtain ⟨fr', hok, hnone, -⟩ := h.removed
  have hremove : ffremove E v.root path = .ok (clearBlock v.root fb) := by
    rw [ffremove, hlive]
  obtain rfl := Except.ok.inj (hremove.symm.trans hok)
  refine ⟨?_, ?_, fun flags fr slot hF hf halloc => ?_⟩
  · have hle := countFcode_le_one_of_removed hinv hc hentry hnone
    have hpos := countFcode_pos hentry
    omega
  · by_contra hfull
    obtain ⟨v', fb', hcreate, hfind, -⟩ := h.replaced ['F', 'f'] (by decide) (by decide)
    cases (fcreate_spec hcreate).recreated hlive (by decide) with
    | full _ halloc =>
        -- the scan found nothing, and the cleared map has no entry of the path
        obtain ⟨hroot, -⟩ := allocatecluster_none halloc
        rw [hroot] at hfind
        exact hnone fb' 0 (ffind_some hfind)
    | entered _ _ slot halloc =>
        refine hfull (of_not_not fun hunreachable => ?_)
        have hnone' := allocatecluster_eq_none_iff.mpr hunreachable
        rw [halloc] at hnone'
        cases hnone'
  · obtain ⟨v', -, hcreate, -⟩ := h.replaced flags hF hf
    exact (fcreate_ok_iff (fcreateClear_replaced hlive hF) halloc).mp ⟨v', hcreate⟩

theorem Reclaimable.reclaims {E : Host} {v : Volume} {path : Path} {fb : Nat}
    (h : Reclaimable E v path fb) (hinv : MapInvariant v.root)
    (hc : getfcode E path ≠ Fcode.zero) (hlive : ffind E v.root path = some fb)
    (hapart : getfcode E path ∉ ancestorCodes E path) : Reclaims E v path := by
  have hentry := ffind_some hlive
  have hremove : ffremove E v.root path = .ok (clearBlock v.root fb) := by
    rw [ffremove, hlive]
  have hnone := clearBlock_of_single hinv hc hentry h.single
  have hbare : ∀ {v' : Volume} {flags : List Char},
      Created E (clearBlock v.root fb) path flags v'.root →
      ∀ slot, ffind E v'.root path = some slot → fsize v'.root slot = 0 := by
    intro v' flags hcreated slot hfind
    apply Bare.fsize
    rw [(ffind_some hfind).2.1]
    exact hcreated.bare hc hnone hapart
  refine ⟨⟨_, hremove, hnone, fun slot hother => ?_⟩, ?_, ?_⟩
  · apply clearBlock_block_other
    rintro rfl
    exact hother hentry.2.1
  · intro flags hF hf
    rcases halloc : allocatecluster (clearBlock v.root fb) with ⟨fr, result⟩
    cases result with
    | none =>
        have hfull := @allocatecluster_eq_none_iff (clearBlock v.root fb)
        rw [halloc] at hfull
        exact absurd h.room (hfull.mp rfl)
    | some slot =>
        obtain ⟨v', hcreate⟩ := (fcreate_ok_iff (fcreateClear_replaced hlive hF) halloc).mpr
          (h.enters flags fr slot hF hf halloc)
        have hcreated := (fcreate_spec hcreate).recreated hlive hF
        obtain ⟨fb', hfind⟩ := Option.ne_none_iff_exists'.mp (hcreated.found hc h.room)
        exact ⟨v', fb', hcreate, hfind, hbare hcreated fb' hfind⟩
  · intro v₁ v' flags slot hok hcreate hfind
    have hroot := Except.ok.inj (hremove.symm.trans hok)
    have hgone : ffind E v₁.root path = none := by
      rw [← hroot]
      exact ffindhi_eq_none (by decide) fun s => hnone s 0
    have hcreated := (fcreate_spec hcreate).created hgone
    rw [← hroot] at hcreated
    have hsize := hbare hcreated slot hfind
    refine ⟨hsize, fun p n hn hfit => fread_past_size hfit ?_⟩
    change fsize v'.root slot < p + n
    omega

/--
Removal and replacement reclaim only items that own a single entry and whose replacement
finds its slot; they reclaim all of those whose hash differs from the hashes of the
directories above.
-/
theorem reclaims_iff_single {E : Host} {v : Volume} {path : Path} {fb : Nat}
    (hinv : MapInvariant v.root) (hc : getfcode E path ≠ Fcode.zero)
    (hlive : ffind E v.root path = some fb) :
    (Reclaims E v path → Reclaimable E v path fb) ∧
      (Reclaimable E v path fb → getfcode E path ∉ ancestorCodes E path →
        Reclaims E v path) :=
  ⟨fun h => h.reclaimable hinv hc hlive, fun h => h.reclaims hinv hc hlive⟩

/-- An empty file in a map of four slots. -/
def sampleEmpty : Volume where
  root := (sampleVolume 4 (by decide)).root.setBlock 0
    ⟨getfcode sampleHost samplePath, fsMetadataCluster, 0⟩
  image := .blank (2 ^ 21)
  ticks := 0

/-- The file with one data cluster. -/
def sampleLong : Volume :=
  { sampleEmpty with root := sampleEmpty.root.setBlock 1 (extensionEntry sampleEmpty.root 0) }

theorem mapInvariant_sampleEmpty : MapInvariant sampleEmpty.root := by
  have hfresh : MapInvariant (sampleVolume 4 (by decide)).root :=
    mapInvariant_fresh fun _ hfb => List.eq_of_mem_replicate hfb
  refine @MapInvariant.edit _ _ Set.univ hfresh
    (.create _ _ 0 (by decide) (by decide) (by decide) (by decide) ?_ trivial)
  rintro slot ⟨hlt, hcode, -⟩
  rw [ConfFsroot.block_eq_getElem hlt] at hcode
  have hzero : (sampleVolume 4 (by decide)).root.clusterMap[slot] = FsBlock.zero :=
    List.eq_of_mem_replicate (List.getElem_mem hlt)
  rw [hzero] at hcode
  exact absurd hcode (by decide)

theorem mapInvariant_sampleLong : MapInvariant sampleLong.root :=
  @MapInvariant.edit _ _ Set.univ mapInvariant_sampleEmpty
    (.extend 0 1 (by decide) (by decide) trivial)

theorem reclaimable_sampleEmpty : Reclaimable sampleHost sampleEmpty samplePath 0 where
  single := by decide
  room := ⟨0, by decide, by decide, by decide⟩
  enters := fun _ _ _ _ _ halloc =>
    { block := by
        obtain ⟨rfl, -⟩ := allocatecluster_some halloc
        exact (by decide : sizeofMetaFsBlock ≤ sampleEmpty.root.blkSize)
      name := by decide
      parent := ⟨_, none, rfl, fun _ hdir => nomatch hdir⟩ }

theorem apart_samplePath :
    getfcode sampleHost samplePath ∉ ancestorCodes sampleHost samplePath := by
  rintro ⟨a, habove, -⟩
  obtain ⟨parent, -, hparent⟩ := Relation.TransGen.tail'_iff.mp habove
  have hnone : parentPath samplePath = none := rfl
  cases hnone.symm.trans hparent

theorem reclaims_iff_single_sample :
    Reclaims sampleHost sampleEmpty samplePath ∧
      (Reclaims sampleHost sampleLong samplePath →
        Reclaimable sampleHost sampleLong samplePath 0) :=
  ⟨(reclaims_iff_single mapInvariant_sampleEmpty (by decide) (by decide)).2
      reclaimable_sampleEmpty apart_samplePath,
    (reclaims_iff_single mapInvariant_sampleLong (by decide) (by decide)).1⟩

/-- Removing the sample file leaves its data cluster in the map. -/
theorem not_reclaims_sampleLong :
    MapInvariant sampleLong.root ∧ ffind sampleHost sampleLong.root samplePath = some 0 ∧
      ¬ Reclaims sampleHost sampleLong samplePath := by
  have hlive : ffind sampleHost sampleLong.root samplePath = some 0 := by decide
  refine ⟨mapInvariant_sampleLong, hlive, fun h => ?_⟩
  exact absurd (h.reclaimable mapInvariant_sampleLong (by decide) hlive).single (by decide)

end BlockyOS.HostTool
