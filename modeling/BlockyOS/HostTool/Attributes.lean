import BlockyOS.HostTool.Listing
import BlockyOS.HostTool.NextFit

/-!
# The attributes of a created item

`__fcreate` sets the bits its flags ask for in whatever attributes the free slot
still has.  Only the metadata bit and the bits that are set anyway may be left
there by an earlier item, or the new one inherits them.
-/

namespace BlockyOS.HostTool

open BlockyOS.Foundation

/-! ## What the flags ask for -/

def flagAttributes (flags : List Char) : BitVec 16 :=
  if strcheck flags 'P' then fsProxy
  else
    (if strcheck flags 'd' then fsDirectory else 0) |||
      if strcheck flags 'r' then fsReadonly else 0

def entryAttributes (flags : List Char) : BitVec 16 :=
  flagAttributes flags ||| fsMetadataCluster

/-- No bit is set that a create would not set itself. -/
def StaleFree (attributes : BitVec 16) (flags : List Char) : Prop :=
  attributes &&& ~~~entryAttributes flags = 0

theorem createAttributes_eq (attributes : BitVec 16) (flags : List Char) :
    createAttributes attributes flags = attributes ||| entryAttributes flags := by
  have hfile : ∀ (a : BitVec 16) (b : Bool), (if b then a ||| fsFile else a) = a := by
    intro a b
    cases b
    · rfl
    · exact BitVec.or_zero
  rw [createAttributes, entryAttributes, flagAttributes]
  simp only [hfile]
  split_ifs <;> simp [BitVec.or_assoc]

theorem or_eq_right_iff {a b : BitVec 16} : a ||| b = b ↔ a &&& ~~~b = 0 := by
  constructor
  · intro h
    ext i hi
    have hbit := congrArg (fun v : BitVec 16 => v[i]) h
    simp only [BitVec.getElem_or] at hbit
    simp only [BitVec.getElem_and, BitVec.getElem_not, BitVec.ofNat_eq_ofNat,
      BitVec.getElem_zero]
    cases ha : a[i] <;> cases hb : b[i] <;> simp_all
  · intro h
    ext i hi
    have hbit := congrArg (fun v : BitVec 16 => v[i]) h
    simp only [BitVec.getElem_and, BitVec.getElem_not, BitVec.ofNat_eq_ofNat,
      BitVec.getElem_zero] at hbit
    simp only [BitVec.getElem_or]
    cases ha : a[i] <;> cases hb : b[i] <;> simp_all

theorem createAttributes_eq_iff {attributes : BitVec 16} {flags : List Char} :
    createAttributes attributes flags = entryAttributes flags ↔ StaleFree attributes flags := by
  rw [createAttributes_eq, or_eq_right_iff, StaleFree]

theorem flagunset_entryAttributes (flags : List Char) :
    flagunset (entryAttributes flags) fsMetadataCluster = flagAttributes flags := by
  rw [entryAttributes, flagAttributes]
  split_ifs <;> rfl

/-! ## The metadata record -/

def metaFile : Nat := 16

/-- `finfo->f.attributes` of a metadata block. -/
def metaAttributes (finfo : Bytes) : BitVec 16 :=
  (FsBlock.decode (finfo.drop metaFile)).attributes

theorem metaAttributes_metaBlock (fb : FsBlock) (t : Tm) (name : Bytes) {n : Nat}
    (hn : sizeofMetaFsBlock ≤ n) :
    metaAttributes (padTo n (metaBlock fb t name)) =
      flagunset fb.attributes fsMetadataCluster := by
  have hsplit : ∃ rest, padTo n (metaBlock fb t name) =
      (fratBlockSig ++ zeros 8) ++ ((metaEntry fb).encode ++ rest) := by
    rw [padTo_of_le ((length_metaBlock fb t name).trans_le hn), metaBlock]
    simp only [List.append_assoc]
    exact ⟨_, rfl⟩
  obtain ⟨rest, hrest⟩ := hsplit
  have hlen : (fratBlockSig ++ zeros 8).length = metaFile := by decide
  rw [metaAttributes, hrest, ← hlen, List.drop_left, FsBlock.decode_encode_append]
  rfl

/-! ## One create -/

/-- The entry at slot `fb` and its metadata record are what the flags ask for. -/
structure FromFlags (E : Host) (v : Volume) (fb : Nat) (path : Path) (flags : List Char) :
    Prop where
  entry : HasEntry v.root fb (getfcode E path) 0
  attributes : (v.root.block fb).attributes = entryAttributes flags
  record : ∀ finfo, freadinfo v fb = some finfo → metaAttributes finfo = flagAttributes flags

theorem freadinfo_finit {E : Host} {v v' : Volume} {fb : Nat} {path finfo : Bytes}
    (h : finit E v fb path = .ok v') (hread : freadinfo v' fb = some finfo) :
    metaAttributes finfo = flagunset (v'.root.block fb).attributes fsMetadataCluster := by
  have hroot := finit_root h
  have hspan := v.root.sizeofMetaFsBlock_le_span
  rw [freadinfo, Volume.readAt_eq (by decide) v'.root.sizeofMetaFsBlock_le_span] at hread
  split at hread
  case isFalse => cases hread
  case isTrue hin =>
    obtain rfl := Option.some.inj hread
    have haddr : v.root.Addressable fb := by
      rw [← hroot]
      exact hin.1
    unfold finit at h
    split at h
    case isTrue => cases h
    case isFalse =>
      split at h
      case isTrue => cases h
      case isFalse =>
        cases h
        have hmeta := length_metaBlock (v.root.block fb) (E.localtime v.ticks) (storedName path)
        change metaAttributes ((v.writeAt fb _ sizeofMetaFsBlock).window fb) = _
        rw [Volume.window_writeAt_same (by decide) hspan haddr,
          List.take_of_length_le (Nat.le_of_eq hmeta), metaAttributes_metaBlock _ _ _ hspan]
        rfl

theorem fcreate_entry {E : Host} {v v' : Volume} {path : Path} {flags : List Char} {fb : Nat}
    (hnew : ffind E v.root path = none) (hcode : getfcode E path ≠ Fcode.zero)
    (halloc : (allocatecluster v.root).2 = some fb) (h : fcreate E v path flags = .ok v') :
    v'.root.block fb = createdEntry E v.root fb path flags ∧
      fb < v'.root.clusterMap.length ∧
      ∃ v₁, finit E v₁ fb (0x5C :: path.chars) = .ok v' := by
  have hclear := fcreateClear_of_missing hnew flags
  rcases hpair : allocatecluster v.root with ⟨fr₁, slot⟩
  obtain rfl : slot = some fb := by
    rw [hpair] at halloc
    exact halloc
  have hspec : Created E v.root path flags v'.root := (fcreate_spec h).created hnew
  obtain ⟨hcursor, hlt, -, -, -⟩ := allocatecluster_some hpair
  rcases hspec with ⟨-, halloc'⟩ | ⟨fr₁', -, fb', halloc', hedits⟩
  · cases hpair.symm.trans halloc'
  · obtain ⟨rfl, hfb⟩ := Prod.mk.inj (hpair.symm.trans halloc')
    obtain rfl := Option.some.inj hfb
    subst hcursor
    have hset : ((v.root.setCursor fb).setBlock fb
        (createdEntry E (v.root.setCursor fb) fb path flags)).block fb =
          createdEntry E v.root fb path flags :=
      ConfFsroot.block_setBlock_same hlt
    refine ⟨?_, ?_, fcreate_finit hclear hpair h⟩
    · rw [hedits.block_of_live (by rw [hset]; exact hcode), hset]
    · rw [hedits.sameGeometry.length]
      simpa using hlt

theorem fcreate_fromFlags_iff {E : Host} {v v' : Volume} {path : Path} {flags : List Char}
    {fb : Nat} (hnew : ffind E v.root path = none) (hcode : getfcode E path ≠ Fcode.zero)
    (halloc : (allocatecluster v.root).2 = some fb) (h : fcreate E v path flags = .ok v') :
    FromFlags E v' fb path flags ↔ StaleFree (v.root.block fb).attributes flags := by
  obtain ⟨hblock, hlt, v₁, hfinit⟩ := fcreate_entry hnew hcode halloc h
  have hattributes : (v'.root.block fb).attributes =
      createAttributes (v.root.block fb).attributes flags := by
    rw [hblock]
    rfl
  rw [← createAttributes_eq_iff, ← hattributes]
  refine ⟨FromFlags.attributes, fun hentry => ⟨⟨hlt, ?_, ?_⟩, hentry, fun finfo hread => ?_⟩⟩
  · rw [hblock]
    rfl
  · rw [hblock]
    rfl
  · rw [freadinfo_finit hfinit hread, hentry, flagunset_entryAttributes]

/-! ## Runs -/

/-- The path and flags a call hands on to `__fcreate`. -/
def creates : Op → Option (Path × List Char)
  | .create path flags => some (path, flags)
  | .loadh path args | .loadhdir path args =>
      if strcheck args 'c' then some (path, args) else none
  | _ => none

theorem step_creates {E : Host} {s s' : Session} {op : Op} {path : Path} {flags : List Char}
    (h : s.step E op = .ok s') (hcreates : creates op = some (path, flags))
    (hnew : ffind E s.vol.root path = none) : fcreate E s.vol path flags = .ok s'.vol := by
  cases op with
  | create path' flags' =>
      cases hcreates
      obtain ⟨vol, hcreate, rfl⟩ := map_ok h
      exact hcreate
  | loadh path' args =>
      rw [creates] at hcreates
      split at hcreates
      case isFalse => cases hcreates
      case isTrue hc =>
        cases hcreates
        obtain ⟨⟨vol, fh⟩, hload, rfl⟩ := map_ok h
        rw [floadh, if_pos hc] at hload
        split at hload
        case h_1 => cases hload
        case h_2 v₁ hcreate =>
          cases hload
          exact hcreate
  | loadhdir path' args =>
      rw [creates] at hcreates
      split at hcreates
      case isFalse => cases hcreates
      case isTrue hc =>
        cases hcreates
        obtain ⟨⟨vol, dir⟩, hload, rfl⟩ := map_ok h
        rw [floadhdir, floadhdirFuel, hnew] at hload
        simp only [hc, if_true] at hload
        split at hload
        case h_1 => cases hload
        case h_2 v₁ hcreate =>
          split at hload
          case h_1 =>
            cases hload
            exact hcreate
          case h_2 file _ =>
            obtain ⟨rfl, -⟩ := openDir_ok hload
            exact hcreate
  | write | read | seek | remove | list | unloaddir | unloadh => cases hcreates

structure Creates (E : Host) (s : Session) (op : Op) (path : Path) (flags : List Char)
    (fb : Nat) : Prop where
  call : creates op = some (path, flags)
  new : ffind E s.vol.root path = none
  /-- a code of zero marks a free entry, which no path can live in -/
  code : getfcode E path ≠ Fcode.zero
  slot : (allocatecluster s.vol.root).2 = some fb

def CreatesFromFlags (E : Host) (s : Session) (op : Op) : Prop :=
  ∀ path flags fb, Creates E s op path flags fb →
    ∀ s', s.step E op = .ok s' → FromFlags E s'.vol fb path flags

/-- The slot the call takes has no stale attribute. -/
def CreatesClean (E : Host) (s : Session) (op : Op) : Prop :=
  ∀ path flags fb, Creates E s op path flags fb →
    StaleFree (s.vol.root.block fb).attributes flags

/--
In a run of calls every created item has the attributes its flags ask for, in the
map and in its record, if and only if every slot that was taken had no bit set that
the flags do not set.
-/
theorem createsFromFlags_run_iff (E : Host) (s : Session) (ops : List Op) :
    Meets (Session.step E) (CreatesFromFlags E) s ops ↔
      Meets (Session.step E) (CreatesClean E) s ops := by
  refine @meets_iff_under _ _ _ _ (fun _ => True) _ _ (fun s op s' _ hstep => ?_)
    (fun _ _ _ _ _ _ => trivial) s ops trivial
  have hexact : ∀ path flags fb, Creates E s op path flags fb →
      (FromFlags E s'.vol fb path flags ↔
        StaleFree (s.vol.root.block fb).attributes flags) := fun path flags fb h =>
    fcreate_fromFlags_iff h.new h.code h.slot (step_creates hstep h.call h.new)
  constructor
  · intro h path flags fb hcreates
    exact (hexact path flags fb hcreates).mp (h path flags fb hcreates s' hstep)
  · intro h path flags fb hcreates s'' hstep'
    obtain rfl := Except.ok.inj (hstep.symm.trans hstep')
    exact (hexact path flags fb hcreates).mpr (h path flags fb hcreates)

/-- A directory is created and removed, and a file takes its slot. -/
def sampleRecycling : List Op :=
  [.create samplePath ['d'], .remove samplePath, .create sampleOther ['f']]

/-- The file that took the slot of a directory is a directory. -/
theorem not_createsFromFlags_recycling :
    ¬ Meets (Session.step sampleHost) (CreatesFromFlags sampleHost)
        (.initial (sampleVolume 2 (by decide))) sampleRecycling := by
  intro h
  obtain ⟨s, hrun, heval⟩ := @ok_of_eval _ _ _
    (run (Session.step sampleHost) (.initial (sampleVolume 2 (by decide)))
      [.create samplePath ['d'], .remove samplePath])
    (fun s => ((allocatecluster s.vol.root).2, ffind sampleHost s.vol.root sampleOther,
      ((s.step sampleHost (.create sampleOther ['f'])).map fun s' =>
        (s'.vol.root.block 0).attributes).toOption))
    (some 0, none, some (fsDirectory ||| fsMetadataCluster)) (by decide +kernel)
  obtain ⟨hslot, hrest⟩ := Prod.mk.inj heval
  obtain ⟨hnew, hlast⟩ := Prod.mk.inj hrest
  obtain ⟨s', hstep, hattributes⟩ := ok_of_eval hlast
  obtain ⟨s₁, hfirst, hsecond⟩ := (run_cons_ok _).mp hrun
  obtain ⟨s₂, hremove, hdone⟩ := (run_cons_ok _).mp hsecond
  cases hdone
  have hfrom := (((h s₁ hfirst).2 s hremove).2 s' hstep).1 sampleOther ['f'] 0
    ⟨rfl, hnew, by decide, hslot⟩ s' hstep
  exact absurd (hattributes.symm.trans hfrom.attributes) (by decide)

end BlockyOS.HostTool
