import BlockyOS.HostTool.DirContent
import BlockyOS.HostTool.Names
import BlockyOS.HostTool.Session

/-!
# Listing what was created

A record leads to a slot, the slot to a stored name, and the name to a path that
is looked up again.  The handle that comes back is on the item only if the path
has kept its code.
-/

namespace BlockyOS.HostTool

open BlockyOS.Foundation

/-! ## Opening a child -/

/-- `child` is a handle on slot `fb` that was opened on `path`. -/
inductive OpenedOn (v : Volume) (fb : Nat) (path : Path) : UnHandle → Prop
  | dir (handle : DirHandle) (hfile : handle.file = fb) (hpath : handle.path = path) :
      OpenedOn v fb path (.dir (some handle))
  | file : OpenedOn v fb path (.file (some ⟨fb, v.root.blkSize, path⟩))

theorem floadhdir_of_live {E : Host} {v : Volume} {path : Path} {file : Nat}
    (args : List Char) (h : ffind E v.root path = some file) :
    floadhdir E v path args = openDir E v path file := by
  rw [floadhdir, floadhdirFuel, h]

theorem floadhdir_of_missing {E : Host} {v : Volume} {path : Path}
    (h : ffind E v.root path = none) : floadhdir E v path [] = .error .nullDeref := by
  rw [floadhdir, floadhdirFuel, h]
  rfl

theorem floadh_file (E : Host) (v : Volume) (path : Path) :
    floadh E v path ['f'] =
      .ok (v, (ffind E v.root path).map fun fb => ⟨fb, v.root.blkSize, path⟩) := rfl

theorem openDir_directory {E : Host} {v : Volume} {path : Path} {file : Nat}
    (hheld : v.AllHeld) (hblk : 0 < v.root.blkSize)
    (hflag : flagcheck (v.root.block file).attributes fsDirectory) :
    ∃ handle, openDir E v path file = .ok (v, some handle) ∧ handle.file = file ∧
      handle.path = path := by
  have hrefresh := fdirrefresh_eq E ⟨file, path, 0, none⟩ hheld hblk
  rw [openDir, if_pos hflag, hrefresh]
  exact ⟨_, rfl, rfl, rfl⟩

section OpenChild

variable {E : Host} {v : Volume} {dir : DirHandle} {fb : Nat}
  (hheld : v.AllHeld) (hblk : 0 < v.root.blkSize) (hfb : fb < v.root.clusterMap.length)

include hheld hfb in
theorem freadinfo_of_held : freadinfo v fb = some (v.window fb) :=
  hheld.readAt hfb (by decide) v.root.sizeofMetaFsBlock_le_span

include hheld hblk hfb

theorem openChild_of_found {name : Bytes} (hname : infoName (v.window fb) = .ok name)
    (hfind : ffind E v.root (childPath dir.path name) = some fb) :
    ∃ child, openChild E v dir fb = .ok child ∧
      OpenedOn v fb (childPath dir.path name) child := by
  rw [openChild, freadinfo_of_held hheld hfb]
  simp only [hname]
  split
  case isTrue hflag =>
    obtain ⟨handle, hopen, hfile, hpath⟩ :=
      @openDir_directory E v (childPath dir.path name) fb hheld hblk hflag
    rw [floadhdir_of_live [] hfind, hopen]
    exact ⟨_, rfl, .dir handle hfile hpath⟩
  case isFalse hflag =>
    rw [floadh_file, hfind]
    exact ⟨_, rfl, .file⟩

omit hblk in
theorem found_of_openChild {path : Path} {child : UnHandle}
    (h : openChild E v dir fb = .ok child) (hopened : OpenedOn v fb path child) :
    ∃ name, infoName (v.window fb) = .ok name ∧ path = childPath dir.path name ∧
      ffind E v.root path = some fb := by
  rw [openChild, freadinfo_of_held hheld hfb] at h
  simp only at h
  split at h
  case h_1 => cases h
  case h_2 name hname =>
    refine ⟨name, hname, ?_⟩
    split at h
    case isTrue hflag =>
      cases hfind : ffind E v.root (childPath dir.path name) with
      | none =>
          rw [floadhdir_of_missing hfind] at h
          cases h
      | some file =>
          rw [floadhdir_of_live [] hfind] at h
          cases hload : openDir E v (childPath dir.path name) file with
          | error e =>
              rw [hload] at h
              cases h
          | ok result =>
              obtain ⟨v', dhandle⟩ := result
              rw [hload] at h
              simp only [Except.ok.injEq] at h
              subst h
              cases hopened with
              | dir handle hfile hpath =>
                  obtain ⟨hfile', hpath'⟩ := (openDir_ok hload).2 handle rfl
                  rw [← hpath, hpath', ← hfile, hfile']
                  exact ⟨rfl, hfind⟩
    case isFalse hflag =>
      rw [floadh_file] at h
      simp only [Except.ok.injEq] at h
      cases hfind : ffind E v.root (childPath dir.path name) with
      | none =>
          rw [hfind] at h
          subst h
          cases hopened
      | some file =>
          rw [hfind] at h
          subst h
          cases hopened with
          | file => exact ⟨rfl, hfind⟩

end OpenChild

/-! ## One call of the listing -/

/-- A refresh of `dir` leads to `dir'`, whose record `index` carries the code `c`. -/
def Listed (E : Host) (v : Volume) (dir dir' : DirHandle) (index : Nat) (c : Fcode) : Prop :=
  fdirrefresh E v dir = .ok dir' ∧
    safediv (u64 (index * dirItemCodec.width)) v.root.blkSize < dir'.loadedblocks ∧
    ∃ dirarray, dir'.dirarray = some dirarray ∧
      dirItemCodec.width * index + 16 ≤ dirarray.length ∧
      (dirItemCodec.get dirarray index).f.fcode = c

section Listed

variable {E : Host} {v : Volume} {dir dir' : DirHandle} {index : Nat} {c : Fcode}
  (h : Listed E v dir dir' index c)

include h

theorem fdirlist_live {fb : Nat} (hlive : liveChild v.root c = some fb) :
    fdirlist E v dir index =
      (openChild E v dir' fb).map fun child => (dir', index + 1, some child) := by
  obtain ⟨hrefresh, hloaded, dirarray, harray, hinside, hcode⟩ := h
  rw [fdirlist, hrefresh]
  simp only [hloaded, if_true, harray]
  rw [if_neg (Nat.not_lt.mpr hinside)]
  simp only [hcode, hlive]
  cases hopen : openChild E v dir' fb <;> rfl

theorem fdirlist_removed (hlive : liveChild v.root c = none) :
    ∃ dir'', fdirlist E v dir index = .ok (dir'', index + 1, none) := by
  obtain ⟨hrefresh, hloaded, dirarray, harray, hinside, hcode⟩ := h
  rw [fdirlist, hrefresh]
  simp only [hloaded, if_true, harray]
  rw [if_neg (Nat.not_lt.mpr hinside)]
  simp only [hcode, hlive]
  exact ⟨_, rfl⟩

end Listed

theorem liveChild_eq_some_iff {fr : ConfFsroot} {c : Fcode} {fb : Nat} :
    liveChild fr c = some fb ↔ ffindh fr c = some fb ∧ c.low ≠ 0 ∧ c.high ≠ 0 := by
  unfold liveChild
  cases hfind : ffindh fr c with
  | none => simp
  | some s =>
      have hcode : (fr.block s).fcode = c := (ffindhi_some hfind).2.1
      simp only [hcode, Option.some.injEq]
      by_cases hhalves : c.low ≠ 0 ∧ c.high ≠ 0
      · rw [if_pos hhalves, Option.some.injEq]
        exact (and_iff_left hhalves).symm
      · rw [if_neg hhalves]
        simp only [hhalves, and_false, reduceCtorEq]

/-! ## The name of a created item -/

theorem fcreateFinish_finit {E : Host} {v v' : Volume} {fb : Nat} {path : Path}
    {dhandle : Option DirHandle} (h : fcreateFinish E v fb path dhandle = .ok v') :
    ∃ v₁, finit E v₁ fb (0x5C :: path.chars) = .ok v' := by
  unfold fcreateFinish at h
  split at h
  case h_1 => exact ⟨v, h⟩
  case h_2 dir =>
    simp only at h
    split at h
    case isFalse => exact ⟨v, h⟩
    case isTrue =>
      split at h
      case h_1 => cases h
      case h_2 v₁ dir₁ hadd =>
        split at h
        case h_1 => cases h
        case h_2 v₂ hflush => exact ⟨v₂, h⟩

theorem fcreate_finit {E : Host} {v v' : Volume} {path : Path} {flags : List Char}
    {fr fr₁ : ConfFsroot} {fb : Nat} (hclear : fcreateClear E v.root path flags = some fr)
    (halloc : allocatecluster fr = (fr₁, some fb)) (h : fcreate E v path flags = .ok v') :
    ∃ v₁, finit E v₁ fb (0x5C :: path.chars) = .ok v' := by
  rw [fcreate, createFuel, fcreateFuel, hclear] at h
  simp only [halloc] at h
  split at h
  case h_1 => exact fcreateFinish_finit h
  case h_2 parent hparent =>
    split at h
    case h_1 => cases h
    case h_2 v₁ dhandle hload => exact fcreateFinish_finit h

theorem length_metaBlock (fb : FsBlock) (t : Tm) (name : Bytes) :
    (metaBlock fb t name).length = sizeofMetaFsBlock := by
  simp [metaBlock, sizeofMetaFsBlock, fratBlockSig]

theorem drop_metaBlock (fb : FsBlock) (t : Tm) (name : Bytes) :
    (metaBlock fb t name).drop metaName = padTo 440 name := by
  have hsplit : metaBlock fb t name = (fratBlockSig ++ (zeros 8 ++ ((metaEntry fb).encode ++
      (zeros 4 ++ (leBytes 8 t.seconds ++ (zeros 8 ++ (leBytes 8 t.yday ++ zeros 8))))))) ++
        padTo 440 name := by
    simp [metaBlock]
  have hlen : (fratBlockSig ++ (zeros 8 ++ ((metaEntry fb).encode ++ (zeros 4 ++
      (leBytes 8 t.seconds ++ (zeros 8 ++ (leBytes 8 t.yday ++ zeros 8))))))).length =
        metaName := by
    simp [fratBlockSig, metaName]
  rw [hsplit, ← hlen, List.drop_left]

theorem finit_name {E : Host} {v v' : Volume} {fb : Nat} {path : Bytes}
    (h : finit E v fb path = .ok v') (haddr : v.root.Addressable fb) :
    v'.root = v.root ∧ sizeofMetaFsBlock ≤ v.root.blkSize ∧ 0 ∈ nameSpan path ∧
      ∃ k, (v'.window fb).drop metaName = padTo 440 (storedName path) ++ zeros k := by
  unfold finit at h
  split at h
  case isTrue => cases h
  case isFalse hblk =>
    split at h
    case isTrue => cases h
    case isFalse hdone =>
      cases h
      refine ⟨rfl, Nat.le_of_not_lt hblk, not_not.mp hdone, ?_⟩
      have hspan := v.root.sizeofMetaFsBlock_le_span
      have hmeta := length_metaBlock (v.root.block fb) (E.localtime v.ticks) (storedName path)
      have hwindow := @Volume.window_writeAt_same v fb sizeofMetaFsBlock
        (metaBlock (v.root.block fb) (E.localtime v.ticks) (storedName path))
        (by decide) hspan haddr
      refine ⟨v.root.span - sizeofMetaFsBlock, ?_⟩
      change ((v.writeAt fb _ sizeofMetaFsBlock).window fb).drop metaName = _
      rw [hwindow, List.take_of_length_le (Nat.le_of_eq hmeta),
        padTo_of_le (by rw [hmeta]; exact hspan), hmeta,
        List.drop_append_of_le_length (by rw [hmeta]; decide), drop_metaBlock]

theorem infoName_of_drop {block name : Bytes} {k : Nat}
    (h : block.drop metaName = padTo 440 name ++ zeros k) (hlen : name.length < 440)
    (hzero : 0 ∉ name) : infoName block = .ok name := by
  obtain ⟨m, hm⟩ : ∃ m, 440 - name.length = m + 1 :=
    Nat.exists_eq_succ_of_ne_zero (by omega)
  have hdrop : block.drop metaName = name ++ (0 :: (zeros m ++ zeros k)) := by
    rw [h, padTo_of_le (Nat.le_of_lt hlen), hm, List.append_assoc]
    rfl
  have hcstr : cstr (name ++ (0 :: (zeros m ++ zeros k))) = name := by
    rw [cstr, List.takeWhile_append_of_pos fun c hc => ?_, List.takeWhile_cons_of_neg (by simp),
      List.append_nil]
    have hne : c ≠ 0 := fun heq => hzero (heq ▸ hc)
    simpa using hne
  rw [infoName, hdrop, hcstr, if_pos (by simp)]

/-! ## Re-opening a created item -/

/-- `w` comes after `v`, and the block of slot `fb` still holds the name it had in `v`. -/
structure StillNamed (v w : Volume) (fb : Nat) : Prop where
  geometry : ConfFsroot.SameGeometry v.root w.root
  name : (w.window fb).drop metaName = (v.window fb).drop metaName

theorem StillNamed.refl (v : Volume) (fb : Nat) : StillNamed v v fb :=
  ⟨.refl v.root, rfl⟩

theorem infoName_created {E : Host} {v v' w : Volume} {path : Path}
    {flags : List Char} {fr fr₁ : ConfFsroot} {fb : Nat}
    (hclear : fcreateClear E v.root path flags = some fr)
    (halloc : allocatecluster fr = (fr₁, some fb)) (hcreate : fcreate E v path flags = .ok v')
    (hnamed : StillNamed v' w fb) (haddr : w.root.Addressable fb) :
    sizeofMetaFsBlock ≤ w.root.blkSize ∧ 0 ∈ nameSpan (0x5C :: path.chars) ∧
      infoName (w.window fb) = .ok (storedName (0x5C :: path.chars)) := by
  obtain ⟨v₁, hfinit⟩ := fcreate_finit hclear halloc hcreate
  have hroot := finit_root hfinit
  have haddr₁ : v₁.root.Addressable fb := by
    rw [← hroot]
    exact (hnamed.geometry.addressable fb).mp haddr
  obtain ⟨-, hblk, hdone, k, hname⟩ := finit_name hfinit haddr₁
  refine ⟨by rw [hnamed.geometry.blkSize, hroot]; exact hblk, hdone,
    infoName_of_drop (hnamed.name.trans hname) ?_ (zero_notMem_cstr _)⟩
  exact Nat.lt_of_le_of_lt (length_storedName_le hdone) (by decide)

/--
As long as the item created on `path` is there with its name, listing its
directory opens it again, on the rebuilt path and under the same code, if and
only if the name that was kept of `path` is its last component behind a `/`, and
neither half of the code is zero.
-/
theorem fdirlist_created_iff {E : Host} {v v' w : Volume} {path parent : Path}
    {flags : List Char} {fr fr₁ : ConfFsroot} {fb index : Nat} {dir dir' : DirHandle}
    (hclear : fcreateClear E v.root path flags = some fr)
    (halloc : allocatecluster fr = (fr₁, some fb)) (hcreate : fcreate E v path flags = .ok v')
    (hparent : parentPath path = some parent) (hnamed : StillNamed v' w fb)
    (hheld : w.AllHeld) (hlive : ffind E w.root path = some fb)
    (hdir : canonical dir.path = canonical parent)
    (hlisted : Listed E w dir dir' index (getfcode E path))
    (hcollision : getfcode E (rebuiltPath dir.path path) = getfcode E path →
      canonical (rebuiltPath dir.path path) = canonical path) :
    (∃ child, fdirlist E w dir index = .ok (dir', index + 1, some child) ∧
        OpenedOn w fb (rebuiltPath dir.path path) child ∧
        getfcode E (rebuiltPath dir.path path) = getfcode E path) ↔
      NameSurvives path ∧ (getfcode E path).low ≠ 0 ∧ (getfcode E path).high ≠ 0 := by
  have hfb := (ffind_some hlive).1
  obtain ⟨hblk, hdone, hname⟩ := infoName_created hclear halloc hcreate hnamed (hheld fb hfb).1
  have hpath := (fdirrefresh_file hlisted.1).2
  constructor
  · rintro ⟨child, hlist, -, hcode⟩
    refine ⟨(canonical_rebuiltPath_iff hparent hdone hdir).mp (hcollision hcode), ?_⟩
    cases hchild : liveChild w.root (getfcode E path) with
    | none =>
        obtain ⟨dir'', hnull⟩ := fdirlist_removed hlisted hchild
        rw [hnull] at hlist
        cases hlist
    | some slot => exact (liveChild_eq_some_iff.mp hchild).2
  · rintro ⟨hsurvives, hhalves⟩
    have hcode : getfcode E (rebuiltPath dir.path path) = getfcode E path := by
      rw [getfcode, getfcode, (canonical_rebuiltPath_iff hparent hdone hdir).mpr hsurvives]
    have hfind : ffind E w.root (childPath dir'.path (storedName (0x5C :: path.chars))) =
        some fb := by
      rw [hpath, ← hlive, ffind, ffindi, ← rebuiltPath, hcode]
      rfl
    obtain ⟨child, hopen, hopened⟩ :=
      openChild_of_found hheld (Nat.lt_of_lt_of_le (by decide) hblk) hfb hname hfind
    refine ⟨child, ?_, by rw [hpath] at hopened; exact hopened, hcode⟩
    rw [fdirlist_live hlisted (liveChild_eq_some_iff.mpr ⟨hlive, hhalves⟩), hopen]
    rfl

/-! ## A small directory -/

/-- The digests of the paths that are rebuilt here. -/
def listHost : Host where
  blake2b s :=
    if s = [0x61, 0x2F, 0x2F, 0x62] then (0x6cd7c6546c46142a, 0x8f336a5134451cb1)
    else if s = [0x61, 0x2F, 0x63] then (0xbe5c6e0bf79aeea6, 0xa6efffebfafb1454)
    else sampleHost.blake2b s
  localtime := sampleHost.localtime

/-- The path `a/b`. -/
def slashPath : Path := ⟨[0x61, 0x2F, 0x62], by decide⟩

/-- The path `a\b`. -/
def backslashPath : Path := ⟨[0x61, 0x5C, 0x62], by decide⟩

/-- The directory `a`, and nothing in it. -/
def listDirectory : Volume :=
  (fcreate listHost (sampleVolume 6 (by decide)) samplePath ['d']).toOption.getD
    (sampleVolume 6 (by decide))

/-- The same with one file. -/
def listCreated (path : Path) : Volume :=
  (fcreate listHost listDirectory path ['f']).toOption.getD listDirectory

def listHandle : DirHandle := ⟨0, samplePath, 0, none⟩

def listRefreshed (path : Path) : DirHandle :=
  (fdirrefresh listHost (listCreated path) listHandle).toOption.getD listHandle

theorem listed_listCreated {path : Path}
    (hrefresh : (fdirrefresh listHost (listCreated path) listHandle).toOption.isSome)
    (hblk : (listCreated path).root.blkSize ≠ 0)
    (hloaded : (listRefreshed path).loadedblocks = 1)
    (hrecord : ((listRefreshed path).dirarray.map fun dirarray =>
      (decide (16 ≤ dirarray.length), (dirItemCodec.get dirarray 0).f.fcode)) =
        some (true, getfcode listHost path)) :
    Listed listHost (listCreated path) listHandle (listRefreshed path) 0
      (getfcode listHost path) := by
  obtain ⟨dirarray, harray, hpair⟩ := Option.map_eq_some_iff.mp hrecord
  obtain ⟨hlen, hcode⟩ := Prod.mk.inj hpair
  refine ⟨ok_getD listHandle hrefresh, ?_, dirarray, harray, ?_, hcode⟩
  · rw [hloaded, Nat.zero_mul, safediv_of_ne_zero hblk]
    exact Nat.lt_of_le_of_lt (Nat.div_le_self _ _) (by decide)
  · simpa using hlen

theorem listed_slashPath : Listed listHost (listCreated slashPath) listHandle
    (listRefreshed slashPath) 0 (getfcode listHost slashPath) :=
  listed_listCreated (by decide +kernel) (by decide +kernel) (by decide +kernel)
    (by decide +kernel)

theorem fdirlist_created_iff_sample :
    (∃ child, fdirlist listHost (listCreated slashPath) listHandle 0 =
          .ok (listRefreshed slashPath, 1, some child) ∧
        OpenedOn (listCreated slashPath) 1 (rebuiltPath samplePath slashPath) child ∧
        getfcode listHost (rebuiltPath samplePath slashPath) =
          getfcode listHost slashPath) ↔
      NameSurvives slashPath ∧ (getfcode listHost slashPath).low ≠ 0 ∧
        (getfcode listHost slashPath).high ≠ 0 := by
  have hclear : fcreateClear listHost listDirectory.root slashPath ['f'] =
      some listDirectory.root := by
    have hnone : ffind listHost listDirectory.root slashPath = none := by decide +kernel
    rw [fcreateClear, hnone]
  have halloc : allocatecluster listDirectory.root =
      ((allocatecluster listDirectory.root).1, some 1) :=
    Prod.ext rfl (by decide +kernel)
  have hcreate : fcreate listHost listDirectory slashPath ['f'] =
      .ok (listCreated slashPath) :=
    ok_getD _ (by decide +kernel)
  have hheld : ∀ s, s < (listCreated slashPath).root.clusterMap.length →
      (listCreated slashPath).root.Addressable s ∧ (listCreated slashPath).Holds s := by
    decide +kernel
  have hparent : parentPath slashPath = some samplePath := by decide
  exact fdirlist_created_iff hclear halloc hcreate hparent (.refl _ _) hheld
    (by decide +kernel) rfl listed_slashPath fun _ => by decide

theorem listed_backslashPath : Listed listHost (listCreated backslashPath) listHandle
    (listRefreshed backslashPath) 0 (getfcode listHost backslashPath) :=
  listed_listCreated (by decide +kernel) (by decide +kernel) (by decide +kernel)
    (by decide +kernel)

/-- A child listed as a file whose handle is NULL. -/
def unopenedFile : Option UnHandle → Bool
  | some (.file none) => true
  | _ => false

theorem unopenedFile_iff {child : Option UnHandle} :
    unopenedFile child = true ↔ child = some (.file none) := by
  constructor
  · intro h
    rcases child with _ | _ | _ | _ <;> first | rfl | cases h
  · rintro rfl
    rfl

/-- `a\b` is rebuilt as `a/\b`, which names nothing: the handle is NULL. -/
theorem fdirlist_backslash :
    fcreateClear listHost listDirectory.root backslashPath ['f'] =
        some listDirectory.root ∧
      (∃ fr, allocatecluster listDirectory.root = (fr, some 1)) ∧
      fcreate listHost listDirectory backslashPath ['f'] = .ok (listCreated backslashPath) ∧
      parentPath backslashPath = some samplePath ∧
      ffind listHost (listCreated backslashPath).root backslashPath = some 1 ∧
      Listed listHost (listCreated backslashPath) listHandle (listRefreshed backslashPath) 0
        (getfcode listHost backslashPath) ∧
      (∃ dir', fdirlist listHost (listCreated backslashPath) listHandle 0 =
        .ok (dir', 1, some (.file none))) ∧
      ¬ ∃ child, fdirlist listHost (listCreated backslashPath) listHandle 0 =
          .ok (listRefreshed backslashPath, 1, some child) ∧
        OpenedOn (listCreated backslashPath) 1 (rebuiltPath samplePath backslashPath) child ∧
        getfcode listHost (rebuiltPath samplePath backslashPath) =
          getfcode listHost backslashPath := by
  have hnone : ffind listHost listDirectory.root backslashPath = none := by decide +kernel
  have heval : ((fdirlist listHost (listCreated backslashPath) listHandle 0).map fun r =>
      (r.2.1, unopenedFile r.2.2)).toOption = some (1, true) := by
    decide +kernel
  obtain ⟨⟨dir', index', child⟩, hlist, hresult⟩ := ok_of_eval heval
  obtain ⟨rfl, hchild⟩ := Prod.mk.inj hresult
  refine ⟨by rw [fcreateClear, hnone], ⟨_, Prod.ext rfl (by decide +kernel)⟩,
    ok_getD _ (by decide +kernel), by decide, by decide +kernel, listed_backslashPath,
    ⟨dir', ?_⟩, fun ⟨_, _, _, hcode⟩ => absurd hcode (by decide)⟩
  have hnull : child = some (.file none) := unopenedFile_iff.mp hchild
  rw [hlist, hnull]

end BlockyOS.HostTool
