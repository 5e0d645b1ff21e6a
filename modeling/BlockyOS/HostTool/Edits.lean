import Mathlib.Data.Set.Insert
import Mathlib.Logic.Relation
import BlockyOS.HostTool.Session

/-!
# What a call can do to the map

Apart from removal, every call changes the mounted root through three edits
only: it moves the cursor, gives a file its next cluster, or enters a new item
into a free slot.
-/

namespace BlockyOS.HostTool

open BlockyOS.Foundation

/-- One edit whose new entry, if it makes one, has a code in `codes`. -/
inductive Edit (codes : Set Fcode) (fr : ConfFsroot) : ConfFsroot → Prop
  | cursor (slot : Nat) : Edit codes fr (fr.setCursor slot)
  | extend (family fb : Nat) (hlt : fb < fr.clusterMap.length)
      (hfree : (fr.block fb).fcode = Fcode.zero)
      (hcode : (fr.block family).fcode ∈ codes) :
      Edit codes fr (fr.setBlock fb (extensionEntry fr family))
  | create (c : Fcode) (attributes : BitVec 16) (fb : Nat)
      (hlt : fb < fr.clusterMap.length) (hfree : (fr.block fb).fcode = Fcode.zero)
      (hmeta : flagcheck attributes fsMetadataCluster)
      (hplain : flagcheck attributes fsExtensionAllocatedCluster =
        flagcheck (fr.block fb).attributes fsExtensionAllocatedCluster)
      (hnew : ∀ slot, ¬ HasEntry fr slot c 0) (hcode : c ∈ codes) :
      Edit codes fr (fr.setBlock fb ⟨c, attributes, 0⟩)

abbrev Edits (codes : Set Fcode) := Relation.ReflTransGen (Edit codes)

section Edits

variable {codes codes' : Set Fcode} {fr fr' : ConfFsroot}

theorem Edit.mono (hsub : codes ⊆ codes') (h : Edit codes fr fr') : Edit codes' fr fr' := by
  cases h with
  | cursor slot => exact .cursor slot
  | extend family fb hlt hfree hcode => exact .extend family fb hlt hfree (hsub hcode)
  | create c attributes fb hlt hfree hmeta hplain hnew hcode =>
      exact .create c attributes fb hlt hfree hmeta hplain hnew (hsub hcode)

theorem Edits.mono (hsub : codes ⊆ codes') (h : Edits codes fr fr') : Edits codes' fr fr' :=
  Relation.ReflTransGen.mono (fun _ _ => Edit.mono hsub) _ _ h

theorem Edit.sameGeometry (h : Edit codes fr fr') : ConfFsroot.SameGeometry fr fr' := by
  cases h with
  | cursor slot => exact .setCursor fr slot
  | extend family fb => exact .setBlock fr fb _
  | create c attributes fb => exact .setBlock fr fb _

theorem Edits.sameGeometry (h : Edits codes fr fr') : ConfFsroot.SameGeometry fr fr' := by
  induction h with
  | refl => exact .refl fr
  | tail _ hedit ih => exact ih.trans hedit.sameGeometry

theorem Edit.block (h : Edit codes fr fr') (slot : Nat) :
    fr'.block slot = fr.block slot ∨
      (fr.block slot).fcode = Fcode.zero ∧ (fr'.block slot).fcode ∈ codes := by
  have hset : ∀ {fb : Nat} {entry : FsBlock}, fb < fr.clusterMap.length →
      (fr.block fb).fcode = Fcode.zero → entry.fcode ∈ codes →
      (fr.setBlock fb entry).block slot = fr.block slot ∨
        (fr.block slot).fcode = Fcode.zero ∧
          ((fr.setBlock fb entry).block slot).fcode ∈ codes := by
    intro fb entry hlt hfree hcode
    by_cases hslot : slot = fb
    · subst hslot
      rw [ConfFsroot.block_setBlock_same hlt]
      exact .inr ⟨hfree, hcode⟩
    · exact .inl (ConfFsroot.block_setBlock_other hslot)
  cases h with
  | cursor => exact .inl rfl
  | extend family fb hlt hfree hcode => exact hset hlt hfree hcode
  | create c attributes fb hlt hfree hmeta hplain hnew hcode => exact hset hlt hfree hcode

theorem Edits.block (h : Edits codes fr fr') (slot : Nat) :
    fr'.block slot = fr.block slot ∨
      (fr.block slot).fcode = Fcode.zero ∧ (fr'.block slot).fcode ∈ codes := by
  induction h with
  | refl => exact .inl rfl
  | tail _ hedit ih =>
      rcases ih with hsame | ⟨hfree, hcode⟩
      · rcases hedit.block slot with hsame' | ⟨hfree', hcode'⟩
        · exact .inl (hsame'.trans hsame)
        · exact .inr ⟨by rw [← hsame]; exact hfree', hcode'⟩
      · rcases hedit.block slot with hsame' | ⟨-, hcode'⟩
        · exact .inr ⟨hfree, by rw [hsame']; exact hcode⟩
        · exact .inr ⟨hfree, hcode'⟩

theorem Edits.block_of_live (h : Edits codes fr fr') {slot : Nat}
    (hlive : (fr.block slot).fcode ≠ Fcode.zero) : fr'.block slot = fr.block slot :=
  (h.block slot).resolve_right fun hfree => hlive hfree.1

theorem Edits.fcode_of_mem {c : Fcode} (h : Edits {c} fr fr') {slot : Nat}
    (hslot : (fr.block slot).fcode = c) : (fr'.block slot).fcode = c := by
  rcases h.block slot with hsame | ⟨-, hcode⟩
  · rw [hsame, hslot]
  · exact hcode

theorem Edits.hasEntry_mono (h : Edits codes fr fr') {slot i : Nat} {c : Fcode}
    (hc : c ≠ Fcode.zero) (hentry : HasEntry fr slot c i) : HasEntry fr' slot c i := by
  obtain ⟨hlt, hcode, hindex⟩ := hentry
  have hsame := @Edits.block_of_live _ _ _ h slot (by rw [hcode]; exact hc)
  exact ⟨by rw [h.sameGeometry.length]; exact hlt, by rw [hsame]; exact hcode,
    by rw [hsame]; exact hindex⟩

theorem Edits.hasEntry_iff (h : Edits codes fr fr') {slot i : Nat} {c : Fcode}
    (hc : c ≠ Fcode.zero) (hother : c ∉ codes) :
    HasEntry fr' slot c i ↔ HasEntry fr slot c i := by
  refine ⟨fun hentry => ?_, h.hasEntry_mono hc⟩
  obtain ⟨hlt, hcode, hindex⟩ := hentry
  rcases h.block slot with hsame | ⟨-, hnew⟩
  · rw [hsame] at hcode hindex
    exact ⟨by rw [← h.sameGeometry.length]; exact hlt, hcode, hindex⟩
  · rw [hcode] at hnew
    exact absurd hnew hother

end Edits

/-! ## File input and output -/

theorem faddr_edits (v : Volume) (family : Nat) :
    Edits {(v.root.block family).fcode} v.root (faddr v family).1.root := by
  unfold faddr
  split
  case h_1 fr halloc =>
    obtain ⟨rfl, -⟩ := allocatecluster_none halloc
    exact .single (.cursor 0)
  case h_2 fr fb halloc =>
    obtain ⟨rfl, hlt, -, hfree, -⟩ := allocatecluster_some halloc
    exact .tail (.single (.cursor fb)) (.extend family fb hlt hfree rfl)

theorem fpush1_edits (v : Volume) (fb i : Nat) (buffer : Bytes) :
    Edits {(v.root.block fb).fcode} v.root (fpush1 v fb i buffer).1.root := by
  unfold fpush1
  split
  case isTrue =>
    split
    case h_1 => exact .refl
    case h_2 =>
      have hadd := faddr_edits v fb
      split
      case h_1 v' fb' heq => simpa [heq] using hadd
      case h_2 v' heq => simpa [heq] using hadd
  case isFalse => split <;> exact .refl

theorem fwriteBlock_edits (v : Volume) (file blkIndex blkOffset : Nat) (src : Bytes) :
    Edits {(v.root.block file).fcode} v.root
      (fwriteBlock v file blkIndex blkOffset src).root := by
  unfold fwriteBlock
  split <;> exact fpush1_edits _ _ _ _

theorem fwriteLoop_edits (file : Nat) (data : Bytes) (fuel : Nat) (v : Volume)
    (pos left written : Nat) :
    Edits {(v.root.block file).fcode} v.root
      (fwriteLoop file data fuel v pos left written).1.root := by
  induction fuel generalizing v pos left written with
  | zero => exact .refl
  | succ fuel ih =>
      rw [fwriteLoop]
      split
      case isTrue => exact .refl
      case isFalse =>
        have hblock := fwriteBlock_edits v file (pos / v.root.blkSize)
          (pos % v.root.blkSize)
          (slice data written (min (v.root.blkSize - pos % v.root.blkSize) left))
        have hrest := ih (fwriteBlock v file (pos / v.root.blkSize) (pos % v.root.blkSize)
          (slice data written (min (v.root.blkSize - pos % v.root.blkSize) left)))
          (u64 (pos + min (v.root.blkSize - pos % v.root.blkSize) left))
          (left - min (v.root.blkSize - pos % v.root.blkSize) left)
          (written + min (v.root.blkSize - pos % v.root.blkSize) left)
        rw [hblock.fcode_of_mem rfl] at hrest
        exact hblock.trans hrest

theorem fupdatetstamp_root {E : Host} {v v' : Volume} {file : Nat} {wt : Bool}
    (h : fupdatetstamp E v file wt = .ok v') : v'.root = v.root := by
  unfold fupdatetstamp at h
  split at h
  case h_1 => cases h
  case h_2 =>
    cases h
    rfl

theorem fwrite_edits {E : Host} {v v' : Volume} {handle handle' : FHandle}
    {nbytes n : Nat} {data : Option Bytes}
    (h : fwrite E v handle nbytes data = .ok (n, handle', v')) :
    Edits {(v.root.block handle.file).fcode} v.root v'.root := by
  unfold fwrite at h
  split at h
  case h_1 =>
    cases h
    exact .refl
  case h_2 data =>
    split at h
    case isTrue =>
      cases h
      exact .refl
    case isFalse =>
      split at h
      case h_1 => cases h
      case h_2 v₁ hstamp =>
        have hroot := fupdatetstamp_root hstamp
        split at h
        case h_1 => cases h
        case h_2 fb hfind =>
          split at h
          case isTrue =>
            cases h
            rw [hroot]
          case isFalse =>
            split at h
            case isTrue => cases h
            case isFalse =>
              split at h
              case isTrue => cases h
              case isFalse =>
                cases h
                rw [← hroot]
                exact fwriteLoop_edits _ _ _ _ _ _ _

theorem fread_root {E : Host} {v v' : Volume} {handle handle' : FHandle}
    {nbytes n : Nat} {out : Option Bytes}
    (h : fread E v handle nbytes = .ok (n, out, handle', v')) : v'.root = v.root := by
  unfold fread at h
  split at h
  case isTrue =>
    cases h
    rfl
  case isFalse =>
    split at h
    case h_1 => cases h
    case h_2 v₁ hstamp =>
      have hroot := fupdatetstamp_root hstamp
      split at h
      case isTrue => cases h
      case isFalse =>
        cases h
        exact hroot

/-! ## Directories -/

theorem flushEntries_root {file : Nat} {dirarray : Option Bytes} {fuel entry : Nat}
    {v v' : Volume} (h : flushEntries file dirarray fuel entry v = .ok v') :
    v'.root = v.root := by
  induction fuel generalizing entry v with
  | zero => cases h
  | succ fuel ih =>
      rw [flushEntries] at h
      split at h
      case h_1 =>
        cases h
        rfl
      case h_2 f hfind =>
        split at h
        case h_1 =>
          split at h
          case isTrue => exact ih h
          case isFalse => cases h
        case h_2 buffer =>
          split at h
          case isTrue => cases h
          case isFalse => simpa using ih h

theorem fuloaddir_root {v v' : Volume} {handle : DirHandle}
    (h : fuloaddir v handle = .ok v') : v'.root = v.root := by
  simpa using flushEntries_root h

theorem fdirrefresh_file {E : Host} {v : Volume} {dir dir' : DirHandle}
    (h : fdirrefresh E v dir = .ok dir') : dir'.file = dir.file ∧ dir'.path = dir.path := by
  unfold fdirrefresh at h
  split at h
  case h_1 => cases h
  case h_2 =>
    cases h
    exact ⟨rfl, rfl⟩

theorem fdiraddLoop_edits {E : Host} {fb fuel : Nat} {v v' : Volume} {dir dir' : DirHandle}
    (h : fdiraddLoop E fb fuel v dir = .ok (v', dir')) :
    Edits {(v.root.block dir.file).fcode} v.root v'.root := by
  induction fuel generalizing v dir with
  | zero => cases h
  | succ fuel ih =>
      rw [fdiraddLoop] at h
      split at h
      case h_1 => cases h
      case h_2 dir₁ hrefresh =>
        have hfile := (fdirrefresh_file hrefresh).1
        have hadd := faddr_edits v dir₁.file
        have hcode := hadd.fcode_of_mem rfl
        split at h
        case h_1 =>
          have hrest := ih h
          rw [hcode] at hrest
          rw [← hfile]
          exact hadd.trans hrest
        case h_2 dirarray hdirarray =>
          split at h
          case h_1 => cases h
          case h_2 =>
            cases h
            exact .refl
          case h_3 =>
            have hrest := ih h
            simp only at hrest
            rw [hcode] at hrest
            rw [← hfile]
            exact hadd.trans hrest

theorem finit_root {E : Host} {v v' : Volume} {fb : Nat} {path : Bytes}
    (h : finit E v fb path = .ok v') : v'.root = v.root := by
  unfold finit at h
  split at h
  case isTrue => cases h
  case isFalse =>
    split at h
    case isTrue => cases h
    case isFalse =>
      cases h
      rfl

/-- Recording the new item extends nothing but its parent directory. -/
theorem fcreateFinish_edits {E : Host} {v v' : Volume} {fb : Nat} {path : Path}
    {dhandle : Option DirHandle} {codes : Set Fcode}
    (hcodes : ∀ dir, dhandle = some dir → (v.root.block dir.file).fcode ∈ codes)
    (h : fcreateFinish E v fb path dhandle = .ok v') : Edits codes v.root v'.root := by
  unfold fcreateFinish at h
  split at h
  case h_1 => rw [finit_root h]
  case h_2 dir =>
    simp only at h
    split at h
    case isFalse => rw [finit_root h]
    case isTrue =>
      split at h
      case h_1 => cases h
      case h_2 v₁ dir₁ hadd =>
        split at h
        case h_1 => cases h
        case h_2 v₂ hflush =>
          rw [finit_root h, fuloaddir_root hflush]
          exact (fdiraddLoop_edits hadd).mono
            (Set.singleton_subset_iff.mpr (hcodes dir rfl))

theorem openDir_ok {E : Host} {v v' : Volume} {path : Path} {file : Nat}
    {dhandle : Option DirHandle} (h : openDir E v path file = .ok (v', dhandle)) :
    v' = v ∧ ∀ dir, dhandle = some dir → dir.file = file ∧ dir.path = path := by
  unfold openDir at h
  split at h
  case isFalse =>
    cases h
    exact ⟨rfl, fun _ hdir => by cases hdir⟩
  case isTrue =>
    split at h
    case h_1 => cases h
    case h_2 dir hrefresh =>
      cases h
      refine ⟨rfl, fun _ hdir => ?_⟩
      obtain rfl := Option.some.inj hdir
      exact fdirrefresh_file hrefresh

/-! ## Creation -/

theorem flagcheck_createAttributes (attributes : BitVec 16) (flags : List Char) :
    flagcheck (createAttributes attributes flags) fsMetadataCluster :=
  flagcheck_or_self _ _

theorem flagcheck_createAttributes_extension (attributes : BitVec 16) (flags : List Char) :
    flagcheck (createAttributes attributes flags) fsExtensionAllocatedCluster =
      flagcheck attributes fsExtensionAllocatedCluster := by
  have hif : ∀ (a g : BitVec 16) (b : Bool), g &&& fsExtensionAllocatedCluster = 0 →
      flagcheck (if b then a ||| g else a) fsExtensionAllocatedCluster =
        flagcheck a fsExtensionAllocatedCluster := by
    intro a g b hdisjoint
    cases b with
    | false => rfl
    | true => exact flagcheck_or_of_disjoint hdisjoint
  rw [createAttributes, flagcheck_or_of_disjoint (by decide)]
  split
  case isTrue => exact flagcheck_or_of_disjoint (by decide)
  case isFalse =>
    simp only
    rw [hif _ _ _ (by decide), hif _ _ _ (by decide), hif _ _ _ (by decide)]

theorem ffind_none {E : Host} {fr : ConfFsroot} {path : Path}
    (h : ffind E fr path = none) (slot : Nat) : ¬ HasEntry fr slot (getfcode E path) 0 :=
  ffindhi_none h slot

theorem ffind_some {E : Host} {fr : ConfFsroot} {path : Path} {fb : Nat}
    (h : ffind E fr path = some fb) : HasEntry fr fb (getfcode E path) 0 :=
  ffindhi_some h

/-- `Ancestor a path`: opening parents from `path` on comes to `a`. -/
def Ancestor : Path → Path → Prop :=
  Relation.TransGen fun parent path => parentPath path = some parent

/-- The codes of the directories above a path. -/
def ancestorCodes (E : Host) (path : Path) : Set Fcode :=
  {c | ∃ a, Ancestor a path ∧ getfcode E a = c}

theorem getfcode_parent_mem {E : Host} {path parent : Path}
    (h : parentPath path = some parent) : getfcode E parent ∈ ancestorCodes E path :=
  ⟨parent, .single h, rfl⟩

theorem ancestorCodes_parent {E : Host} {path parent : Path}
    (h : parentPath path = some parent) : ancestorCodes E parent ⊆ ancestorCodes E path := by
  rintro c ⟨a, hanc, rfl⟩
  exact ⟨a, hanc.tail h, rfl⟩

theorem createdEntry_edits {E : Host} {fr fr' : ConfFsroot} {fb : Nat} {path : Path}
    (flags : List Char) (halloc : allocatecluster fr = (fr', some fb))
    (hnew : ∀ slot, ¬ HasEntry fr slot (getfcode E path) 0) :
    Edits {getfcode E path} fr (fr'.setBlock fb (createdEntry E fr' fb path flags)) := by
  obtain ⟨rfl, hlt, -, hfree, -⟩ := allocatecluster_some halloc
  exact .tail (.single (.cursor fb)) (.create _ _ fb hlt hfree
    (flagcheck_createAttributes _ _) (flagcheck_createAttributes_extension _ _) hnew rfl)

/-- What `__fcreate` leaves behind, once it knows which map it starts from. -/
inductive Created (E : Host) (fr : ConfFsroot) (path : Path) (flags : List Char) :
    ConfFsroot → Prop
  | full (fr' : ConfFsroot) (halloc : allocatecluster fr = (fr', none)) :
      Created E fr path flags fr'
  | entered (fr₁ fr' : ConfFsroot) (fb : Nat)
      (halloc : allocatecluster fr = (fr₁, some fb))
      (hedits : Edits (ancestorCodes E path)
        (fr₁.setBlock fb (createdEntry E fr₁ fb path flags)) fr') :
      Created E fr path flags fr'

def createCodes (E : Host) (path : Path) : Set Fcode :=
  insert (getfcode E path) (ancestorCodes E path)

theorem createCodes_parent {E : Host} {path parent : Path}
    (h : parentPath path = some parent) : createCodes E parent ⊆ ancestorCodes E path :=
  Set.insert_subset (getfcode_parent_mem h) (ancestorCodes_parent h)

theorem Created.edits {E : Host} {fr fr' : ConfFsroot} {path : Path} {flags : List Char}
    (h : Created E fr path flags fr')
    (hnew : ∀ slot, ¬ HasEntry fr slot (getfcode E path) 0) :
    Edits (createCodes E path) fr fr' := by
  cases h with
  | full _ halloc =>
      obtain ⟨rfl, -⟩ := allocatecluster_none halloc
      exact .single (.cursor 0)
  | entered fr₁ _ fb halloc hedits =>
      exact ((createdEntry_edits flags halloc hnew).mono
        (Set.singleton_subset_iff.mpr (Set.mem_insert _ _))).trans
        (hedits.mono (Set.subset_insert _ _))

def Volume.enter (E : Host) (v : Volume) (fr : ConfFsroot) (fb : Nat) (path : Path)
    (flags : List Char) : Volume :=
  { v with root := fr.setBlock fb (createdEntry E fr fb path flags) }

/--
What has to be shown of every way through `__fcreate` and `__floadhdir`, which call
each other, for `P` to hold of every create and `Q` of every directory opened.
-/
structure CreateRule (E : Host) (P : Volume → Path → List Char → Volume → Prop)
    (Q : Volume → Path → List Char → Volume → Option DirHandle → Prop) : Prop where
  kept : ∀ {v path flags}, fcreateClear E v.root path flags = none → P v path flags v
  full : ∀ {v path flags fr fr'}, fcreateClear E v.root path flags = some fr →
    allocatecluster fr = (fr', none) → P v path flags { v with root := fr' }
  entered : ∀ {v v' path flags fr fr' fb}, fcreateClear E v.root path flags = some fr →
    allocatecluster fr = (fr', some fb) → parentPath path = none →
    fcreateFinish E (v.enter E fr' fb path flags) fb path none = .ok v' → P v path flags v'
  nested : ∀ {v v₁ v' path parent flags fr fr' fb dhandle},
    fcreateClear E v.root path flags = some fr → allocatecluster fr = (fr', some fb) →
    parentPath path = some parent →
    Q (v.enter E fr' fb path flags) parent ['d', 'c'] v₁ dhandle →
    fcreateFinish E v₁ fb path dhandle = .ok v' → P v path flags v'
  found : ∀ {v v' path args file dhandle}, ffind E v.root path = some file →
    openDir E v path file = .ok (v', dhandle) → Q v path args v' dhandle
  missing : ∀ {v v' path args}, ffind E v.root path = none → P v path args v' →
    Q v path args v' none
  made : ∀ {v v₁ v' path args file dhandle}, ffind E v.root path = none → P v path args v₁ →
    ffind E v₁.root path = some file → openDir E v₁ path file = .ok (v', dhandle) →
    Q v path args v' dhandle

theorem CreateRule.run {E : Host} {P : Volume → Path → List Char → Volume → Prop}
    {Q : Volume → Path → List Char → Volume → Option DirHandle → Prop} (R : CreateRule E P Q)
    (fuel : Nat) :
    (∀ {v v' path flags}, fcreateFuel E fuel v path flags = .ok v' → P v path flags v') ∧
      ∀ {v v' path args dhandle}, floadhdirFuel E fuel v path args = .ok (v', dhandle) →
        Q v path args v' dhandle := by
  induction fuel with
  | zero =>
      constructor
      · intro v v' path flags h
        rw [fcreateFuel] at h
        cases h
      · intro v v' path args dhandle h
        rw [floadhdirFuel] at h
        cases h
  | succ fuel ih =>
      constructor
      · intro v v' path flags h
        rw [fcreateFuel] at h
        split at h
        case h_1 hclear =>
          cases h
          exact R.kept hclear
        case h_2 fr hclear =>
          split at h
          case h_1 fr' halloc =>
            cases h
            exact R.full hclear halloc
          case h_2 fr' fb halloc =>
            simp only at h
            split at h
            case h_1 hparent => exact R.entered hclear halloc hparent h
            case h_2 parent hparent =>
              split at h
              case h_1 => cases h
              case h_2 v₁ dhandle hload =>
                exact R.nested hclear halloc hparent (ih.2 hload) h
      · intro v v' path args dhandle h
        rw [floadhdirFuel] at h
        split at h
        case h_1 file hfind => exact R.found hfind h
        case h_2 hfind =>
          split at h
          case isFalse => cases h
          case isTrue =>
            split at h
            case h_1 => cases h
            case h_2 v₁ hcreate =>
              split at h
              case h_1 =>
                cases h
                exact R.missing hfind (ih.1 hcreate)
              case h_2 file hfile => exact R.made hfind (ih.1 hcreate) hfile h

theorem openDir_found {E : Host} {v v' : Volume} {path : Path} {file : Nat}
    {dhandle : Option DirHandle} (hfind : ffind E v.root path = some file)
    (h : openDir E v path file = .ok (v', dhandle)) :
    v' = v ∧ ∀ dir, dhandle = some dir →
      HasEntry v'.root dir.file (getfcode E path) 0 ∧ dir.path = path := by
  obtain ⟨rfl, hdir⟩ := openDir_ok h
  refine ⟨rfl, fun dir hsome => ?_⟩
  obtain ⟨hfile, hpath⟩ := hdir dir hsome
  exact ⟨hfile ▸ ffind_some hfind, hpath⟩

theorem fcreateClear_of_missing {E : Host} {fr : ConfFsroot} {path : Path}
    (h : ffind E fr path = none) (flags : List Char) :
    fcreateClear E fr path flags = some fr := by
  rw [fcreateClear, h]

theorem fcreateClear_of_live {E : Host} {fr : ConfFsroot} {path : Path} {fb : Nat}
    (h : ffind E fr path = some fb) (flags : List Char) :
    fcreateClear E fr path flags =
      if strcheck flags 'F' then some (clearBlock fr fb) else none := by
  rw [fcreateClear, h]

/-- What a create does: nothing if the path is live and is not to be replaced. -/
inductive CreateSpec (E : Host) (v : Volume) (path : Path) (flags : List Char) :
    Volume → Prop
  | new (v' : Volume) (hfind : ffind E v.root path = none)
      (h : Created E v.root path flags v'.root) : CreateSpec E v path flags v'
  | replaced (v' : Volume) (fb : Nat) (hfind : ffind E v.root path = some fb)
      (hF : strcheck flags 'F' = true) (h : Created E (clearBlock v.root fb) path flags v'.root) :
      CreateSpec E v path flags v'
  | kept (fb : Nat) (hfind : ffind E v.root path = some fb) (hF : ¬ strcheck flags 'F' = true) :
      CreateSpec E v path flags v

namespace CreateSpec

variable {E : Host} {v v' : Volume} {path : Path} {flags : List Char}

theorem of_clear {fr : ConfFsroot} (hclear : fcreateClear E v.root path flags = some fr)
    (h : Created E fr path flags v'.root) : CreateSpec E v path flags v' := by
  cases hfind : ffind E v.root path with
  | none =>
      rw [fcreateClear_of_missing hfind] at hclear
      exact .new v' hfind (Option.some.inj hclear ▸ h)
  | some fb =>
      rw [fcreateClear_of_live hfind] at hclear
      split at hclear
      case isTrue hF => exact .replaced v' fb hfind hF (Option.some.inj hclear ▸ h)
      case isFalse => cases hclear

theorem of_kept (hclear : fcreateClear E v.root path flags = none) :
    CreateSpec E v path flags v := by
  cases hfind : ffind E v.root path with
  | none =>
      rw [fcreateClear_of_missing hfind] at hclear
      cases hclear
  | some fb =>
      rw [fcreateClear_of_live hfind] at hclear
      split at hclear
      case isTrue => cases hclear
      case isFalse hF => exact .kept fb hfind hF

theorem created (h : CreateSpec E v path flags v') (hfind : ffind E v.root path = none) :
    Created E v.root path flags v'.root := by
  cases h with
  | new _ _ h => exact h
  | replaced _ fb hlive => rw [hfind] at hlive; cases hlive
  | kept fb hlive => rw [hfind] at hlive; cases hlive

theorem recreated {fb : Nat} (h : CreateSpec E v path flags v')
    (hfind : ffind E v.root path = some fb) (hF : strcheck flags 'F' = true) :
    Created E (clearBlock v.root fb) path flags v'.root := by
  cases h with
  | new _ hnone => rw [hfind] at hnone; cases hnone
  | replaced _ fb' hlive _ h =>
      rw [hfind] at hlive
      exact Option.some.inj hlive ▸ h
  | kept _ _ hkeep => exact absurd hF hkeep

theorem edits (h : CreateSpec E v path flags v') (hfind : ffind E v.root path = none) :
    Edits (createCodes E path) v.root v'.root :=
  (h.created hfind).edits (ffind_none hfind)

end CreateSpec

def LoadSpec (E : Host) (v : Volume) (path : Path) (_args : List Char) (v' : Volume)
    (dhandle : Option DirHandle) : Prop :=
  Edits (createCodes E path) v.root v'.root ∧
    ∀ dir, dhandle = some dir →
      HasEntry v'.root dir.file (getfcode E path) 0 ∧ dir.path = path

theorem createRule_spec (E : Host) : CreateRule E (CreateSpec E) (LoadSpec E) where
  kept hclear := .of_kept hclear
  full hclear halloc := .of_clear hclear (.full _ halloc)
  entered hclear halloc _ h :=
    .of_clear hclear
      (.entered _ _ _ halloc (fcreateFinish_edits (fun _ hdir => by cases hdir) h))
  nested hclear halloc hparent hload h := by
    obtain ⟨hedits, hdir⟩ := hload
    refine .of_clear hclear (.entered _ _ _ halloc
      ((hedits.mono (createCodes_parent hparent)).trans
        (fcreateFinish_edits (fun dir hsome => ?_) h)))
    rw [(hdir dir hsome).1.2.1]
    exact getfcode_parent_mem hparent
  found hfind h := by
    obtain ⟨rfl, hdir⟩ := openDir_found hfind h
    exact ⟨.refl, hdir⟩
  missing hfind hcreate := ⟨hcreate.edits hfind, fun _ hdir => by cases hdir⟩
  made hfind hcreate hfile h := by
    obtain ⟨rfl, hdir⟩ := openDir_found hfile h
    exact ⟨hcreate.edits hfind, hdir⟩

theorem fcreate_spec {E : Host} {v v' : Volume} {path : Path} {flags : List Char}
    (h : fcreate E v path flags = .ok v') : CreateSpec E v path flags v' :=
  ((createRule_spec E).run _).1 h

theorem floadhdir_edits {E : Host} {v v' : Volume} {path : Path} {args : List Char}
    {dhandle : Option DirHandle} (h : floadhdir E v path args = .ok (v', dhandle)) :
    Edits (createCodes E path) v.root v'.root :=
  (((createRule_spec E).run _).2 h).1

/-! ## One call -/

def StepRoot (E : Host) (s : Session) (op : Op) (s' : Session) : Prop :=
  match op with
  | .remove path => ffremove E s.vol.root path = .ok s'.vol.root
  | .create path flags => fcreate E s.vol path flags = .ok s'.vol
  | .loadh path args =>
      if strcheck args 'c' then fcreate E s.vol path args = .ok s'.vol
      else s'.vol = s.vol
  | _ => Edits Set.univ s.vol.root s'.vol.root

theorem step_root {E : Host} {s s' : Session} {op : Op} (h : s.step E op = .ok s') :
    StepRoot E s op s' := by
  cases op with
  | create path flags =>
      obtain ⟨vol, hcreate, rfl⟩ := map_ok h
      exact hcreate
  | loadh path args =>
      obtain ⟨⟨vol, fh⟩, hload, rfl⟩ := map_ok h
      simp only [floadh] at hload
      rw [StepRoot]
      by_cases hc : strcheck args 'c'
      · rw [if_pos hc] at hload ⊢
        cases hcreate : fcreate E s.vol path args with
        | error e => simp [hcreate] at hload
        | ok vol' =>
            simp only [hcreate, Except.ok.injEq, Prod.mk.injEq] at hload
            rw [hload.1]
      · rw [if_neg hc] at hload ⊢
        simp only [Except.ok.injEq, Prod.mk.injEq] at hload
        exact hload.1.symm
  | loadhdir path args =>
      obtain ⟨⟨vol, dir⟩, hload, rfl⟩ := map_ok h
      exact (floadhdir_edits hload).mono (Set.subset_univ _)
  | write handle data =>
      obtain ⟨fh, fh', vol, -, hcall, rfl⟩ := Session.onFile_ok h
      obtain ⟨⟨n, fh₁, vol₁⟩, hwrite, heq⟩ := map_ok hcall
      obtain ⟨rfl, rfl⟩ := Prod.mk.inj heq
      exact (fwrite_edits hwrite).mono (Set.subset_univ _)
  | read handle nbytes =>
      obtain ⟨fh, fh', vol, -, hcall, rfl⟩ := Session.onFile_ok h
      obtain ⟨⟨n, out, fh₁, vol₁⟩, hread, heq⟩ := map_ok hcall
      obtain ⟨rfl, rfl⟩ := Prod.mk.inj heq
      change Edits Set.univ s.vol.root vol₁.root
      rw [fread_root hread]
  | seek handle progress =>
      rw [Session.step] at h
      obtain ⟨fh, fh', vol, -, hcall, rfl⟩ := Session.onFile_ok h
      obtain ⟨-, rfl⟩ := Prod.mk.inj (Except.ok.inj hcall)
      exact .refl
  | remove path =>
      obtain ⟨fr, hremove, rfl⟩ := map_ok h
      exact hremove
  | list handle index =>
      obtain ⟨dir, dir', -, hcall, -⟩ := Session.onDir_ok h
      obtain ⟨_, -, heq⟩ := map_ok hcall
      change Edits Set.univ s.vol.root s'.vol.root
      rw [← (Prod.mk.inj heq).2]
  | unloaddir handle =>
      obtain ⟨dir, dir', -, hcall, -⟩ := Session.onDir_ok h
      obtain ⟨vol, hflush, heq⟩ := map_ok hcall
      change Edits Set.univ s.vol.root s'.vol.root
      rw [← (Prod.mk.inj heq).2, fuloaddir_root hflush]
  | unloadh handle =>
      simp only [Session.step] at h
      split at h
      case h_1 => cases h
      case h_2 =>
        cases h
        exact .refl

end BlockyOS.HostTool
