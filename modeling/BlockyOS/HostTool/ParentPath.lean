import Mathlib.Data.List.DropRight
import BlockyOS.HostTool.DirInsert

/-!
# The parent of a path

`__fgetparent` cuts a path at its last separator and opens the directory in front
of it.  The parent a path names is what is left without its last component and
the separators around that.  The copy in the kernel scans in the same way, but
what it writes over the separator is no terminator.
-/

namespace BlockyOS.HostTool

open BlockyOS.Foundation

/-! ## The parent a path names -/

def withoutLast (chars : Bytes) : Bytes :=
  ((chars.rdropWhile isSep).rdropWhile (fun c => !isSep c)).rdropWhile isSep

theorem withoutLast_initial (chars : Bytes) : withoutLast chars <+: chars :=
  ((List.rdropWhile_prefix _ _).trans (List.rdropWhile_prefix _ _)).trans
    (List.rdropWhile_prefix _ _)

def namedParent (path : Path) : Option Path :=
  if withoutLast path.chars = [] then none
  else some ⟨withoutLast path.chars, fun h =>
    path.terminated ((withoutLast_initial path.chars).subset h)⟩

/-- Some byte of the path is no separator. -/
def HasComponent (chars : Bytes) : Prop := ∃ c ∈ chars, ¬ isSep c

/-- A separator stands between two components. -/
def TwoComponents (chars : Bytes) : Prop :=
  ∃ front sep back, chars = front ++ sep :: back ∧ isSep sep ∧
    HasComponent front ∧ HasComponent back

/-- What is opened of a parent, created as a directory if it is absent. -/
def openParent (E : Host) (v : Volume) (parent : Option Path) :
    Except Fault (Volume × Option DirHandle) :=
  match parent with
  | none => .ok (v, none)
  | some parent => floadhdir E v parent ['d', 'c']

/-! ## The copy in the kernel -/

/-- `'\0x00'` is four characters, of which a `char` keeps the last, the digit `0`. -/
def kernelCut : UInt8 := 0x30

def Path.overwrite (path : Path) (s : Nat) : Path :=
  ⟨path.chars.set s kernelCut, fun h => by
    rcases List.mem_or_eq_of_mem_set h with hmem | hcut
    · exact path.terminated hmem
    · exact absurd hcut (by decide)⟩

/-- The path the `__fgetparent` of the kernel opens. -/
def kernelParentPath (path : Path) : Option Path :=
  (lastSep path.chars path.chars.length).map path.overwrite

/-! ## Where the cut falls -/

/-- No separator stands behind the first byte. -/
def SepFree (path : Path) : Prop := ∀ c ∈ path.chars.tail, ¬ isSep c

instance (path : Path) : Decidable (SepFree path) :=
  inferInstanceAs (Decidable (∀ c ∈ path.chars.tail, ¬ isSep c))

/-- One separator stands between a component and the last component, which ends the path. -/
def CutsOnce (path : Path) : Prop :=
  ∃ front c sep comp, path.chars = front ++ c :: sep :: comp ∧ ¬ isSep c ∧ isSep sep ∧
    comp ≠ [] ∧ ∀ d ∈ comp, ¬ isSep d

theorem lastSep_eq_none_iff {chars : Bytes} {n : Nat} :
    lastSep chars n = none ↔ ∀ j c, 0 < j → j ≤ n → chars[j]? = some c → ¬ isSep c := by
  induction n with
  | zero =>
      refine ⟨fun _ j c hpos hle => by omega, fun _ => rfl⟩
  | succ n ih =>
      rw [lastSep]
      constructor
      · intro h j c hpos hle hj hsep
        rcases Nat.lt_or_ge n j with hlast | hless
        · obtain rfl : j = n + 1 := by omega
          rw [hj] at h
          simp [hsep] at h
        · refine ih.mp ?_ j c hpos hless hj hsep
          split at h
          · split at h
            · cases h
            · exact h
          · exact h
      · intro h
        have hbelow := ih.mpr fun j c hpos hle => h j c hpos (by omega)
        split
        · next c hc => rw [if_neg (h _ c (Nat.succ_pos n) (Nat.le_refl _) hc), hbelow]
        · exact hbelow

theorem parentPath_eq_none_iff {path : Path} : parentPath path = none ↔ SepFree path := by
  rw [parentPath, Option.map_eq_none_iff, lastSep_eq_none_iff]
  constructor
  · intro h c hc
    obtain ⟨k, hk, rfl⟩ := List.mem_iff_getElem.mp hc
    rw [List.length_tail] at hk
    refine h (k + 1) _ (Nat.succ_pos k) (by omega) ?_
    rw [List.getElem_tail, List.getElem?_eq_getElem]
  · intro h j c hpos hle hj
    obtain ⟨k, rfl⟩ := Nat.exists_eq_succ_of_ne_zero (Nat.ne_of_gt hpos)
    refine h c (List.mem_of_getElem? (i := k) ?_)
    rw [List.getElem?_tail]
    exact hj

theorem kernelParentPath_eq_iff {path : Path} :
    kernelParentPath path = parentPath path ↔ SepFree path := by
  rw [← parentPath_eq_none_iff]
  constructor
  · intro h
    cases hlast : lastSep path.chars path.chars.length with
    | none => rw [parentPath, hlast, Option.map_none]
    | some s =>
        obtain ⟨-, ⟨c, hat, -⟩, -⟩ := lastSep_some hlast
        have hlt := (List.getElem?_eq_some_iff.mp hat).1
        rw [kernelParentPath, parentPath, hlast, Option.map_some, Option.map_some] at h
        have hlen := congrArg (fun p : Path => p.chars.length) (Option.some.inj h)
        simp only [Path.overwrite, Path.take, List.length_set, List.length_take] at hlen
        omega
  · intro h
    rw [h]
    rw [parentPath, Option.map_eq_none_iff] at h
    rw [kernelParentPath, h, Option.map_none]

/-! ## What is left of a path -/

theorem rdropWhile_append_of_pos {p : UInt8 → Bool} {xs ys : Bytes} (h : ∀ c ∈ ys, p c) :
    (xs ++ ys).rdropWhile p = xs.rdropWhile p := by
  rw [List.rdropWhile, List.rdropWhile, List.reverse_append,
    List.dropWhile_append_of_pos fun c hc => h c (List.mem_reverse.mp hc)]

theorem prefix_rdropWhile {p : UInt8 → Bool} {y : UInt8} (xs ys : Bytes) (h : ¬ p y) :
    xs ++ [y] <+: (xs ++ y :: ys).rdropWhile p := by
  induction ys using List.reverseRecOn with
  | nil =>
      rw [List.rdropWhile_concat_neg _ _ _ h]
  | append_singleton ys z ih =>
      rw [← List.cons_append, ← List.append_assoc, List.rdropWhile_concat]
      split_ifs
      · exact ih
      · exact ⟨ys ++ [z], by simp⟩

theorem rdropWhile_ne_nil {chars : Bytes} (hcomp : HasComponent chars) :
    chars.rdropWhile isSep ≠ [] := by
  obtain ⟨c, hmem, hc⟩ := hcomp
  exact fun hnil => hc (List.rdropWhile_eq_nil_iff.mp hnil c hmem)

theorem withoutLast_length_lt {chars : Bytes} (hcomp : HasComponent chars) :
    (withoutLast chars).length < (chars.rdropWhile isSep).length := by
  have hne := rdropWhile_ne_nil hcomp
  have hinitial := List.rdropWhile_prefix (fun c => !isSep c) (chars.rdropWhile isSep)
  have hshort : (chars.rdropWhile isSep).rdropWhile (fun c => !isSep c) ≠
      chars.rdropWhile isSep := by
    intro hself
    have hlast := List.rdropWhile_eq_self_iff.mp hself hne
    simp only [Bool.not_eq_true', Bool.not_eq_false] at hlast
    exact List.rdropWhile_last_not isSep chars hne hlast
  refine Nat.lt_of_le_of_lt (List.rdropWhile_prefix _ _).length_le ?_
  refine Nat.lt_of_le_of_ne hinitial.length_le fun hlen => hshort ?_
  exact hinitial.eq_of_length hlen

theorem withoutLast_eq_nil_iff {chars : Bytes} (hcomp : HasComponent chars) :
    withoutLast chars = [] ↔ ¬ TwoComponents chars := by
  rw [withoutLast, List.rdropWhile_eq_nil_iff]
  constructor
  · rintro hsep ⟨front, sep, back, rfl, hcut, ⟨c, hfront, hc⟩, ⟨d, hback, hd⟩⟩
    obtain ⟨back₁, back₂, rfl⟩ := List.append_of_mem hback
    obtain ⟨more, hmore⟩ := prefix_rdropWhile (front ++ sep :: back₁) back₂ hd
    have hstripped : (front ++ sep :: (back₁ ++ d :: back₂)).rdropWhile isSep =
        front ++ sep :: (back₁ ++ d :: more) := by
      rw [← List.cons_append, ← List.append_assoc, ← hmore]
      simp
    rw [hstripped] at hsep
    have hkept := prefix_rdropWhile (p := fun c => !isSep c) (y := sep) front
      (back₁ ++ d :: more) (by simpa using hcut)
    exact hc (hsep c (hkept.subset (List.mem_append_left _ hfront)))
  · intro htwo c hmem
    by_contra hc
    refine htwo ?_
    obtain ⟨dir, hdir⟩ : ∃ dir,
        (chars.rdropWhile isSep).rdropWhile (fun c => !isSep c) = dir := ⟨_, rfl⟩
    rw [hdir] at hmem
    have hne : dir ≠ [] := List.ne_nil_of_mem hmem
    have hcut : isSep (dir.getLast hne) := by
      subst hdir
      simpa using List.rdropWhile_last_not (fun c => !isSep c) _ hne
    have hname : (chars.rdropWhile isSep).rtakeWhile (fun c => !isSep c) ≠ [] := by
      intro hnil
      have hlast := List.rtakeWhile_eq_nil_iff.mp hnil (rdropWhile_ne_nil hcomp)
      simp only [Bool.not_eq_true', Bool.not_eq_false] at hlast
      exact List.rdropWhile_last_not isSep chars (rdropWhile_ne_nil hcomp) hlast
    obtain ⟨d, hd⟩ := List.exists_mem_of_ne_nil _ hname
    refine ⟨dir.dropLast, dir.getLast hne,
      (chars.rdropWhile isSep).rtakeWhile (fun c => !isSep c) ++ chars.rtakeWhile isSep,
      ?_, hcut, ⟨c, ?_, hc⟩, ⟨d, List.mem_append_left _ hd, ?_⟩⟩
    · rw [← List.singleton_append, ← List.append_assoc, List.dropLast_append_getLast,
        ← List.append_assoc, ← hdir, List.rdropWhile_append_rtakeWhile,
        List.rdropWhile_append_rtakeWhile]
    · rw [← List.dropLast_append_getLast hne] at hmem
      rcases List.mem_append.mp hmem with hfront | hlast
      · exact hfront
      · rw [List.mem_singleton.mp hlast] at hc
        exact absurd hcut hc
    · simpa using List.mem_rtakeWhile_imp hd

theorem namedParent_eq_none_iff {path : Path} (hcomp : HasComponent path.chars) :
    namedParent path = none ↔ ¬ TwoComponents path.chars := by
  rw [← withoutLast_eq_nil_iff hcomp, namedParent]
  split_ifs with h <;> simp [h]

theorem split_unique {front front' comp comp' : Bytes} {sep sep' : UInt8}
    (h : front ++ sep :: comp = front' ++ sep' :: comp') (hsep : isSep sep) (hsep' : isSep sep')
    (hcomp : ∀ c ∈ comp, ¬ isSep c) (hcomp' : ∀ c ∈ comp', ¬ isSep c) :
    front = front' ∧ sep = sep' ∧ comp = comp' := by
  rcases List.append_eq_append_iff.mp h with ⟨as, rfl, hrest⟩ | ⟨as, rfl, hrest⟩
  · cases as with
    | nil => simpa using hrest
    | cons a as =>
        obtain ⟨-, hmid⟩ := List.cons.inj hrest
        exact absurd hsep' (hcomp sep' (hmid ▸ by simp))
  · cases as with
    | nil =>
        obtain ⟨h₁, h₂⟩ := List.cons.inj hrest
        exact ⟨List.append_nil _, h₁.symm, h₂.symm⟩
    | cons a as =>
        obtain ⟨-, hmid⟩ := List.cons.inj hrest
        exact absurd hsep (hcomp' sep (hmid ▸ by simp))

theorem Splits.withoutLast {path parent : Path} {sep : UInt8} {comp : Bytes}
    (h : Splits path parent sep comp) (hne : comp ≠ []) :
    withoutLast path.chars = parent.chars.rdropWhile isSep := by
  have hlast : ∀ hl : path.chars ≠ [], ¬ isSep (path.chars.getLast hl) := by
    intro hl
    refine h.comp _ ?_
    simp only [h.chars, List.getLast_append_of_ne_nil _ (List.cons_ne_nil sep comp),
      List.getLast_cons hne]
    exact List.getLast_mem hne
  rw [HostTool.withoutLast, List.rdropWhile_eq_self_iff.mpr hlast, h.chars,
    ← List.singleton_append, ← List.append_assoc,
    rdropWhile_append_of_pos (by simpa using h.comp),
    List.rdropWhile_concat_neg _ _ _ (by simpa using h.sep),
    List.rdropWhile_concat_pos _ _ _ h.sep]

theorem Splits.cutsOnce_iff {path parent : Path} {sep : UInt8} {comp : Bytes}
    (h : Splits path parent sep comp) :
    CutsOnce path ↔ comp ≠ [] ∧ parent.chars.rdropWhile isSep = parent.chars := by
  constructor
  · rintro ⟨front, c, sep', comp', hchars, hc, hsep', hne, hcomp'⟩
    rw [← List.singleton_append, ← List.append_assoc, h.chars] at hchars
    obtain ⟨hparent, -, rfl⟩ := split_unique hchars h.sep hsep' h.comp hcomp'
    rw [hparent, List.rdropWhile_concat_neg _ _ _ hc]
    exact ⟨hne, rfl⟩
  · rintro ⟨hne, hself⟩
    refine ⟨parent.chars.dropLast, parent.chars.getLast h.parent, sep, comp, ?_, ?_, h.sep, hne,
      h.comp⟩
    · rw [h.chars, List.append_cons parent.chars.dropLast, List.dropLast_append_getLast]
    · exact List.rdropWhile_eq_self_iff.mp hself h.parent

theorem parentPath_eq_namedParent_iff {path : Path} (hcomp : HasComponent path.chars) :
    parentPath path = namedParent path ↔ SepFree path ∨ CutsOnce path := by
  cases hparent : parentPath path with
  | none =>
      have hfree := parentPath_eq_none_iff.mp hparent
      refine iff_of_true ((namedParent_eq_none_iff hcomp).mpr ?_).symm (.inl hfree)
      rintro ⟨front, sep, back, hchars, hsep, ⟨c, hfront, -⟩, -⟩
      cases front with
      | nil => cases hfront
      | cons a front => exact hfree sep (by simp [hchars]) hsep
  | some parent =>
      have hfree : ¬ SepFree path := by
        rw [← parentPath_eq_none_iff, hparent]
        exact Option.some_ne_none parent
      obtain ⟨sep, comp, hsplits⟩ := splits_of_parentPath hparent
      rw [or_iff_right hfree, hsplits.cutsOnce_iff]
      have hnamed : some parent = namedParent path ↔ withoutLast path.chars = parent.chars := by
        rw [namedParent]
        split_ifs with hnil
        · rw [hnil]
          exact iff_of_false (fun h => by cases h) fun h => hsplits.parent h.symm
        · constructor
          · intro h
            rw [Option.some.inj h]
          · intro h
            cases parent
            simpa using h.symm
      rw [hnamed]
      constructor
      · intro h
        have hne : comp ≠ [] := by
          rintro rfl
          -- nothing but separators follows the parent, and a component more is dropped
          have hlt := withoutLast_length_lt hcomp
          rw [h, hsplits.chars, List.rdropWhile_concat_pos _ _ _ hsplits.sep] at hlt
          exact absurd (List.rdropWhile_prefix _ _).length_le (Nat.not_le.mpr hlt)
        exact ⟨hne, (hsplits.withoutLast hne).symm.trans h⟩
      · rintro ⟨hne, hself⟩
        exact (hsplits.withoutLast hne).trans hself

/-! ## What is opened -/

theorem fgetparent_eq (E : Host) (v : Volume) (path : Path) :
    fgetparent E v path = openParent E v (parentPath path) := by
  rw [fgetparent]
  cases parentPath path <;> rfl

/-- A volume that holds one directory, with code `c`. -/
def directoryVolume (c : Fcode) : Volume where
  root := sampleRoot [⟨c, fsDirectory, 0⟩] (by rw [List.length_singleton]; decide)
  image := .blank (2 ^ 21)
  ticks := 0

theorem floadhdir_directoryVolume (E : Host) (path : Path) (args : List Char) :
    floadhdir E (directoryVolume (getfcode E path)) path args =
      .ok (directoryVolume (getfcode E path), some ⟨0, path, 0, none⟩) := by
  have hindex : ∀ index, u32 index ≠ 0 →
      ffindi E (directoryVolume (getfcode E path)).root path index = none := by
    intro index hindex
    rw [ffindi, ffindhi, List.findIdx?_eq_none_iff]
    intro fb hfb
    obtain rfl := List.mem_singleton.mp hfb
    simpa [matchesIndex] using Ne.symm hindex
  have hfind : ffind E (directoryVolume (getfcode E path)).root path = some 0 := by
    simp [ffind, ffindi, ffindhi, directoryVolume, sampleRoot, matchesIndex, u32,
      List.findIdx?_cons]
  have hflag : flagcheck ((directoryVolume (getfcode E path)).root.block 0).attributes
      fsDirectory := by
    change flagcheck fsDirectory fsDirectory
    decide
  rw [floadhdir_of_live args hfind, openDir, if_pos hflag, fdirrefresh, fdirrefreshLoop,
    hindex 1 (by decide)]
  rfl

theorem openParent_injective (E : Host) {parent parent' : Option Path}
    (h : ∀ v, openParent E v parent = openParent E v parent') : parent = parent' := by
  have hpath : ∀ (v w : Volume) (p : Path) (q : Option Path) (dir : DirHandle),
      openParent E v q = .ok (w, some dir) → dir.path = p → q = some p := by
    intro v w p q dir hopen hdir
    cases q with
    | none => cases hopen
    | some q =>
        obtain ⟨file, -, hopened⟩ := floadhdir_opened hopen
        rw [← hdir, ((openDir_ok hopened).2 dir rfl).2]
  cases parent with
  | some p =>
      have hopen := floadhdir_directoryVolume E p ['d', 'c']
      exact (hpath _ _ p parent' _ ((h _).symm.trans hopen) rfl).symm
  | none =>
      cases parent' with
      | none => rfl
      | some p =>
          have hopen := floadhdir_directoryVolume E p ['d', 'c']
          exact hpath _ _ p none _ ((h _).trans hopen) rfl

/-! ## The recursion through creation -/

theorem parentPath_length_lt {path parent : Path} (h : parentPath path = some parent) :
    parent.chars.length < path.chars.length := by
  obtain ⟨sep, comp, hsplits⟩ := splits_of_parentPath h
  rw [hsplits.chars, List.length_append, List.length_cons]
  omega

mutual

/-- `__fcreate` by recursion over the path, with no bound on the depth of the calls. -/
def fcreateRec (E : Host) (v : Volume) (path : Path) (flags : List Char) :
    Except Fault Volume :=
  match fcreateClear E v.root path flags with
  | none => .ok v
  | some fr =>
      match allocatecluster fr with
      | (fr, none) => .ok { v with root := fr }
      | (fr, some fb) =>
          let v := { v with root := fr.setBlock fb (createdEntry E fr fb path flags) }
          match _hparent : parentPath path with
          | none => fcreateFinish E v fb path none
          | some parent =>
              match floadhdirRec E v parent ['d', 'c'] with
              | .error e => .error e
              | .ok (v, dhandle) => fcreateFinish E v fb path dhandle
termination_by 2 * path.chars.length
decreasing_by
  have := parentPath_length_lt _hparent
  omega

def floadhdirRec (E : Host) (v : Volume) (path : Path) (args : List Char) :
    Except Fault (Volume × Option DirHandle) :=
  match ffind E v.root path with
  | some file => openDir E v path file
  | none =>
      if strcheck args 'c' then
        match fcreateRec E v path args with
        | .error e => .error e
        | .ok v =>
            match ffind E v.root path with
            | none => .ok (v, none)
            | some file => openDir E v path file
      else .error .nullDeref
termination_by 2 * path.chars.length + 1

end

theorem createFuel_rec (E : Host) (fuel : Nat) :
    (∀ v path flags, 2 * path.chars.length < fuel →
      fcreateFuel E fuel v path flags = fcreateRec E v path flags) ∧
    ∀ v path args, 2 * path.chars.length + 1 < fuel →
      floadhdirFuel E fuel v path args = floadhdirRec E v path args := by
  induction fuel with
  | zero => exact ⟨fun _ _ _ h => absurd h (Nat.not_lt_zero _), fun _ _ _ h =>
      absurd h (Nat.not_lt_zero _)⟩
  | succ fuel ih =>
      obtain ⟨ihcreate, ihload⟩ := ih
      constructor
      · intro v path flags hfuel
        rw [fcreateFuel, fcreateRec]
        cases fcreateClear E v.root path flags with
        | none => rfl
        | some fr =>
            rcases halloc : allocatecluster fr with ⟨fr₁, slot⟩
            cases slot with
            | none => simp only [halloc]
            | some fb =>
                simp only [halloc]
                split
                · next hnone =>
                    split
                    · rfl
                    · next parent hparent => cases hnone.symm.trans hparent
                · next parent hparent =>
                    have hlt := parentPath_length_lt hparent
                    rw [ihload _ parent _ (by omega)]
                    symm
                    split
                    · next hnone => cases hnone.symm.trans hparent
                    · next parent' hparent' =>
                        obtain rfl := Option.some.inj (hparent.symm.trans hparent')
                        rfl
      · intro v path args hfuel
        rw [floadhdirRec, ← ihcreate v path args (by omega)]
        rfl

theorem fcreate_eq_rec (E : Host) (v : Volume) (path : Path) (flags : List Char) :
    fcreate E v path flags = fcreateRec E v path flags :=
  (createFuel_rec E (createFuel path)).1 v path flags (by rw [createFuel]; omega)

/-! ## The parent that is opened -/

/--
The tool opens the parent a path names exactly if the path has no separator behind
its first byte, or a single one before a last component that ends it; only a path
of one component names no parent.  The kernel picks the same parent exactly for the
paths that are not cut at all.  The parents that are created on the way come to an
end: creation is a recursion over the path.
-/
theorem fgetparent_iff (E : Host) {path : Path} (hcomp : HasComponent path.chars) :
    ((∀ v, fgetparent E v path = openParent E v (namedParent path)) ↔
      SepFree path ∨ CutsOnce path) ∧
    (namedParent path = none ↔ ¬ TwoComponents path.chars) ∧
    (kernelParentPath path = parentPath path ↔ SepFree path) ∧
    ∀ v flags, fcreate E v path flags = fcreateRec E v path flags := by
  refine ⟨?_, namedParent_eq_none_iff hcomp, kernelParentPath_eq_iff,
    fun v flags => fcreate_eq_rec E v path flags⟩
  rw [← parentPath_eq_namedParent_iff hcomp]
  constructor
  · intro h
    exact openParent_injective E fun v => (fgetparent_eq E v path).symm.trans (h v)
  · intro h v
    rw [fgetparent_eq, h]

/-- The path `a/b` has one separator, which the tool cuts and the kernel does not. -/
theorem fgetparent_iff_slashPath :
    (∀ v, fgetparent sampleHost v slashPath = openParent sampleHost v (namedParent slashPath)) ∧
      namedParent slashPath = some samplePath ∧
      kernelParentPath slashPath ≠ parentPath slashPath := by
  have hiff := @fgetparent_iff sampleHost slashPath ⟨0x61, by decide, by decide⟩
  refine ⟨hiff.1.mpr (.inr ?_), by decide, fun h => ?_⟩
  · refine ⟨[], 0x61, 0x2F, [0x62], rfl, by decide, by decide, by decide, fun d hmem => ?_⟩
    rw [List.mem_singleton.mp hmem]
    decide
  · exact absurd (hiff.2.2.1.mp h) (by decide)

/-- The path `a/b/`. -/
def trailingPath : Path := ⟨[0x61, 0x2F, 0x62, 0x2F], by decide⟩

/-- The tool takes `a/b` for the parent of `a/b/`, and the kernel `a0b` for that of `a/b`. -/
theorem not_fgetparent_trailing :
    ¬ (∀ v, fgetparent sampleHost v trailingPath =
        openParent sampleHost v (namedParent trailingPath)) ∧
      (kernelParentPath slashPath).map Path.chars = some [0x61, 0x30, 0x62] ∧
      (parentPath slashPath).map Path.chars = some [0x61] := by
  refine ⟨fun h => ?_, by decide, by decide⟩
  have hsame := openParent_injective sampleHost fun v =>
    (fgetparent_eq sampleHost v trailingPath).symm.trans (h v)
  exact absurd hsame (by decide)

end BlockyOS.HostTool
