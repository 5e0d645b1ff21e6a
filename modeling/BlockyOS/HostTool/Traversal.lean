import Mathlib.Data.List.Forall2
import BlockyOS.HostTool.Listing

/-!
# Listing a whole directory

A caller lists from index 0 on and takes the first NULL for the end.  NULL also
answers for a record whose item was removed, so the children behind such a
record are not seen.
-/

namespace BlockyOS.HostTool

open BlockyOS.Foundation

/-- The handles a caller gets that calls `__fdirlist` until it returns NULL. -/
inductive Lists (E : Host) (v : Volume) : DirHandle → Nat → List UnHandle → Prop
  | done {dir dir' : DirHandle} {index index' : Nat}
      (h : fdirlist E v dir index = .ok (dir', index', none)) : Lists E v dir index []
  | next {dir dir' : DirHandle} {index index' : Nat} {child : UnHandle}
      {children : List UnHandle}
      (h : fdirlist E v dir index = .ok (dir', index', some child))
      (rest : Lists E v dir' index' children) : Lists E v dir index (child :: children)

/-! ## Directories in order -/

def dirContent (v : Volume) (c : Fcode) : Bytes := dirBytes v c (dirBlocks v.root c)

/--
The directory with code `c` holds these entries: one record each, from record 0
on, with a `local` of zero in the last record only.
-/
structure HoldsEntries (v : Volume) (c : Fcode) (entries : List Fcode) : Prop where
  inside : dirItemCodec.width * entries.length ≤ (dirContent v c).length
  code : ∀ i (h : i < entries.length),
    (dirItemCodec.get (dirContent v c) i).f.fcode = entries[i]
  last : ∀ i, i < entries.length →
    ((dirItemCodec.get (dirContent v c) i).local' = 0 ↔ i + 1 = entries.length)
  nonzero : ∀ e ∈ entries, e ≠ Fcode.zero
  nodup : entries.Nodup
  free : dirItemCodec.width * entries.length + 16 ≤ (dirContent v c).length →
    (dirItemCodec.get (dirContent v c) entries.length).f.fcode = Fcode.zero

/-- The bytes that are loaded of a directory with `m` entries. -/
def loadedBytes (v : Volume) (c : Fcode) (m : Nat) : Nat :=
  v.root.blkSize *
    if m ≤ v.root.blkSize / dirItemCodec.width then min 1 (dirBlocks v.root c)
    else dirBlocks v.root c

/-- The first record that is not in use is loaded whole or not at all. -/
def EndsWell (v : Volume) (c : Fcode) (m : Nat) : Prop :=
  loadedBytes v c m ≤ dirItemCodec.width * m ∨
    dirItemCodec.width * m + 16 ≤ loadedBytes v c m

theorem dirBlocks_mul_lt (fr : ConfFsroot) (c : Fcode) :
    fr.blkSize * dirBlocks fr c < 2 ^ 60 := by
  have hle := (dirBlocks_spec fr c).1
  have hsize := fr.size_clusterMap
  have hlt := fr.size_lt
  unfold sizeofFsBlock at hsize
  calc
    fr.blkSize * dirBlocks fr c ≤ 2 ^ 32 * dirBlocks fr c :=
      Nat.mul_le_mul_right _ (Nat.le_of_lt fr.blkSize_lt)
    _ < 2 ^ 32 * 2 ^ 28 := by omega
    _ = 2 ^ 60 := by decide

theorem length_dirContent (v : Volume) (c : Fcode) :
    (dirContent v c).length = v.root.blkSize * dirBlocks v.root c :=
  length_dirBytes (Nat.le_refl _)

theorem dirContent_eq_loaded (v : Volume) (c : Fcode) {n : Nat} (h : n ≤ dirBlocks v.root c) :
    ∃ rest, dirContent v c = dirBytes v c n ++ rest :=
  dirBytes_prefix v c h

/-! ## What a refresh loads of a directory in order -/

section HoldsEntries

variable {v : Volume} {c : Fcode} {entries : List Fcode}

theorem HoldsEntries.dirBlocks_pos (h : HoldsEntries v c entries) (hne : entries ≠ []) :
    0 < dirBlocks v.root c := by
  have hinside := h.inside
  have hpos := List.length_pos_iff.mpr hne
  rw [length_dirContent] at hinside
  rcases Nat.eq_zero_or_pos (dirBlocks v.root c) with hzero | hpos'
  · rw [hzero, Nat.mul_zero] at hinside
    change 28 * _ ≤ 0 at hinside
    omega
  · exact hpos'

theorem HoldsEntries.hasEndMarker_iff (h : HoldsEntries v c entries) (hne : entries ≠ []) :
    hasEndMarker (dirBytes v c 1) v.root.blkSize = true ↔
      entries.length ≤ v.root.blkSize / dirItemCodec.width := by
  have hpos := List.length_pos_iff.mpr hne
  obtain ⟨rest, hrest⟩ := dirContent_eq_loaded v c (h.dirBlocks_pos hne)
  have hlen := @length_dirBytes v c 1 (h.dirBlocks_pos hne)
  have hget : ∀ i, i < v.root.blkSize / dirItemCodec.width →
      dirItemCodec.get (dirContent v c) i = dirItemCodec.get (dirBytes v c 1) i := by
    intro i hi
    have hmul := Nat.div_mul_le_self v.root.blkSize dirItemCodec.width
    rw [hrest]
    refine get_append _ _ ?_
    change 28 * i + 28 ≤ (dirBytes v c 1).length
    change i < v.root.blkSize / 28 at hi
    change v.root.blkSize / 28 * 28 ≤ _ at hmul
    omega
  rw [HostTool.hasEndMarker_iff]
  constructor
  · rintro ⟨i, hi, hlocal⟩
    by_contra hgt
    rw [← hget i hi] at hlocal
    have hend := (h.last i (by omega)).mp hlocal
    omega
  · intro hle
    refine ⟨entries.length - 1, by omega, ?_⟩
    rw [← hget _ (by omega)]
    exact (h.last _ (by omega)).mpr (by omega)

theorem HoldsEntries.loadedBytes_eq (h : HoldsEntries v c entries) (hne : entries ≠ []) :
    v.root.blkSize * loadedBlocks v c = loadedBytes v c entries.length := by
  have hmarker := h.hasEndMarker_iff hne
  unfold loadedBlocks loadedBytes
  by_cases hfits : entries.length ≤ v.root.blkSize / dirItemCodec.width
  · rw [if_pos (hmarker.mpr hfits), if_pos hfits]
  · rw [if_neg fun hmark => hfits (hmarker.mp hmark), if_neg hfits]

theorem HoldsEntries.width_mul_le (h : HoldsEntries v c entries) :
    dirItemCodec.width * entries.length ≤ v.root.blkSize * loadedBlocks v c := by
  by_cases hne : entries = []
  · rw [hne]
    exact Nat.zero_le _
  · have hinside := h.inside
    have hblocks := h.dirBlocks_pos hne
    rw [length_dirContent] at hinside
    rw [h.loadedBytes_eq hne, loadedBytes]
    split
    case isTrue hfits =>
      have hmul := Nat.div_mul_le_self v.root.blkSize dirItemCodec.width
      rw [Nat.min_eq_left hblocks, Nat.mul_one]
      exact Nat.le_trans (Nat.mul_le_mul_left _ hfits) (by rwa [Nat.mul_comm])
    case isFalse => exact hinside

theorem HoldsEntries.endsWell_iff (h : HoldsEntries v c entries)
    (hblk : sizeofMetaFsBlock ≤ v.root.blkSize) :
    EndsWell v c entries.length ↔
      v.root.blkSize * loadedBlocks v c ≤ dirItemCodec.width * entries.length ∨
        dirItemCodec.width * entries.length + 16 ≤ v.root.blkSize * loadedBlocks v c := by
  by_cases hne : entries = []
  · -- a block is longer than the part of a record that is read
    have hlong : ∀ n, v.root.blkSize * n ≤ 0 ∨ 16 ≤ v.root.blkSize * n := by
      intro n
      cases n with
      | zero => exact .inl (Nat.le_refl _)
      | succ n =>
          rw [Nat.mul_succ]
          unfold sizeofMetaFsBlock at hblk
          omega
    subst hne
    exact iff_of_true (hlong _) (hlong _)
  · rw [EndsWell, h.loadedBytes_eq hne]

end HoldsEntries

/-! ## The calls of a traversal -/

section Calls

variable {E : Host} {v : Volume} {dir : DirHandle} {index : Nat} (hheld : v.AllHeld)
  (hblk : 0 < v.root.blkSize) (hindex : index * dirItemCodec.width < 2 ^ 64)

include hheld hblk hindex

theorem listed_of_loaded
    (h : dirItemCodec.width * index + 16 ≤
      v.root.blkSize * loadedBlocks v (getfcode E dir.path)) :
    ∃ dir', dir'.path = dir.path ∧ Listed E v dir dir' index
      (dirItemCodec.get (dirContent v (getfcode E dir.path)) index).f.fcode := by
  have hle := loadedBlocks_le v (getfcode E dir.path)
  have hlen := length_dirBytes hle
  obtain ⟨rest, hrest⟩ := dirContent_eq_loaded v (getfcode E dir.path) hle
  have hpos : loadedBlocks v (getfcode E dir.path) ≠ 0 := by
    intro hzero
    rw [hzero, Nat.mul_zero] at h
    omega
  have hrefresh := fdirrefresh_eq E dir hheld hblk
  refine ⟨_, ?_, hrefresh, ?_, _, if_neg hpos, ?_, ?_⟩
  · rfl
  · rw [safediv_of_ne_zero (by omega), u64_of_lt hindex, Nat.div_lt_iff_lt_mul hblk,
      Nat.mul_comm, Nat.mul_comm _ v.root.blkSize]
    exact Nat.lt_of_lt_of_le (Nat.lt_add_of_pos_right (by decide)) h
  · rw [hlen]
    exact h
  · rw [hrest, fcode_get_append rest (by rw [hlen]; exact h)]

theorem fdirlist_past
    (h : v.root.blkSize * loadedBlocks v (getfcode E dir.path) ≤
      dirItemCodec.width * index) :
    ∃ dir', fdirlist E v dir index = .ok (dir', index, none) := by
  rw [fdirlist, fdirrefresh_eq E dir hheld hblk]
  simp only
  rw [if_neg]
  · exact ⟨_, rfl⟩
  · rw [safediv_of_ne_zero (by omega), u64_of_lt hindex, Nat.div_lt_iff_lt_mul hblk,
      Nat.mul_comm, Nat.mul_comm _ v.root.blkSize]
    omega

theorem fdirlist_overrun
    (hlow : dirItemCodec.width * index <
      v.root.blkSize * loadedBlocks v (getfcode E dir.path))
    (hhigh : v.root.blkSize * loadedBlocks v (getfcode E dir.path) <
      dirItemCodec.width * index + 16) :
    fdirlist E v dir index = .error .outOfBounds := by
  have hlen := length_dirBytes (loadedBlocks_le v (getfcode E dir.path))
  have hpos : loadedBlocks v (getfcode E dir.path) ≠ 0 := by
    intro hzero
    rw [hzero, Nat.mul_zero] at hlow
    omega
  rw [fdirlist, fdirrefresh_eq E dir hheld hblk]
  simp only
  rw [if_pos]
  · simp only [if_neg hpos]
    rw [if_pos (by rw [hlen]; exact hhigh)]
  · rw [safediv_of_ne_zero (by omega), u64_of_lt hindex, Nat.div_lt_iff_lt_mul hblk,
      Nat.mul_comm, Nat.mul_comm _ v.root.blkSize]
    exact hlow

end Calls

/-! ## The whole traversal -/

/-- The item a record names is in the map. -/
def LiveEntry (fr : ConfFsroot) (c : Fcode) : Prop := ∃ fb, ffindh fr c = some fb

instance (fr : ConfFsroot) (c : Fcode) : Decidable (LiveEntry fr c) :=
  decidable_of_iff ((ffindh fr c).isSome = true) Option.isSome_iff_exists

/-- A handle on the item with code `c`. -/
def HandleOn (v : Volume) (c : Fcode) (child : UnHandle) : Prop :=
  ∃ fb path, ffindh v.root c = some fb ∧ OpenedOn v fb path child

def Reopens (E : Host) (v : Volume) (dir : Path) (c : Fcode) : Prop :=
  c.low ≠ 0 ∧ c.high ≠ 0 ∧ ∃ fb name, ffindh v.root c = some fb ∧
    infoName (v.window fb) = .ok name ∧ ffind E v.root (childPath dir name) = some fb

/-- What a traversal of the entries needs; `ends` is what it needs after the last one. -/
structure Traversable (E : Host) (v : Volume) (dir : Path) (ends : Prop)
    (entries : List Fcode) : Prop where
  ordered : entries.Pairwise fun a b => LiveEntry v.root b → LiveEntry v.root a
  reopened : ∀ c ∈ entries, LiveEntry v.root c → Reopens E v dir c
  ended : (∀ c ∈ entries, LiveEntry v.root c) → ends

theorem traversable_nil {E : Host} {v : Volume} {dir : Path} {ends : Prop} :
    Traversable E v dir ends [] ↔ ends :=
  ⟨fun h => h.ended (by simp), fun h => ⟨.nil, by simp, fun _ => h⟩⟩

theorem traversable_cons_live {E : Host} {v : Volume} {dir : Path} {ends : Prop}
    {c : Fcode} {entries : List Fcode} (hlive : LiveEntry v.root c) :
    Traversable E v dir ends (c :: entries) ↔
      Reopens E v dir c ∧ Traversable E v dir ends entries := by
  constructor
  · rintro ⟨hordered, hreopened, hended⟩
    refine ⟨hreopened c List.mem_cons_self hlive, (List.pairwise_cons.mp hordered).2,
      fun e he => hreopened e (List.mem_cons_of_mem _ he), fun hall => hended ?_⟩
    intro e he
    rcases List.mem_cons.mp he with rfl | he'
    · exact hlive
    · exact hall e he'
  · rintro ⟨hreopens, hordered, hreopened, hended⟩
    refine ⟨List.pairwise_cons.mpr ⟨fun _ _ _ => hlive, hordered⟩, ?_,
      fun hall => hended fun e he => hall e (List.mem_cons_of_mem _ he)⟩
    intro e he helive
    rcases List.mem_cons.mp he with rfl | he'
    · exact hreopens
    · exact hreopened e he' helive

theorem traversable_cons_removed {E : Host} {v : Volume} {dir : Path} {ends : Prop}
    {c : Fcode} {entries : List Fcode} (hgone : ¬ LiveEntry v.root c) :
    Traversable E v dir ends (c :: entries) ↔ ∀ e ∈ entries, ¬ LiveEntry v.root e := by
  constructor
  · intro h e he helive
    exact hgone ((List.pairwise_cons.mp h.ordered).1 e he helive)
  · intro hall
    have hnone : ∀ e ∈ c :: entries, ¬ LiveEntry v.root e := by
      intro e he
      rcases List.mem_cons.mp he with rfl | he'
      · exact hgone
      · exact hall e he'
    refine ⟨?_, fun e he helive => absurd helive (hnone e he),
      fun hlive => absurd (hlive c List.mem_cons_self) hgone⟩
    refine List.Pairwise.imp_of_mem ?_ (List.pairwise_of_forall fun _ _ => trivial)
    exact fun _ hb _ hlive => absurd hlive (hnone _ hb)

/-- A traversal sees the live entries among `entries`, each once and in order. -/
def Enumerates (E : Host) (v : Volume) (dir : DirHandle) (index : Nat)
    (entries : List Fcode) : Prop :=
  ∃ children, Lists E v dir index children ∧
    List.Forall₂ (HandleOn v) (entries.filter fun c => LiveEntry v.root c) children

section Enumerates

variable {E : Host} {v : Volume} {dir dir' : DirHandle} {index : Nat} {c : Fcode}
  {entries : List Fcode}

theorem enumerates_nil :
    Enumerates E v dir index [] ↔
      ∃ dir' index', fdirlist E v dir index = .ok (dir', index', none) := by
  constructor
  · rintro ⟨children, hlists, hall⟩
    cases hall
    cases hlists with
    | done h => exact ⟨_, _, h⟩
  · rintro ⟨dir', index', h⟩
    exact ⟨[], .done h, .nil⟩

theorem enumerates_cons_removed (h : Listed E v dir dir' index c)
    (hgone : ¬ LiveEntry v.root c) :
    Enumerates E v dir index (c :: entries) ↔ ∀ e ∈ entries, ¬ LiveEntry v.root e := by
  have hdead : liveChild v.root c = none := by
    cases hchild : liveChild v.root c with
    | none => rfl
    | some fb => exact absurd ⟨fb, (liveChild_eq_some_iff.mp hchild).1⟩ hgone
  obtain ⟨dir'', hnull⟩ := fdirlist_removed h hdead
  rw [Enumerates, List.filter_cons_of_neg (by simpa using hgone)]
  have hfilter : (entries.filter fun c => LiveEntry v.root c) = [] ↔
      ∀ e ∈ entries, ¬ LiveEntry v.root e := by
    simp [List.filter_eq_nil_iff]
  rw [← hfilter]
  constructor
  · rintro ⟨children, hlists, hall⟩
    cases hlists with
    | done => exact List.forall₂_nil_right_iff.mp hall
    | next hnext =>
        rw [hnull] at hnext
        cases hnext
  · intro hempty
    rw [hempty]
    exact ⟨[], .done hnull, .nil⟩

theorem enumerates_cons_live (hheld : v.AllHeld) (hblk : 0 < v.root.blkSize)
    (h : Listed E v dir dir' index c) (hlive : LiveEntry v.root c) :
    Enumerates E v dir index (c :: entries) ↔
      Reopens E v dir.path c ∧ Enumerates E v dir' (index + 1) entries := by
  obtain ⟨fb, hfind⟩ := hlive
  have hfb := (ffindhi_some hfind).1
  have hpath := (fdirrefresh_file h.1).2
  rw [Enumerates, List.filter_cons_of_pos (by simpa using ⟨fb, hfind⟩)]
  constructor
  · rintro ⟨children, hlists, hall⟩
    obtain ⟨child, rest, ⟨fb', path, hfind', hopened⟩, hrest, rfl⟩ :=
      List.forall₂_cons_left_iff.mp hall
    obtain rfl := Option.some.inj (hfind.symm.trans hfind')
    cases hlists with
    | next hnext hlists =>
        cases hchild : liveChild v.root c with
        | none =>
            obtain ⟨dir'', hnull⟩ := fdirlist_removed h hchild
            rw [hnull] at hnext
            cases hnext
        | some slot =>
            obtain ⟨hslot, hlow, hhigh⟩ := liveChild_eq_some_iff.mp hchild
            obtain rfl := Option.some.inj (hfind.symm.trans hslot)
            rw [fdirlist_live h hchild] at hnext
            cases hopen : openChild E v dir' fb with
            | error e =>
                rw [hopen] at hnext
                cases hnext
            | ok child' =>
                rw [hopen] at hnext
                cases hnext
                obtain ⟨name, hname, rfl, hback⟩ :=
                  found_of_openChild hheld hfb hopen hopened
                rw [hpath] at hback
                exact ⟨⟨hlow, hhigh, fb, name, hfind, hname, hback⟩, rest, hlists, hrest⟩
  · rintro ⟨⟨hlow, hhigh, fb', name, hfind', hname, hback⟩, children, hlists, hall⟩
    obtain rfl := Option.some.inj (hfind.symm.trans hfind')
    rw [← hpath] at hback
    obtain ⟨child, hopen, hopened⟩ := openChild_of_found hheld hblk hfb hname hback
    have hchild := liveChild_eq_some_iff.mpr ⟨hfind, hlow, hhigh⟩
    refine ⟨child :: children, .next ?_ hlists, .cons ⟨fb, _, hfind, hopened⟩ hall⟩
    rw [fdirlist_live h hchild, hopen]
    rfl

end Enumerates

theorem enumerates_suffix_iff {E : Host} {v : Volume} {c : Fcode} {entries : List Fcode}
    (hheld : v.AllHeld) (hblk : sizeofMetaFsBlock ≤ v.root.blkSize)
    (h : HoldsEntries v c entries) (seen : List Fcode) {rest : List Fcode}
    (hsplit : entries = seen ++ rest) {dir : DirHandle} (hdir : getfcode E dir.path = c) :
    Enumerates E v dir seen.length rest ↔
      Traversable E v dir.path (EndsWell v c entries.length) rest := by
  have hpos : 0 < v.root.blkSize := Nat.lt_of_lt_of_le (by decide) hblk
  have hloaded := h.width_mul_le
  have hcap : dirItemCodec.width * entries.length < 2 ^ 64 := by
    have hlt := dirBlocks_mul_lt v.root c
    have hle := Nat.mul_le_mul_left v.root.blkSize (loadedBlocks_le v c)
    omega
  induction rest generalizing seen dir with
  | nil =>
      rw [List.append_nil] at hsplit
      subst hsplit
      have hindex : entries.length * dirItemCodec.width < 2 ^ 64 := by
        rwa [Nat.mul_comm]
      rw [enumerates_nil, traversable_nil, h.endsWell_iff hblk]
      subst hdir
      constructor
      · rintro ⟨dir', index', hnull⟩
        by_contra hends
        rw [not_or, Nat.not_le, Nat.not_le] at hends
        rw [fdirlist_overrun hheld hpos hindex hends.1 hends.2] at hnull
        cases hnull
      · rintro (hpast | hinside)
        · obtain ⟨dir', hnull⟩ := fdirlist_past (E := E) hheld hpos hindex hpast
          exact ⟨dir', _, hnull⟩
        · obtain ⟨dir', -, hlisted⟩ := listed_of_loaded (E := E) hheld hpos hindex hinside
          have hlen := length_dirContent v (getfcode E dir.path)
          have hle := Nat.mul_le_mul_left v.root.blkSize
            (loadedBlocks_le v (getfcode E dir.path))
          rw [h.free (by omega)] at hlisted
          have hdead : liveChild v.root Fcode.zero = none := by
            cases hchild : liveChild v.root Fcode.zero with
            | none => rfl
            | some fb => exact absurd rfl (liveChild_eq_some_iff.mp hchild).2.1
          obtain ⟨dir'', hnull⟩ := fdirlist_removed hlisted hdead
          exact ⟨dir'', _, hnull⟩
  | cons e rest ih =>
      have hlen : seen.length < entries.length := by
        rw [hsplit, List.length_append, List.length_cons]
        omega
      have he : entries[seen.length] = e := by simp [hsplit]
      have hwidth : dirItemCodec.width = 28 := rfl
      rw [hwidth] at hcap hloaded
      have hindex : seen.length * dirItemCodec.width < 2 ^ 64 := by
        rw [hwidth]
        omega
      have hinside : dirItemCodec.width * seen.length + 16 ≤
          v.root.blkSize * loadedBlocks v (getfcode E dir.path) := by
        rw [hwidth, hdir]
        omega
      obtain ⟨dir', hpath, hlisted⟩ := listed_of_loaded hheld hpos hindex hinside
      rw [hdir, h.code _ hlen, he] at hlisted
      by_cases hlive : LiveEntry v.root e
      · have hrest := ih (seen ++ [e]) (by simp [hsplit])
          (show getfcode E dir'.path = c by rw [hpath]; exact hdir)
        rw [List.length_append, List.length_singleton, hpath] at hrest
        rw [enumerates_cons_live hheld hpos hlisted hlive, traversable_cons_live hlive]
        exact and_congr_right fun _ => hrest
      · rw [enumerates_cons_removed hlisted hlive, traversable_cons_removed hlive]

/--
Listing a directory until NULL returns the live children, each once, if and only
if no removed entry stands before a live one, every live child is found again on
its rebuilt path, and the record behind a full set of live entries is not loaded
in part.
-/
theorem enumerates_iff {E : Host} {v : Volume} {dir : DirHandle} {entries : List Fcode}
    (hheld : v.AllHeld) (hblk : sizeofMetaFsBlock ≤ v.root.blkSize)
    (hentries : HoldsEntries v (getfcode E dir.path) entries) :
    Enumerates E v dir 0 entries ↔
      Traversable E v dir.path (EndsWell v (getfcode E dir.path) entries.length) entries :=
  enumerates_suffix_iff hheld hblk hentries [] rfl rfl

/-- The directory `a` with the file `a/b`. -/
theorem enumerates_iff_sample :
    Enumerates listHost (listCreated slashPath) listHandle 0 [getfcode listHost slashPath] ↔
      Traversable listHost (listCreated slashPath) samplePath
        (EndsWell (listCreated slashPath) (getfcode listHost samplePath) 1)
        [getfcode listHost slashPath] := by
  have hheld : ∀ s, s < (listCreated slashPath).root.clusterMap.length →
      (listCreated slashPath).root.Addressable s ∧ (listCreated slashPath).Holds s := by
    decide +kernel
  have hentries : HoldsEntries (listCreated slashPath) (getfcode listHost samplePath)
      [getfcode listHost slashPath] :=
    ⟨by decide +kernel, by decide +kernel, by decide +kernel, by decide +kernel, by decide,
      by decide +kernel⟩
  exact @enumerates_iff _ _ listHandle _ hheld (by decide +kernel) hentries

/-- The path `a/c`. -/
def otherPath : Path := ⟨[0x61, 0x2F, 0x63], by decide⟩

/-- The directory `a` with the files `a/b` and `a/c`, the first of them removed. -/
def listRemoved : Volume :=
  let both := (fcreate listHost (listCreated slashPath) otherPath ['f']).toOption.getD
    (listCreated slashPath)
  { both with root := (ffremove listHost both.root slashPath).toOption.getD both.root }

/-- The first call returns NULL for the removed `a/b`, and `a/c` is not seen. -/
theorem not_enumerates_listRemoved :
    listRemoved.AllHeld ∧ sizeofMetaFsBlock ≤ listRemoved.root.blkSize ∧
      HoldsEntries listRemoved (getfcode listHost samplePath)
        [getfcode listHost slashPath, getfcode listHost otherPath] ∧
      ¬ LiveEntry listRemoved.root (getfcode listHost slashPath) ∧
      LiveEntry listRemoved.root (getfcode listHost otherPath) ∧
      (∃ dir', fdirlist listHost listRemoved listHandle 0 = .ok (dir', 1, none)) ∧
      ¬ Enumerates listHost listRemoved listHandle 0
        [getfcode listHost slashPath, getfcode listHost otherPath] := by
  have hheld : ∀ s, s < listRemoved.root.clusterMap.length →
      listRemoved.root.Addressable s ∧ listRemoved.Holds s := by
    decide +kernel
  have hblk : sizeofMetaFsBlock ≤ listRemoved.root.blkSize := by decide +kernel
  have hentries : HoldsEntries listRemoved (getfcode listHost samplePath)
      [getfcode listHost slashPath, getfcode listHost otherPath] :=
    ⟨by decide +kernel, by decide +kernel, by decide +kernel, by decide +kernel, by decide,
      by decide +kernel⟩
  have hgone : ¬ LiveEntry listRemoved.root (getfcode listHost slashPath) := by
    decide +kernel
  have hlive : LiveEntry listRemoved.root (getfcode listHost otherPath) := by
    decide +kernel
  have heval : ((fdirlist listHost listRemoved listHandle 0).map fun r =>
      (r.2.1, r.2.2.isNone)).toOption = some (1, true) := by
    decide +kernel
  obtain ⟨⟨dir', index', child⟩, hlist, hresult⟩ := ok_of_eval heval
  obtain ⟨rfl, hchild⟩ := Prod.mk.inj hresult
  obtain rfl := Option.isNone_iff_eq_none.mp hchild
  refine ⟨hheld, hblk, hentries, hgone, hlive, ⟨dir', hlist⟩, ?_⟩
  rintro ⟨children, hlists, hall⟩
  rw [List.filter_cons_of_neg (by simpa using hgone),
    List.filter_cons_of_pos (by simpa using hlive)] at hall
  cases hlists with
  | done => cases hall
  | next hnext =>
      rw [hlist] at hnext
      cases hnext

end BlockyOS.HostTool
