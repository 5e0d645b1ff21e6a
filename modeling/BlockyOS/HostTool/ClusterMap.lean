import BlockyOS.HostTool.Layout

/-!
# Paths, file codes and the cluster map

The mounted root and the functions of `frat.c` that look entries up, allocate
them and clear them.  A pointer into the map is the slot number it points at.
-/

namespace BlockyOS.HostTool

open BlockyOS.Foundation

/-! ## Paths and file codes -/

/-- A C string: the bytes before its terminator. -/
structure Path where
  chars : Bytes
  terminated : 0 ∉ chars
  deriving DecidableEq

def pathSep : UInt8 := 0x2F

def pathNoSep : UInt8 := 0x5C

def isSep (c : UInt8) : Bool := c = pathNoSep || c = pathSep

structure Tm where
  yday : Nat
  hour : Nat
  min : Nat
  sec : Nat

/-- The services the tool takes from outside: the hash and the clock readings. -/
structure Host where
  blake2b : Bytes → BitVec 64 × BitVec 64
  localtime : Nat → Tm

/-- The spelling of a path that is hashed: every `\` becomes `/`. -/
def canonical (path : Path) : Bytes :=
  path.chars.map fun c => if c = pathNoSep then pathSep else c

/-- Both halves of the digest, the high one cut to its low 48 bits. -/
def getfcode (E : Host) (path : Path) : Fcode :=
  let hash := E.blake2b (canonical path)
  ⟨hash.1, (hash.2 &&& (BitVec.allOnes 64 &&& ~~~(0xFFFF#64 <<< 48))).setWidth 48⟩

def strcheck (s : List Char) (c : Char) : Bool := s.contains c

/-! ## The mounted root -/

/--
The mounted root (`conf_fsroot`).  `slack` is the part of the map buffer past
its last whole entry.
-/
structure ConfFsroot where
  loc : Nat
  root : FsRoot
  lastClusterAlloc : Nat
  nLogSectors : Nat
  nClusterSectors : Nat
  clusterSize : Nat
  nClusterItems : Nat
  clusterMap : List FsBlock
  slack : Bytes
  length_clusterMap : clusterMap.length = nClusterItems
  size_clusterMap : clusterSize = sizeofFsBlock * nClusterItems + slack.length
  size_lt : clusterSize < 2 ^ 32

namespace ConfFsroot

def blkSize (fr : ConfFsroot) : Nat := fr.root.confBlockSize.toNat

/-- `*fb` for a pointer `fb` into the map. -/
def block (fr : ConfFsroot) (fb : Nat) : FsBlock := fr.clusterMap.getD fb FsBlock.zero

def setBlock (fr : ConfFsroot) (fb : Nat) (entry : FsBlock) : ConfFsroot :=
  { fr with
    clusterMap := fr.clusterMap.set fb entry
    length_clusterMap := by rw [List.length_set, fr.length_clusterMap] }

def setCursor (fr : ConfFsroot) (cursor : Nat) : ConfFsroot :=
  { fr with lastClusterAlloc := cursor }

theorem blkSize_lt (fr : ConfFsroot) : fr.blkSize < 2 ^ 32 := fr.root.confBlockSize.isLt

theorem nClusterItems_lt (fr : ConfFsroot) : fr.nClusterItems < 2 ^ 32 := by
  have hsize := fr.size_clusterMap
  have hlt := fr.size_lt
  unfold sizeofFsBlock at hsize
  omega

@[simp] theorem setBlock_clusterMap (fr : ConfFsroot) (fb : Nat) (entry : FsBlock) :
    (fr.setBlock fb entry).clusterMap = fr.clusterMap.set fb entry := rfl

@[simp] theorem setBlock_lastClusterAlloc (fr : ConfFsroot) (fb : Nat) (entry : FsBlock) :
    (fr.setBlock fb entry).lastClusterAlloc = fr.lastClusterAlloc := rfl

@[simp] theorem setCursor_clusterMap (fr : ConfFsroot) (cursor : Nat) :
    (fr.setCursor cursor).clusterMap = fr.clusterMap := rfl

@[simp] theorem setCursor_lastClusterAlloc (fr : ConfFsroot) (cursor : Nat) :
    (fr.setCursor cursor).lastClusterAlloc = cursor := rfl

@[simp] theorem setCursor_block (fr : ConfFsroot) (cursor fb : Nat) :
    (fr.setCursor cursor).block fb = fr.block fb := rfl

theorem block_eq_getElem {fr : ConfFsroot} {fb : Nat} (h : fb < fr.clusterMap.length) :
    fr.block fb = fr.clusterMap[fb] := by
  simp [block, h]

theorem block_setBlock_same {fr : ConfFsroot} {fb : Nat} {entry : FsBlock}
    (h : fb < fr.clusterMap.length) : (fr.setBlock fb entry).block fb = entry := by
  simp [block, h]

theorem block_setBlock_other {fr : ConfFsroot} {fb slot : Nat} {entry : FsBlock}
    (h : slot ≠ fb) : (fr.setBlock fb entry).block slot = fr.block slot := by
  simp [block, List.getElem?_set_ne h.symm]

/-! What does not depend on the entries and the cursor. -/

/-- The two roots were mounted alike: they differ in map entries and cursor only. -/
structure SameGeometry (fr fr' : ConfFsroot) : Prop where
  loc : fr'.loc = fr.loc
  root : fr'.root = fr.root
  nLogSectors : fr'.nLogSectors = fr.nLogSectors
  nClusterSectors : fr'.nClusterSectors = fr.nClusterSectors
  clusterSize : fr'.clusterSize = fr.clusterSize
  nClusterItems : fr'.nClusterItems = fr.nClusterItems
  slack : fr'.slack = fr.slack

theorem SameGeometry.refl (fr : ConfFsroot) : SameGeometry fr fr :=
  ⟨rfl, rfl, rfl, rfl, rfl, rfl, rfl⟩

theorem SameGeometry.trans {fr fr' fr'' : ConfFsroot} (h : SameGeometry fr fr')
    (h' : SameGeometry fr' fr'') : SameGeometry fr fr'' :=
  ⟨h'.loc.trans h.loc, h'.root.trans h.root, h'.nLogSectors.trans h.nLogSectors,
    h'.nClusterSectors.trans h.nClusterSectors, h'.clusterSize.trans h.clusterSize,
    h'.nClusterItems.trans h.nClusterItems, h'.slack.trans h.slack⟩

theorem SameGeometry.setBlock (fr : ConfFsroot) (fb : Nat) (entry : FsBlock) :
    SameGeometry fr (fr.setBlock fb entry) :=
  ⟨rfl, rfl, rfl, rfl, rfl, rfl, rfl⟩

theorem SameGeometry.setCursor (fr : ConfFsroot) (cursor : Nat) :
    SameGeometry fr (fr.setCursor cursor) :=
  ⟨rfl, rfl, rfl, rfl, rfl, rfl, rfl⟩

theorem SameGeometry.blkSize {fr fr' : ConfFsroot} (h : SameGeometry fr fr') :
    fr'.blkSize = fr.blkSize := by
  rw [ConfFsroot.blkSize, ConfFsroot.blkSize, h.root]

theorem SameGeometry.length {fr fr' : ConfFsroot} (h : SameGeometry fr fr') :
    fr'.clusterMap.length = fr.clusterMap.length := by
  rw [fr'.length_clusterMap, fr.length_clusterMap, h.nClusterItems]

end ConfFsroot

/-- The `DATAFIRST` macro. -/
def dataFirst (fr : ConfFsroot) : Nat :=
  u64 (fr.loc + dataFirstOffset fr.nLogSectors fr.nClusterSectors * fr.blkSize)

def getloc (fr : ConfFsroot) (fb : Nat) : Nat := u64 (dataFirst fr + fb)

theorem ConfFsroot.SameGeometry.getloc {fr fr' : ConfFsroot}
    (h : ConfFsroot.SameGeometry fr fr') (fb : Nat) : getloc fr' fb = getloc fr fb := by
  rw [HostTool.getloc, HostTool.getloc, dataFirst, dataFirst, h.loc, h.nLogSectors,
    h.nClusterSectors, h.blkSize]

/-! ## Lookup, allocation, removal -/

def matchesIndex (c : Fcode) (index : Nat) (fb : FsBlock) : Bool :=
  fb.fcode = c ∧ fb.index.toNat = u32 index

def ffindhi (fr : ConfFsroot) (hash : Fcode) (index : Nat) : Option Nat :=
  fr.clusterMap.findIdx? (matchesIndex hash index)

def ffindh (fr : ConfFsroot) (hash : Fcode) : Option Nat := ffindhi fr hash 0

def ffindi (E : Host) (fr : ConfFsroot) (path : Path) (index : Nat) : Option Nat :=
  ffindhi fr (getfcode E path) index

def ffind (E : Host) (fr : ConfFsroot) (path : Path) : Option Nat := ffindi E fr path 0

/--
Next fit: scan from the last allocation to the end of the map.  A scan that
finds nothing moves the cursor back to the start for the next call.
-/
def allocatecluster (fr : ConfFsroot) : ConfFsroot × Option Nat :=
  match (fr.clusterMap.drop fr.lastClusterAlloc).findIdx? FsBlock.isFree with
  | some k =>
      (fr.setCursor (fr.lastClusterAlloc + k), some (fr.lastClusterAlloc + k))
  | none => (fr.setCursor 0, none)

/-- `fb->fcodelow = 0; fb->fcodehigh = 0;` -/
def clearBlock (fr : ConfFsroot) (fb : Nat) : ConfFsroot :=
  fr.setBlock fb { fr.block fb with fcode := Fcode.zero }

def ffremove (E : Host) (fr : ConfFsroot) (path : Path) : Except Fault ConfFsroot :=
  match ffind E fr path with
  | some fb => .ok (clearBlock fr fb)
  | none => .error .nullDeref

/-- How many entries carry the code: the index `__faddr` counts up to. -/
def countFcode (fr : ConfFsroot) (c : Fcode) : Nat :=
  fr.clusterMap.countP fun fb => fb.fcode = c

/-! ### Lookup -/

/-- Entry `fb` of the map is entry `index` of the file with code `c`. -/
def HasEntry (fr : ConfFsroot) (fb : Nat) (c : Fcode) (index : Nat) : Prop :=
  fb < fr.clusterMap.length ∧ (fr.block fb).fcode = c ∧ (fr.block fb).index.toNat = index

theorem ffindhi_some {fr : ConfFsroot} {c : Fcode} {index fb : Nat}
    (h : ffindhi fr c index = some fb) : HasEntry fr fb c (u32 index) := by
  obtain ⟨hlt, hmatch, -⟩ := List.findIdx?_eq_some_iff_getElem.mp h
  have hmatch' : fr.clusterMap[fb].fcode = c ∧
      fr.clusterMap[fb].index.toNat = u32 index := by
    simpa [matchesIndex] using hmatch
  rw [HasEntry, ConfFsroot.block_eq_getElem hlt]
  exact ⟨hlt, hmatch'.1, hmatch'.2⟩

theorem ffindhi_none {fr : ConfFsroot} {c : Fcode} {index : Nat}
    (h : ffindhi fr c index = none) (fb : Nat) : ¬ HasEntry fr fb c (u32 index) := by
  rintro ⟨hlt, hcode, hindex⟩
  rw [ConfFsroot.block_eq_getElem hlt] at hcode hindex
  have hall := List.findIdx?_eq_none_iff.mp h fr.clusterMap[fb] (List.getElem_mem hlt)
  simp [matchesIndex, hcode, hindex] at hall

theorem ffindhi_isSome_iff {fr : ConfFsroot} {c : Fcode} {index : Nat} :
    (ffindhi fr c index).isSome ↔ ∃ fb, HasEntry fr fb c (u32 index) := by
  constructor
  · intro h
    obtain ⟨fb, hfb⟩ := Option.isSome_iff_exists.mp h
    exact ⟨fb, ffindhi_some hfb⟩
  · rintro ⟨fb, hfb⟩
    cases hfind : ffindhi fr c index with
    | some => rfl
    | none => exact absurd hfb (ffindhi_none hfind fb)

theorem ffindhi_eq_none {fr : ConfFsroot} {c : Fcode} {index : Nat} (hindex : index < 2 ^ 32)
    (h : ∀ slot, ¬ HasEntry fr slot c index) : ffindhi fr c index = none := by
  cases hfind : ffindhi fr c index with
  | none => rfl
  | some fb =>
      have hentry := ffindhi_some hfind
      rw [u32_of_lt hindex] at hentry
      exact absurd hentry (h fb)

theorem block_of_le {fr : ConfFsroot} {s : Nat} (h : fr.clusterMap.length ≤ s) :
    fr.block s = FsBlock.zero := by
  rw [ConfFsroot.block, List.getD_eq_getElem?_getD, List.getElem?_eq_none h,
    Option.getD_none]

theorem slot_lt {fr : ConfFsroot} {s : Nat} (h : (fr.block s).fcode ≠ Fcode.zero) :
    s < fr.clusterMap.length := by
  by_contra hlt
  exact h (by rw [block_of_le (by omega)]; rfl)

theorem hasEntry_of_code {fr : ConfFsroot} {s : Nat}
    (h : (fr.block s).fcode ≠ Fcode.zero) :
    HasEntry fr s (fr.block s).fcode (fr.block s).index.toNat :=
  ⟨slot_lt h, rfl, rfl⟩

theorem hasEntry_setBlock_iff {fr : ConfFsroot} {fb : Nat} {entry : FsBlock}
    (hlt : fb < fr.clusterMap.length) {s i : Nat} {c : Fcode} :
    HasEntry (fr.setBlock fb entry) s c i ↔
      (s = fb ∧ entry.fcode = c ∧ entry.index.toNat = i) ∨ (s ≠ fb ∧ HasEntry fr s c i) := by
  by_cases hs : s = fb
  · subst hs
    simp [HasEntry, ConfFsroot.block_setBlock_same hlt, hlt]
  · simp [HasEntry, ConfFsroot.block_setBlock_other hs, hs]

/-- No two entries in use have the same code and index. -/
def DistinctEntries (fr : ConfFsroot) : Prop :=
  ∀ {s t i : Nat} {c : Fcode}, c ≠ Fcode.zero → HasEntry fr s c i → HasEntry fr t c i → s = t

theorem distinctEntries_of_pairwise {fr : ConfFsroot}
    (h : fr.clusterMap.Pairwise fun a b =>
      a.fcode = Fcode.zero ∨ a.fcode ≠ b.fcode ∨ a.index ≠ b.index) :
    DistinctEntries fr := by
  have hstep : ∀ {s t i : Nat} {c : Fcode}, c ≠ Fcode.zero → HasEntry fr s c i →
      HasEntry fr t c i → ¬ s < t := by
    rintro s t i c hc ⟨hs, hcode, hindex⟩ ⟨ht, hcode', hindex'⟩ hlt
    rw [ConfFsroot.block_eq_getElem hs] at hcode hindex
    rw [ConfFsroot.block_eq_getElem ht] at hcode' hindex'
    rcases List.pairwise_iff_getElem.mp h s t hs ht hlt with hzero | hne | hne
    · exact hc (hcode.symm.trans hzero)
    · exact hne (hcode.trans hcode'.symm)
    · exact hne (BitVec.eq_of_toNat_eq (hindex.trans hindex'.symm))
  intro s t i c hc hs ht
  rcases Nat.lt_trichotomy s t with hlt | heq | hgt
  · exact absurd hlt (hstep hc hs ht)
  · exact heq
  · exact absurd hgt (hstep hc ht hs)

/-! ### Allocation -/

theorem allocatecluster_some {fr fr' : ConfFsroot} {fb : Nat}
    (h : allocatecluster fr = (fr', some fb)) :
    fr' = fr.setCursor fb ∧ fb < fr.clusterMap.length ∧
      fr.lastClusterAlloc ≤ fb ∧ (fr.block fb).fcode = Fcode.zero ∧
      ∀ slot, fr.lastClusterAlloc ≤ slot → slot < fb →
        (fr.block slot).fcode ≠ Fcode.zero := by
  unfold allocatecluster at h
  split at h
  case h_2 => simp at h
  case h_1 k hk =>
    obtain ⟨rfl, hfb⟩ := Prod.mk.inj h
    obtain rfl := Option.some.inj hfb
    obtain ⟨hlt, hfree, hbusy⟩ := List.findIdx?_eq_some_iff_getElem.mp hk
    have hbound : fr.lastClusterAlloc + k < fr.clusterMap.length := by
      rw [List.length_drop] at hlt
      omega
    refine ⟨rfl, hbound, Nat.le_add_right _ _, ?_, ?_⟩
    · rw [ConfFsroot.block_eq_getElem hbound]
      simpa [FsBlock.isFree] using hfree
    · intro slot hlow hhigh
      have hslot := hbusy (slot - fr.lastClusterAlloc) (by omega)
      have hidx : fr.lastClusterAlloc + (slot - fr.lastClusterAlloc) = slot := by omega
      rw [ConfFsroot.block_eq_getElem (Nat.lt_trans hhigh hbound)]
      simpa [FsBlock.isFree, hidx] using hslot

theorem allocatecluster_none {fr fr' : ConfFsroot}
    (h : allocatecluster fr = (fr', none)) :
    fr' = fr.setCursor 0 ∧
      ∀ slot, fr.lastClusterAlloc ≤ slot → slot < fr.clusterMap.length →
        (fr.block slot).fcode ≠ Fcode.zero := by
  unfold allocatecluster at h
  split at h
  case h_1 => simp at h
  case h_2 hnone =>
    refine ⟨(Prod.mk.inj h).1.symm, fun slot hlow hhigh => ?_⟩
    have hmem : fr.clusterMap[slot] ∈ fr.clusterMap.drop fr.lastClusterAlloc :=
      List.mem_drop_iff_getElem.mpr ⟨slot - fr.lastClusterAlloc, by omega, by
        congr 1
        omega⟩
    have hbusy := List.findIdx?_eq_none_iff.mp hnone _ hmem
    rw [ConfFsroot.block_eq_getElem hhigh]
    simpa [FsBlock.isFree] using hbusy

end BlockyOS.HostTool
