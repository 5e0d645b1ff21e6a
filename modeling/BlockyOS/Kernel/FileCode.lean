import BlockyOS.HostTool.Session

/-!
# File codes in the kernel

The kernel's copy of the file code (`getfcode`) and the lookups that cut a hash
to it, next to the host tool's copy of both.
-/

namespace BlockyOS.Kernel

open BlockyOS.Foundation
open BlockyOS.HostTool (Path Host Fcode FsBlock ConfFsroot Fault clearBlock canonical
  sampleHost samplePath)

/-! ## The two masks -/

/--
`FCODEHASHMASK`.  Its `UINT16_MAX` is an `unsigned int`, so the shift by 48 is
wider than its operand and C gives it no value: `shifted` is the one the
compiled shift has.  The complement is taken in 32 bits and then widened.
-/
def fcodeHashMask (shifted : BitVec 32) : BitVec 64 :=
  BitVec.allOnes 64 &&& (~~~shifted).setWidth 64

/-- The mask written out in the tool's `__getfcode`. -/
def toolHashMask : BitVec 64 := BitVec.allOnes 64 &&& ~~~(0xFFFF#64 <<< 48)

theorem getLsbD_fcodeHashMask (shifted : BitVec 32) (i : Nat) :
    (fcodeHashMask shifted).getLsbD i = (decide (i < 32) && !shifted.getLsbD i) := by
  rw [fcodeHashMask, BitVec.allOnes_and, BitVec.getLsbD_setWidth, BitVec.getLsbD_not]
  by_cases hi : i < 32
  · have hwide : i < 64 := by omega
    simp [hi, hwide]
  · simp [hi]

theorem getLsbD_toolHashMask (i : Nat) : toolHashMask.getLsbD i = decide (i < 48) := by
  have hmask : toolHashMask = (BitVec.allOnes 48).setWidth 64 := by decide
  rw [hmask, BitVec.getLsbD_setWidth, BitVec.getLsbD_allOnes]
  by_cases hi : i < 48
  · have hwide : i < 64 := by omega
    simp [hi, hwide]
  · simp [hi]

def maskHash (mask : BitVec 64) (hash : BitVec 64 × BitVec 64) : BitVec 64 × BitVec 64 :=
  (hash.1, hash.2 &&& mask)

/-- The pair the kernel's `getfcode` returns. -/
def getfcode (E : Host) (shifted : BitVec 32) (path : Path) : BitVec 64 × BitVec 64 :=
  maskHash (fcodeHashMask shifted)
    (E.blake2b (path.chars.map fun c => if c = 0x5C then 0x2F else c))

/-- The pair the tool's `__getfcode` returns. -/
def toolGetfcode (E : Host) (path : Path) : BitVec 64 × BitVec 64 :=
  maskHash toolHashMask (E.blake2b (canonical path))

def storedCode (hash : BitVec 64 × BitVec 64) : Fcode := ⟨hash.1, hash.2.setWidth 48⟩

theorem storedCode_toolGetfcode (E : Host) (path : Path) :
    storedCode (toolGetfcode E path) = HostTool.getfcode E path := rfl

/-! ## Lookup, creation and removal -/

def ffindhi (shifted : BitVec 32) (fr : ConfFsroot) (hash : BitVec 64 × BitVec 64)
    (index : Nat) : Option Nat :=
  let hash := maskHash (fcodeHashMask shifted) hash
  fr.clusterMap.findIdx? fun fb =>
    fb.fcode.low = hash.1 ∧ fb.fcode.high.setWidth 64 = hash.2 ∧ fb.index.toNat = index

def ffindh (shifted : BitVec 32) (fr : ConfFsroot) (hash : BitVec 64 × BitVec 64) :
    Option Nat :=
  ffindhi shifted fr (maskHash (fcodeHashMask shifted) hash) 0

def ffindi (E : Host) (shifted : BitVec 32) (fr : ConfFsroot) (path : Path)
    (index : Nat) : Option Nat :=
  ffindhi shifted fr (getfcode E shifted path) index

def ffind (E : Host) (shifted : BitVec 32) (fr : ConfFsroot) (path : Path) : Option Nat :=
  ffindi E shifted fr path 0

def ffremove (E : Host) (shifted : BitVec 32) (fr : ConfFsroot) (path : Path) :
    Except Fault ConfFsroot :=
  match ffind E shifted fr path with
  | some fb => .ok (clearBlock fr fb)
  | none => .error .nullDeref

/-- The code `__fcreate` gives the new entry, which masks the hash once more. -/
def createdCode (E : Host) (shifted : BitVec 32) (path : Path) : Fcode :=
  storedCode (maskHash (fcodeHashMask shifted) (getfcode E shifted path))

theorem maskHash_maskHash (mask : BitVec 64) (hash : BitVec 64 × BitVec 64) :
    maskHash mask (maskHash mask hash) = maskHash mask hash := by
  rw [maskHash, maskHash, BitVec.and_assoc, BitVec.and_self]

/-! ## When the two copies agree -/

/-- No bit of the low 48 is set where the kernel's mask has none. -/
def SurvivesMask (shifted : BitVec 32) (high : BitVec 64) : Prop :=
  ∀ i, i < 48 → high.getLsbD i = true → i < 32 ∧ shifted.getLsbD i = false

theorem and_fcodeHashMask_eq_iff {shifted : BitVec 32} {high : BitVec 64} :
    high &&& fcodeHashMask shifted = high &&& toolHashMask ↔ SurvivesMask shifted high := by
  constructor
  · intro heq i hi hset
    have hbit := congrArg (fun b : BitVec 64 => b.getLsbD i) heq
    simpa [getLsbD_fcodeHashMask, getLsbD_toolHashMask, hi, hset] using hbit
  · intro hsurvives
    apply BitVec.eq_of_getLsbD_eq
    intro i _
    simp only [BitVec.getLsbD_and, getLsbD_fcodeHashMask, getLsbD_toolHashMask]
    cases hset : high.getLsbD i with
    | false => simp
    | true =>
        by_cases hi : i < 48
        · obtain ⟨hlow, hclear⟩ := hsurvives i hi hset
          rw [hclear]
          simp [hi, hlow]
        · have hlarge : ¬ i < 32 := by omega
          simp [hi, hlarge]

/-- The high half of a path's digest. -/
def digestHigh (E : Host) (path : Path) : BitVec 64 := (E.blake2b (canonical path)).2

theorem getfcode_eq_iff {E : Host} {shifted : BitVec 32} {path : Path} :
    getfcode E shifted path = toolGetfcode E path ↔
      SurvivesMask shifted (digestHigh E path) := by
  rw [← and_fcodeHashMask_eq_iff]
  constructor
  · intro heq
    exact congrArg Prod.snd heq
  · intro heq
    exact congrArg (Prod.mk _) heq

theorem setWidth_eq_iff {high : BitVec 48} {word : BitVec 64} :
    high.setWidth 64 = word &&& toolHashMask ↔ high = (word &&& toolHashMask).setWidth 48 := by
  have hfits : ((word &&& toolHashMask).setWidth 48).setWidth 64 = word &&& toolHashMask := by
    apply BitVec.eq_of_getLsbD_eq
    intro i hi
    simp only [BitVec.getLsbD_setWidth, BitVec.getLsbD_and, getLsbD_toolHashMask]
    by_cases hlow : i < 48 <;> simp [hi, hlow]
  constructor
  · intro heq
    rw [← heq, BitVec.setWidth_setWidth_of_le _ (by decide), BitVec.setWidth_eq]
  · intro heq
    rw [heq, hfits]

theorem ffind_eq {E : Host} {shifted : BitVec 32} {path : Path}
    (h : SurvivesMask shifted (digestHigh E path)) (fr : ConfFsroot) :
    ffind E shifted fr path = HostTool.ffind E fr path := by
  have hpair := getfcode_eq_iff.mpr h
  have hmasked : maskHash (fcodeHashMask shifted) (getfcode E shifted path) =
      toolGetfcode E path := by
    rw [getfcode, maskHash_maskHash]
    exact hpair
  have hentry : ∀ fb : FsBlock,
      (fb.fcode.low = (toolGetfcode E path).1 ∧
          fb.fcode.high.setWidth 64 = (toolGetfcode E path).2 ∧ fb.index.toNat = 0) ↔
        (fb.fcode = HostTool.getfcode E path ∧ fb.index.toNat = u32 0) := by
    intro fb
    rw [← storedCode_toolGetfcode, storedCode]
    rw [show (toolGetfcode E path).2 = digestHigh E path &&& toolHashMask from rfl,
      setWidth_eq_iff, ← and_assoc]
    constructor
    · rintro ⟨⟨hlow, hhigh⟩, hindex⟩
      refine ⟨?_, hindex⟩
      rw [← hlow, ← hhigh]
    · rintro ⟨hcode, hindex⟩
      rw [hcode]
      exact ⟨⟨rfl, rfl⟩, hindex⟩
  rw [ffind, ffindi, ffindhi, hmasked, HostTool.ffind, HostTool.ffindi, HostTool.ffindhi]
  congr 1
  funext fb
  rw [HostTool.matchesIndex]
  exact decide_eq_decide.mpr (hentry fb)

/--
The two programs identify the given paths alike: the same pair for each, the
mask keeps the low 48 bits, the same entry found and removed in every map, the
same code for a new entry, and two codes of the tool stay two codes.
-/
structure SameIdentity (E : Host) (shifted : BitVec 32) (paths : Set Path) : Prop where
  pair : ∀ path ∈ paths, getfcode E shifted path = toolGetfcode E path
  keeps : ∀ path ∈ paths, digestHigh E path &&& fcodeHashMask shifted =
    digestHigh E path &&& toolHashMask
  finds : ∀ path ∈ paths, ∀ fr, ffind E shifted fr path = HostTool.ffind E fr path
  creates : ∀ path ∈ paths, createdCode E shifted path = HostTool.getfcode E path
  removes : ∀ path ∈ paths, ∀ fr, ffremove E shifted fr path = HostTool.ffremove E fr path
  distinct : ∀ path ∈ paths, ∀ other ∈ paths,
    HostTool.getfcode E path ≠ HostTool.getfcode E other →
      createdCode E shifted path ≠ createdCode E shifted other

/-- Every two 112-bit codes are still two codes under the kernel's mask. -/
def KeepsCodes (shifted : BitVec 32) : Prop :=
  ∀ c c' : Fcode, c ≠ c' →
    storedCode (maskHash (fcodeHashMask shifted) (c.low, c.high.setWidth 64)) ≠
      storedCode (maskHash (fcodeHashMask shifted) (c'.low, c'.high.setWidth 64))

theorem not_keepsCodes (shifted : BitVec 32) : ¬ KeepsCodes shifted := by
  intro hkeeps
  refine hkeeps ⟨0, 0⟩ ⟨0, 1#48 <<< 40⟩ (by decide) ?_
  have hlost : ((1#48 <<< 40).setWidth 64 &&& fcodeHashMask shifted) = 0#64 := by
    apply BitVec.eq_of_getLsbD_eq
    intro i _
    have hword : (1#48 <<< 40).setWidth 64 = BitVec.twoPow 64 40 := by decide
    rw [BitVec.getLsbD_and, getLsbD_fcodeHashMask, hword, BitVec.getLsbD_twoPow]
    by_cases hi : i = 40
    · subst hi
      rfl
    · simp [Ne.symm hi]
  simp only [maskHash, storedCode, hlost]
  simp

/--
For the paths of any set the two programs agree exactly when none of their
digests has a bit that the kernel's mask drops; over all codes they never do.
-/
theorem sameIdentity_iff (E : Host) (shifted : BitVec 32) :
    (∀ paths : Set Path, SameIdentity E shifted paths ↔
      ∀ path ∈ paths, SurvivesMask shifted (digestHigh E path)) ∧
    ¬ KeepsCodes shifted := by
  refine ⟨fun paths => ⟨fun hsame path hpath => ?_, fun hsurvives => ?_⟩,
    not_keepsCodes shifted⟩
  · exact getfcode_eq_iff.mp (hsame.pair path hpath)
  · have hpair : ∀ path ∈ paths, getfcode E shifted path = toolGetfcode E path :=
      fun path hpath => getfcode_eq_iff.mpr (hsurvives path hpath)
    have hcreates : ∀ path ∈ paths,
        createdCode E shifted path = HostTool.getfcode E path := by
      intro path hpath
      rw [createdCode, getfcode, maskHash_maskHash, ← storedCode_toolGetfcode]
      exact congrArg storedCode (hpair path hpath)
    refine ⟨hpair, fun path hpath => and_fcodeHashMask_eq_iff.mpr (hsurvives path hpath),
      fun path hpath => ffind_eq (hsurvives path hpath), hcreates, ?_, ?_⟩
    · intro path hpath fr
      have hfind := ffind_eq (hsurvives path hpath) fr
      cases hfile : HostTool.ffind E fr path with
      | none => rw [ffremove, HostTool.ffremove, hfind, hfile]
      | some file => rw [ffremove, HostTool.ffremove, hfind, hfile]
    · intro path hpath other hother hne
      rw [hcreates path hpath, hcreates other hother]
      exact hne

/-- The tool and the kernel give the path `a` two codes. -/
theorem not_sameIdentity_samplePath :
    ¬ ∃ shifted, SameIdentity sampleHost shifted {samplePath} := by
  rintro ⟨shifted, hsame⟩
  have hsurvives := getfcode_eq_iff.mp (hsame.pair samplePath rfl)
  exact absurd (hsurvives 33 (by decide) (by decide)).1 (by decide)

end BlockyOS.Kernel
