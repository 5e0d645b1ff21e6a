import BlockyOS.Frat.Drivers
import BlockyOS.HostTool.MapInvariant

/-!
# Lookups of the three drivers

On a code that the kernel's mask keeps and an index of 32 bits the three copies
of `__ffindhi` find the same entry.  What a driver reads and writes then differs
from the tool only where the extension loop of `__fread1` runs off the file.
-/

namespace BlockyOS.Frat

open BlockyOS.Foundation
open BlockyOS.HostTool (Fault Fcode FsBlock ConfFsroot FHandle HasEntry flagcheck
  fsMetadataCluster fsReadonly fsExtensionAllocatedCluster allocatecluster extensionEntry
  countFcode ffindhi_some ffindhi_none)
open BlockyOS.Kernel (SurvivesMask toolHashMask fcodeHashMask)

/-! ## The same entry -/

def LooksUp (d : Driver) (c : Fcode) : Prop :=
  ∀ fr index, index < 2 ^ 32 → d.find fr c index = HostTool.ffindhi fr c index

theorem hostTool_looksUp (emptyAlloc : Bool) (c : Fcode) : LooksUp (hostTool emptyAlloc) c :=
  fun _ _ _ => rfl

theorem setWidth_and_toolHashMask (high : BitVec 48) :
    high.setWidth 64 &&& toolHashMask = high.setWidth 64 := by
  apply BitVec.eq_of_getLsbD_eq
  intro i hi
  simp only [BitVec.getLsbD_and, BitVec.getLsbD_setWidth, Kernel.getLsbD_toolHashMask]
  by_cases hlow : i < 48
  · simp [hlow]
  · simp [BitVec.getLsbD_of_ge high i (by omega)]

theorem setWidth_injective {high high' : BitVec 48}
    (h : high.setWidth 64 = high'.setWidth 64) : high = high' := by
  have hback := congrArg (BitVec.setWidth 48) h
  rw [BitVec.setWidth_setWidth_of_le _ (by decide), BitVec.setWidth_eq,
    BitVec.setWidth_setWidth_of_le _ (by decide), BitVec.setWidth_eq] at hback
  exact hback

theorem findIdx_words (fr : ConfFsroot) (c : Fcode) {index : Nat} (hindex : index < 2 ^ 32) :
    fr.clusterMap.findIdx? (fun fb => fb.fcode.low = c.low ∧
      fb.fcode.high.setWidth 64 = c.high.setWidth 64 ∧ fb.index.toNat = index) =
      HostTool.ffindhi fr c index := by
  have hwords : ∀ fb : FsBlock,
      (fb.fcode.low = c.low ∧ fb.fcode.high.setWidth 64 = c.high.setWidth 64 ∧
        fb.index.toNat = index) ↔ (fb.fcode = c ∧ fb.index.toNat = u32 index) := by
    intro fb
    rw [u32_of_lt hindex]
    constructor
    · rintro ⟨hlow, hhigh, hfound⟩
      have hcode : fb.fcode = ⟨fb.fcode.low, fb.fcode.high⟩ := rfl
      rw [hcode, hlow, setWidth_injective hhigh]
      exact ⟨rfl, hfound⟩
    · rintro ⟨hcode, hfound⟩
      rw [hcode]
      exact ⟨rfl, rfl, hfound⟩
  rw [HostTool.ffindhi]
  congr 1
  funext fb
  rw [HostTool.matchesIndex]
  exact decide_eq_decide.mpr (hwords fb)

theorem loader_looksUp (c : Fcode) : LooksUp loader c := by
  intro fr index hindex
  have hmask : Kernel.maskHash toolHashMask (c.low, c.high.setWidth 64) =
      (c.low, c.high.setWidth 64) := by
    rw [Kernel.maskHash, setWidth_and_toolHashMask]
  simp only [loader, loaderFfindhi, hmask]
  exact findIdx_words fr c hindex

theorem kernel_looksUp {shifted : BitVec 32} {c : Fcode}
    (h : SurvivesMask shifted (c.high.setWidth 64)) : LooksUp (kernel shifted) c := by
  intro fr index hindex
  have hmask : Kernel.maskHash (fcodeHashMask shifted) (c.low, c.high.setWidth 64) =
      (c.low, c.high.setWidth 64) := by
    rw [Kernel.maskHash, Kernel.and_fcodeHashMask_eq_iff.mpr h, setWidth_and_toolHashMask]
  simp only [kernel, Kernel.ffindhi, hmask]
  exact findIdx_words fr c hindex

/-! ## The extension loop -/

def BelowLast (fr : ConfFsroot) (c : Fcode) : Prop :=
  ∀ slot, ¬ HasEntry fr slot c (2 ^ 32 - 1)

theorem next_lt {fr : ConfFsroot} {c : Fcode} (hlast : BelowLast fr c) {index fb : Nat}
    (hindex : index < 2 ^ 32) (h : HostTool.ffindhi fr c index = some fb) :
    index + 1 < 2 ^ 32 := by
  have hentry := ffindhi_some h
  rw [u32_of_lt hindex] at hentry
  have hne : index ≠ 2 ^ 32 - 1 := by
    rintro rfl
    exact hlast fb hentry
  omega

theorem skipExtension_agrees {d d' : Driver} {fr : ConfFsroot} {c : Fcode}
    (hd : LooksUp d c) (hd' : LooksUp d' c) (hlast : BelowLast fr c) (fuel : Nat) :
    ∀ {fb : Option Nat} {index : Nat}, (fb.isSome → index < 2 ^ 32) →
      skipExtension d fr c fuel fb index = skipExtension d' fr c fuel fb index := by
  induction fuel with
  | zero => intro fb index _; rfl
  | succ fuel ih =>
      intro fb index hindex
      cases fb with
      | none => rfl
      | some fb =>
          have hlt := hindex rfl
          rw [skipExtension, skipExtension, hd fr index hlt, hd' fr index hlt]
          split
          · apply ih
            intro hsome
            obtain ⟨found, hfound⟩ := Option.isSome_iff_exists.mp hsome
            have hnext := next_lt hlast hlt hfound
            rwa [u64_of_lt (by omega)]
          · rfl

theorem skipExtension_lt {d : Driver} {fr : ConfFsroot} {c : Fcode} (hd : LooksUp d c)
    (hlast : BelowLast fr c) (fuel : Nat) :
    ∀ {fb : Option Nat} {index found next : Nat}, (fb.isSome → index < 2 ^ 32) →
      skipExtension d fr c fuel fb index = (some found, next) → next < 2 ^ 32 := by
  induction fuel with
  | zero =>
      intro fb index found next hindex h
      obtain ⟨rfl, rfl⟩ := Prod.mk.inj h
      exact hindex rfl
  | succ fuel ih =>
      intro fb index found next hindex h
      cases fb with
      | none => cases (Prod.mk.inj h).1
      | some fb =>
          have hlt := hindex rfl
          rw [skipExtension, hd fr index hlt] at h
          split at h
          · refine ih (fun hsome => ?_) h
            obtain ⟨found, hfound⟩ := Option.isSome_iff_exists.mp hsome
            have hnext := next_lt hlast hlt hfound
            rwa [u64_of_lt (by omega)]
          · obtain ⟨-, rfl⟩ := Prod.mk.inj h
            exact hlt

theorem walk_agrees {d d' : Driver} {s : Store} {file fb index : Nat}
    (hd : LooksUp d (s.fcode file)) (hd' : LooksUp d' (s.fcode file))
    (hlast : BelowLast s.root (s.fcode file)) (hindex : index < 2 ^ 32) :
    walk d s file fb index = walk d' s file fb index :=
  skipExtension_agrees hd hd' hlast _ fun _ => hindex

/-- The tool's walk from block `index` of the file ends at an entry. -/
def WalkEnds (s : Store) (file index : Nat) : Prop :=
  index ≠ (s.root.block file).index.toNat →
    ∀ found, HostTool.ffindhi s.root (s.fcode file) index = some found →
      (walk (hostTool false) s file found index).1 ≠ none

/-! ## One block -/

section Block

variable {d : Driver} {s : Store} {file index : Nat} (hd : LooksUp d (s.fcode file))
  (hlast : BelowLast s.root (s.fcode file)) (hindex : index < 2 ^ 32)

include hd hlast hindex

theorem fread1_of_walkEnds (emptyAlloc : Bool) (h : WalkEnds s file index) :
    fread1 d s file index = fread1 (hostTool emptyAlloc) s file index := by
  rw [fread1, fread1, hd _ _ hindex]
  by_cases hown : index ≠ (s.root.block file).index.toNat
  · rw [if_pos hown, if_pos hown]
    simp only [hostTool]
    cases hfind : HostTool.ffindhi s.root (s.fcode file) index with
    | none => rfl
    | some found =>
        have hends := h hown found hfind
        have hwalk : walk d s file found index = walk (hostTool false) s file found index :=
          walk_agrees hd (hostTool_looksUp _ _) hlast hindex
        have hwalk' : walk (hostTool emptyAlloc) s file found index =
            walk (hostTool false) s file found index :=
          walk_agrees (hostTool_looksUp _ _) (hostTool_looksUp _ _) hlast hindex
        simp only [hostTool] at hwalk hwalk' hends
        simp only [hwalk, hwalk']
        revert hends
        generalize walk _ s file found index = result
        obtain ⟨slot, next⟩ := result
        intro hends
        cases slot with
        | none => exact absurd rfl hends
        | some slot => rfl
  · rw [if_neg hown, if_neg hown]

theorem fread1_of_not_walkEnds (hguard : d.guardsWalk = false) (h : ¬ WalkEnds s file index) :
    fread1 d s file index = .error .nullDeref := by
  unfold WalkEnds at h
  push Not at h
  obtain ⟨hown, found, hfind, hnone⟩ := h
  have hwalk : walk d s file found index = walk (hostTool false) s file found index :=
    walk_agrees hd (hostTool_looksUp _ _) hlast hindex
  rw [fread1, if_pos hown, hd _ _ hindex, hfind]
  simp only [hwalk]
  cases hresult : walk (hostTool false) s file found index with
  | mk slot next =>
      rw [hresult] at hnone
      obtain rfl : slot = none := hnone
      simp [hguard]

theorem fread1_index_lt {blk : Option Bytes} {next : Nat} (h : WalkEnds s file index)
    (hread : fread1 d s file index = .ok (blk, next)) : next < 2 ^ 32 := by
  rw [fread1_of_walkEnds hd hlast hindex false h, fread1] at hread
  by_cases hown : index ≠ (s.root.block file).index.toNat
  · rw [if_pos hown] at hread
    simp only [hostTool] at hread
    cases hfind : HostTool.ffindhi s.root (s.fcode file) index with
    | none =>
        simp only [hfind] at hread
        cases hread
        exact hindex
    | some found =>
        have hends := h hown found hfind
        simp only [hostTool] at hends
        simp only [hfind] at hread
        split at hread
        case h_1 slot next' hwalk =>
          cases hread
          exact skipExtension_lt (hostTool_looksUp false _) hlast _ (fun _ => hindex) hwalk
        case h_2 next' hwalk =>
          rw [hwalk] at hends
          exact absurd rfl hends
  · rw [if_neg hown] at hread
    cases hread
    exact hindex

theorem fpush1_agrees (emptyAlloc : Bool) (buffer : Bytes) :
    fpush1 d s file index buffer = fpush1 (hostTool emptyAlloc) s file index buffer := by
  have hwalk : ∀ found, walk d s file found index =
      walk (hostTool emptyAlloc) s file found index :=
    fun found => walk_agrees hd (hostTool_looksUp _ _) hlast hindex
  rw [fpush1, fpush1, hd _ _ hindex]
  simp only [hwalk, hostTool]

end Block

theorem fread1_hostTool (emptyAlloc : Bool) (s : Store) (file index : Nat) :
    ∃ result, fread1 (hostTool emptyAlloc) s file index = .ok result := by
  rw [fread1]
  split
  · split
    · exact ⟨_, rfl⟩
    · split
      · exact ⟨_, rfl⟩
      · exact ⟨_, rfl⟩
  · exact ⟨_, rfl⟩

end BlockyOS.Frat
