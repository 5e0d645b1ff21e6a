import BlockyOS.Frat.Agreement

/-!
# Requests to the three drivers

One read and one write request, put to the host tool, the kernel and the loader.
-/

namespace BlockyOS.Frat

open BlockyOS.Foundation
open BlockyOS.HostTool (Fault Fcode FsBlock ConfFsroot FHandle HasEntry flagcheck
  fsMetadataCluster fsReadonly ffindhi_some samplePath sampleRoot)
open BlockyOS.Kernel (SurvivesMask fcodeHashMask maskHash storedCode)

/-! ## Sizes -/

/-- The size `__fsize` counts when it starts at index `start`. -/
def sizeFrom (s : Store) (file start : Nat) : Nat :=
  u64 (fsizeFrom (hostTool false) s.root (s.fcode file) (s.root.nClusterItems + 1) start)

theorem fsizeFrom_agrees {d d' : Driver} {fr : ConfFsroot} {c : Fcode} (hd : LooksUp d c)
    (hd' : LooksUp d' c) (hlast : BelowLast fr c) (fuel : Nat) :
    ∀ {start : Nat}, start < 2 ^ 32 →
      fsizeFrom d fr c fuel start = fsizeFrom d' fr c fuel start := by
  induction fuel with
  | zero => intros; rfl
  | succ fuel ih =>
      intro start hstart
      rw [fsizeFrom, fsizeFrom, hd fr start hstart, hd' fr start hstart]
      cases hfind : HostTool.ffindhi fr c start with
      | none => rfl
      | some found => simp only [ih (next_lt hlast hstart hfind)]

theorem fsize_eq {d : Driver} {s : Store} {file : Nat} (hd : LooksUp d (s.fcode file))
    (hlast : BelowLast s.root (s.fcode file)) (hstart : d.sizeStart < 2 ^ 32) :
    fsize d s file = sizeFrom s file d.sizeStart :=
  congrArg u64 (fsizeFrom_agrees hd (hostTool_looksUp false _) hlast _ hstart)

theorem fsize_hostTool {s : Store} {file : Nat} (hlast : BelowLast s.root (s.fcode file))
    (emptyAlloc : Bool) : fsize (hostTool emptyAlloc) s file = sizeFrom s file 0 :=
  fsize_eq (hostTool_looksUp emptyAlloc _) hlast (Nat.two_pow_pos 32)

/-! ## Reads -/

def readOutcome (result : Except Fault (Nat × Option Bytes × FHandle)) :
    Except Fault (Nat × Option Bytes) :=
  result.map fun r => (r.1, r.2.1)

section Read

variable {d : Driver} {s : Store} {handle : FHandle} {nbytes : Nat}

theorem readOutcome_rejected
    (h : fsize d s handle.file < requested s handle nbytes) :
    readOutcome (fread d s handle nbytes) = .ok (d.rejected nbytes, none) := by
  rw [fread, if_pos h]
  rfl

theorem readOutcome_nothing (hempty : d.emptyAlloc = false) (hrejected : d.rejected 0 = 0) :
    readOutcome (fread d s handle 0) = .ok (0, none) := by
  rw [fread, hrejected]
  split
  · rfl
  · rw [if_pos ⟨rfl, hempty⟩]
    rfl

theorem fread_accepted (hn : nbytes ≠ 0)
    (h : ¬ fsize d s handle.file < requested s handle nbytes) (hblk : s.blkSize ≠ 0) :
    fread d s handle nbytes =
      (freadLoop d s handle.file nbytes handle.progress nbytes []).map fun r =>
        (nbytes - r.2.2, some (padTo nbytes r.1), { handle with progress := r.2.1 }) := by
  rw [fread, if_neg h, if_neg (fun hzero => hn hzero.1), if_neg (fun hzero => hblk hzero.2)]
  cases freadLoop d s handle.file nbytes handle.progress nbytes [] <;> rfl

theorem fread_blkSize_zero (hn : nbytes ≠ 0)
    (h : ¬ fsize d s handle.file < requested s handle nbytes) (hblk : s.blkSize = 0) :
    fread d s handle nbytes = .error .divByZero := by
  rw [fread, if_neg h, if_neg (fun hzero => hn hzero.1), if_pos ⟨hn, hblk⟩]

theorem readOutcome_ne_none (hn : nbytes ≠ 0)
    (h : ¬ fsize d s handle.file < requested s handle nbytes) (count : Nat) :
    readOutcome (fread d s handle nbytes) ≠ .ok (count, none) := by
  by_cases hblk : s.blkSize = 0
  · rw [fread_blkSize_zero hn h hblk]
    exact fun heq => by cases heq
  · rw [fread_accepted hn h hblk]
    cases freadLoop d s handle.file nbytes handle.progress nbytes [] <;>
      exact fun heq => by cases heq

theorem readOutcome_iff (emptyAlloc : Bool) (hd : LooksUp d (s.fcode handle.file))
    (hlast : BelowLast s.root (s.fcode handle.file)) (hguard : d.guardsWalk = false)
    (hn : nbytes ≠ 0)
    (hblocks : s.blkSize ≠ 0 → handle.progress + nbytes ≤ 2 ^ 32 * s.blkSize)
    (htool : requested s handle nbytes ≤ sizeFrom s handle.file 0) :
    readOutcome (fread d s handle nbytes) =
        readOutcome (fread (hostTool emptyAlloc) s handle nbytes) ↔
      requested s handle nbytes ≤ fsize d s handle.file ∧
        (s.blkSize ≠ 0 → ReadWalksEnd (hostTool emptyAlloc) s handle.file nbytes
          handle.progress nbytes) := by
  have haccept : ¬ fsize (hostTool emptyAlloc) s handle.file < requested s handle nbytes := by
    rw [fsize_hostTool hlast]
    omega
  by_cases hsize : fsize d s handle.file < requested s handle nbytes
  · rw [readOutcome_rejected hsize]
    constructor
    · intro heq
      exact absurd heq.symm (readOutcome_ne_none hn haccept _)
    · intro h
      exact absurd h.1 (by omega)
  · by_cases hblk : s.blkSize = 0
    · rw [fread_blkSize_zero hn hsize hblk, fread_blkSize_zero hn haccept hblk]
      exact ⟨fun _ => ⟨by omega, fun h => absurd hblk h⟩, fun _ => rfl⟩
    · rw [fread_accepted hn hsize hblk, fread_accepted hn haccept hblk]
      constructor
      · intro heq
        refine ⟨by omega, fun _ => ?_⟩
        by_contra hwalks
        obtain ⟨result, hresult⟩ :=
          freadLoop_hostTool emptyAlloc s handle.file nbytes handle.progress nbytes []
        rw [freadLoop_fault hd hlast hguard emptyAlloc nbytes (hblocks hblk) hwalks,
          hresult] at heq
        cases heq
      · intro h
        rw [freadLoop_agrees hd hlast emptyAlloc nbytes (hblocks hblk) (h.2 hblk)]

end Read

/-! ## Writes -/

section Write

variable {d : Driver} {s : Store} {handle : FHandle} {nbytes : Nat} {data : Bytes}

/-- The write gets as far as its loop. -/
structure ReachesLoop (s : Store) (handle : FHandle) (nbytes : Nat) (data : Bytes) : Prop where
  writable : ∃ fb, HostTool.ffindhi s.root (s.fcode handle.file) 0 = some fb ∧
    flagcheck (s.root.block fb).attributes fsReadonly = false
  blkSize : s.blkSize ≠ 0
  data : nbytes ≤ data.length

theorem fwrite_reachesLoop (hd : LooksUp d (s.fcode handle.file)) (hn : nbytes ≠ 0)
    (h : ReachesLoop s handle nbytes data) :
    fwrite d s handle nbytes (some data) =
      (fwriteLoop d handle.file data nbytes s handle.progress nbytes 0).map fun r =>
        (nbytes - r.2.2, { handle with progress := r.2.1 }, r.1) := by
  obtain ⟨fb, hfind, hwritable⟩ := h.writable
  rw [fwrite, if_neg hn, hd _ _ (by decide), hfind]
  simp only [hwritable, Bool.false_eq_true, if_false, if_neg h.blkSize,
    if_neg (Nat.not_lt.mpr h.data)]
  cases fwriteLoop d handle.file data nbytes s handle.progress nbytes 0 <;> rfl

theorem fwrite_not_reachesLoop {d' : Driver} (hd : LooksUp d (s.fcode handle.file))
    (hd' : LooksUp d' (s.fcode handle.file)) (hn : nbytes ≠ 0)
    (h : ¬ ReachesLoop s handle nbytes data) :
    fwrite d s handle nbytes (some data) = fwrite d' s handle nbytes (some data) := by
  rw [fwrite, fwrite, if_neg hn, if_neg hn, hd _ _ (by decide), hd' _ _ (by decide)]
  cases hfind : HostTool.ffindhi s.root (s.fcode handle.file) 0 with
  | none => rfl
  | some fb =>
      cases hwritable : flagcheck (s.root.block fb).attributes fsReadonly with
      | true => simp [hwritable]
      | false =>
          by_cases hblk : s.blkSize = 0
          · simp [hwritable, hblk]
          · by_cases hdata : data.length < nbytes
            · simp [hwritable, hblk, hdata]
            · exact absurd ⟨⟨fb, hfind, hwritable⟩, hblk, by omega⟩ h

theorem fwrite_iff (emptyAlloc : Bool) (hd : LooksUp d (s.fcode handle.file))
    (hlast : BelowLast s.root (s.fcode handle.file)) (hguard : d.guardsWalk = false)
    (hn : nbytes ≠ 0)
    (hblocks : s.blkSize ≠ 0 → handle.progress + nbytes ≤ 2 ^ 32 * s.blkSize) :
    fwrite d s handle nbytes (some data) =
        fwrite (hostTool emptyAlloc) s handle nbytes (some data) ↔
      (ReachesLoop s handle nbytes data → WriteWalksEnd (hostTool emptyAlloc) handle.file
        data nbytes s handle.progress nbytes 0) := by
  have htool := hostTool_looksUp emptyAlloc (s.fcode handle.file)
  by_cases hloop : ReachesLoop s handle nbytes data
  · have hsteady : Steady s handle.file (s.fcode handle.file) := ⟨rfl, hlast⟩
    have hdata : 0 + nbytes ≤ data.length := by rw [Nat.zero_add]; exact hloop.data
    rw [fwrite_reachesLoop hd hn hloop, fwrite_reachesLoop htool hn hloop]
    constructor
    · intro heq _
      by_contra hwalks
      obtain ⟨result, hresult⟩ := fwriteLoop_hostTool emptyAlloc handle.file data nbytes s
        handle.progress nbytes 0
      rw [fwriteLoop_fault hd hguard emptyAlloc nbytes hsteady (hblocks hloop.blkSize) hdata
        hwalks, hresult] at heq
      cases heq
    · intro h
      rw [fwriteLoop_agrees hd emptyAlloc nbytes hsteady (hblocks hloop.blkSize) hdata
        (h hloop)]
  · rw [fwrite_not_reachesLoop hd htool hn hloop]
    exact ⟨fun _ h => absurd h hloop, fun _ => rfl⟩

end Write

/-! ## Requests -/

/--
The kernel and the loader answer a read and a write as the tool does: the count
and the buffer of the read; the count, the position, the map, its cursor and
the blocks after the write.  A driver that faults answers with its fault.
-/
structure FileIOAgrees (shifted : BitVec 32) (emptyAlloc : Bool) (s : Store)
    (handle : FHandle) (nbytes : Nat) (data : Option Bytes) : Prop where
  kernelRead : readOutcome (fread (kernel shifted) s handle nbytes) =
    readOutcome (fread (hostTool emptyAlloc) s handle nbytes)
  loaderRead : readOutcome (fread loader s handle nbytes) =
    readOutcome (fread (hostTool emptyAlloc) s handle nbytes)
  kernelWrite : fwrite (kernel shifted) s handle nbytes data =
    fwrite (hostTool emptyAlloc) s handle nbytes data
  loaderWrite : fwrite loader s handle nbytes data =
    fwrite (hostTool emptyAlloc) s handle nbytes data

/--
The drivers look up the same entries for the request: the kernel's mask keeps
the code, and neither the blocks of the request nor the entries of the file
reach the end of the 32-bit indices.
-/
structure SameLookups (shifted : BitVec 32) (s : Store) (handle : FHandle) (nbytes : Nat) :
    Prop where
  survives : SurvivesMask shifted ((s.fcode handle.file).high.setWidth 64)
  blocks : s.blkSize ≠ 0 → handle.progress + nbytes ≤ 2 ^ 32 * s.blkSize
  last : BelowLast s.root (s.fcode handle.file)

/--
Nothing is asked for and no buffer comes back from the tool either, or data is
given, the range lies inside the size counted from index 0 and the one counted
from index 1, and no block is read behind the end of an extension chain.
-/
structure Agreeable (emptyAlloc : Bool) (s : Store) (handle : FHandle) (nbytes : Nat)
    (data : Option Bytes) : Prop where
  empty : nbytes = 0 → emptyAlloc = true →
    fsize (hostTool emptyAlloc) s handle.file < requested s handle nbytes
  given : nbytes ≠ 0 → data ≠ none
  inside : nbytes ≠ 0 → requested s handle nbytes ≤ sizeFrom s handle.file 0
  insideNext : nbytes ≠ 0 → requested s handle nbytes ≤ sizeFrom s handle.file 1
  reads : s.blkSize ≠ 0 →
    ReadWalksEnd (hostTool emptyAlloc) s handle.file nbytes handle.progress nbytes
  writes : ∀ bytes, data = some bytes → ReachesLoop s handle nbytes bytes →
    WriteWalksEnd (hostTool emptyAlloc) handle.file bytes nbytes s handle.progress nbytes 0

/-- The code that the kernel looks for instead of `c`. -/
def soughtCode (shifted : BitVec 32) (c : Fcode) : Fcode :=
  storedCode (maskHash (fcodeHashMask shifted) (c.low, c.high.setWidth 64))

theorem kernel_find_soughtCode {shifted : BitVec 32} {fr : ConfFsroot} {c : Fcode}
    {index fb : Nat} (h : (kernel shifted).find fr c index = some fb) :
    HasEntry fr fb (soughtCode shifted c) index := by
  obtain ⟨hlt, hmatch, -⟩ := List.findIdx?_eq_some_iff_getElem.mp h
  obtain ⟨hlow, hhigh, hindex⟩ := of_decide_eq_true hmatch
  rw [HasEntry, ConfFsroot.block_eq_getElem hlt]
  refine ⟨hlt, ?_, hindex⟩
  have hcode : fr.clusterMap[fb].fcode =
      ⟨fr.clusterMap[fb].fcode.low, fr.clusterMap[fb].fcode.high⟩ := rfl
  rw [hcode, hlow, soughtCode, storedCode, ← hhigh, BitVec.setWidth_setWidth_of_le _ (by decide),
    BitVec.setWidth_eq]

theorem fwrite_hostTool_found {emptyAlloc : Bool} {s : Store} {handle : FHandle}
    {nbytes fb : Nat} {data : Bytes} (hn : nbytes ≠ 0)
    (hfind : HostTool.ffindhi s.root (s.fcode handle.file) 0 = some fb) :
    fwrite (hostTool emptyAlloc) s handle nbytes (some data) ≠ .error .nullDeref := by
  have htool : (hostTool emptyAlloc).find s.root (s.fcode handle.file) 0 = some fb := hfind
  obtain ⟨result, hloop⟩ := fwriteLoop_hostTool emptyAlloc handle.file data nbytes s
    handle.progress nbytes 0
  rw [fwrite, if_neg hn, htool]
  simp only [hloop]
  split
  · exact fun heq => by cases heq
  · split
    · exact fun heq => by cases heq
    · split
      · exact fun heq => by cases heq
      · exact fun heq => by cases heq

theorem not_fileIOAgrees_of_lost {shifted : BitVec 32} {emptyAlloc : Bool} {s : Store}
    {handle : FHandle} {nbytes : Nat} {data : Option Bytes} (hn : nbytes ≠ 0)
    (hfind : (HostTool.ffindhi s.root (s.fcode handle.file) 0).isSome)
    (hlost : ∀ slot, ¬ HasEntry s.root slot (soughtCode shifted (s.fcode handle.file)) 0) :
    ¬ FileIOAgrees shifted emptyAlloc s handle nbytes data := by
  intro h
  cases data with
  | none => exact hn (Prod.mk.inj (Except.ok.inj h.loaderWrite)).1
  | some data =>
      obtain ⟨fb, hfb⟩ := Option.isSome_iff_exists.mp hfind
      have hnone : (kernel shifted).find s.root (s.fcode handle.file) 0 = none := by
        cases hkernel : (kernel shifted).find s.root (s.fcode handle.file) 0 with
        | none => rfl
        | some slot => exact absurd (kernel_find_soughtCode hkernel) (hlost slot)
      have hwrite := h.kernelWrite
      rw [fwrite, if_neg hn, hnone] at hwrite
      exact fwrite_hostTool_found hn hfb hwrite.symm

theorem agreeable_of_fileIOAgrees {shifted : BitVec 32} {emptyAlloc : Bool} {s : Store}
    {handle : FHandle} {nbytes : Nat} {data : Option Bytes}
    (hlookups : nbytes ≠ 0 → data ≠ none → SameLookups shifted s handle nbytes)
    (h : FileIOAgrees shifted emptyAlloc s handle nbytes data) :
    Agreeable emptyAlloc s handle nbytes data := by
  by_cases hn : nbytes = 0
  · subst hn
    refine ⟨fun _ hempty => ?_, fun h => absurd rfl h, fun h => absurd rfl h,
      fun h => absurd rfl h, fun _ => trivial, fun _ _ _ => trivial⟩
    by_contra hsize
    have hread := h.loaderRead
    rw [readOutcome_nothing rfl rfl, fread, if_neg hsize,
      if_neg (fun hzero => absurd (hzero.2.symm.trans hempty) (by decide)),
      if_neg (fun hzero => hzero.1 rfl)] at hread
    cases hread
  · have hdata : data ≠ none := by
      rintro rfl
      exact hn (Prod.mk.inj (Except.ok.inj h.loaderWrite)).1
    obtain ⟨bytes, rfl⟩ := Option.ne_none_iff_exists'.mp hdata
    have hsame := hlookups hn hdata
    have hloader := loader_looksUp (s.fcode handle.file)
    have hinside : requested s handle nbytes ≤ sizeFrom s handle.file 0 := by
      by_contra hsize
      have htool : fsize (hostTool emptyAlloc) s handle.file < requested s handle nbytes := by
        rw [fsize_hostTool hsame.last]
        omega
      have hread := h.loaderRead
      rw [readOutcome_rejected htool] at hread
      by_cases hloaded : fsize loader s handle.file < requested s handle nbytes
      · rw [readOutcome_rejected hloaded] at hread
        exact hn (Prod.mk.inj (Except.ok.inj hread)).1
      · exact readOutcome_ne_none hn hloaded _ hread
    obtain ⟨hnext, hreads⟩ := (readOutcome_iff emptyAlloc hloader hsame.last rfl hn hsame.blocks
      hinside).mp h.loaderRead
    rw [fsize_eq hloader hsame.last (by decide)] at hnext
    refine ⟨fun h => absurd h hn, fun _ => hdata, fun _ => hinside, fun _ => hnext, hreads,
      fun bytes' heq => ?_⟩
    obtain rfl := Option.some.inj heq
    exact (fwrite_iff emptyAlloc hloader hsame.last rfl hn hsame.blocks).mp h.loaderWrite

theorem fileIOAgrees_of_agreeable {shifted : BitVec 32} {emptyAlloc : Bool} {s : Store}
    {handle : FHandle} {nbytes : Nat} {data : Option Bytes}
    (hlookups : nbytes ≠ 0 → data ≠ none → SameLookups shifted s handle nbytes)
    (h : Agreeable emptyAlloc s handle nbytes data) :
    FileIOAgrees shifted emptyAlloc s handle nbytes data := by
  by_cases hn : nbytes = 0
  · subst hn
    have htool : readOutcome (fread (hostTool emptyAlloc) s handle 0) = .ok (0, none) := by
      cases emptyAlloc with
      | false => exact readOutcome_nothing rfl rfl
      | true => exact readOutcome_rejected (h.empty rfl rfl)
    have hwrite : ∀ d : Driver, d.rejected 0 = 0 →
        fwrite d s handle 0 data = .ok (0, handle, s) := by
      intro d hd
      cases data <;> simp [fwrite, hd]
    exact ⟨by rw [htool, readOutcome_nothing rfl rfl], by rw [htool, readOutcome_nothing rfl rfl],
      by rw [hwrite _ rfl, hwrite _ rfl], by rw [hwrite _ rfl, hwrite _ rfl]⟩
  · obtain ⟨bytes, rfl⟩ := Option.ne_none_iff_exists'.mp (h.given hn)
    have hsame := hlookups hn (h.given hn)
    have hloader := loader_looksUp (s.fcode handle.file)
    have hkernel := kernel_looksUp hsame.survives
    refine ⟨?_, ?_, ?_, ?_⟩
    · refine (readOutcome_iff emptyAlloc hkernel hsame.last rfl hn hsame.blocks
        (h.inside hn)).mpr ⟨?_, h.reads⟩
      rw [fsize_eq hkernel hsame.last (Nat.two_pow_pos 32)]
      exact h.inside hn
    · refine (readOutcome_iff emptyAlloc hloader hsame.last rfl hn hsame.blocks
        (h.inside hn)).mpr ⟨?_, h.reads⟩
      rw [fsize_eq hloader hsame.last (by decide)]
      exact h.insideNext hn
    · exact (fwrite_iff emptyAlloc hkernel hsame.last rfl hn hsame.blocks).mpr
        (h.writes bytes rfl)
    · exact (fwrite_iff emptyAlloc hloader hsame.last rfl hn hsame.blocks).mpr
        (h.writes bytes rfl)

/--
Where the drivers look up the same entries, they agree on a request exactly when
it is `Agreeable`; where the kernel looks for a code that no file has, they never
agree on a request of at least one byte.
-/
theorem fileIOAgrees_iff (shifted : BitVec 32) (emptyAlloc : Bool) (s : Store)
    (handle : FHandle) (nbytes : Nat) (data : Option Bytes) :
    ((nbytes ≠ 0 → data ≠ none → SameLookups shifted s handle nbytes) →
      (FileIOAgrees shifted emptyAlloc s handle nbytes data ↔
        Agreeable emptyAlloc s handle nbytes data)) ∧
    (nbytes ≠ 0 → (HostTool.ffindhi s.root (s.fcode handle.file) 0).isSome →
      (∀ slot, ¬ HasEntry s.root slot (soughtCode shifted (s.fcode handle.file)) 0) →
        ¬ FileIOAgrees shifted emptyAlloc s handle nbytes data) :=
  ⟨fun hlookups => ⟨agreeable_of_fileIOAgrees hlookups, fileIOAgrees_of_agreeable hlookups⟩,
    not_fileIOAgrees_of_lost⟩

/-! ## A small store -/

/-- A file of `data` blocks after its metadata block, all of them zero. -/
def sampleStore (data : List FsBlock) (h : HostTool.sizeofFsBlock * (data.length + 1) < 2 ^ 32) :
    Store where
  root := sampleRoot (⟨⟨7, 0⟩, fsMetadataCluster, 0⟩ :: data) (by simpa using h)
  blocks := fun _ => zeros 512

/-- One byte of the only data block is read, and one is written to it. -/
theorem fileIOAgrees_sampleStore :
    ∀ shifted emptyAlloc, FileIOAgrees shifted emptyAlloc
      (sampleStore [⟨⟨7, 0⟩, 0, 1⟩] (by decide)) ⟨0, 512, samplePath⟩ 1 (some [0x78]) := by
  intro shifted emptyAlloc
  have hwalk : WalkEnds (sampleStore [⟨⟨7, 0⟩, 0, 1⟩] (by decide)) 0 1 := by
    intro _ found hfound
    obtain rfl : 1 = found := Option.some.inj hfound
    decide
  have hsame : SameLookups shifted (sampleStore [⟨⟨7, 0⟩, 0, 1⟩] (by decide))
      ⟨0, 512, samplePath⟩ 1 := by
    refine ⟨fun i _ hset => ?_, fun _ => by decide, ?_⟩
    · have hzero : ((sampleStore [⟨⟨7, 0⟩, 0, 1⟩] (by decide)).fcode 0).high.setWidth 64 =
          0#64 := by decide
      rw [hzero, BitVec.getLsbD_zero] at hset
      cases hset
    · rintro slot ⟨hslot, -, hindex⟩
      match slot, hslot, hindex with
      | 0, _, hindex => exact absurd hindex (by decide)
      | 1, _, hindex => exact absurd hindex (by decide)
  refine ((fileIOAgrees_iff shifted emptyAlloc _ _ _ _).1 fun _ _ => hsame).mpr
    ⟨fun h => absurd h (by decide), fun _ => by decide, fun _ => by decide, fun _ => by decide,
      fun _ => Or.inr ⟨hwalk, fun _ _ _ => trivial⟩,
      fun _ _ _ => Or.inr ⟨fun _ => hwalk, fun _ _ => trivial⟩⟩

/-- A byte behind the end: the tool reports none read, the loader one. -/
theorem not_fileIOAgrees_sampleStore :
    ¬ ∃ shifted emptyAlloc, FileIOAgrees shifted emptyAlloc (sampleStore [] (by decide))
      ⟨0, 512, samplePath⟩ 1 (some [0x78]) := by
  rintro ⟨_, emptyAlloc, h⟩
  have hread := h.loaderRead
  rw [readOutcome_rejected (by decide), readOutcome_rejected (by cases emptyAlloc <;> decide)]
    at hread
  cases hread

end BlockyOS.Frat
