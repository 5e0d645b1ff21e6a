import BlockyOS.Foundation.Scans
import BlockyOS.Frat.Lookups

/-!
# Skipping extension clusters

A request for block `i` of a file is meant for the first entry from index `i` on
that is no extension cluster.  The loop that looks for it tries the same index
twice, and leaves the index one past the entry it ends at; it never looks behind an
index the file has no entry for.
-/

namespace BlockyOS.Frat

open BlockyOS.Foundation
open BlockyOS.HostTool (Fault Fcode FsBlock ConfFsroot HasEntry flagcheck
  fsMetadataCluster fsExtensionAllocatedCluster allocatecluster allocatecluster_some
  extensionEntry sampleRoot)

/-! ## What a request is meant for -/

/-- The three copies of `frat.c`. -/
inductive Copy : Driver → Prop
  | hostTool (emptyAlloc : Bool) : Copy (hostTool emptyAlloc)
  | kernel (shifted : BitVec 32) : Copy (kernel shifted)
  | loader : Copy loader

def flagged (fr : ConfFsroot) (slot : Nat) : Bool :=
  flagcheck (fr.block slot).attributes fsExtensionAllocatedCluster

/-- The entry of the code at index `j` is no extension cluster. -/
def DataAt (fr : ConfFsroot) (c : Fcode) (j slot : Nat) : Prop :=
  HasEntry fr slot c j ∧ flagged fr slot = false

/-- The first such entry from index `i` on. -/
def FirstData (fr : ConfFsroot) (c : Fcode) (i j slot : Nat) : Prop :=
  i ≤ j ∧ DataAt fr c j slot ∧ ∀ j' slot', i ≤ j' → DataAt fr c j' slot' → j ≤ j'

def NoData (fr : ConfFsroot) (c : Fcode) (i : Nat) : Prop :=
  ∀ j slot, i ≤ j → ¬ DataAt fr c j slot

/-- The index `__fpush1` leaves behind. -/
def pushedIndex (d : Driver) (s : Store) (fb i : Nat) : Nat :=
  if i ≠ (s.root.block fb).index.toNat then
    match d.find s.root (s.fcode fb) i with
    | none => i
    | some found => (walk d s fb found i).2
  else i

/-- `__fread1` reads the first data block from `i` on, and NULL if there is none. -/
def ReadsData (d : Driver) (fr : ConfFsroot) (fb i : Nat) : Prop :=
  ∀ blocks : Nat → Bytes,
    (∀ j slot, FirstData fr (fr.block fb).fcode i j slot →
      fread1 d ⟨fr, blocks⟩ fb i = .ok (some (blocks slot), j)) ∧
    (NoData fr (fr.block fb).fcode i → ∃ j, fread1 d ⟨fr, blocks⟩ fb i = .ok (none, j))

/--
`__fpush1` overwrites the first data block from `i` on; if there is none it
allocates a cluster, which is no extension cluster.
-/
def PushesData (d : Driver) (fr : ConfFsroot) (fb i : Nat) : Prop :=
  ∀ (blocks : Nat → Bytes) (buffer : Bytes),
    (∀ j slot, FirstData fr (fr.block fb).fcode i j slot →
      fpush1 d ⟨fr, blocks⟩ fb i buffer = Store.write ⟨fr, blocks⟩ slot buffer ∧
        pushedIndex d ⟨fr, blocks⟩ fb i = j) ∧
    (NoData fr (fr.block fb).fcode i →
      fpush1 d ⟨fr, blocks⟩ fb i buffer = fpushNew ⟨fr, blocks⟩ fb buffer ∧
        ∀ slot, (allocatecluster fr).2 = some slot →
          flagged (fpush1 d ⟨fr, blocks⟩ fb i buffer).root slot = false)

/-! ## Where the loop ends -/

/-- What the driver finds `k` places behind index `i`. -/
def seenFrom (d : Driver) (fr : ConfFsroot) (c : Fcode) (i k : Nat) : Option Nat :=
  d.find fr c (u64 (i + k))

/-- The lookups from `i` on meet extension clusters only, up to one that finds nothing. -/
def RunsOut (d : Driver) (fr : ConfFsroot) (c : Fcode) (i : Nat) : Prop :=
  ∃ m, (∀ k < m, ∃ slot, seenFrom d fr c i k = some slot ∧ flagged fr slot = true) ∧
    seenFrom d fr c i m = none

theorem Copy.find_index {d : Driver} (hd : Copy d) {fr : ConfFsroot} {c : Fcode}
    {index slot : Nat} (h : d.find fr c index = some slot) :
    slot < fr.clusterMap.length ∧ (fr.block slot).index.toNat = u32 index := by
  cases hd with
  | hostTool emptyAlloc =>
      obtain ⟨hlt, -, hindex⟩ := HostTool.ffindhi_some h
      exact ⟨hlt, hindex⟩
  | kernel shifted =>
      obtain ⟨hlt, hmatch, -⟩ := List.findIdx?_eq_some_iff_getElem.mp h
      rw [decide_eq_true_iff] at hmatch
      rw [ConfFsroot.block_eq_getElem hlt, ← hmatch.2.2, u32_of_lt (BitVec.isLt _)]
      exact ⟨hlt, rfl⟩
  | loader =>
      obtain ⟨hlt, hmatch, -⟩ := List.findIdx?_eq_some_iff_getElem.mp h
      rw [decide_eq_true_iff] at hmatch
      rw [ConfFsroot.block_eq_getElem hlt, ← hmatch.2.2, u32_of_lt (BitVec.isLt _)]
      exact ⟨hlt, rfl⟩

theorem Copy.exists_stops {d : Driver} (hd : Copy d) (fr : ConfFsroot) (c : Fcode) (i : Nat) :
    ∃ m ≤ fr.nClusterItems, Stops (seenFrom d fr c i) (flagged fr) m := by
  have hlength := fr.length_lt
  have hcard : (Finset.range fr.clusterMap.length).card = fr.nClusterItems := by
    rw [Finset.card_range, fr.length_clusterMap]
  rw [← hcard]
  refine Foundation.exists_stops _ (fun k slot h => ?_) fun k hk k' hk' slot h h' => ?_
  · exact Finset.mem_range.mpr (hd.find_index h).1
  · rw [Finset.card_range] at hk hk'
    have hsame : u32 (u64 (i + k)) = u32 (u64 (i + k')) :=
      (hd.find_index h).2.symm.trans (hd.find_index h').2
    unfold u32 u64 at hsame
    omega

section Loop

variable {d : Driver} {fr : ConfFsroot} {c : Fcode} {i : Nat}

theorem skipExtension_seen (r : Nat) :
    ∀ k fuel, Stops (seenFrom d fr c i) (flagged fr) (k + r) → r ≤ fuel →
      skipExtension d fr c fuel (seenFrom d fr c i k) (u64 (i + k + 1)) =
        (seenFrom d fr c i (k + r), u64 (i + k + r + 1)) := by
  induction r with
  | zero =>
      intro k fuel hstops _
      cases fuel with
      | zero => rfl
      | succ fuel =>
          rw [Nat.add_zero, Nat.add_zero]
          cases hseen : seenFrom d fr c i k with
          | none => rfl
          | some slot =>
              have hplain : flagged fr slot = false := hstops.stop slot hseen
              rw [skipExtension, ← flagged, hplain]
              rfl
  | succ r ih =>
      intro k fuel hstops hfuel
      obtain ⟨fuel, rfl⟩ := Nat.exists_eq_succ_of_ne_zero (Nat.ne_of_gt (Nat.lt_of_lt_of_le
        (Nat.succ_pos r) hfuel))
      obtain ⟨slot, hseen, hflag⟩ := hstops.before k (by omega)
      have hnext : u64 (u64 (i + k + 1) + 1) = u64 (i + (k + 1) + 1) := by
        unfold u64
        omega
      rw [hseen, skipExtension, ← flagged, if_pos hflag, hnext]
      have hrest := ih (k + 1) fuel (by rwa [Nat.add_right_comm, Nat.add_assoc]) (by omega)
      rw [show k + 1 + r = k + (r + 1) by omega,
        show i + (k + 1) + r + 1 = i + k + (r + 1) + 1 by omega] at hrest
      exact hrest

theorem runsOut_iff {m : Nat} (hstops : Stops (seenFrom d fr c i) (flagged fr) m) :
    RunsOut d fr c i ↔ seenFrom d fr c i m = none := by
  constructor
  · rintro ⟨m', hbefore, hnone⟩
    have hstops' : Stops (seenFrom d fr c i) (flagged fr) m' :=
      ⟨hbefore, fun a hseen => by rw [hnone] at hseen; cases hseen⟩
    rwa [hstops.unique hstops']
  · exact fun hnone => ⟨m, hstops.before, hnone⟩

variable (hi : i < 2 ^ 64)

include hi

theorem seenFrom_zero : seenFrom d fr c i 0 = d.find fr c i := by
  rw [seenFrom, Nat.add_zero, u64_of_lt hi]

theorem skipExtension_stops {m fuel found : Nat} (hfind : d.find fr c i = some found)
    (hstops : Stops (seenFrom d fr c i) (flagged fr) m) (hm : m ≤ fr.nClusterItems)
    (hfuel : fr.nClusterItems + 2 ≤ fuel) :
    skipExtension d fr c fuel (some found) i =
      (seenFrom d fr c i m, if m = 0 then i else u64 (i + m + 1)) := by
  obtain ⟨fuel, rfl⟩ : ∃ rest, fuel = rest + 1 := ⟨fuel - 1, by omega⟩
  have hfirst : seenFrom d fr c i 0 = some found := (seenFrom_zero hi).trans hfind
  by_cases hzero : m = 0
  · subst hzero
    have hplain : flagged fr found = false := hstops.stop found hfirst
    rw [if_pos rfl, hfirst, skipExtension, ← flagged, hplain]
    rfl
  · obtain ⟨slot, hseen, hflag⟩ := hstops.before 0 (Nat.pos_of_ne_zero hzero)
    obtain rfl := Option.some.inj (hfirst.symm.trans hseen)
    have hloop := skipExtension_seen m 0 fuel (by rwa [Nat.zero_add]) (by omega)
    simp only [Nat.zero_add, Nat.add_zero] at hloop
    rw [if_neg hzero, skipExtension, ← flagged, if_pos hflag, ← seenFrom_zero hi, hloop]

end Loop

/-! ## One request -/

/-- The index after the loop, which stopped `m` places behind `i`. -/
def indexAfter (i m : Nat) : Nat := if m = 0 then i else u64 (i + m + 1)

section Request

variable {d : Driver} {fr : ConfFsroot} {fb i m : Nat} (hi : i < 2 ^ 64)
  (hown : i ≠ (fr.block fb).index.toNat)
  (hstops : Stops (seenFrom d fr (fr.block fb).fcode i) (flagged fr) m)
  (hm : m ≤ fr.nClusterItems) (blocks : Nat → Bytes)

include hi hstops

theorem find_of_seen {slot : Nat} (hseen : seenFrom d fr (fr.block fb).fcode i m = some slot) :
    ∃ found, d.find fr (fr.block fb).fcode i = some found := by
  rw [← seenFrom_zero hi]
  cases m with
  | zero => exact ⟨slot, hseen⟩
  | succ m =>
      obtain ⟨first, hfirst, -⟩ := hstops.before 0 (Nat.succ_pos m)
      exact ⟨first, hfirst⟩

include hm

theorem walk_stops {found : Nat} (hfind : d.find fr (fr.block fb).fcode i = some found) :
    walk d ⟨fr, blocks⟩ fb found i =
      (seenFrom d fr (fr.block fb).fcode i m, indexAfter i m) :=
  skipExtension_stops hi hfind hstops hm (Nat.le_refl _)

include hown

theorem fread1_some {slot : Nat}
    (hseen : seenFrom d fr (fr.block fb).fcode i m = some slot) :
    fread1 d ⟨fr, blocks⟩ fb i = .ok (some (blocks slot), indexAfter i m) := by
  obtain ⟨found, hfind⟩ := find_of_seen hi hstops hseen
  have hwalk := walk_stops hi hstops hm blocks hfind
  rw [hseen] at hwalk
  rw [fread1, if_pos hown]
  simp only [Store.fcode, hfind, hwalk]

theorem fread1_none (hseen : seenFrom d fr (fr.block fb).fcode i m = none) :
    fread1 d ⟨fr, blocks⟩ fb i =
      if m = 0 ∨ d.guardsWalk = true then .ok (none, indexAfter i m)
      else .error .nullDeref := by
  rw [fread1, if_pos hown]
  cases hfind : d.find fr (fr.block fb).fcode i with
  | none =>
      have hzero : m = 0 := by
        by_contra hne
        obtain ⟨first, hfirst, -⟩ := hstops.before 0 (Nat.pos_of_ne_zero hne)
        rw [seenFrom_zero hi, hfind] at hfirst
        cases hfirst
      simp only [Store.fcode, hfind]
      rw [if_pos (.inl hzero), indexAfter, if_pos hzero]
  | some found =>
      have hne : m ≠ 0 := by
        rintro rfl
        rw [seenFrom_zero hi, hfind] at hseen
        cases hseen
      have hwalk := walk_stops hi hstops hm blocks hfind
      rw [hseen] at hwalk
      simp only [Store.fcode, hfind, hwalk, hne, false_or]

theorem fpush1_some (buffer : Bytes) {slot : Nat}
    (hseen : seenFrom d fr (fr.block fb).fcode i m = some slot) :
    fpush1 d ⟨fr, blocks⟩ fb i buffer = Store.write ⟨fr, blocks⟩ slot buffer ∧
      pushedIndex d ⟨fr, blocks⟩ fb i = indexAfter i m := by
  obtain ⟨found, hfind⟩ := find_of_seen hi hstops hseen
  have hwalk := walk_stops hi hstops hm blocks hfind
  rw [hseen] at hwalk
  rw [fpush1, pushedIndex, if_pos hown, if_pos hown]
  simp only [Store.fcode, hfind, hwalk, and_self]

theorem fpush1_none (buffer : Bytes)
    (hseen : seenFrom d fr (fr.block fb).fcode i m = none) :
    fpush1 d ⟨fr, blocks⟩ fb i buffer = fpushNew ⟨fr, blocks⟩ fb buffer := by
  rw [fpush1, if_pos hown]
  cases hfind : d.find fr (fr.block fb).fcode i with
  | none => simp only [Store.fcode, hfind]
  | some found =>
      have hwalk := walk_stops hi hstops hm blocks hfind
      rw [hseen] at hwalk
      simp only [Store.fcode, hfind, hwalk]

end Request

/-! ## When the right block is met -/

/-- The lookup of index `i` finds the data block at that very index. -/
def FindsData (d : Driver) (fr : ConfFsroot) (fb i : Nat) : Prop :=
  ∃ slot, d.find fr (fr.block fb).fcode i = some slot ∧ DataAt fr (fr.block fb).fcode i slot

/-- There is no data block from `i` on, and the copy gets to know it. -/
def MissesData (d : Driver) (fr : ConfFsroot) (fb i : Nat) : Prop :=
  NoData fr (fr.block fb).fcode i ∧
    (d.find fr (fr.block fb).fcode i = none ∨
      d.guardsWalk = true ∧ RunsOut d fr (fr.block fb).fcode i)

/-- There is no data block from `i` on, and a new cluster can hold one. -/
def RoomForData (d : Driver) (fr : ConfFsroot) (fb i : Nat) : Prop :=
  NoData fr (fr.block fb).fcode i ∧ RunsOut d fr (fr.block fb).fcode i ∧
    ((allocatecluster fr).2 = none ∨ flagged fr fb = false)

theorem exists_firstData {fr : ConfFsroot} {c : Fcode} {i : Nat} (h : ¬ NoData fr c i) :
    ∃ j slot, FirstData fr c i j slot := by
  classical
  have hexists : ∃ j, i ≤ j ∧ ∃ slot, DataAt fr c j slot := by
    by_contra hnone
    exact h fun j slot hle hdata => hnone ⟨j, hle, slot, hdata⟩
  obtain ⟨hle, slot, hdata⟩ := Nat.find_spec hexists
  exact ⟨Nat.find hexists, slot, hle, hdata, fun j' slot' hle' hdata' =>
    Nat.find_min' hexists ⟨hle', slot', hdata'⟩⟩

theorem FirstData.found_at {d : Driver} (hd : Copy d) {fr : ConfFsroot} {c : Fcode}
    {i j m slot : Nat} (h : FirstData fr c i j slot) (hseen : seenFrom d fr c i m = some slot)
    (hindex : indexAfter i m = j) : m = 0 ∧ i = j := by
  have hj : (fr.block slot).index.toNat = j := h.2.1.1.2.2
  have hfound := (hd.find_index hseen).2
  rw [hj] at hfound
  unfold indexAfter at hindex
  split at hindex
  case isTrue hzero => exact ⟨hzero, hindex⟩
  case isFalse =>
    unfold u32 u64 at hfound
    unfold u64 at hindex
    omega

theorem FirstData.eq_of_data {fr : ConfFsroot} {c : Fcode} {i j slot slot' : Nat}
    (h : FirstData fr c i j slot')
    (hdistinct : ∀ {s t j : Nat}, HasEntry fr s c j → HasEntry fr t c j → s = t)
    (hdata : DataAt fr c i slot) : i = j ∧ slot = slot' := by
  obtain rfl := Nat.le_antisymm h.1 (h.2.2 i slot (Nat.le_refl i) hdata)
  exact ⟨rfl, hdistinct hdata.1 h.2.1.1⟩

theorem stops_of_find {d : Driver} {fr : ConfFsroot} {c : Fcode} {i slot : Nat}
    (hi : i < 2 ^ 64) (hfind : d.find fr c i = some slot) (hdata : DataAt fr c i slot) :
    Stops (seenFrom d fr c i) (flagged fr) 0 :=
  ⟨fun k hk => absurd hk (Nat.not_lt_zero k), fun a ha => by
    rw [seenFrom_zero hi, hfind] at ha
    rw [← Option.some.inj ha]
    exact hdata.2⟩

theorem flagged_fpushNew {fr : ConfFsroot} {fb slot : Nat} (blocks : Nat → Bytes)
    (buffer : Bytes) (halloc : (allocatecluster fr).2 = some slot) :
    flagged (fpushNew ⟨fr, blocks⟩ fb buffer).root slot = flagged fr fb := by
  rcases hpair : allocatecluster fr with ⟨fr₁, slot'⟩
  obtain rfl : slot' = some slot := by
    rw [hpair] at halloc
    exact halloc
  obtain ⟨rfl, hlt, -⟩ := allocatecluster_some hpair
  have hnew : (fpushNew ⟨fr, blocks⟩ fb buffer).root =
      (fr.setCursor slot).setBlock slot (extensionEntry (fr.setCursor slot) fb) := by
    simp only [fpushNew, faddr, hpair, Store.write_root]
  rw [flagged, hnew, ConfFsroot.block_setBlock_same (by simpa using hlt)]
  exact HostTool.flagcheck_flagunset_of_disjoint (by decide)

theorem fpushNew_ne_write (fr : ConfFsroot) {fb : Nat} (slot : Nat)
    (hlive : (fr.block fb).fcode ≠ Fcode.zero) :
    ¬ ∀ blocks buffer, Store.write ⟨fr, blocks⟩ slot buffer = fpushNew ⟨fr, blocks⟩ fb buffer := by
  intro h
  have hsame := h (fun _ => []) [0]
  rcases hpair : allocatecluster fr with ⟨fr₁, - | slot'⟩
  · have hblocks := congrArg (fun s : Store => s.blocks slot) hsame
    simp [fpushNew, faddr, hpair, Store.write] at hblocks
  · obtain ⟨rfl, hlt, -, hfree, -⟩ := allocatecluster_some hpair
    have hcode := congrArg (fun s : Store => (s.root.block slot').fcode) hsame
    simp only [fpushNew, faddr, hpair, Store.write_root] at hcode
    rw [ConfFsroot.block_setBlock_same (by simpa using hlt), hfree] at hcode
    exact hlive hcode.symm

theorem skipExtension_ends {d : Driver} (hd : Copy d) {fr : ConfFsroot} {fb i : Nat}
    (hi : i < 2 ^ 64) {found : Nat} (hfind : d.find fr (fr.block fb).fcode i = some found) :
    ∃ slot index, (∀ fuel ≥ fr.nClusterItems + 2,
        skipExtension d fr (fr.block fb).fcode fuel (some found) i = (slot, index)) ∧
      ∀ t, slot = some t → flagged fr t = false := by
  obtain ⟨m, hm, hstops⟩ := hd.exists_stops fr (fr.block fb).fcode i
  exact ⟨_, _, fun fuel hfuel => skipExtension_stops hi hfind hstops hm hfuel, hstops.stop⟩

section Exact

variable {d : Driver} (hd : Copy d) {fr : ConfFsroot} {fb i : Nat}
  (hdistinct : ∀ {s t j : Nat}, HasEntry fr s (fr.block fb).fcode j →
    HasEntry fr t (fr.block fb).fcode j → s = t)
  (hown : i ≠ (fr.block fb).index.toNat) (hi : i < 2 ^ 64)

include hd hdistinct hown hi

theorem readsData_iff : ReadsData d fr fb i ↔ FindsData d fr fb i ∨ MissesData d fr fb i := by
  obtain ⟨m, hm, hstops⟩ := hd.exists_stops fr (fr.block fb).fcode i
  have hzero := @seenFrom_zero d fr (fr.block fb).fcode i hi
  constructor
  · intro h
    by_cases hno : NoData fr (fr.block fb).fcode i
    · obtain ⟨j, hread⟩ := (h fun _ => []).2 hno
      cases hseen : seenFrom d fr (fr.block fb).fcode i m with
      | some slot =>
          rw [fread1_some hi hown hstops hm _ hseen] at hread
          cases hread
      | none =>
          rw [fread1_none hi hown hstops hm _ hseen] at hread
          split at hread
          case isFalse => cases hread
          case isTrue hends =>
            refine .inr ⟨hno, ?_⟩
            rcases hends with rfl | hguard
            · exact .inl (hzero.symm.trans hseen)
            · exact .inr ⟨hguard, (runsOut_iff hstops).mpr hseen⟩
    · obtain ⟨j, slot, hfirst⟩ := exists_firstData hno
      have hread := fun blocks => (h blocks).1 j slot hfirst
      cases hseen : seenFrom d fr (fr.block fb).fcode i m with
      | none =>
          have hnull := hread fun _ => []
          rw [fread1_none hi hown hstops hm _ hseen] at hnull
          split at hnull <;> cases hnull
      | some slot' =>
          -- blocks that differ tell the slots apart
          have hsame := hread fun t => if t = slot then [0] else []
          rw [fread1_some hi hown hstops hm _ hseen] at hsame
          obtain ⟨hblock, hindex⟩ := Prod.mk.inj (Except.ok.inj hsame)
          have hslot : slot' = slot := by
            by_contra hne
            simp [hne] at hblock
          subst hslot
          obtain ⟨rfl, rfl⟩ := hfirst.found_at hd hseen hindex
          exact .inl ⟨slot', hzero.symm.trans hseen, hfirst.2.1⟩
  · rintro (⟨slot, hfind, hdata⟩ | ⟨hno, hmisses⟩) blocks
    · refine ⟨fun j slot' hfirst => ?_, fun hno => absurd hdata (hno i slot (Nat.le_refl i))⟩
      obtain ⟨rfl, rfl⟩ := hfirst.eq_of_data hdistinct hdata
      have hstart := stops_of_find hi hfind hdata
      rw [fread1_some hi hown hstart (Nat.zero_le _) _ (hzero.trans hfind)]
      rfl
    · refine ⟨fun j slot hfirst => absurd hfirst.2.1 (hno j slot hfirst.1), fun _ => ?_⟩
      have hseen : seenFrom d fr (fr.block fb).fcode i m = none ∧
          (m = 0 ∨ d.guardsWalk = true) := by
        rcases hmisses with hnone | ⟨hguard, hruns⟩
        · have hstart : Stops (seenFrom d fr (fr.block fb).fcode i) (flagged fr) 0 :=
            ⟨fun k hk => absurd hk (Nat.not_lt_zero k), fun a ha => by
              rw [hzero, hnone] at ha
              cases ha⟩
          obtain rfl := hstops.unique hstart
          exact ⟨hzero.trans hnone, .inl rfl⟩
        · exact ⟨(runsOut_iff hstops).mp hruns, .inr hguard⟩
      exact ⟨_, (fread1_none hi hown hstops hm _ hseen.1).trans (if_pos hseen.2)⟩

theorem pushesData_iff (hlive : (fr.block fb).fcode ≠ Fcode.zero) :
    PushesData d fr fb i ↔ FindsData d fr fb i ∨ RoomForData d fr fb i := by
  obtain ⟨m, hm, hstops⟩ := hd.exists_stops fr (fr.block fb).fcode i
  have hzero := @seenFrom_zero d fr (fr.block fb).fcode i hi
  constructor
  · intro h
    by_cases hno : NoData fr (fr.block fb).fcode i
    · cases hseen : seenFrom d fr (fr.block fb).fcode i m with
      | some slot =>
          refine absurd (fun blocks buffer => ?_) (fpushNew_ne_write fr slot hlive)
          rw [← ((h blocks buffer).2 hno).1, (fpush1_some hi hown hstops hm _ _ hseen).1]
      | none =>
          refine .inr ⟨hno, (runsOut_iff hstops).mpr hseen, ?_⟩
          rcases halloc : (allocatecluster fr).2 with - | slot
          · exact .inl rfl
          · obtain ⟨hnew, hflag⟩ := (h (fun _ => []) []).2 hno
            rw [hnew] at hflag
            rw [← flagged_fpushNew _ _ halloc]
            exact .inr (hflag slot halloc)
    · obtain ⟨j, slot, hfirst⟩ := exists_firstData hno
      have hpush := fun blocks buffer => (h blocks buffer).1 j slot hfirst
      cases hseen : seenFrom d fr (fr.block fb).fcode i m with
      | none =>
          refine absurd (fun blocks buffer => ?_) (fpushNew_ne_write fr slot hlive)
          rw [← (hpush blocks buffer).1, fpush1_none hi hown hstops hm _ _ hseen]
      | some slot' =>
          obtain ⟨hwrite, hindex⟩ := hpush (fun _ => []) [0]
          obtain ⟨hwrite', hindex'⟩ :=
            fpush1_some hi hown hstops hm (fun _ => []) [0] hseen
          have hslot : slot = slot' := by
            have hblock := congrArg (fun s : Store => s.blocks slot) (hwrite.symm.trans hwrite')
            by_contra hne
            simp [Store.write, Function.update_of_ne hne] at hblock
          subst hslot
          obtain ⟨rfl, rfl⟩ := hfirst.found_at hd hseen (hindex'.symm.trans hindex)
          exact .inl ⟨slot, hzero.symm.trans hseen, hfirst.2.1⟩
  · rintro (⟨slot, hfind, hdata⟩ | ⟨hno, hruns, hroom⟩) blocks buffer
    · refine ⟨fun j slot' hfirst => ?_, fun hno => absurd hdata (hno i slot (Nat.le_refl i))⟩
      obtain ⟨rfl, rfl⟩ := hfirst.eq_of_data hdistinct hdata
      exact fpush1_some hi hown (stops_of_find hi hfind hdata) (Nat.zero_le _) blocks buffer
        (hzero.trans hfind)
    · refine ⟨fun j slot hfirst => absurd hfirst.2.1 (hno j slot hfirst.1), fun _ => ?_⟩
      have hnew := fpush1_none hi hown hstops hm blocks buffer ((runsOut_iff hstops).mp hruns)
      refine ⟨hnew, fun slot halloc => ?_⟩
      rw [hnew, flagged_fpushNew blocks buffer halloc]
      rcases hroom with hfull | hplain
      · cases hfull.symm.trans halloc
      · exact hplain

end Exact

/--
In each copy the loop over extension clusters ends.  `__fread1` reads the first data
block from the requested index on if and only if the lookup of that index finds it
at once, or there is none and the copy gets to know that; `__fpush1` overwrites it
if and only if it is found at once, or there is none, the loop runs out, and the
cluster allocated instead does not inherit the extension flag from the handle.
-/
theorem skipsExtensions_iff {d : Driver} (hd : Copy d) {fr : ConfFsroot} {fb i : Nat}
    (hlive : (fr.block fb).fcode ≠ Fcode.zero)
    (hdistinct : ∀ {s t j : Nat}, HasEntry fr s (fr.block fb).fcode j →
      HasEntry fr t (fr.block fb).fcode j → s = t)
    (hown : i ≠ (fr.block fb).index.toNat) (hi : i < 2 ^ 64) :
    (∀ found, d.find fr (fr.block fb).fcode i = some found →
      ∃ slot index, (∀ fuel ≥ fr.nClusterItems + 2,
          skipExtension d fr (fr.block fb).fcode fuel (some found) i = (slot, index)) ∧
        ∀ t, slot = some t → flagged fr t = false) ∧
    (ReadsData d fr fb i ↔ FindsData d fr fb i ∨ MissesData d fr fb i) ∧
    (PushesData d fr fb i ↔ FindsData d fr fb i ∨ RoomForData d fr fb i) :=
  ⟨fun _ hfind => skipExtension_ends hd hi hfind, readsData_iff hd @hdistinct hown hi,
    pushesData_iff hd @hdistinct hown hi hlive⟩

/-! ## A file with an extension cluster -/

def extensionCode : Fcode := ⟨1, 1⟩

/-- The metadata entry, a data block at index 2, and extension clusters at 1 and 3. -/
def extensionRoot : ConfFsroot :=
  sampleRoot [⟨extensionCode, fsMetadataCluster, 0⟩,
    ⟨extensionCode, fsExtensionAllocatedCluster, 1⟩, ⟨extensionCode, 0, 2⟩,
    ⟨extensionCode, fsExtensionAllocatedCluster, 3⟩, FsBlock.zero] (by decide)

theorem extensionRoot_distinct {s t j : Nat} (hs : HasEntry extensionRoot s extensionCode j)
    (ht : HasEntry extensionRoot t extensionCode j) : s = t :=
  HostTool.distinctEntries_of_pairwise (by decide) (by decide) hs ht

/-- The lookup of index 2 finds its data block. -/
theorem skipsExtensions_sample :
    ReadsData loader extensionRoot 0 2 ∧ PushesData loader extensionRoot 0 2 := by
  have hfinds : FindsData loader extensionRoot 0 2 :=
    ⟨2, by decide, ⟨by decide, by decide, by decide⟩, by decide⟩
  obtain ⟨-, hread, hpush⟩ := @skipsExtensions_iff loader .loader extensionRoot 0 2 (by decide)
    extensionRoot_distinct (by decide) (by decide)
  exact ⟨hread.mpr (.inl hfinds), hpush.mpr (.inl hfinds)⟩

theorem extensionRoot_firstData : FirstData extensionRoot extensionCode 1 2 2 := by
  refine ⟨by decide, ⟨⟨by decide, by decide, by decide⟩, by decide⟩, fun j slot hj hdata => ?_⟩
  by_contra hlt
  obtain rfl : j = 1 := by omega
  obtain rfl := extensionRoot_distinct hdata.1 ⟨by decide, by decide, by decide⟩ (t := 1)
  exact absurd hdata.2 (by decide)

/--
From index 1 on every copy meets the data block at index 2 and leaves the index at 3,
and from index 3 on the kernel and the loader follow NULL.
-/
theorem not_skipsExtensions :
    ¬ ReadsData (hostTool true) extensionRoot 0 1 ∧
      ¬ PushesData (hostTool true) extensionRoot 0 1 ∧
      ¬ ReadsData loader extensionRoot 0 1 ∧ ¬ PushesData loader extensionRoot 0 1 ∧
      fread1 (kernel 0) ⟨extensionRoot, fun _ => []⟩ 0 3 = .error .nullDeref ∧
      fread1 loader ⟨extensionRoot, fun _ => []⟩ 0 3 = .error .nullDeref := by
  have hread : ∀ d, fread1 d ⟨extensionRoot, fun _ => []⟩ 0 1 = .ok (some [], 3) →
      ¬ ReadsData d extensionRoot 0 1 := by
    intro d heval h
    have hfirst := (h fun _ => []).1 2 2 extensionRoot_firstData
    rw [heval] at hfirst
    cases hfirst
  have hpush : ∀ d, pushedIndex d ⟨extensionRoot, fun _ => []⟩ 0 1 = 3 →
      ¬ PushesData d extensionRoot 0 1 := by
    intro d heval h
    have hfirst := ((h (fun _ => []) []).1 2 2 extensionRoot_firstData).2
    rw [heval] at hfirst
    cases hfirst
  exact ⟨hread _ (by decide), hpush _ (by decide), hread _ (by decide), hpush _ (by decide),
    by decide, by decide⟩

end BlockyOS.Frat
