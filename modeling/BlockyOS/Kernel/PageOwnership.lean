import BlockyOS.Kernel.AllocInit
import BlockyOS.Kernel.PageAlloc

/-!
# Ownership of page frames

`AllocatePages` without an address maps the frames from zero on, whatever the
table says, unless it runs into the trap of an update first.
-/

namespace BlockyOS.Kernel

open BlockyOS.Foundation
open BlockyOS.HostTool (Fault)

/-! ## Frames -/

def Frames.Covers (f : Frames) (page : Nat) : Prop :=
  f.address ≤ page * pageSize ∧ page * pageSize < f.address + f.size

/-- An address that `AllocatePages` returned, and the frames mapped for it. -/
structure Allocation where
  virt : Nat
  frames : List Frames

def Allocation.Maps (a : Allocation) (page : Nat) : Prop := ∃ f ∈ a.frames, f.Covers page

def Allocation.Apart (a b : Allocation) : Prop := ∀ page, a.Maps page → ¬ b.Maps page

/--
The page lies in an entry that `QueryFreeMemory` may report: one of the list of a
range, in front of its end, and not valid.
-/
def AllocState.ReportedFree (s : AllocState) (page : Nat) : Prop :=
  ∃ cc, cc < s.totalDescriptors ∧
    (s.table.descriptors cc).subDescriptorIndex ≠ invalidSubDescriptorIndex ∧ ∃ j,
    (∀ i, i ≤ j →
      (s.table.subDescriptors ((s.table.descriptors cc).subDescriptorIndex + i)).endOfList =
        false) ∧
    (s.table.subDescriptors ((s.table.descriptors cc).subDescriptorIndex + j)).valid = false ∧
    ∃ k, k < (s.table.subDescriptors
        ((s.table.descriptors cc).subDescriptorIndex + j)).noPages ∧
      page * pageSize = (s.table.descriptors cc).physical +
        (s.pagesBefore (s.table.descriptors cc).subDescriptorIndex
          ((s.table.descriptors cc).subDescriptorIndex + j) + k) * pageSize

/-! ## Allocating -/

/-! ### The turns of the loop -/

inductive TurnBack (c : PageCoordinate) : PageCoordinate → Prop
  | same : TurnBack c c
  | l2 : TurnBack c { c with l2 := PageCoordinate.prev c.l2 }
  | l3 : TurnBack c { c with l3 := PageCoordinate.prev c.l3 }
  | l4 : TurnBack c { c with l4 := PageCoordinate.prev c.l4 }
  | l5 : TurnBack c { c with l5 := PageCoordinate.prev c.l5 }

inductive TurnFrames (base flags key : Nat) (c : PageCoordinate) : List Frames → Prop
  | pages (kind : PageKind) {index : Nat} : index = c.l1 ∨ index = c.l2 ∨ index = c.l3 →
      TurnFrames base flags key c (PagingState.runFrames kind (512 - index) fun cc =>
        pageEntry kind flags key (runAddress kind base cc))
  | table :
      TurnFrames base flags key c [⟨entryFrame .page4KB (tableEntry flags base), pageSize⟩]

/-- No turn changes the allocation table, and the last one has not run into the trap. -/
inductive TurnResult (s : PagingState) (base flags key : Nat) (c : PageCoordinate) :
    PagingState.Turn → Prop
  | again {c' : PageCoordinate} {s' : PagingState} : TurnBack c c' → s'.alloc = s.alloc →
      TurnResult s base flags key c (.again c' s')
  | done {frames : List Frames} {bytes : Nat} {s' : PagingState} :
      s.alloc.traps base = false → s'.alloc = s.alloc → TurnFrames base flags key c frames →
      TurnResult s base flags key c (.done ⟨AllocState.virtualAddress c, frames, bytes, s'⟩)

theorem markUsed_ok {s s' : AllocState} {fuel adr noPages : Nat} {c : PageCoordinate}
    (h : s.markUsed fuel adr noPages c = .ok s') : s.traps adr = false ∧ s' = s := by
  rw [AllocState.markUsed_eq] at h
  split at h
  case isTrue => cases h
  case isFalse htraps =>
    cases h
    exact ⟨Bool.not_eq_true _ ▸ htraps, rfl⟩

section Results

variable {E : PagingEnv} {s : PagingState} {base nBytes flags key : Nat} {c : PageCoordinate}
  {t : PagingState.Turn}

theorem fillTable_result {entry : Nat} {back : PageCoordinate} (hback : TurnBack c back)
    (h : s.fillTable E flags entry c back = .ok t) : TurnResult s base flags key c t := by
  rw [PagingState.fillTable] at h
  split at h
  case isTrue =>
    split at h
    case h_1 => cases h
    case h_2 =>
      simp only at h
      split at h
      case h_1 => cases h
      case h_2 alloc hmark =>
        cases h
        exact .again hback (markUsed_ok hmark).2
  case isFalse =>
    cases h
    exact .again .same rfl

theorem fillDirectory_result {kind : PageKind} {entry index : Nat} {back : PageCoordinate}
    (hindex : index = c.l2 ∨ index = c.l3) (hback : TurnBack c back)
    (h : s.fillDirectory E kind base nBytes flags key entry index c back = .ok t) :
    TurnResult s base flags key c t := by
  rw [PagingState.fillDirectory] at h
  split at h
  case isFalse =>
    cases h
    exact .again .same rfl
  case isTrue =>
    simp only at h
    split at h
    case h_1 => cases h
    case h_2 alloc hmark =>
      obtain ⟨htraps, rfl⟩ := markUsed_ok hmark
      split at h
      case isTrue =>
        cases h
        refine .again hback ?_
        split <;> rfl
      case isFalse hlarge =>
        cases h
        refine .done htraps (by split <;> rfl) ?_
        by_cases hpages : kind.size ≤ nBytes
        · rw [if_pos hpages]
          exact .pages kind (.inr hindex)
        · rw [if_neg hpages]
          exact .table

theorem fillPageTable_result {table : Nat}
    (h : s.fillPageTable E base nBytes flags key table c = .ok t) :
    TurnResult s base flags key c t := by
  rw [PagingState.fillPageTable] at h
  split at h
  case isFalse =>
    cases h
    exact .again .same rfl
  case isTrue haccepted =>
    split at h
    case h_1 => cases h
    case h_2 alloc hmark =>
      obtain ⟨htraps, rfl⟩ := markUsed_ok hmark
      cases h
      exact .done htraps rfl (.pages .page4KB (.inl rfl))

theorem turn_result (h : s.turn E base nBytes flags key c = .ok t) :
    TurnResult s base flags key c t := by
  rw [PagingState.turn] at h
  split at h
  case h_1 =>
    split at h
    · exact fillTable_result .l5 h
    · cases h
      exact .again .same rfl
  case h_2 => exact fillTable_result .l4 h
  case h_3 => exact fillDirectory_result (.inr rfl) .l3 h
  case h_4 => exact fillDirectory_result (.inl rfl) .l2 h
  case h_5 => exact fillPageTable_result h
  case h_6 =>
    cases h
    exact .again .same rfl

theorem allocateFrom_turns {P : PageCoordinate → PagingState → Prop}
    {R : PagingState.Filled → Prop}
    (hadvance : ∀ {c : PageCoordinate} {s : PagingState}, P c s → P (c.advance E.level5 nBytes) s)
    (hagain : ∀ {s s' : PagingState} {c c' : PageCoordinate}, P c s →
      TurnResult s base flags key c (.again c' s') → P c' s')
    (hdone : ∀ {s : PagingState} {c : PageCoordinate} {f : PagingState.Filled}, P c s →
      TurnResult s base flags key c (.done f) → R f)
    {fuel : Nat} {f : PagingState.Filled} :
    ∀ {c : PageCoordinate} {s : PagingState}, P c s →
      PagingState.allocateFrom E base nBytes flags key fuel c s = .ok f → R f := by
  induction fuel with
  | zero =>
      intro c s _ h
      cases h
  | succ fuel ih =>
      intro c s hc h
      have hnext := hadvance hc
      rw [PagingState.allocateFrom] at h
      split at h
      case h_1 => cases h
      case h_2 c' s₁ hagained => exact ih (hagain hnext (turn_result hagained)) h
      case h_3 f' hdone' =>
        cases h
        exact hdone hnext (turn_result hdone')

end Results

/-! ### The coordinates -/

structure PageCoordinate.Bounded (c : PageCoordinate) : Prop where
  l1 : c.l1 < 512
  l2 : c.l2 < 512
  l3 : c.l3 < 512

theorem PageCoordinate.next_lt (i : Nat) : PageCoordinate.next i < 512 :=
  Nat.mod_lt _ (by decide)

theorem PageCoordinate.prev_lt (i : Nat) : PageCoordinate.prev i < 512 :=
  Nat.mod_lt _ (by decide)

theorem PageCoordinate.Bounded.advance {c : PageCoordinate} (h : c.Bounded) (level5 : Bool)
    (nBytes : Nat) : (c.advance level5 nBytes).Bounded := by
  have hstep : (c.step nBytes).Bounded := by
    rw [PageCoordinate.step]
    split
    · exact ⟨h.l1, h.l2, PageCoordinate.next_lt _⟩
    · split
      · exact ⟨h.l1, PageCoordinate.next_lt _, h.l3⟩
      · exact ⟨PageCoordinate.next_lt _, h.l2, h.l3⟩
  have hcarry2 : ∀ {c : PageCoordinate}, c.Bounded → c.carryL2.Bounded := by
    intro c h
    rw [PageCoordinate.carryL2]
    split
    · exact ⟨h.l1, PageCoordinate.next_lt _, h.l3⟩
    · exact h
  have hcarry3 : ∀ {c : PageCoordinate}, c.Bounded → c.carryL3.Bounded := by
    intro c h
    rw [PageCoordinate.carryL3]
    split
    · exact ⟨h.l1, h.l2, PageCoordinate.next_lt _⟩
    · exact h
  have hcarry4 : ∀ {c : PageCoordinate}, c.Bounded → c.carryL4.Bounded := by
    intro c h
    rw [PageCoordinate.carryL4]
    split
    · exact ⟨h.l1, h.l2, h.l3⟩
    · exact h
  have hcarry5 : ∀ {c : PageCoordinate}, c.Bounded → (c.carryL5 level5).Bounded := by
    intro c h
    rw [PageCoordinate.carryL5]
    split
    · exact ⟨h.l1, h.l2, h.l3⟩
    · exact h
  exact hcarry5 (hcarry4 (hcarry3 (hcarry2 hstep)))

theorem TurnBack.bounded {c c' : PageCoordinate} (h : TurnBack c c') (hc : c.Bounded) :
    c'.Bounded := by
  cases h with
  | same => exact hc
  | l2 => exact ⟨hc.l1, PageCoordinate.prev_lt _, hc.l3⟩
  | l3 => exact ⟨hc.l1, hc.l2, PageCoordinate.prev_lt _⟩
  | l4 => exact ⟨hc.l1, hc.l2, hc.l3⟩
  | l5 => exact ⟨hc.l1, hc.l2, hc.l3⟩

/-! ### Frame zero -/

section Zero

variable {E : PagingEnv} {s s' : PagingState} {base nBytes flags key virt : Nat}
  {c : PageCoordinate} {frames : List Frames}

theorem TurnFrames.maps_zero (hc : c.Bounded) (h : TurnFrames 0 flags key c frames)
    (virt : Nat) : (⟨virt, frames⟩ : Allocation).Maps 0 := by
  have h1 := hc.l1
  have h2 := hc.l2
  have h3 := hc.l3
  cases h with
  | pages kind hindex =>
      have hfirst : runAddress kind 0 0 = 0 := by
        rw [runAddress, Nat.zero_mul]
        rfl
      refine ⟨_, List.mem_map_of_mem (List.mem_range.mpr (show 0 < 512 - _ by omega)), ?_⟩
      dsimp only
      rw [hfirst, Frames.Covers, entryFrame_pageEntry]
      cases kind <;> decide
  | table =>
      refine ⟨_, List.mem_singleton_self _, ?_⟩
      rw [Frames.Covers, entryFrame_tableEntry]
      decide

theorem allocatePages_traps (h : s.allocatePages E base nBytes flags key = .ok (virt, frames, s')) :
    s.alloc.traps base = false := by
  obtain ⟨bytes, s₁, hloop, -⟩ := PagingState.allocatePages_ok_iff.mp h
  refine allocateFrom_turns (P := fun _ s₂ => s₂.alloc = s.alloc)
    (R := fun _ => s.alloc.traps base = false) id ?_ ?_ rfl hloop
  · intro _ _ _ _ hsame hresult
    cases hresult with
    | again _ halloc => exact halloc.trans hsame
  · intro _ _ _ hsame hresult
    cases hresult with
    | done htraps _ _ => exact hsame ▸ htraps

theorem allocatePages_maps_zero
    (h : s.allocatePages E 0 nBytes flags key = .ok (virt, frames, s')) :
    (⟨virt, frames⟩ : Allocation).Maps 0 := by
  obtain ⟨bytes, s₁, hloop, -⟩ := PagingState.allocatePages_ok_iff.mp h
  refine allocateFrom_turns (P := fun c _ => c.Bounded)
    (R := fun f => (⟨f.virt, f.frames⟩ : Allocation).Maps 0)
    (fun hc => hc.advance E.level5 nBytes) ?_ ?_
    ⟨Nat.zero_lt_succ _, Nat.zero_lt_succ _, Nat.zero_lt_succ _⟩ hloop
  · intro _ _ _ _ hc hresult
    cases hresult with
    | again hback _ => exact hback.bounded hc
  · intro _ _ _ hc hresult
    cases hresult with
    | done _ _ hframes => exact hframes.maps_zero hc _

end Zero

/-! ## Runs -/

/-- `AllocatePages(NULL, ..)` and `FreePages`. -/
inductive FrameCall where
  | allocatePages (nBytes flags protectionKey : Nat)
  | freePages (virt : Nat)

inductive Moved where
  | nothing
  | handed (a : Allocation) (before : AllocState)
  | freed (a : Allocation)

structure FrameSession where
  paging : PagingState
  live : List Allocation
  moved : Moved

namespace FrameSession

def start (s : PagingState) : FrameSession := ⟨s, [], .nothing⟩

/-- Pages are given back by an address that was returned and is live. -/
def call (E : PagingEnv) (s : FrameSession) : FrameCall → Except Fault FrameSession
  | .allocatePages nBytes flags key =>
      match s.paging.allocatePages E 0 nBytes flags key with
      | .error e => .error e
      | .ok (virt, frames, paging) =>
          .ok ⟨paging, s.live ++ [⟨virt, frames⟩], .handed ⟨virt, frames⟩ s.paging.alloc⟩
  | .freePages virt =>
      match s.live.find? fun a => a.virt == virt with
      | none => .error .outOfBounds
      | some a =>
          match s.paging.freePages E virt with
          | .error e => .error e
          | .ok paging => .ok ⟨paging, s.live.eraseP fun a => a.virt == virt, .freed a⟩

/-- What is given back is live. -/
def Legal (s : FrameSession) : FrameCall → Prop
  | .allocatePages .. => True
  | .freePages virt => ∃ a ∈ s.live, a.virt = virt

def Reported (now : AllocState) : Moved → Prop
  | .nothing => True
  | .handed a before => ∀ page, a.Maps page → before.ReportedFree page
  | .freed a => ∀ page, a.Maps page → now.ReportedFree page

structure Owned (s : FrameSession) : Prop where
  apart : s.live.Pairwise Allocation.Apart
  reported : Reported s.paging.alloc s.moved

/-- The calls all return, and every state on the way has its frames owned. -/
def Owns (E : PagingEnv) (s : PagingState) (calls : List FrameCall) : Prop :=
  (∃ s', run (call E) (start s) calls = .ok s') ∧ Always (call E) Owned (start s) calls

theorem allocatePages_zero {E : PagingEnv} {s s' : FrameSession} {nBytes flags key : Nat}
    (h : s.call E (.allocatePages nBytes flags key) = .ok s') :
    s.paging.alloc.traps 0 = false ∧ ∃ a : Allocation, a.Maps 0 ∧ s'.live = s.live ++ [a] ∧
      s'.moved = .handed a s.paging.alloc := by
  rw [call] at h
  split at h
  case h_1 => cases h
  case h_2 virt frames paging hallocate =>
    cases h
    exact ⟨allocatePages_traps hallocate, ⟨virt, frames⟩, allocatePages_maps_zero hallocate,
      rfl, rfl⟩

end FrameSession

/-! ## A table that is set up -/

/--
The table describes the memory map, as the firmware gives it: what it reports free is
memory of the map, each page of which has a range with a list.
-/
structure AllocState.Fresh (s : AllocState) (map : List EfiDescriptor) : Prop where
  describes : s.table.Describes map
  placed : s.descriptorsAt ≠ 0
  free : ∀ page, s.ReportedFree page → page < s.memoryMaxPages ∧
    ∃ d ∈ map, ∃ c, efiClass d.type = some c ∧ ∃ cc, cc < d.numberOfPages ∧
      page = d.physicalStart / pageSize + cc
  listed : ∀ page, s.ReportedFree page →
    (s.table.range page).subDescriptorIndex ≠ invalidSubDescriptorIndex

theorem AllocState.Fresh.traps_zero {s : AllocState} {map : List EfiDescriptor}
    (h : s.Fresh map) (hfree : s.ReportedFree 0) : s.traps 0 = true := by
  obtain ⟨hmapped, d, hd, c, hclass, cc, hcc, hpage⟩ := h.free 0 hfree
  have hselects := h.describes.selects d hd c hclass cc hcc
  rw [← hpage] at hselects
  have hphysical : (s.table.range 0).physical = 0 := by simpa using hselects.above
  have hcovers : s.covers 0 = true := by simpa [AllocState.covers] using hmapped
  have hinside : 0 < s.memoryMaxPages * pageSize := Nat.mul_pos hmapped (by decide)
  have hdescriptor : (s.getDescriptor 0).isSome = true := by
    have hplaced := h.placed
    rw [AllocState.getDescriptor, if_pos ⟨hinside, by omega⟩]
    rfl
  have hlookup : (s.getSubDescriptor 0).isSome = true := by
    have hindex : s.table.descriptors (s.descriptorIndex 0) = s.table.range 0 := rfl
    simp only [AllocState.getSubDescriptor, hindex, hphysical]
    rw [if_pos ⟨hinside, h.listed 0 hfree⟩]
    rfl
  rw [AllocState.traps, hcovers, hdescriptor, hlookup]
  rfl

/--
From a table that is set up no sequence but the empty one is served: the first
allocation runs into the trap, or hands out a frame that is not free.
-/
theorem framesOwned_iff {E : PagingEnv} {s : PagingState} {map : List EfiDescriptor}
    {calls : List FrameCall} (hfresh : s.alloc.Fresh map)
    (hlegal : Each (FrameSession.call E) FrameSession.Legal (.start s) calls) :
    FrameSession.Owns E s calls ↔ calls = [] := by
  constructor
  · rintro ⟨⟨s', hrun⟩, halways⟩
    cases calls with
    | nil => rfl
    | cons op rest =>
        exfalso
        cases op with
        | allocatePages nBytes flags key =>
            obtain ⟨mid, hcall, -⟩ := (run_cons_ok _).mp hrun
            obtain ⟨htraps, a, hzero, -, hmoved⟩ := FrameSession.allocatePages_zero hcall
            have howned : mid.Owned := (halways.2 mid hcall).start
            have hreported := howned.reported
            rw [hmoved] at hreported
            have hfree : s.alloc.ReportedFree 0 := hreported 0 hzero
            rw [show (FrameSession.start s).paging = s from rfl, hfresh.traps_zero hfree] at htraps
            cases htraps
        | freePages virt =>
            obtain ⟨a, ha, -⟩ := hlegal.1
            exact absurd ha List.not_mem_nil
  · rintro rfl
    exact ⟨⟨_, rfl⟩, List.Pairwise.nil, trivial⟩

/-! ## A small memory -/

def identityEnv : PagingEnv := ⟨processorShift, false, false, 0x1000, fun _ s => s, 600⟩

/--
Each of the first 1024 pages but the very first is a range of its own, which lies
where it is mapped; the pages of the tables are not free.
-/
def pageByPage : AllocState where
  table :=
    { descriptors := fun i => if i = 0 then ⟨pageSize, 1, 0, 7⟩ else ⟨i * pageSize, 2 * i, 1, 7⟩
      indexes := fun page => page
      subDescriptors := fun j => ⟨j % 2 = 1, j / 2 < 8 ∨ j / 2 = 0x300, 1,
        initPageCoordinate false (j / 2 * pageSize), patUsedRegion⟩ }
  descriptorsAt := 0x301000
  indexesAt := 0x307000
  subDescriptorsAt := 0x308000
  totalDescriptors := 1024
  totalSubDescriptors := 2048
  memoryMaxPages := 1024

def pageByPageMap : List EfiDescriptor :=
  (List.range 1023).map fun i => ⟨7, (i + 1) * pageSize, 1, 0xF⟩

/--
Tables at `0x1000` to `0x4000` and a second page table at `0x300000`, which is empty;
the pages behind the first page table begin with a one.
-/
def secondTable : PagingState where
  alloc := pageByPage
  word a :=
    if a = 0x1000 then 0x2001
    else if a = 0x2000 then 0x3001
    else if a = 0x3000 then 0x4001
    else if a = 0x3008 then 0x300001
    else if 0x5000 ≤ a ∧ a < 0x300000 ∧ a % 4096 = 0 then 1
    else 0

theorem range_pageByPage {page : Nat} (h : page ≠ 0) :
    pageByPage.table.range page = ⟨page * pageSize, 2 * page, 1, 7⟩ := if_neg h

theorem reportedFree_pageByPage {page : Nat} (h : pageByPage.ReportedFree page) :
    page ≠ 0 ∧ page < 1024 := by
  obtain ⟨cc, hcc, -, j, hopen, -, k, hk, hpage⟩ := h
  have hcc' : cc < 1024 := hcc
  by_cases hzero : cc = 0
  · subst hzero
    exact absurd (hopen 0 (Nat.zero_le j)) (by decide)
  · have hfirst : pageByPage.table.descriptors cc = ⟨cc * pageSize, 2 * cc, 1, 7⟩ := if_neg hzero
    simp only [hfirst] at hopen hk hpage
    have hj : j = 0 := by
      by_contra hpos
      have hend := hopen 1 (Nat.pos_of_ne_zero hpos)
      exact absurd hend (by simp [pageByPage])
    subst hj
    have hone : k < 1 := hk
    have hbefore : pageByPage.pagesBefore (2 * cc) (2 * cc + 0) = 0 := by
      simp [AllocState.pagesBefore]
    rw [hbefore, Nat.lt_one_iff.mp hone, pageSize] at hpage
    omega

theorem fresh_pageByPage : pageByPage.Fresh pageByPageMap where
  describes := by
    have hpage : ∀ d ∈ pageByPageMap, ∀ cc, cc < d.numberOfPages → ∃ page, page ≠ 0 ∧
        d = ⟨7, page * pageSize, 1, 0xF⟩ ∧ d.physicalStart / pageSize + cc = page := by
      intro d hd cc hcc
      obtain ⟨i, -, rfl⟩ := List.mem_map.mp hd
      have hzero : cc = 0 := Nat.lt_one_iff.mp hcc
      refine ⟨i + 1, Nat.succ_ne_zero i, rfl, ?_⟩
      rw [hzero, Nat.add_zero, Nat.mul_div_cancel _ (by decide)]
    constructor
    · intro d hd c hclass cc hcc
      obtain ⟨page, hzero, rfl, hsame⟩ := hpage d hd cc hcc
      rw [hsame]
      have hrange := range_pageByPage hzero
      refine ⟨by rw [hrange]; exact hclass, by rw [hrange], ?_⟩
      rw [hrange]
      dsimp only
      rw [pageSize]
      omega
    · intro d hd _ cc hcc
      obtain ⟨page, hzero, rfl, hsame⟩ := hpage d hd cc hcc
      rw [hsame, range_pageByPage hzero]
      refine ⟨1, fun j hj => ?_, ?_, ?_⟩
      · rw [Nat.lt_one_iff.mp hj]
        simp [pageByPage]
      · simp [pageByPage]
      · rfl
  placed := by decide
  free := by
    intro page hfree
    obtain ⟨hzero, hlt⟩ := reportedFree_pageByPage hfree
    refine ⟨hlt, ⟨7, page * pageSize, 1, 0xF⟩, ?_, 1, rfl, 0, Nat.one_pos, ?_⟩
    · refine List.mem_map.mpr ⟨page - 1, List.mem_range.mpr (by omega), ?_⟩
      rw [Nat.sub_add_cancel (Nat.pos_of_ne_zero hzero)]
    · rw [Nat.add_zero, Nat.mul_div_cancel _ (by decide)]
  listed := by
    intro page hfree
    obtain ⟨hzero, hlt⟩ := reportedFree_pageByPage hfree
    rw [range_pageByPage hzero, invalidSubDescriptorIndex]
    dsimp only
    omega

theorem legal_allocatePages (E : PagingEnv) (s : PagingState) (nBytes flags key : Nat) :
    Each (FrameSession.call E) FrameSession.Legal (.start s) [.allocatePages nBytes flags key] :=
  ⟨trivial, fun _ _ => trivial⟩

theorem framesOwned_secondTable :
    ¬ FrameSession.Owns identityEnv secondTable [.allocatePages 4096 1 0] :=
  fun h => List.cons_ne_nil _ _
    ((framesOwned_iff fresh_pageByPage (legal_allocatePages identityEnv secondTable 4096 1 0)).mp h)

/-- Two requests there get different addresses and share frame zero. -/
theorem not_framesOwned_secondTable : ∃ s',
    run (FrameSession.call identityEnv) (.start secondTable)
      [.allocatePages 4096 1 0, .allocatePages 4096 1 0] = .ok s' ∧
    s'.live.map Allocation.virt = [0x200000, 0x201000] ∧
    ¬ s'.live.Pairwise Allocation.Apart := by
  have heval : ((run (FrameSession.call identityEnv) (.start secondTable)
      [.allocatePages 4096 1 0, .allocatePages 4096 1 0]).map fun s =>
        s.live.map Allocation.virt).toOption = some [0x200000, 0x201000] := by
    decide +kernel
  obtain ⟨s, hrun, hvirt⟩ := ok_of_eval heval
  obtain ⟨mid, hfirst, hrest⟩ := (run_cons_ok _).mp hrun
  obtain ⟨last, hsecond, hlast⟩ := (run_cons_ok _).mp hrest
  obtain rfl : last = s := Except.ok.inj hlast
  obtain ⟨-, a, ha, hlive, -⟩ := FrameSession.allocatePages_zero hfirst
  obtain ⟨-, b, hb, hlive', -⟩ := FrameSession.allocatePages_zero hsecond
  have hboth : last.live = [a, b] := by
    rw [hlive', hlive]
    rfl
  refine ⟨last, hrun, hvirt, fun hapart => ?_⟩
  rw [hboth, List.pairwise_pair] at hapart
  exact hapart 0 ha hb

end BlockyOS.Kernel
