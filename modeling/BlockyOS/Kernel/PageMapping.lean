import BlockyOS.Kernel.AlignedPages
import BlockyOS.Kernel.PageRelease
import BlockyOS.Kernel.SearchOrder

/-!
# What `AllocatePages` maps

The entries that a call writes against the pages that were asked for, in the tree
as the processor walks it.  The loop that writes the entries runs to the end of
the table, whatever the size of the request, and the new pages are cleared behind it.
-/

namespace BlockyOS.Kernel

open BlockyOS.Foundation
open BlockyOS.HostTool (Fault)
open AllocState (virtualAddress)
open PageCoordinate (advance enabled)

/-! ## The pages of a request -/

def pageKind (nBytes : Nat) : PageKind :=
  if nBytes < pageSize2 then .page4KB
  else if nBytes < pageSize3 then .page2MB
  else .page1GB

/-- The pages that a request of a size takes. -/
def requestPages (nBytes : Nat) : Nat :=
  (nBytes + (pageKind nBytes).size - 1) / (pageKind nBytes).size

def requestPage (nBytes virt i : Nat) : Nat := virt + i * (pageKind nBytes).size

def RequestSlot (m : PageTables) (nBytes virt slot : Nat) : Prop :=
  ∃ i, i < requestPages nBytes ∧
    m.leafSlot processorShift (requestPage nBytes virt i) (pageKind nBytes) = some slot

def IsEntry (m : PageTables) (slot : Nat) : Prop :=
  ∃ virt, (∃ level, m.tableSlot processorShift virt level = some slot) ∨
    ∃ kind, m.leafSlot processorShift virt kind = some slot

/-- A call has mapped the pages of the request at an address, and nothing else. -/
structure MapsExactly (E : PagingEnv) (s : PagingState) (nBytes virt : Nat)
    (s' : PagingState) : Prop where
  aligned : 4096 ∣ virt
  absent : ∀ i, i < requestPages nBytes →
    ¬ PagePresent (s.processor E) (requestPage nBytes virt i)
  present : ∀ i, i < requestPages nBytes →
    PagePresent (s'.processor E) (requestPage nBytes virt i)
  others : ∀ virt' kind slot, (s.processor E).leafSlot processorShift virt' kind = some slot →
    ¬ RequestSlot (s'.processor E) nBytes virt slot → s'.word slot = s.word slot
  kept : ∀ slot, IsEntry (s.processor E) slot → Kernel.present (s.word slot) = true →
    s'.word slot = s.word slot

/-! ### Tables that are kept -/

section Tables

variable {E : PagingEnv} {s s' : PagingState} {virt table : Nat}

theorem below_of_word {a a' : Nat} (h : s'.word a' = s.word a) :
    (s'.processor E).below processorShift (s'.word a') =
        (s.processor E).below processorShift (s.word a) ∧
      (s'.processor E).belowUnlessPage processorShift (s'.word a') =
        (s.processor E).belowUnlessPage processorShift (s.word a) := by
  rw [h]
  exact ⟨rfl, rfl⟩

theorem tableL2_of_kept (hkept : ∀ slot, IsEntry (s.processor E) slot →
    present (s.word slot) = true → s'.word slot = s.word slot)
    (h : (s.processor E).tableL2 processorShift virt = some table) :
    (s'.processor E).tableL2 processorShift virt = some table := by
  have hentry : ∀ {level slot}, (s.processor E).tableSlot processorShift virt level = some slot →
      IsEntry (s.processor E) slot := fun hslot => ⟨virt, .inl ⟨_, hslot⟩⟩
  have hbelow : ∀ {a t}, IsEntry (s.processor E) a →
      (s.processor E).below processorShift (s.word a) = some t →
      (s'.processor E).below processorShift (s'.word a) = some t := by
    intro a t ha hbelow
    rw [(below_of_word (hkept a ha (PageTables.below_eq_some_iff.mp hbelow).1)).1, hbelow]
  obtain ⟨t3, h3, hlast⟩ := Option.bind_eq_some_iff.mp h
  obtain ⟨t4, h4, hnext⟩ := Option.bind_eq_some_iff.mp h3
  have h4' : (s'.processor E).tableL4 processorShift virt = some t4 := by
    rw [PageTables.tableL4] at h4 ⊢
    split at h4
    case isTrue hlevel =>
      have hlevel' : (s'.processor E).level5 = true := hlevel
      have hslot : (s.processor E).tableSlot processorShift virt .l5 =
          some (E.storedPageTable + 8 * indexL5 virt) := by
        rw [PageTables.tableSlot, PageTables.tableL5, if_pos hlevel]
        rfl
      rw [if_pos hlevel']
      exact hbelow (hentry hslot) h4
    case isFalse hlevel =>
      have hlevel' : ¬ (s'.processor E).level5 = true := hlevel
      rw [if_neg hlevel']
      exact h4
  have h3' : (s'.processor E).tableL3 processorShift virt = some t3 := by
    have hslot : (s.processor E).tableSlot processorShift virt .l4 =
        some (t4 + 8 * indexL4 virt) := by
      rw [PageTables.tableSlot, h4, Option.map_some]
    rw [PageTables.tableL3, h4']
    exact hbelow (hentry hslot) hnext
  have hslot : (s.processor E).tableSlot processorShift virt .l3 =
      some (t3 + 8 * indexL3 virt) := by
    rw [PageTables.tableSlot, h3, Option.map_some]
  have hword := hkept _ (hentry hslot) (PageTables.belowUnlessPage_eq_some_iff.mp hlast).1
  rw [PageTables.tableL2, h3', Option.bind_some]
  exact (below_of_word hword).2.trans hlast

theorem tableL1_of_kept (hkept : ∀ slot, IsEntry (s.processor E) slot →
    present (s.word slot) = true → s'.word slot = s.word slot)
    (h : (s.processor E).tableL1 processorShift virt = some table) :
    (s'.processor E).tableL1 processorShift virt = some table := by
  obtain ⟨t2, h2, hlast⟩ := Option.bind_eq_some_iff.mp h
  have hslot : (s.processor E).tableSlot processorShift virt .l2 =
      some (t2 + 8 * indexL2 virt) := by
    rw [PageTables.tableSlot, h2, Option.map_some]
  have hword := hkept _ ⟨virt, .inl ⟨_, hslot⟩⟩
    (PageTables.belowUnlessPage_eq_some_iff.mp hlast).1
  rw [PageTables.tableL1, tableL2_of_kept hkept h2, Option.bind_some]
  exact (below_of_word hword).2.trans hlast

theorem tableL1_congr {m : PageTables} {virt' : Nat} (h2 : indexL2 virt' = indexL2 virt)
    (h3 : indexL3 virt' = indexL3 virt) (h4 : indexL4 virt' = indexL4 virt)
    (h5 : indexL5 virt' = indexL5 virt) :
    m.tableL1 processorShift virt' = m.tableL1 processorShift virt := by
  simp only [PageTables.tableL1, PageTables.tableL2, PageTables.tableL3, PageTables.tableL4, h2,
    h3, h4, h5]

end Tables

/-! ## The search -/

namespace PagingState

def refused (E : PagingEnv) (s : PagingState) (nBytes : Nat) (c : PageCoordinate) : Bool :=
  match (s.tables E).walkPageTree E.shift 5 c with
  | (5, pt) => !E.level5 || taken (s.word pt) 6
  | (4, pt) => taken (s.word pt) 6
  | (3, pt) => !s.touchable pt c.l3 6
  | (2, pt) => !s.touchable pt c.l2 6
  | (1, pt) => !(decide (pageSize ≤ nBytes) && s.touchable pt c.l1 9)
  | _ => true

section Turns

variable {E : PagingEnv} {s : PagingState} {base nBytes flags key : Nat} {c : PageCoordinate}

theorem turn_of_refused (h : s.refused E nBytes c = true) :
    s.turn E base nBytes flags key c = .ok (.again c s) := by
  rw [refused] at h
  rw [turn]
  generalize (s.tables E).walkPageTree E.shift 5 c = walked at h ⊢
  obtain ⟨level, pt⟩ := walked
  rcases level with _ | _ | _ | _ | _ | _ | level
  · rfl
  · have hfree : ¬ (pageSize ≤ nBytes ∧ s.touchable pt c.l1 9 = true) := by
      rintro ⟨hpage, htouchable⟩
      simp [hpage, htouchable] at h
    simp only
    rw [fillPageTable, if_neg hfree]
  · have hfree : ¬ s.touchable pt c.l2 6 = true := by simpa using h
    simp only
    rw [fillDirectory, if_neg hfree]
  · have hfree : ¬ s.touchable pt c.l3 6 = true := by simpa using h
    simp only
    rw [fillDirectory, if_neg hfree]
  · have htaken : taken (s.word pt) 6 = true := h
    simp only
    rw [fillTable, htaken]
    rfl
  · simp only at h ⊢
    cases hlevel : E.level5 with
    | false => rfl
    | true =>
        have htaken : taken (s.word pt) 6 = true := by simpa [hlevel] using h
        rw [if_pos rfl, fillTable, htaken]
        rfl
  · rfl

theorem allocateFrom_of_refused {n : Nat} {r : Filled} :
    ∀ {fuel : Nat} {c : PageCoordinate},
      (∀ j, j < n → s.refused E nBytes ((advance E.level5 nBytes)^[j + 1] c) = true) →
      allocateFrom E base nBytes flags key fuel c s = .ok r →
      ∃ fuel', allocateFrom E base nBytes flags key fuel'
        ((advance E.level5 nBytes)^[n] c) s = .ok r := by
  induction n with
  | zero => exact fun _ hrun => ⟨_, hrun⟩
  | succ n ih =>
      intro fuel c hrefused hrun
      cases fuel with
      | zero => cases hrun
      | succ fuel =>
          have hfirst := hrefused 0 (Nat.succ_pos n)
          rw [Function.iterate_one] at hfirst
          rw [allocateFrom, turn_of_refused hfirst] at hrun
          refine ih (fun j hj => ?_) hrun
          exact hrefused (j + 1) (Nat.succ_lt_succ hj)

end Turns

end PagingState

/-! ## The clearing -/

/-- An address in none of the frames. -/
def Spared (frame : Nat → Nat) (n a : Nat) : Prop :=
  ∀ i, i < n → a < frame i ∨ frame i + 4096 ≤ a

theorem clearPages_spares {E : PagingEnv} {s₁ : PagingState} {frame : Nat → Nat} {n virt : Nat}
    (hframe : ∀ t : PagingState, (∀ a, Spared frame n a → t.word a = s₁.word a) →
      ∀ i, i < n → (t.processor E).pageFrame (u64 (virt + i * pageSize)) = some (frame i))
    (m : Nat) : ∀ k i, i + k = n → ∀ t : PagingState,
      (∀ a, Spared frame n a → t.word a = s₁.word a) →
      ∃ t' : PagingState, (∀ a, Spared frame n a → t'.word a = s₁.word a) ∧
        PagingState.clearPages E (k + m) (u64 (virt + i * pageSize)) t =
          PagingState.clearPages E m (u64 (virt + n * pageSize)) t' := by
  intro k
  induction k with
  | zero =>
      intro i hi t ht
      rw [Nat.add_zero] at hi
      rw [Nat.zero_add, hi]
      exact ⟨t, ht, rfl⟩
  | succ k ih =>
      intro i hi t ht
      have hnext : u64 (u64 (virt + i * pageSize) + pageSize) =
          u64 (virt + (i + 1) * pageSize) := by
        rw [pageSize, u64, u64, u64]
        omega
      rw [Nat.add_right_comm, PagingState.clearPages, hframe t ht i (by omega)]
      dsimp only
      rw [hnext]
      refine ih (i + 1) (by omega) _ fun a ha => ?_
      have hout := ha i (by omega)
      have houtside : ¬ (frame i ≤ a ∧ a < frame i + 8 * 512 ∧ (a - frame i) % 8 = 0) := by omega
      refine Eq.trans ?_ (ht a ha)
      simp only [PagingState.setRun, if_neg houtside]

theorem pageFrame_u64 (m : PageTables) (virt : Nat) :
    m.pageFrame (u64 virt) = m.pageFrame virt := by
  have h1 : indexL1 (u64 virt) = indexL1 virt := by simp only [indexL1, bits, u64]; omega
  have h2 : indexL2 (u64 virt) = indexL2 virt := by simp only [indexL2, bits, u64]; omega
  have h3 : indexL3 (u64 virt) = indexL3 virt := by simp only [indexL3, bits, u64]; omega
  have h4 : indexL4 (u64 virt) = indexL4 virt := by simp only [indexL4, bits, u64]; omega
  have h5 : indexL5 (u64 virt) = indexL5 virt := by simp only [indexL5, bits, u64]; omega
  have hframe : m.frameIn (u64 virt) = m.frameIn virt := by
    funext kind
    have hoffset : kind.offset (u64 virt) = kind.offset virt := by
      cases kind <;>
      · simp only [PageKind.offset, PageKind.size, u64]
        omega
    have hslot : m.leafSlot processorShift (u64 virt) kind =
        m.leafSlot processorShift virt kind := by
      cases kind <;> simp only [PageTables.leafSlot, PageTables.tableL1, PageTables.tableL2,
        PageTables.tableL3, PageTables.tableL4, h1, h2, h3, h4, h5]
    rw [PageTables.frameIn, PageTables.frameIn, hslot, hoffset]
  rw [PageTables.pageFrame, PageTables.pageFrame, hframe]

/-! ## A search that ends in the right table -/

/--
The search for small pages ends at the coordinate `c`, and the table found there is
the processor's page table for its address, free from its entry on.
-/
structure Lands (E : PagingEnv) (s : PagingState) (nBytes : Nat) (c : PageCoordinate)
    (table : Nat) : Prop where
  turns : ∃ n, c = (advance E.level5 nBytes)^[n + 1] (enabled E.level5 nBytes) ∧
    ∀ j, j < n → s.refused E nBytes
      ((advance E.level5 nBytes)^[j + 1] (enabled E.level5 nBytes)) = true
  small : nBytes < pageSize2
  page : pageSize ≤ nBytes
  reached : (s.tables E).walkPageTree E.shift 5 c = (1, table)
  free : s.touchable table c.l1 9 = true
  own : (s.processor E).tableL1 processorShift (virtualAddress c) = some table
  absent : ∀ i, c.l1 ≤ i → i < 512 → present (s.word (table + 8 * i)) = false

def requestFrame (base i : Nat) : Nat := runAddress .page4KB base i % 2 ^ 40 * 2 ^ 12

/-- No entry of the tree lies in a frame that is cleared for the request. -/
def SparesTree (E : PagingEnv) (s : PagingState) (base nBytes : Nat) (c : PageCoordinate) : Prop :=
  ∀ slot, IsEntry (s.processor E) slot →
    Spared (requestFrame base) (min (requestPages nBytes) (512 - c.l1)) slot

def filled (s : PagingState) (base flags key : Nat) (c : PageCoordinate) (table : Nat) :
    PagingState :=
  s.setRun (table + 8 * c.l1) (512 - c.l1) fun cc =>
    pageEntry .page4KB flags key (runAddress .page4KB base cc)

namespace Lands

variable {E : PagingEnv} {s s' t : PagingState} {base nBytes flags key : Nat}
  {c : PageCoordinate} {table virt : Nat} {frames : List Frames}

theorem coordinate_small (h : Lands E s nBytes c table) : c.Small := by
  have hiterate : ∀ k, ((advance E.level5 nBytes)^[k] (enabled E.level5 nBytes)).Small := by
    intro k
    induction k with
    | zero =>
        exact ⟨⟨Nat.zero_lt_succ _, Nat.zero_lt_succ _, Nat.zero_lt_succ _⟩,
          Nat.zero_lt_succ _, Nat.zero_lt_succ _⟩
    | succ k ih =>
        rw [Function.iterate_succ_apply']
        exact ih.advance E.level5 nBytes
  obtain ⟨n, rfl, -⟩ := h.turns
  exact hiterate (n + 1)

theorem requestPages_eq (h : Lands E s nBytes c table) :
    requestPages nBytes = (nBytes + 4095) / 4096 ∧ requestPages nBytes ≤ 512 := by
  have hsmall := h.small
  rw [pageSize2] at hsmall
  rw [requestPages, pageKind, if_pos h.small, PageKind.size]
  omega

theorem allocateFrom_eq (h : Lands E s nBytes c table) {f : PagingState.Filled}
    (hloop : PagingState.allocateFrom E base nBytes flags key E.fuel
      (enabled E.level5 nBytes) s = .ok f) :
    f.virt = virtualAddress c ∧ f.bytes / pageSize = requestPages nBytes ∧
      f.state.word = (filled s base flags key c table).word := by
  obtain ⟨n, hc, hrefused⟩ := h.turns
  obtain ⟨fuel, hrun⟩ := PagingState.allocateFrom_of_refused hrefused hloop
  have hbytes : roundup nBytes pageSize / pageSize = requestPages nBytes := by
    have hsmall := h.small
    have hpages := h.requestPages_eq.1
    rw [pageSize2] at hsmall
    rw [pageSize, roundup_of_sum_lt (by omega), hpages]
    omega
  cases fuel with
  | zero => cases hrun
  | succ fuel =>
      have haccepted : pageSize ≤ nBytes ∧ s.touchable table c.l1 9 = true := ⟨h.page, h.free⟩
      rw [PagingState.allocateFrom, ← Function.iterate_succ_apply' (advance E.level5 nBytes),
        ← hc, PagingState.turn, h.reached] at hrun
      simp only at hrun
      rw [PagingState.fillPageTable, if_pos haccepted] at hrun
      split at hrun
      case h_1 => cases hrun
      case h_2 c' s₂ hturn =>
        split at hturn <;> cases hturn
      case h_3 f' hturn =>
        cases hrun
        split at hturn
        case h_1 => cases hturn
        case h_2 =>
          cases hturn
          exact ⟨rfl, hbytes, rfl⟩

theorem allocatePages_eq (h : Lands E s nBytes c table)
    (hcall : s.allocatePages E base nBytes flags key = .ok (virt, frames, s')) :
    virt = virtualAddress c ∧ ∃ s₁ : PagingState,
      s₁.word = (filled s base flags key c table).word ∧
        PagingState.clearPages E (requestPages nBytes) virt s₁ = .ok s' := by
  obtain ⟨bytes, s₁, hloop, hclear⟩ := PagingState.allocatePages_ok_iff.mp hcall
  obtain ⟨hvirt, hbytes, hword⟩ := h.allocateFrom_eq hloop
  dsimp only at hvirt hbytes hword
  rw [hbytes] at hclear
  exact ⟨hvirt, s₁, hword, hclear⟩

/-! ### The words behind the loop -/

theorem filled_written {i : Nat} (hi : c.l1 + i < 512) :
    (filled s base flags key c table).word (table + 8 * (c.l1 + i)) =
      pageEntry .page4KB flags key (runAddress .page4KB base i) := by
  have hinside : table + 8 * c.l1 ≤ table + 8 * (c.l1 + i) ∧
      table + 8 * (c.l1 + i) < table + 8 * c.l1 + 8 * (512 - c.l1) ∧
      (table + 8 * (c.l1 + i) - (table + 8 * c.l1)) % 8 = 0 := by omega
  have hindex : (table + 8 * (c.l1 + i) - (table + 8 * c.l1)) / 8 = i := by omega
  simp only [filled, PagingState.setRun, if_pos hinside, hindex]

theorem filled_other {a : Nat} (ha : ∀ i, c.l1 ≤ i → i < 512 → a ≠ table + 8 * i) :
    (filled s base flags key c table).word a = s.word a := by
  have houtside : ¬ (table + 8 * c.l1 ≤ a ∧ a < table + 8 * c.l1 + 8 * (512 - c.l1) ∧
      (a - (table + 8 * c.l1)) % 8 = 0) := by
    rintro ⟨hlow, hhigh, hmod⟩
    refine ha (c.l1 + (a - (table + 8 * c.l1)) / 8) ?_ ?_ ?_ <;> omega
  simp only [filled, PagingState.setRun, if_neg houtside]

theorem filled_kept (h : Lands E s nBytes c table) {a : Nat} (ha : present (s.word a) = true) :
    (filled s base flags key c table).word a = s.word a := by
  refine filled_other fun i hlow hhigh heq => ?_
  rw [heq, h.absent i hlow hhigh] at ha
  cases ha

/-! ### The pages of the request -/

theorem requestPage_eq (h : Lands E s nBytes c table) (i : Nat) :
    requestPage nBytes (virtualAddress c) i = virtualAddress c + i * 4096 := by
  rw [requestPage, pageKind, if_pos h.small]
  rfl

theorem tableL1_page (h : Lands E s nBytes c table) {i : Nat} (hi : c.l1 + i < 512) :
    (s.processor E).tableL1 processorShift (virtualAddress c + i * 4096) = some table ∧
      indexL1 (virtualAddress c + i * 4096) = c.l1 + i := by
  have hsmall := h.coordinate_small
  obtain ⟨sign, hsign⟩ := virtualAddress_eq_add c
  rw [packedIndices] at hsign
  have hmoved : virtualAddress c + i * 4096 = (c.l1 + i) * 2 ^ 12 + c.l2 * 2 ^ 21 +
      c.l3 * 2 ^ 30 + c.l4 * 2 ^ 39 + c.l5 * 2 ^ 48 + sign * 2 ^ 57 := by
    rw [hsign]
    omega
  obtain ⟨-, h2, h3, h4, h5⟩ := indices_packed sign
    ⟨hsmall.l1, hsmall.l2, hsmall.l3, hsmall.l4, hsmall.l5⟩ hsign
  obtain ⟨h1', h2', h3', h4', h5'⟩ := indices_packed sign
    ⟨hi, hsmall.l2, hsmall.l3, hsmall.l4, hsmall.l5⟩ hmoved
  refine ⟨?_, h1'⟩
  rw [tableL1_congr (h2'.trans h2.symm) (h3'.trans h3.symm) (h4'.trans h4.symm)
    (h5'.trans h5.symm)]
  exact h.own

theorem leafSlot_page (h : Lands E s nBytes c table) {i : Nat} (hi : c.l1 + i < 512) :
    (s.processor E).leafSlot processorShift (virtualAddress c + i * 4096) .page4KB =
      some (table + 8 * (c.l1 + i)) := by
  obtain ⟨htable, hindex⟩ := h.tableL1_page hi
  rw [PageTables.leafSlot, htable, Option.map_some, hindex]

def Agrees (E : PagingEnv) (s : PagingState) (base flags key : Nat) (c : PageCoordinate)
    (table : Nat) (t : PagingState) : Prop :=
  ∀ slot, IsEntry (s.processor E) slot →
    t.word slot = (filled s base flags key c table).word slot

section Agreeing

variable (h : Lands E s nBytes c table) (hagrees : Agrees E s base flags key c table t)
include h hagrees

theorem word_kept {slot : Nat} (hentry : IsEntry (s.processor E) slot)
    (hslot : present (s.word slot) = true) : t.word slot = s.word slot :=
  (hagrees slot hentry).trans (h.filled_kept hslot)

theorem word_page {i : Nat} (hi : c.l1 + i < 512) : t.word (table + 8 * (c.l1 + i)) =
    pageEntry .page4KB flags key (runAddress .page4KB base i) :=
  (hagrees _ ⟨_, .inr ⟨_, h.leafSlot_page hi⟩⟩).trans (filled_written hi)

theorem tableL1_agreeing {i : Nat} (hi : c.l1 + i < 512) :
    (t.processor E).tableL1 processorShift (virtualAddress c + i * 4096) = some table :=
  tableL1_of_kept (fun _ hentry hslot => h.word_kept hagrees hentry hslot) (h.tableL1_page hi).1

theorem pagePresent_page {i : Nat} (hi : c.l1 + i < 512) :
    ¬ PagePresent (s.processor E) (virtualAddress c + i * 4096) ∧
      PagePresent (t.processor E) (virtualAddress c + i * 4096) := by
  obtain ⟨htable, hindex⟩ := h.tableL1_page hi
  rw [PageTables.pagePresent_iff htable, PageTables.pagePresent_iff (h.tableL1_agreeing hagrees hi),
    hindex]
  have hword : (t.processor E).word (table + 8 * (c.l1 + i)) = _ := h.word_page hagrees hi
  rw [hword, present_pageEntry]
  have habsent := h.absent (c.l1 + i) (Nat.le_add_right _ _) hi
  exact ⟨fun hpresent => absurd (habsent.symm.trans hpresent) (by decide), rfl⟩

theorem pageFrame_page {i : Nat} (hi : c.l1 + i < 512) :
    (t.processor E).pageFrame (virtualAddress c + i * 4096) = some (requestFrame base i) := by
  have hindex := (h.tableL1_page hi).2
  have hword : (t.processor E).word (table + 8 * (c.l1 + i)) = _ := h.word_page hagrees hi
  have hframe := PageTables.pageFrame_of_tableL1 (h.tableL1_agreeing hagrees hi)
    (by rw [hindex, hword, present_pageEntry])
  rw [hframe, hindex, hword, entryFrame_pageEntry, requestFrame]

theorem leafSlot_agreeing {i : Nat} (hi : c.l1 + i < 512) :
    (t.processor E).leafSlot processorShift (virtualAddress c + i * 4096) .page4KB =
      some (table + 8 * (c.l1 + i)) := by
  rw [PageTables.leafSlot, h.tableL1_agreeing hagrees hi, Option.map_some, (h.tableL1_page hi).2]

end Agreeing

theorem clearPages_agrees (h : Lands E s nBytes c table)
    (hspares : SparesTree E s base nBytes c) {s₁ : PagingState}
    (hword : s₁.word = (filled s base flags key c table).word) (m : Nat) :
    ∃ t, Agrees E s base flags key c table t ∧
      PagingState.clearPages E (min (requestPages nBytes) (512 - c.l1) + m)
        (virtualAddress c) s₁ =
          PagingState.clearPages E m (u64 (virtualAddress c +
            min (requestPages nBytes) (512 - c.l1) * pageSize)) t := by
  have hagrees : ∀ t : PagingState, (∀ a, Spared (requestFrame base)
      (min (requestPages nBytes) (512 - c.l1)) a → t.word a = s₁.word a) →
        Agrees E s base flags key c table t :=
    fun t ht slot hslot => (ht slot (hspares slot hslot)).trans (congrFun hword slot)
  have hlow := (virtualAddress_page h.coordinate_small).2
  have hstart : u64 (virtualAddress c + 0 * pageSize) = virtualAddress c := by
    rw [Nat.zero_mul, Nat.add_zero, u64_of_lt (by omega)]
  obtain ⟨t, ht, hsame⟩ := @clearPages_spares E s₁ _ _ (virtualAddress c)
    (fun t ht i hi => by
      rw [pageFrame_u64]
      exact h.pageFrame_page (hagrees t ht) (by omega))
    m (min (requestPages nBytes) (512 - c.l1)) 0 (Nat.zero_add _) s₁ fun _ _ => rfl
  rw [hstart] at hsame
  exact ⟨t, hagrees t ht, hsame⟩

theorem agrees_of_call (h : Lands E s nBytes c table) (hspares : SparesTree E s base nBytes c)
    (hcall : s.allocatePages E base nBytes flags key = .ok (virt, frames, s'))
    (hcount : requestPages nBytes ≤ 512 - c.l1) :
    virt = virtualAddress c ∧ Agrees E s base flags key c table s' := by
  obtain ⟨rfl, s₁, hword, hclear⟩ := h.allocatePages_eq hcall
  obtain ⟨t, ht, hsame⟩ := h.clearPages_agrees hspares hword 0
  rw [Nat.add_zero, Nat.min_eq_left hcount, hclear] at hsame
  cases hsame
  exact ⟨rfl, ht⟩

theorem exists_call (h : Lands E s nBytes c table) (hspares : SparesTree E s base nBytes c)
    {f : PagingState.Filled} (hloop : PagingState.allocateFrom E base nBytes flags key E.fuel
      (enabled E.level5 nBytes) s = .ok f) (hcount : requestPages nBytes ≤ 512 - c.l1) :
    ∃ s', s.allocatePages E base nBytes flags key = .ok (f.virt, f.frames, s') := by
  obtain ⟨hvirt, hbytes, hword⟩ := h.allocateFrom_eq hloop
  obtain ⟨t, -, hsame⟩ := h.clearPages_agrees hspares hword 0
  rw [Nat.add_zero, Nat.min_eq_left hcount, ← hbytes, ← hvirt] at hsame
  exact ⟨t, PagingState.allocatePages_ok_iff.mpr ⟨f.bytes, f.state, hloop, hsame⟩⟩

theorem mapsExactly (h : Lands E s nBytes c table) (hspares : SparesTree E s base nBytes c)
    (hcall : s.allocatePages E base nBytes flags key = .ok (virt, frames, s'))
    (hcount : requestPages nBytes = 512 - c.l1) : MapsExactly E s nBytes virt s' := by
  have hl1 := h.coordinate_small.l1
  have hkind : pageKind nBytes = .page4KB := if_pos h.small
  obtain ⟨rfl, hagrees⟩ := h.agrees_of_call hspares hcall (Nat.le_of_eq hcount)
  refine ⟨(virtualAddress_page h.coordinate_small).1, ?_, ?_, ?_,
    fun slot hentry hslot => h.word_kept hagrees hentry hslot⟩
  · intro i hi
    rw [h.requestPage_eq]
    exact (h.pagePresent_page hagrees (by omega)).1
  · intro i hi
    rw [h.requestPage_eq]
    exact (h.pagePresent_page hagrees (by omega)).2
  · intro virt' kind slot hslot hother
    refine (hagrees slot ⟨virt', .inr ⟨kind, hslot⟩⟩).trans
      (filled_other fun i hlow hhigh heq => hother ?_)
    refine ⟨i - c.l1, by omega, ?_⟩
    rw [h.requestPage_eq, hkind, h.leafSlot_agreeing hagrees (by omega), heq]
    congr 3
    omega

/-! ### The pages beyond the table -/

theorem not_mapsExactly_of_lt (h : Lands E s nBytes c table)
    (hspares : SparesTree E s base nBytes c)
    (hcall : s.allocatePages E base nBytes flags key = .ok (virt, frames, s'))
    (hcount : requestPages nBytes < 512 - c.l1) : ¬ MapsExactly E s nBytes virt s' := by
  intro hexact
  have hkind : pageKind nBytes = .page4KB := if_pos h.small
  have hbeyond : c.l1 + requestPages nBytes < 512 := by omega
  obtain ⟨rfl, hagrees⟩ := h.agrees_of_call hspares hcall (Nat.le_of_lt hcount)
  have hother : ¬ RequestSlot (s'.processor E) nBytes (virtualAddress c)
      (table + 8 * (c.l1 + requestPages nBytes)) := by
    rintro ⟨i, hi, hslot⟩
    rw [h.requestPage_eq, hkind, h.leafSlot_agreeing hagrees (by omega)] at hslot
    have heq := Option.some.inj hslot
    omega
  have hsame := hexact.others _ _ _ (h.leafSlot_page hbeyond) hother
  have hpresent : present (s'.word (table + 8 * (c.l1 + requestPages nBytes))) = true := by
    rw [h.word_page hagrees hbeyond, present_pageEntry]
  rw [hsame, h.absent _ (Nat.le_add_right _ _) hbeyond] at hpresent
  cases hpresent

end Lands

/-- No table of the tree but the last on a walk lies in the page of this one. -/
def Alone (E : PagingEnv) (s : PagingState) (table : Nat) : Prop :=
  ∀ virt level slot, (s.processor E).tableSlot processorShift virt level = some slot →
    slot < table ∨ table + 4096 ≤ slot

theorem dvd_tableL1 {E : PagingEnv} {s : PagingState} {virt table : Nat}
    (h : (s.processor E).tableL1 processorShift virt = some table) : 4096 ∣ table := by
  obtain ⟨t2, -, hlast⟩ := Option.bind_eq_some_iff.mp h
  obtain ⟨-, -, hnext⟩ := PageTables.belowUnlessPage_eq_some_iff.mp hlast
  change bits _ 12 40 * 2 ^ 12 % 2 ^ 64 = table at hnext
  omega

namespace Lands

variable {E : PagingEnv} {s s' t : PagingState} {base nBytes flags key : Nat}
  {c : PageCoordinate} {table virt : Nat} {frames : List Frames}

theorem tables_eq (halone : Alone E s table) (hagrees : Agrees E s base flags key c table t)
    (virt' : Nat) :
    (t.processor E).tableL3 processorShift virt' =
        (s.processor E).tableL3 processorShift virt' ∧
      (t.processor E).tableL2 processorShift virt' =
        (s.processor E).tableL2 processorShift virt' ∧
      (t.processor E).tableL1 processorShift virt' =
        (s.processor E).tableL1 processorShift virt' := by
  have hword : ∀ level slot,
      (s.processor E).tableSlot processorShift virt' level = some slot →
      t.word slot = s.word slot := by
    intro level slot hslot
    have hapart := halone virt' level slot hslot
    refine (hagrees slot ⟨virt', .inl ⟨level, hslot⟩⟩).trans
      (filled_other fun i _ hhigh heq => ?_)
    omega
  have h4 : (t.processor E).tableL4 processorShift virt' =
      (s.processor E).tableL4 processorShift virt' := by
    cases hlevel : E.level5 with
    | false =>
        simp only [PageTables.tableL4, PagingState.processor, hlevel]
        rfl
    | true =>
        have hslot : (s.processor E).tableSlot processorShift virt' .l5 =
            some (E.storedPageTable + 8 * indexL5 virt') := by
          simp only [PageTables.tableSlot, PageTables.tableL5, PagingState.processor, hlevel,
            if_true, id_eq, Option.map_some]
        have hlevel' : (t.processor E).level5 = true := hlevel
        have hlevel'' : (s.processor E).level5 = true := hlevel
        rw [PageTables.tableL4, if_pos hlevel', PageTables.tableL4, if_pos hlevel'']
        exact (below_of_word (hword _ _ hslot)).1
  have h3 : (t.processor E).tableL3 processorShift virt' =
      (s.processor E).tableL3 processorShift virt' := by
    rw [PageTables.tableL3, PageTables.tableL3, h4]
    cases htable : (s.processor E).tableL4 processorShift virt' with
    | none => rfl
    | some t =>
        have hslot : (s.processor E).tableSlot processorShift virt' .l4 =
            some (t + 8 * indexL4 virt') := by
          rw [PageTables.tableSlot, htable, Option.map_some]
        exact (below_of_word (hword _ _ hslot)).1
  have h2 : (t.processor E).tableL2 processorShift virt' =
      (s.processor E).tableL2 processorShift virt' := by
    rw [PageTables.tableL2, PageTables.tableL2, h3]
    cases htable : (s.processor E).tableL3 processorShift virt' with
    | none => rfl
    | some t =>
        have hslot : (s.processor E).tableSlot processorShift virt' .l3 =
            some (t + 8 * indexL3 virt') := by
          rw [PageTables.tableSlot, htable, Option.map_some]
        exact (below_of_word (hword _ _ hslot)).2
  refine ⟨h3, h2, ?_⟩
  rw [PageTables.tableL1, PageTables.tableL1, h2]
  cases htable : (s.processor E).tableL2 processorShift virt' with
  | none => rfl
  | some t =>
      have hslot : (s.processor E).tableSlot processorShift virt' .l2 =
          some (t + 8 * indexL2 virt') := by
        rw [PageTables.tableSlot, htable, Option.map_some]
      exact (below_of_word (hword _ _ hslot)).2

theorem pagePresent_beyond (h : Lands E s nBytes c table) (halone : Alone E s table)
    (hagrees : Agrees E s base flags key c table t) (hpos : 0 < c.l1)
    (hpresent : PagePresent (t.processor E) (virtualAddress c + (512 - c.l1) * 4096)) :
    PagePresent (s.processor E) (virtualAddress c + (512 - c.l1) * 4096) := by
  have hl1 := h.coordinate_small.l1
  have hindex : indexL1 (virtualAddress c + (512 - c.l1) * 4096) = 0 := by
    obtain ⟨sign, hsign⟩ := virtualAddress_eq_add c
    rw [packedIndices] at hsign
    rw [hsign, indexL1, bits]
    omega
  obtain ⟨h3, h2, h1⟩ := tables_eq halone hagrees (virtualAddress c + (512 - c.l1) * 4096)
  obtain ⟨kind, slot, hslot, hbit, hpage⟩ := hpresent
  have hslot' : (s.processor E).leafSlot processorShift
      (virtualAddress c + (512 - c.l1) * 4096) kind = some slot := by
    cases kind with
    | page4KB => rwa [PageTables.leafSlot, h1] at hslot
    | page2MB => rwa [PageTables.leafSlot, h2] at hslot
    | page1GB => rwa [PageTables.leafSlot, h3] at hslot
  have hsame : t.word slot = s.word slot := by
    refine (hagrees slot ⟨_, .inr ⟨kind, hslot'⟩⟩).trans
      (filled_other fun i hlow hhigh heq => ?_)
    cases kind with
    | page4KB =>
        obtain ⟨t', ht, hentry⟩ := Option.map_eq_some_iff.mp hslot'
        have hdvd := dvd_tableL1 ht
        have hdvd' := dvd_tableL1 h.own
        rw [hindex] at hentry
        omega
    | page2MB =>
        have hapart := halone _ .l2 slot hslot'
        omega
    | page1GB =>
        have hapart := halone _ .l3 slot hslot'
        omega
  change present (t.word slot) = true at hbit
  change kind ≠ .page4KB → pageSizeBit (t.word slot) = true at hpage
  rw [hsame] at hbit hpage
  exact ⟨kind, slot, hslot', hbit, hpage⟩

theorem not_mapsExactly_of_gt (h : Lands E s nBytes c table)
    (hspares : SparesTree E s base nBytes c) (halone : Alone E s table)
    (hcall : s.allocatePages E base nBytes flags key = .ok (virt, frames, s'))
    (hcount : 512 - c.l1 < requestPages nBytes) : ¬ MapsExactly E s nBytes virt s' := by
  intro hexact
  have hle := h.requestPages_eq.2
  obtain ⟨rfl, s₁, hword, hclear⟩ := h.allocatePages_eq hcall
  obtain ⟨k, hk⟩ : ∃ k, requestPages nBytes = 512 - c.l1 + (k + 1) :=
    ⟨requestPages nBytes - (512 - c.l1) - 1, by omega⟩
  obtain ⟨t, hagrees, hsame⟩ := h.clearPages_agrees hspares hword (k + 1)
  have habsent := hexact.absent _ hcount
  rw [h.requestPage_eq] at habsent
  have hbeyond : (t.processor E).pageFrame (u64 (virtualAddress c + (512 - c.l1) * pageSize)) =
      none := by
    rw [pageFrame_u64, PageTables.pageFrame_eq_none_iff]
    exact fun hpresent => habsent (h.pagePresent_beyond halone hagrees (by omega) hpresent)
  rw [Nat.min_eq_right (Nat.le_of_lt hcount), ← hk, hclear, PagingState.clearPages, hbeyond]
    at hsame
  cases hsame

end Lands

/--
Where the search ends in the right table and the clearing spares the tree, a request of
the size of the rest of that table is mapped exactly; and no other one is, if the table
stands alone.
-/
theorem mapsExactly_of_lands {E : PagingEnv} {s s' : PagingState}
    {base nBytes flags key table virt : Nat} {c : PageCoordinate} {frames : List Frames}
    (h : Lands E s nBytes c table) (hspares : SparesTree E s base nBytes c)
    (hcall : s.allocatePages E base nBytes flags key = .ok (virt, frames, s')) :
    (requestPages nBytes = 512 - c.l1 → MapsExactly E s nBytes virt s') ∧
      (Alone E s table → MapsExactly E s nBytes virt s' → requestPages nBytes = 512 - c.l1) := by
  refine ⟨h.mapsExactly hspares hcall, fun halone hexact => ?_⟩
  rcases Nat.lt_trichotomy (requestPages nBytes) (512 - c.l1) with hlt | heq | hgt
  · exact absurd hexact (h.not_mapsExactly_of_lt hspares hcall hlt)
  · exact heq
  · exact absurd hexact (h.not_mapsExactly_of_gt hspares halone hcall hgt)

/-! ### Two page tables -/

theorem mapVirtual_pageByPage {p : Nat} (hpos : p ≠ 0) (hp : p < 1024) :
    pageByPage.mapVirtual (p * pageSize) = p * pageSize := by
  have hpage : p * pageSize / pageSize = p := Nat.mul_div_cancel p (by decide)
  have hindex : pageByPage.descriptorIndex (p * pageSize) = p := hpage
  have hrange : pageByPage.table.descriptors p = ⟨p * pageSize, 2 * p, 1, 7⟩ := if_neg hpos
  have hlookup : pageByPage.getSubDescriptor (p * pageSize) = some (2 * p) := by
    have hdistance : u64sub (p * pageSize) (p * pageSize) = 0 := by
      rw [pageSize, u64sub_of_le (by omega) (Nat.le_refl _), Nat.sub_self]
    have hmemory : p * pageSize < pageByPage.memoryMaxPages * pageSize :=
      Nat.mul_lt_mul_of_pos_right hp (by decide)
    have hvalid : 2 * p ≠ invalidSubDescriptorIndex := by
      rw [invalidSubDescriptorIndex]
      omega
    simp only [AllocState.getSubDescriptor, hindex, hrange]
    rw [if_pos ⟨hmemory, hvalid⟩, hdistance, AllocState.subDescriptorFrom, if_pos rfl]
  have hcovers : pageByPage.covers (p * pageSize) = true := by
    rw [AllocState.covers, hpage]
    exact decide_eq_true hp
  have hcoordinate : (pageByPage.table.subDescriptors (2 * p)).coordBaseIndex =
      initPageCoordinate false (p * pageSize) := by
    have hhalf : 2 * p / 2 = p := Nat.mul_div_cancel_left p (by decide)
    change initPageCoordinate false (2 * p / 2 * pageSize) = _
    rw [hhalf]
  rw [AllocState.mapVirtual, if_pos hcovers, hlookup]
  change virtualAddress (pageByPage.table.subDescriptors (2 * p)).coordBaseIndex = _
  rw [hcoordinate, virtualAddress_init]
  · rw [pageSize]
    exact Or.inl (by omega)
  · exact Nat.dvd_mul_left _ _

theorem first_iterate {nBytes : Nat} (hsmall : nBytes < pageSize2) {k : Nat} (hk : k < 512) :
    (advance false nBytes)^[k] (enabled false nBytes) = { enabled false nBytes with l1 := k } := by
  induction k with
  | zero => rfl
  | succ k ih =>
      have hnext : PageCoordinate.next k = k + 1 := Nat.mod_eq_of_lt hk
      rw [Function.iterate_succ_apply', ih (by omega), advance, PageCoordinate.step_of_small hsmall]
      simp [PageCoordinate.carryL2, PageCoordinate.carryL3, PageCoordinate.carryL4,
        PageCoordinate.carryL5, hnext]

theorem enabled_of_small {nBytes : Nat} (hsmall : nBytes < pageSize2) :
    enabled false nBytes = ⟨0, 0, 0, 0, 0, true, true, true, true, false⟩ := by
  have hlarge : ¬ pageSize3 ≤ nBytes := fun h3 =>
    Nat.lt_irrefl _ (Nat.lt_of_lt_of_le hsmall (Nat.le_trans (by decide) h3))
  rw [enabled, if_neg hlarge, if_neg (Nat.not_le.mpr hsmall)]

theorem walk_secondTable {table k l2 : Nat} (htable : l2 = 0 ∧ table = 0x4000 ∨
    l2 = 1 ∧ table = 0x300000) :
    (secondTable.tables identityEnv).walkPageTree identityEnv.shift 5
        ⟨k, l2, 0, 0, 0, true, true, true, true, false⟩ =
      (1, pageByPage.mapVirtual (table + 4096 * k)) := by
  have h4 : pageByPage.mapVirtual (tableAddress identityEnv.shift (secondTable.word 0x1000)) =
      0x2000 := by decide +kernel
  have h3 : pageSizeBit (secondTable.word 0x2000) = false ∧ pageByPage.mapVirtual
      (tableAddress identityEnv.shift (secondTable.word 0x2000)) = 0x3000 := by decide +kernel
  have h2 : pageSizeBit (secondTable.word (0x3000 + 8 * l2)) = false ∧ pageByPage.mapVirtual
      (tableAddress identityEnv.shift (secondTable.word (0x3000 + 8 * l2))) = table := by
    rcases htable with ⟨rfl, rfl⟩ | ⟨rfl, rfl⟩ <;> decide +kernel
  have hmap : (secondTable.tables identityEnv).mapVirtual = pageByPage.mapVirtual := by
    simp only [PagingState.tables, secondTable]
  have hword : (secondTable.tables identityEnv).word = secondTable.word := by
    simp only [PagingState.tables]
  have hlevel : (secondTable.tables identityEnv).level5 = false := rfl
  have hroot : (secondTable.tables identityEnv).storedPageTable = 0x1000 := rfl
  simp only [PageTables.walkPageTree, PageTables.walkL5, PageTables.walkL4, PageTables.walkL3,
    PageTables.walkL2, PageTables.walkL1, PageTables.entry, hmap, hword, hlevel, hroot,
    Nat.mul_zero, Nat.add_zero, Bool.not_true, Bool.not_false, Bool.false_eq_true, if_true,
    if_false, h4, h3.1, h3.2, h2.1, h2.2]

theorem refused_secondTable {nBytes : Nat} (hsmall : nBytes < pageSize2) {k : Nat}
    (hpos : 0 < k) (hk : k < 512) :
    secondTable.refused identityEnv nBytes { enabled false nBytes with l1 := k } = true := by
  have hmap : pageByPage.mapVirtual (0x4000 + 4096 * k) = 0x4000 + 4096 * k := by
    have hpage : 0x4000 + 4096 * k = (4 + k) * pageSize := by
      rw [pageSize]
      omega
    rw [hpage]
    exact mapVirtual_pageByPage (by omega) (by omega)
  have hword : secondTable.word (0x4000 + 4096 * k + 8 * 0) = 1 := by
    have hinside : 0x5000 ≤ 0x4000 + 4096 * k + 8 * 0 ∧ 0x4000 + 4096 * k + 8 * 0 < 0x300000 ∧
        (0x4000 + 4096 * k + 8 * 0) % 4096 = 0 := by omega
    simp only [secondTable, if_pos hinside]
    split_ifs <;> first | rfl | omega
  have htouchable : secondTable.touchable (0x4000 + 4096 * k) k 9 = false := by
    have hcount : 512 - k = 511 - k + 1 := by omega
    rw [PagingState.touchable, hcount, PagingState.touchableFrom, hword]
    rfl
  rw [enabled_of_small hsmall, PagingState.refused, walk_secondTable (Or.inl ⟨rfl, rfl⟩), hmap]
  simp [htouchable]

theorem absent_secondTable (i : Nat) (hi : i < 512) :
    present (secondTable.word (0x300000 + 8 * i)) = false := by
  have hzero : secondTable.word (0x300000 + 8 * i) = 0 := by
    simp only [secondTable]
    split_ifs <;> first | rfl | omega
  rw [hzero]
  rfl

theorem lands_secondTable {nBytes : Nat} (hpage : pageSize ≤ nBytes)
    (hsmall : nBytes < pageSize2) :
    Lands identityEnv secondTable nBytes ⟨0, 1, 0, 0, 0, true, true, true, true, false⟩
      0x300000 where
  turns := by
    refine ⟨511, ?_, fun j hj => ?_⟩
    · have hlast : identityEnv.level5 = false := rfl
      rw [Function.iterate_succ_apply', hlast, first_iterate hsmall (by decide), advance,
        PageCoordinate.step_of_small hsmall, enabled_of_small hsmall]
      rfl
    · have hlevel : identityEnv.level5 = false := rfl
      rw [hlevel, first_iterate hsmall (by omega)]
      exact refused_secondTable hsmall (Nat.succ_pos j) (by omega)
  small := hsmall
  page := hpage
  reached := by
    have hpage : 0x300000 + 4096 * 0 = 0x300 * pageSize := by decide
    rw [walk_secondTable (Or.inr ⟨rfl, rfl⟩), hpage, mapVirtual_pageByPage (by decide) (by decide)]
    rfl
  free := by decide +kernel
  own := by decide +kernel
  absent := fun i _ hi => absent_secondTable i hi

theorem next_secondTable {k i : Nat} (hi : i < 512) (hk : k = 0x1000 ∨ k = 0x2000 ∨ k = 0x3000)
    (hpresent : present (secondTable.word (k + 8 * i)) = true) :
    tableAddress processorShift (secondTable.word (k + 8 * i)) = k + 0x1000 ∨
      k = 0x3000 ∧ tableAddress processorShift (secondTable.word (k + 8 * i)) = 0x300000 := by
  have h2001 : tableAddress processorShift 0x2001 = 0x2000 := by decide
  have h3001 : tableAddress processorShift 0x3001 = 0x3000 := by decide
  have h4001 : tableAddress processorShift 0x4001 = 0x4000 := by decide
  have hsecond : tableAddress processorShift 0x300001 = 0x300000 := by decide
  simp only [secondTable] at hpresent ⊢
  split_ifs at hpresent ⊢ <;> first | omega | exact absurd hpresent (by decide)

theorem tables_secondTable (virt : Nat) :
    (∀ t, (secondTable.processor identityEnv).tableL4 processorShift virt = some t →
      t = 0x1000) ∧
    (∀ t, (secondTable.processor identityEnv).tableL3 processorShift virt = some t →
      t = 0x2000) ∧
    (∀ t, (secondTable.processor identityEnv).tableL2 processorShift virt = some t →
      t = 0x3000) ∧
    ∀ t, (secondTable.processor identityEnv).tableL1 processorShift virt = some t →
      t = 0x4000 ∨ t = 0x300000 := by
  have hindex : ∀ off, bits virt off 9 < 512 := fun off => bits_lt virt off 9
  have h4 : ∀ t, (secondTable.processor identityEnv).tableL4 processorShift virt = some t →
      t = 0x1000 := fun t h => (Option.some.inj h).symm
  have h3 : ∀ t, (secondTable.processor identityEnv).tableL3 processorShift virt = some t →
      t = 0x2000 := by
    intro t h
    obtain ⟨t4, ht4, hbelow⟩ := Option.bind_eq_some_iff.mp h
    obtain ⟨hpresent, hnext⟩ := PageTables.below_eq_some_iff.mp hbelow
    rw [h4 t4 ht4] at hpresent hnext
    rcases next_secondTable (hindex 39) (.inl rfl) hpresent with haddress | ⟨hfalse, -⟩
    · exact hnext.symm.trans haddress
    · cases hfalse
  have h2 : ∀ t, (secondTable.processor identityEnv).tableL2 processorShift virt = some t →
      t = 0x3000 := by
    intro t h
    obtain ⟨t3, ht3, hbelow⟩ := Option.bind_eq_some_iff.mp h
    obtain ⟨hpresent, -, hnext⟩ := PageTables.belowUnlessPage_eq_some_iff.mp hbelow
    rw [h3 t3 ht3] at hpresent hnext
    rcases next_secondTable (hindex 30) (.inr (.inl rfl)) hpresent with haddress | ⟨hfalse, -⟩
    · exact hnext.symm.trans haddress
    · cases hfalse
  refine ⟨h4, h3, h2, fun t h => ?_⟩
  obtain ⟨t2, ht2, hbelow⟩ := Option.bind_eq_some_iff.mp h
  obtain ⟨hpresent, -, hnext⟩ := PageTables.belowUnlessPage_eq_some_iff.mp hbelow
  rw [h2 t2 ht2] at hpresent hnext
  rcases next_secondTable (hindex 21) (.inr (.inr rfl)) hpresent with haddress | ⟨-, haddress⟩
  · exact Or.inl (hnext.symm.trans haddress)
  · exact Or.inr (hnext.symm.trans haddress)

theorem isEntry_secondTable {slot : Nat} (h : IsEntry (secondTable.processor identityEnv) slot) :
    0x1000 ≤ slot ∧ slot < 0x301000 := by
  obtain ⟨virt, ⟨level, hslot⟩ | ⟨kind, hslot⟩⟩ := h
  · obtain ⟨h4, h3, h2, -⟩ := tables_secondTable virt
    cases level with
    | l5 => cases hslot
    | l4 =>
        simp only [PageTables.tableSlot, Option.map_eq_some_iff] at hslot
        obtain ⟨t, ht, rfl⟩ := hslot
        have hindex : indexL4 virt < 512 := bits_lt virt 39 9
        have htable := h4 t ht
        omega
    | l3 =>
        obtain ⟨t, ht, rfl⟩ := Option.map_eq_some_iff.mp hslot
        have hindex : indexL3 virt < 512 := bits_lt virt 30 9
        have htable := h3 t ht
        omega
    | l2 =>
        obtain ⟨t, ht, rfl⟩ := Option.map_eq_some_iff.mp hslot
        have hindex : indexL2 virt < 512 := bits_lt virt 21 9
        have htable := h2 t ht
        omega
  · obtain ⟨-, h3, h2, h1⟩ := tables_secondTable virt
    cases kind with
    | page4KB =>
        obtain ⟨t, ht, rfl⟩ := Option.map_eq_some_iff.mp hslot
        have hindex : indexL1 virt < 512 := bits_lt virt 12 9
        have htable := h1 t ht
        omega
    | page2MB =>
        obtain ⟨t, ht, rfl⟩ := Option.map_eq_some_iff.mp hslot
        have hindex : indexL2 virt < 512 := bits_lt virt 21 9
        have htable := h2 t ht
        omega
    | page1GB =>
        obtain ⟨t, ht, rfl⟩ := Option.map_eq_some_iff.mp hslot
        have hindex : indexL3 virt < 512 := bits_lt virt 30 9
        have htable := h3 t ht
        omega

theorem sparesTree_secondTable (nBytes : Nat) (c : PageCoordinate) :
    SparesTree identityEnv secondTable 0 nBytes c := by
  intro slot hentry i hi
  obtain ⟨hlow, hhigh⟩ := isEntry_secondTable hentry
  have haddress : runAddress .page4KB 0 i = i * 2 ^ 12 := by
    rw [runAddress, PageKind.size, u32_of_lt (by omega), u64_of_lt (by omega), Nat.zero_add]
  rw [requestFrame, haddress]
  omega

/-- A request of a whole page table gets the second one. -/
theorem mapsExactly_secondTable : ∃ virt frames s',
    secondTable.allocatePages identityEnv 0 0x1FFFFF 1 0 = .ok (virt, frames, s') ∧
      MapsExactly identityEnv secondTable 0x1FFFFF virt s' := by
  have hlands := lands_secondTable (show pageSize ≤ 0x1FFFFF by decide) (by decide)
  have heval : ((PagingState.allocateFrom identityEnv 0 0x1FFFFF 1 0 identityEnv.fuel
      (enabled identityEnv.level5 0x1FFFFF) secondTable).map
        PagingState.Filled.virt).toOption = some 0x200000 := by decide +kernel
  obtain ⟨f, hloop, -⟩ := ok_of_eval heval
  obtain ⟨s', hcall⟩ := hlands.exists_call (sparesTree_secondTable _ _) hloop (by decide)
  exact ⟨f.virt, f.frames, s', hcall,
    (mapsExactly_of_lands hlands (sparesTree_secondTable _ _) hcall).1 (by decide)⟩

/-- A request of one page there gets the whole second table. -/
theorem not_mapsExactly_secondTable : ∃ virt frames s',
    secondTable.allocatePages identityEnv 0 0x1000 1 0 = .ok (virt, frames, s') ∧
      ¬ MapsExactly identityEnv secondTable 0x1000 virt s' := by
  have hlands := lands_secondTable (show pageSize ≤ 0x1000 by decide) (by decide)
  have heval : ((secondTable.allocatePages identityEnv 0 0x1000 1 0).map
      Prod.fst).toOption = some 0x200000 := by decide +kernel
  obtain ⟨⟨virt, frames, s'⟩, hcall, -⟩ := ok_of_eval heval
  exact ⟨virt, frames, s', hcall,
    hlands.not_mapsExactly_of_lt (sparesTree_secondTable _ _) hcall (by decide)⟩

end BlockyOS.Kernel
