import BlockyOS.Kernel.PageOwnership
import BlockyOS.Kernel.SubDescriptorLookup

/-!
# Freeing the pages of an allocation

`FreePages` runs into the trap of its update or leaves the table as it was, and clears
the entries that `WalkPageTree` finds for the coordinates stored in the pages.
Since a cleared entry leads where it led before, these are known before the call.
-/

namespace BlockyOS.Kernel

open BlockyOS.Foundation
open BlockyOS.HostTool (Fault)
open PagingState (clearEntry)

/-! ## Clearing an entry -/

theorem clearEntry_reads (e : Nat) : bits (clearEntry e) 12 40 = bits e 12 40 ∧
    pageSizeBit (clearEntry e) = pageSizeBit e ∧
    ∀ la57, initPageCoordinate la57 (clearEntry e) = initPageCoordinate la57 e := by
  have hhigh : clearEntry e / 2 ^ 10 = e / 2 ^ 10 := by
    rw [clearEntry, bits, bits]
    omega
  have hsize : bits (clearEntry e) 7 1 = bits e 7 1 := by
    rw [clearEntry, bits, bits, bits, bits]
    omega
  have hfield : ∀ off width, bits (clearEntry e) (10 + off) width = bits e (10 + off) width := by
    intro off width
    rw [bits, bits, Nat.pow_add, ← Nat.div_div_eq_div_mul, ← Nat.div_div_eq_div_mul, hhigh]
  refine ⟨hfield 2 40, by rw [pageSizeBit, pageSizeBit, hsize], fun la57 => ?_⟩
  have h1 : indexL1 (clearEntry e) = indexL1 e := hfield 2 9
  have h2 : indexL2 (clearEntry e) = indexL2 e := hfield 11 9
  have h3 : indexL3 (clearEntry e) = indexL3 e := hfield 20 9
  have h4 : indexL4 (clearEntry e) = indexL4 e := hfield 29 9
  have h5 : indexL5 (clearEntry e) = indexL5 e := hfield 38 9
  rw [initPageCoordinate, h1, h2, h3, h4, h5, initPageCoordinate]

theorem clearEntry_clearEntry (e : Nat) : clearEntry (clearEntry e) = clearEntry e := by
  have hlow : ∀ e, bits (clearEntry e) 9 1 = 0 ∧ bits (clearEntry e) 0 1 = 0 := by
    intro e
    simp only [clearEntry, bits]
    omega
  obtain ⟨h9, h0⟩ := hlow e
  rw [clearEntry, h9, h0]
  rfl

theorem clearEntry_ne {e : Nat} (h : present e = true) : clearEntry e ≠ e := by
  have hbit : bits e 0 1 = 1 := of_decide_eq_true h
  have hle : bits e 9 1 * 2 ^ 9 ≤ e := by
    rw [bits]
    omega
  simp only [clearEntry, bits] at *
  omega

namespace PagingState

def clearAll (s : PagingState) (l : List Nat) : PagingState :=
  { s with word := fun a => if a ∈ l then clearEntry (s.word a) else s.word a }

theorem clearAll_nil (s : PagingState) : s.clearAll [] = s := rfl

theorem clearAll_cons (s : PagingState) (a : Nat) (l : List Nat) :
    (s.setWord a (clearEntry (s.word a))).clearAll l = s.clearAll (a :: l) := by
  refine congrArg (PagingState.mk s.alloc) (funext fun b => ?_)
  simp only [setWord, List.mem_cons]
  by_cases hb : b = a
  · subst hb
    simp only [if_true, true_or, clearEntry_clearEntry, ite_self]
  · simp only [hb, if_false, false_or]

theorem walk_clearAll (E : PagingEnv) (s : PagingState) (l : List Nat) (virt : Nat) :
    ((s.clearAll l).tables E).walkPageTreeByVirtual E.shift virt =
      (s.tables E).walkPageTreeByVirtual E.shift virt := by
  have hword : ∀ a, (s.clearAll l).word a = clearEntry (s.word a) ∨
      (s.clearAll l).word a = s.word a := by
    intro a
    by_cases ha : a ∈ l
    · exact Or.inl (if_pos ha)
    · exact Or.inr (if_neg ha)
  have haddress : ∀ a, tableAddress E.shift ((s.clearAll l).word a) =
      tableAddress E.shift (s.word a) := by
    intro a
    rcases hword a with h | h <;> rw [h]
    rw [tableAddress, tableAddress, (clearEntry_reads (s.word a)).1]
  have hsize : ∀ a, pageSizeBit ((s.clearAll l).word a) = pageSizeBit (s.word a) := by
    intro a
    rcases hword a with h | h <;> rw [h]
    rw [(clearEntry_reads (s.word a)).2.1]
  have hcoordinate : ∀ a la57, initPageCoordinate la57 ((s.clearAll l).word a) =
      initPageCoordinate la57 (s.word a) := by
    intro a la57
    rcases hword a with h | h <;> rw [h]
    rw [(clearEntry_reads (s.word a)).2.2 la57]
  simp only [PageTables.walkPageTreeByVirtual, tables, hcoordinate, PageTables.walkPageTree,
    PageTables.walkL5, PageTables.walkL4, PageTables.walkL3, PageTables.walkL2,
    PageTables.walkL1, PageTables.entry, haddress, hsize]
  rfl

end PagingState

/-! ## The loop -/

def levelSize : Nat → Option Nat
  | 3 => some pageSize3
  | 2 => some pageSize2
  | 1 => some pageSize
  | _ => none

inductive Visits (S : FieldShift) (m : PageTables) : Nat → Nat → List Nat → Prop where
  | done (virt : Nat) : Visits S m 0 virt []
  | entry {total virt level pt size : Nat} {l : List Nat} (more : total ≠ 0)
      (walk : m.walkPageTreeByVirtual S virt = (level, pt)) (stops : levelSize level = some size)
      (rest : Visits S m (total - size) (u64 (virt + size)) l) : Visits S m total virt (pt :: l)

theorem Visits.congr {S : FieldShift} {m m' : PageTables} {total virt : Nat} {l : List Nat}
    (hwalk : ∀ virt, m'.walkPageTreeByVirtual S virt = m.walkPageTreeByVirtual S virt)
    (h : Visits S m total virt l) : Visits S m' total virt l := by
  induction h with
  | done virt => exact .done virt
  | entry more walk stops _ ih => exact .entry more ((hwalk _).trans walk) stops ih

namespace PagingState

variable {E : PagingEnv} {s s' : PagingState}

theorem clearEntries_step {fuel total virt level pt : Nat} (htotal : total ≠ 0)
    (hwalk : (s.tables E).walkPageTreeByVirtual E.shift virt = (level, pt)) :
    clearEntries E (fuel + 1) total virt s =
      match levelSize level with
      | some size => clearEntries E fuel (total - size) (u64 (virt + size))
          (s.setWord pt (clearEntry (s.word pt)))
      | none => .error .hang := by
  rw [clearEntries, if_neg htotal, hwalk]
  rcases level with _ | _ | _ | _ | level <;> rfl

theorem walk_setWord (E : PagingEnv) (s : PagingState) (pt virt : Nat) :
    ((s.setWord pt (clearEntry (s.word pt))).tables E).walkPageTreeByVirtual E.shift virt =
      (s.tables E).walkPageTreeByVirtual E.shift virt := by
  have hclear := clearAll_cons s pt []
  rw [clearAll_nil] at hclear
  rw [hclear, walk_clearAll]

theorem visits_of_clearEntries {fuel : Nat} : ∀ {total virt : Nat} {s : PagingState},
    clearEntries E fuel total virt s = .ok s' →
      ∃ l, Visits E.shift (s.tables E) total virt l ∧ s' = s.clearAll l := by
  induction fuel with
  | zero =>
      intro total virt s h
      cases h
  | succ fuel ih =>
      intro total virt s h
      by_cases htotal : total = 0
      · subst htotal
        rw [clearEntries, if_pos rfl] at h
        cases h
        exact ⟨[], .done virt, rfl⟩
      · rcases hwalk : (s.tables E).walkPageTreeByVirtual E.shift virt with ⟨level, pt⟩
        rw [clearEntries_step htotal hwalk] at h
        split at h
        case h_2 => cases h
        case h_1 size hsize =>
          obtain ⟨l, hvisits, rfl⟩ := ih h
          refine ⟨pt :: l, .entry htotal hwalk hsize (hvisits.congr fun virt => ?_),
            clearAll_cons s pt l⟩
          exact (walk_setWord E s pt virt).symm

theorem clearEntries_of_visits {total virt : Nat} {l : List Nat} {m : PageTables}
    (h : Visits E.shift m total virt l) : ∀ {s : PagingState},
      (∀ virt, m.walkPageTreeByVirtual E.shift virt =
        (s.tables E).walkPageTreeByVirtual E.shift virt) →
      ∃ fuel, clearEntries E fuel total virt s = .ok (s.clearAll l) := by
  induction h with
  | done virt =>
      intro s _
      exact ⟨1, by rw [clearEntries, if_pos rfl, clearAll_nil]⟩
  | @entry total virt level pt size l more walk stops _ ih =>
      intro s hsame
      have hrest : ∀ virt, m.walkPageTreeByVirtual E.shift virt =
          ((s.setWord pt (clearEntry (s.word pt))).tables E).walkPageTreeByVirtual E.shift
            virt := by
        intro virt
        rw [walk_setWord, hsame]
      have hwalk : (s.tables E).walkPageTreeByVirtual E.shift virt = (level, pt) := by
        rw [← hsame, walk]
      obtain ⟨fuel, hfuel⟩ := ih hrest
      refine ⟨fuel + 1, ?_⟩
      rw [clearEntries_step more hwalk, stops]
      dsimp only
      rw [hfuel, clearAll_cons]

theorem clearEntries_withFuel (E : PagingEnv) (bound fuel : Nat) :
    ∀ total virt s, clearEntries { E with fuel := bound } fuel total virt s =
      clearEntries E fuel total virt s := by
  induction fuel with
  | zero => exact fun _ _ _ => rfl
  | succ fuel ih =>
      intro total virt s
      simp only [clearEntries, ih]
      rfl

end PagingState

/-! ## A live allocation -/

/-- `~PATUsedRegion` -/
def notUsedRegion : Nat := 0xFF - patUsedRegion

theorem notUsedRegion_ne {type : Nat} (hused : type &&& patUsedRegion = patUsedRegion) :
    type &&& notUsedRegion ≠ type := by
  intro h
  have hzero : notUsedRegion &&& patUsedRegion = 0 := by decide
  rw [← h, Nat.and_assoc, hzero, Nat.and_zero] at hused
  cases hused

/--
A live allocation of `count` pages from `base` on, with the entries that map them and
its sub-descriptor, and an address in its first page.
-/
structure FreeRequest (E : PagingEnv) (s : PagingState) where
  kind : PageKind
  base : Nat
  count : Nat
  entry : Nat → Nat
  sub : Nat
  virt : Nat
  count_pos : 0 < count
  mapped : ∀ i, i < count →
    (s.tables E).leafSlot E.shift (base + i * kind.size) kind = some (entry i)
  present : ∀ i, i < count → present (s.word (entry i)) = true
  found : s.alloc.getSubDescriptor (s.mapPhysical E base) = some sub
  used : (s.alloc.table.subDescriptors sub).allocationType &&& patUsedRegion = patUsedRegion
  pages : (s.alloc.table.subDescriptors sub).noPages * pageSize = count * kind.size
  inside : base ≤ virt ∧ virt < base + kind.size

namespace FreeRequest

variable {E : PagingEnv} {s : PagingState}

def entries (r : FreeRequest E s) : List Nat := (List.range r.count).map r.entry

/-- The physical address that `FreePages` looks up. -/
def lookedUp (r : FreeRequest E s) : Nat := s.mapPhysical E (PagingState.rounddown r.virt pageSize)

/-- With enough turns the call returns and clears the entries of the allocation and no other. -/
def ClearsEntries (r : FreeRequest E s) : Prop :=
  ∃ fuel s', s.freePages { E with fuel := fuel } r.virt = .ok s' ∧
    s'.word = (s.clearAll r.entries).word

/-- With enough turns the call returns and frees the allocation and nothing else. -/
def Right (r : FreeRequest E s) : Prop :=
  ∃ fuel s', s.freePages { E with fuel := fuel } r.virt = .ok s' ∧
    s'.word = (s.clearAll r.entries).word ∧
    s'.alloc = s.alloc.setAllocationType notUsedRegion r.sub

/-- The call comes to its loop. -/
structure ReachesLoop (r : FreeRequest E s) : Prop where
  nonzero : r.virt ≠ 0
  covers : s.alloc.covers r.lookedUp = true
  untrapped : s.alloc.traps r.lookedUp = false

/-- The loop finds the entries of the allocation, and otherwise only clear ones. -/
def FindsEntries (r : FreeRequest E s) : Prop :=
  ∃ l, Visits E.shift (s.tables E) (s.totalMappedMemory E r.virt) r.virt l ∧
    (∀ a ∈ r.entries, a ∈ l) ∧ ∀ a ∈ l, a ∉ r.entries → clearEntry (s.word a) = s.word a

theorem alloc_ne (r : FreeRequest E s) :
    s.alloc ≠ s.alloc.setAllocationType notUsedRegion r.sub := by
  intro h
  have hread := congrArg (fun a => (a.table.subDescriptors r.sub).allocationType) h
  simp only [AllocState.setAllocationType, AllocState.setSubDescriptor,
    Function.update_self] at hread
  exact notUsedRegion_ne r.used hread.symm

theorem present_of_mem (r : FreeRequest E s) {a : Nat} (ha : a ∈ r.entries) :
    Kernel.present (s.word a) = true := by
  obtain ⟨i, hi, rfl⟩ := List.mem_map.mp ha
  exact r.present i (List.mem_range.mp hi)

theorem word_ne (r : FreeRequest E s) : s.word ≠ (s.clearAll r.entries).word := by
  intro h
  have hfirst : r.entry 0 ∈ r.entries := List.mem_map_of_mem (List.mem_range.mpr r.count_pos)
  have hread := congrFun h (r.entry 0)
  simp only [PagingState.clearAll, if_pos hfirst] at hread
  exact clearEntry_ne (r.present_of_mem hfirst) hread.symm

theorem freePages_ok (r : FreeRequest E s) {fuel : Nat} {s' : PagingState}
    (h : s.freePages { E with fuel := fuel } r.virt = .ok s') :
    s' = s ∨ r.ReachesLoop ∧
      PagingState.clearEntries E fuel (s.totalMappedMemory E r.virt) r.virt s = .ok s' := by
  rw [PagingState.freePages] at h
  split at h
  case isTrue =>
    cases h
    exact Or.inl rfl
  case isFalse hvirt =>
    simp only at h
    split at h
    case isFalse =>
      cases h
      exact Or.inl rfl
    case isTrue hcovers =>
      rw [AllocState.markUnused_eq] at h
      split at h
      case h_1 => cases h
      case h_2 alloc hmark =>
        split at hmark
        case isTrue => cases hmark
        case isFalse htraps =>
          cases hmark
          rw [PagingState.clearEntries_withFuel] at h
          exact Or.inr ⟨⟨hvirt, hcovers, Bool.not_eq_true _ ▸ htraps⟩, h⟩

theorem freePages_of_reaches (r : FreeRequest E s) (h : r.ReachesLoop) (fuel : Nat) :
    s.freePages { E with fuel := fuel } r.virt =
      PagingState.clearEntries E fuel (s.totalMappedMemory E r.virt) r.virt s := by
  have hlooked : s.mapPhysical { E with fuel := fuel } (PagingState.rounddown r.virt pageSize) =
      r.lookedUp := rfl
  rw [PagingState.freePages, if_neg h.nonzero]
  simp only [hlooked, h.covers, if_true, AllocState.markUnused_eq, h.untrapped]
  exact PagingState.clearEntries_withFuel E fuel fuel _ _ _

theorem clearAll_word_eq_iff (r : FreeRequest E s) (l : List Nat) :
    (s.clearAll l).word = (s.clearAll r.entries).word ↔
      (∀ a ∈ r.entries, a ∈ l) ∧ ∀ a ∈ l, a ∉ r.entries → clearEntry (s.word a) = s.word a := by
  constructor
  · intro h
    refine ⟨fun a ha => ?_, fun a ha hnot => ?_⟩
    · have hread := congrFun h a
      by_cases hl : a ∈ l
      · exact hl
      · simp only [PagingState.clearAll, if_neg hl, if_pos ha] at hread
        exact absurd hread.symm (clearEntry_ne (r.present_of_mem ha))
    · have hread := congrFun h a
      simpa only [PagingState.clearAll, if_pos ha, if_neg hnot] using hread
  · rintro ⟨hall, hclear⟩
    funext a
    by_cases ha : a ∈ r.entries
    · simp only [PagingState.clearAll, if_pos ha, if_pos (hall a ha)]
    · by_cases hl : a ∈ l
      · simp only [PagingState.clearAll, if_pos hl, if_neg ha, hclear a hl ha]
      · simp only [PagingState.clearAll, if_neg hl, if_neg ha]

theorem clearsEntries_iff (r : FreeRequest E s) :
    r.ClearsEntries ↔ r.ReachesLoop ∧ r.FindsEntries := by
  constructor
  · rintro ⟨fuel, s', hcall, hword⟩
    rcases r.freePages_ok hcall with rfl | ⟨hreaches, hloop⟩
    · exact absurd hword r.word_ne
    · obtain ⟨l, hvisits, rfl⟩ := PagingState.visits_of_clearEntries hloop
      exact ⟨hreaches, l, hvisits, (r.clearAll_word_eq_iff l).mp hword⟩
  · rintro ⟨hreaches, l, hvisits, hlist⟩
    obtain ⟨fuel, hfuel⟩ := PagingState.clearEntries_of_visits hvisits fun _ => rfl
    exact ⟨fuel, _, (r.freePages_of_reaches hreaches fuel).trans hfuel,
      (r.clearAll_word_eq_iff l).mpr hlist⟩

/--
No call frees an allocation: it traps at an entry of the table, and where it has not it
leaves the table as it was.  The entries are another matter.
-/
theorem freeRight_never (r : FreeRequest E s) :
    ¬ r.Right ∧ (r.ClearsEntries ↔ r.ReachesLoop ∧ r.FindsEntries) := by
  refine ⟨?_, r.clearsEntries_iff⟩
  rintro ⟨fuel, s', hcall, -, halloc⟩
  rcases r.freePages_ok hcall with rfl | ⟨-, hloop⟩
  · exact r.alloc_ne halloc
  · obtain ⟨l, -, rfl⟩ := PagingState.visits_of_clearEntries hloop
    exact r.alloc_ne halloc

end FreeRequest

/-! ## A memory mapped one to one -/

/-- Tables that map `0x400000` to the frame `0x5000` and `0x3fe000` to the frame `0x6000`. -/
def oneMapping : PagingState where
  alloc := pageByPage
  word a :=
    if a = 0x1000 then 0x2001
    else if a = 0x2000 then 0x3001
    else if a = 0x3008 then 0x7001
    else if a = 0x7FF0 then 0x6001
    else if a = 0x3010 then 0x4001
    else if a = 0x4000 then 0x5001
    else 0

theorem mapped_oneMapping (i : Nat) (hi : i < 1) :
    (oneMapping.tables identityEnv).leafSlot identityEnv.shift
      (0x400000 + i * PageKind.page4KB.size) .page4KB = some (0x4000 + 8 * i) := by
  obtain rfl : i = 0 := by omega
  decide +kernel

theorem present_oneMapping (i : Nat) (hi : i < 1) :
    present (oneMapping.word (0x4000 + 8 * i)) = true := by
  obtain rfl : i = 0 := by omega
  decide

theorem found_oneMapping : oneMapping.alloc.getSubDescriptor
    (oneMapping.mapPhysical identityEnv 0x400000) = some 10 := by
  decide +kernel

theorem used_oneMapping : (oneMapping.alloc.table.subDescriptors 10).allocationType &&&
    patUsedRegion = patUsedRegion := by decide

theorem pages_oneMapping : (oneMapping.alloc.table.subDescriptors 10).noPages * pageSize =
    1 * PageKind.page4KB.size := by decide

theorem inside_oneMapping : 0x400000 ≤ 0x400000 ∧
    0x400000 < 0x400000 + PageKind.page4KB.size := by decide

def onePage : FreeRequest identityEnv oneMapping where
  kind := .page4KB
  base := 0x400000
  count := 1
  entry i := 0x4000 + 8 * i
  sub := 10
  virt := 0x400000
  count_pos := Nat.one_pos
  mapped := mapped_oneMapping
  present := present_oneMapping
  found := found_oneMapping
  used := used_oneMapping
  pages := pages_oneMapping
  inside := inside_oneMapping

/-- The call looks up the frame of `0x3fe000`, and traps at its entry. -/
theorem not_freeRight_onePage : ¬ onePage.Right := by
  rintro ⟨fuel, s', hcall, hword, -⟩
  have htraps : oneMapping.alloc.traps onePage.lookedUp = true := by decide +kernel
  rcases onePage.freePages_ok hcall with rfl | ⟨hreaches, -⟩
  · exact onePage.word_ne hword
  · rw [hreaches.untrapped] at htraps
    cases htraps

end BlockyOS.Kernel
