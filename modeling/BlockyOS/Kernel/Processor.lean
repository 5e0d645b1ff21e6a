import BlockyOS.Kernel.PageEntries

/-!
# Pages as the processor finds them

The frame behind the entry of a page, and the page of an address in tables whose
entries hold the addresses of the tables below them.
-/

namespace BlockyOS.Kernel

open BlockyOS.Foundation

/-! ## Frames -/

theorem processorShift_wide : 64 = 40 ∨ 64 = 64 := Or.inr rfl

theorem processorShift_narrow (value count : Nat) (_ : value * 2 ^ count < 2 ^ 31) :
    value * 2 ^ count = value * 2 ^ count := rfl

def processorShift : FieldShift :=
  ⟨64, processorShift_wide, fun value count => value * 2 ^ count, processorShift_narrow⟩

def entryFrame (kind : PageKind) (e : Nat) : Nat :=
  match kind with
  | .page4KB => bits e 12 40 * 2 ^ 12
  | .page2MB => bits e 21 31 * 2 ^ 21
  | .page1GB => bits e 30 22 * 2 ^ 30

theorem entryFrame_tableEntry (flags x : Nat) :
    entryFrame .page4KB (tableEntry flags x) = x % 2 ^ 40 * 2 ^ 12 := by
  rw [entryFrame, bits_tableEntry]

theorem entryFrame_pageEntry (kind : PageKind) (flags key x : Nat) :
    entryFrame kind (pageEntry kind flags key x) =
      match kind with
      | .page4KB => x % 2 ^ 40 * 2 ^ 12
      | .page2MB => x % 2 ^ 31 * 2 ^ 21
      | .page1GB => x % 2 ^ 22 * 2 ^ 30 := by
  have hfield : ∀ width n off, pageFields kind flags key x = (pageFields kind flags key x).take n ++
      (width, x) :: (pageFields kind flags key x).drop (n + 1) →
      fieldsWidth ((pageFields kind flags key x).take n) = off →
      bits (pageEntry kind flags key x) off width = x % 2 ^ width := by
    intro width n off hsplit hoff
    have h := bits_packFields_field ((pageFields kind flags key x).take n) width x
      ((pageFields kind flags key x).drop (n + 1)) off hoff
    rw [← hsplit] at h
    exact h
  cases kind with
  | page4KB => rw [entryFrame, hfield 40 11 12 rfl rfl]
  | page2MB => rw [entryFrame, hfield 31 13 21 rfl rfl]
  | page1GB =>
      have hoff : fieldsWidth ((pageFields .page1GB flags key x).take 13) = 30 := by
        simp [pageFields, accessFields, PageKind.addressFields, fieldsWidth]
      rw [entryFrame, hfield 22 13 30 rfl hoff]

/-! ## Pages -/

def isPage (kind : PageKind) (e : Nat) : Bool :=
  present e && (decide (kind = .page4KB) || pageSizeBit e)

theorem isPage_eq_true_iff {kind : PageKind} {e : Nat} : isPage kind e = true ↔
    present e = true ∧ (kind ≠ .page4KB → pageSizeBit e = true) := by
  rw [isPage, Bool.and_eq_true, Bool.or_eq_true, decide_eq_true_eq, or_iff_not_imp_left]

def PagePresent (m : PageTables) (virt : Nat) : Prop :=
  ∃ kind slot, m.leafSlot processorShift virt kind = some slot ∧
    present (m.word slot) = true ∧ (kind ≠ .page4KB → pageSizeBit (m.word slot) = true)

namespace PageTables

def frameIn (m : PageTables) (virt : Nat) (kind : PageKind) : Option Nat :=
  (m.leafSlot processorShift virt kind).bind fun slot =>
    if isPage kind (m.word slot) then
      some (entryFrame kind (m.word slot) + kind.offset virt / 2 ^ 12 * 2 ^ 12)
    else none

def pageFrame (m : PageTables) (virt : Nat) : Option Nat :=
  [PageKind.page1GB, .page2MB, .page4KB].findSome? (m.frameIn virt)

variable {m : PageTables} {virt table : Nat}

theorem frameIn_eq_none_iff {kind : PageKind} : m.frameIn virt kind = none ↔
    ∀ slot, m.leafSlot processorShift virt kind = some slot → isPage kind (m.word slot) ≠ true := by
  rw [frameIn, Option.bind_eq_none_iff]
  exact forall₂_congr fun slot _ => by simp

theorem pageFrame_eq_none_iff : m.pageFrame virt = none ↔ ¬ PagePresent m virt := by
  have hall : (∀ kind ∈ [PageKind.page1GB, .page2MB, .page4KB], m.frameIn virt kind = none) ↔
      ∀ kind, m.frameIn virt kind = none :=
    ⟨fun h kind => h kind (by cases kind <;> decide), fun h kind _ => h kind⟩
  rw [pageFrame, List.findSome?_eq_none_iff, hall]
  simp only [frameIn_eq_none_iff, PagePresent, ne_eq, isPage_eq_true_iff, not_exists, not_and]

theorem pagePresent_iff (h : m.tableL1 processorShift virt = some table) :
    PagePresent m virt ↔ present (m.word (table + 8 * indexL1 virt)) = true := by
  have hslot : m.leafSlot processorShift virt .page4KB = some (table + 8 * indexL1 virt) := by
    rw [leafSlot, h]
    rfl
  obtain ⟨t2, h2, hentry2⟩ := Option.bind_eq_some_iff.mp h
  obtain ⟨t3, h3, hentry3⟩ := Option.bind_eq_some_iff.mp h2
  have hsize2 := (belowUnlessPage_eq_some_iff.mp hentry2).2.1
  have hsize3 := (belowUnlessPage_eq_some_iff.mp hentry3).2.1
  constructor
  · rintro ⟨kind, slot, hleaf, hpresent, hpage⟩
    cases kind with
    | page4KB =>
        rw [hslot] at hleaf
        rwa [Option.some.inj hleaf]
    | page2MB =>
        rw [leafSlot, h2, Option.map_some] at hleaf
        have hbit := hpage (by decide)
        rw [← Option.some.inj hleaf] at hbit
        exact absurd (hsize2.symm.trans hbit) (by decide)
    | page1GB =>
        rw [leafSlot, h3, Option.map_some] at hleaf
        have hbit := hpage (by decide)
        rw [← Option.some.inj hleaf] at hbit
        exact absurd (hsize3.symm.trans hbit) (by decide)
  · exact fun hpresent => ⟨.page4KB, _, hslot, hpresent, fun h => absurd rfl h⟩

theorem pageFrame_of_tableL1 (h : m.tableL1 processorShift virt = some table)
    (hpresent : present (m.word (table + 8 * indexL1 virt)) = true) :
    m.pageFrame virt = some (entryFrame .page4KB (m.word (table + 8 * indexL1 virt))) := by
  obtain ⟨t2, h2, hentry2⟩ := Option.bind_eq_some_iff.mp h
  obtain ⟨t3, h3, hentry3⟩ := Option.bind_eq_some_iff.mp h2
  have hsize2 : pageSizeBit (m.word (t2 + 8 * indexL2 virt)) = false :=
    (belowUnlessPage_eq_some_iff.mp hentry2).2.1
  have hsize3 : pageSizeBit (m.word (t3 + 8 * indexL3 virt)) = false :=
    (belowUnlessPage_eq_some_iff.mp hentry3).2.1
  have hlarge : m.frameIn virt .page1GB = none ∧ m.frameIn virt .page2MB = none := by
    rw [frameIn, frameIn, leafSlot, leafSlot, h2, h3]
    simp [isPage, hsize2, hsize3]
  have hoffset : PageKind.page4KB.offset virt / 2 ^ 12 * 2 ^ 12 = 0 := by
    rw [PageKind.offset, PageKind.size]
    omega
  rw [pageFrame, List.findSome?_cons, hlarge.1, List.findSome?_cons, hlarge.2,
    List.findSome?_cons, frameIn, leafSlot, h, hoffset]
  simp [isPage, hpresent]

end PageTables

end BlockyOS.Kernel
