import BlockyOS.Kernel.PageEntries

/-!
# The second page-table walker

`WalkPageTree` and `WalkPageTreeByVirtual` of `paging.c`, which return the
address of an entry, next to the translation of `MapPhysical`.
-/

namespace BlockyOS.Kernel

open BlockyOS.Foundation

/-- A `PageCoordinate`: five indices of nine bits, and whether each is in use. -/
structure PageCoordinate where
  l1 : Nat
  l2 : Nat
  l3 : Nat
  l4 : Nat
  l5 : Nat
  enableL1 : Bool
  enableL2 : Bool
  enableL3 : Bool
  enableL4 : Bool
  enableL5 : Bool
  deriving DecidableEq, Repr

/-- The `InitPageCoordinate` macro. -/
def initPageCoordinate (la57 : Bool) (virt : Nat) : PageCoordinate where
  l1 := indexL1 virt
  l2 := indexL2 virt
  l3 := indexL3 virt
  l4 := indexL4 virt
  l5 := indexL5 virt
  enableL1 := true
  enableL2 := true
  enableL3 := true
  enableL4 := true
  enableL5 := la57

namespace PageTables

/-!
The cases of the loop, one function a level.  Each returns the level at which
the loop stops and the pointer.  `L5`, `L4` and `L1` are pointers to whole
tables there, so that adding an index to one of them skips that many tables.
-/

def walkL1 (m : PageTables) (c : PageCoordinate) (temp : Nat) : Nat × Nat :=
  if !c.enableL1 then (1, temp)
  else (1, m.mapVirtual (temp + 4096 * c.l1))

def walkL2 (S : FieldShift) (m : PageTables) (c : PageCoordinate) (temp : Nat) : Nat × Nat :=
  if !c.enableL2 then (2, temp)
  else
    let e := m.entry temp c.l2
    if pageSizeBit e then (2, temp + 8 * c.l2)
    else m.walkL1 c (m.mapVirtual (tableAddress S e))

def walkL3 (S : FieldShift) (m : PageTables) (c : PageCoordinate) (temp : Nat) : Nat × Nat :=
  if !c.enableL3 then (3, temp)
  else
    let e := m.entry temp c.l3
    if pageSizeBit e then (3, temp + 8 * c.l3)
    else m.walkL2 S c (m.mapVirtual (tableAddress S e))

def walkL4 (S : FieldShift) (m : PageTables) (c : PageCoordinate) (temp : Nat) : Nat × Nat :=
  if !c.enableL4 then (4, temp)
  else m.walkL3 S c (m.mapVirtual (tableAddress S (m.word (temp + 4096 * c.l4))))

def walkL5 (S : FieldShift) (m : PageTables) (c : PageCoordinate) (temp : Nat) : Nat × Nat :=
  if !m.level5 then m.walkL4 S c temp
  else if !c.enableL5 then (5, temp)
  else m.walkL4 S c (m.mapVirtual (tableAddress S (m.word (temp + 4096 * c.l5))))

/-- `WalkPageTree` from one of the five levels. -/
def walkPageTree (S : FieldShift) (m : PageTables) (level : Nat) (c : PageCoordinate) :
    Nat × Nat :=
  match level with
  | 5 => m.walkL5 S c m.storedPageTable
  | 4 => m.walkL4 S c m.storedPageTable
  | 3 => m.walkL3 S c m.storedPageTable
  | 2 => m.walkL2 S c m.storedPageTable
  | 1 => m.walkL1 c m.storedPageTable
  | _ => (level, 0)

def walkPageTreeByVirtual (S : FieldShift) (m : PageTables) (virt : Nat) : Nat × Nat :=
  let va := m.word virt
  m.walkPageTree S (if m.level5 then 5 else 4) (initPageCoordinate m.level5 va)

/-! ### One case of the loop -/

section Steps

variable {S : FieldShift} {m : PageTables} {level5 : Bool} {temp va : Nat}

theorem walkL1_eq : m.walkL1 (initPageCoordinate level5 va) temp =
    (1, m.mapVirtual (temp + 4096 * indexL1 va)) := rfl

theorem walkL2_of_page (h : pageSizeBit (m.word (temp + 8 * indexL2 va)) = true) :
    m.walkL2 S (initPageCoordinate level5 va) temp = (2, temp + 8 * indexL2 va) := by
  simp only [walkL2, initPageCoordinate, entry, h, Bool.not_true, Bool.false_eq_true, if_false,
    if_true]

theorem walkL2_of_table (h : pageSizeBit (m.word (temp + 8 * indexL2 va)) = false) :
    m.walkL2 S (initPageCoordinate level5 va) temp =
      m.walkL1 (initPageCoordinate level5 va)
        (m.mapVirtual (tableAddress S (m.word (temp + 8 * indexL2 va)))) := by
  simp only [walkL2, initPageCoordinate, entry, h, Bool.not_true, Bool.false_eq_true, if_false]

theorem walkL3_of_page (h : pageSizeBit (m.word (temp + 8 * indexL3 va)) = true) :
    m.walkL3 S (initPageCoordinate level5 va) temp = (3, temp + 8 * indexL3 va) := by
  simp only [walkL3, initPageCoordinate, entry, h, Bool.not_true, Bool.false_eq_true, if_false,
    if_true]

theorem walkL3_of_table (h : pageSizeBit (m.word (temp + 8 * indexL3 va)) = false) :
    m.walkL3 S (initPageCoordinate level5 va) temp =
      m.walkL2 S (initPageCoordinate level5 va)
        (m.mapVirtual (tableAddress S (m.word (temp + 8 * indexL3 va)))) := by
  simp only [walkL3, initPageCoordinate, entry, h, Bool.not_true, Bool.false_eq_true, if_false]

theorem walkL4_eq : m.walkL4 S (initPageCoordinate level5 va) temp =
    m.walkL3 S (initPageCoordinate level5 va)
      (m.mapVirtual (tableAddress S (m.word (temp + 4096 * indexL4 va)))) := rfl

theorem walkPageTreeByVirtual_of_level5 {virt : Nat} (h : m.level5 = true) :
    m.walkPageTreeByVirtual S virt =
      m.walkL4 S (initPageCoordinate true (m.word virt)) (m.mapVirtual
        (tableAddress S (m.word (m.storedPageTable + 4096 * indexL5 (m.word virt))))) := by
  rw [walkPageTreeByVirtual, h]
  change m.walkL5 S (initPageCoordinate true (m.word virt)) m.storedPageTable = _
  rw [walkL5, h]
  rfl

theorem walkPageTreeByVirtual_of_level4 {virt : Nat} (h : m.level5 = false) :
    m.walkPageTreeByVirtual S virt =
      m.walkL4 S (initPageCoordinate false (m.word virt)) m.storedPageTable := by
  rw [walkPageTreeByVirtual, h]
  rfl

end Steps

end PageTables

/-! ## Mapped addresses -/

def PageKind.level : PageKind → Nat
  | page4KB => 1
  | page2MB => 2
  | page1GB => 3

/--
The address is mapped by a page of the kind whose entry is at `slot`, and
`MapVirtual` leaves the frames of the tables above it where they are.
-/
structure Mapped (S : FieldShift) (m : PageTables) (virt : Nat) (kind : PageKind)
    (slot : Nat) : Prop where
  leaf : m.leafSlot S virt kind = some slot
  present : present (m.word slot) = true
  page : kind ≠ .page4KB → pageSizeBit (m.word slot) = true
  root : m.mapVirtual m.storedPageTable = m.storedPageTable
  identity : ∀ level table, m.nextTable S virt level = some table → m.mapVirtual table = table

def decodePage (S : FieldShift) (kind : PageKind) (entry virt : Nat) : Nat :=
  match kind with
  | .page4KB => u64 (tableAddress S entry + pageOffset virt)
  | .page2MB => u64 (address2MB S entry + bits virt 0 21)
  | .page1GB => u64 (address1GB S entry + bits virt 0 30)

theorem Mapped.mapPhysical_eq {S : FieldShift} {m : PageTables} {virt slot : Nat}
    {kind : PageKind} (h : Mapped S m virt kind slot) :
    m.mapPhysical S virt = decodePage S kind (m.word slot) virt := by
  cases kind with
  | page4KB =>
      obtain ⟨table, htable, rfl⟩ := Option.map_eq_some_iff.mp h.leaf
      have hpresent : Kernel.present (m.entry table (indexL1 virt)) = true := h.present
      rw [PageTables.mapPhysical_of_tableL1 htable, PageTables.translateL1, hpresent]
      rfl
  | page2MB =>
      obtain ⟨table, htable, rfl⟩ := Option.map_eq_some_iff.mp h.leaf
      have hpresent : Kernel.present (m.entry table (indexL2 virt)) = true := h.present
      have hpage : pageSizeBit (m.entry table (indexL2 virt)) = true := h.page (by decide)
      rw [PageTables.mapPhysical_of_tableL2 htable, PageTables.translateL2, hpresent, hpage]
      rfl
  | page1GB =>
      obtain ⟨table, htable, rfl⟩ := Option.map_eq_some_iff.mp h.leaf
      have hpresent : Kernel.present (m.entry table (indexL3 virt)) = true := h.present
      have hpage : pageSizeBit (m.entry table (indexL3 virt)) = true := h.page (by decide)
      rw [PageTables.mapPhysical_of_tableL3 htable, PageTables.translateL3, hpresent, hpage]
      rfl

/--
In every tree of the given mode that maps the address with a page of the kind
and stores `word` there, the walk ends at that page's entry, and `MapPhysical`, over a
stack with the byte `stack`, uses the same one.
-/
def WalkersAgree (S : FieldShift) (level5 stack : Bool) (virt word : Nat)
    (kind : PageKind) : Prop :=
  ∀ (m : PageTables) (slot : Nat), m.level5 = level5 → Mapped S m virt kind slot →
    m.word virt = word →
    m.walkPageTreeByVirtual S virt = (kind.level, slot) ∧
      decodePage S kind (m.word slot) virt = m.mapPhysicalFrom S stack virt

/--
The bytes stored at the address spell its own indices, down to the page, and
the indices that the walk scales by a whole table are zero.
-/
structure SelfIndexed (level5 : Bool) (virt word : Nat) (kind : PageKind) : Prop where
  l5 : level5 = true → indexL5 virt = 0 ∧ indexL5 word = 0
  l4 : indexL4 virt = 0 ∧ indexL4 word = 0
  l3 : indexL3 word = indexL3 virt
  l2 : kind ≠ .page1GB → indexL2 word = indexL2 virt
  l1 : kind = .page4KB → indexL1 virt = 0 ∧ indexL1 word = 0

/-! ## Following the same tables -/

namespace PageTables

section Follows

variable {S : FieldShift} {m : PageTables} {virt word table : Nat} {kind : PageKind}

theorem walkPageTreeByVirtual_of_tableL4 (hword : m.word virt = word)
    (hroot : m.mapVirtual m.storedPageTable = m.storedPageTable)
    (hself : SelfIndexed m.level5 virt word kind) (htable : m.tableL4 S virt = some table) :
    m.walkPageTreeByVirtual S virt =
      m.walkL4 S (initPageCoordinate m.level5 word) table := by
  rw [tableL4] at htable
  cases hlevel : m.level5 with
  | true =>
      obtain ⟨hvirt, hindex⟩ := hself.l5 hlevel
      rw [hlevel, if_pos rfl, hroot, hvirt, below_eq_some_iff] at htable
      rw [walkPageTreeByVirtual_of_level5 hlevel, hword, hindex, ← htable.2]
      rfl
  | false =>
      rw [hlevel, if_neg Bool.false_ne_true, hroot] at htable
      rw [walkPageTreeByVirtual_of_level4 hlevel, hword, Option.some.inj htable]

theorem walkL4_of_tableL3 {table4 : Nat} (h4 : m.tableL4 S virt = some table4)
    (hself : SelfIndexed m.level5 virt word kind) (htable : m.tableL3 S virt = some table) :
    m.walkL4 S (initPageCoordinate m.level5 word) table4 =
      m.walkL3 S (initPageCoordinate m.level5 word) table := by
  rw [tableL3, h4, Option.bind_some, below_eq_some_iff, hself.l4.1] at htable
  rw [walkL4_eq, hself.l4.2, ← htable.2]
  rfl

theorem walkL3_of_tableL2 {table3 : Nat} (h3 : m.tableL3 S virt = some table3)
    (hself : SelfIndexed m.level5 virt word kind) (htable : m.tableL2 S virt = some table) :
    m.walkL3 S (initPageCoordinate m.level5 word) table3 =
      m.walkL2 S (initPageCoordinate m.level5 word) table := by
  rw [tableL2, h3, Option.bind_some, belowUnlessPage_eq_some_iff, ← hself.l3] at htable
  obtain ⟨-, hpage, hnext⟩ := htable
  rw [walkL3_of_table hpage, ← hnext]
  rfl

theorem walkL2_of_tableL1 {table2 : Nat} (h2 : m.tableL2 S virt = some table2)
    (hself : SelfIndexed m.level5 virt word kind) (hkind : kind ≠ .page1GB)
    (htable : m.tableL1 S virt = some table) :
    m.walkL2 S (initPageCoordinate m.level5 word) table2 =
      m.walkL1 (initPageCoordinate m.level5 word) table := by
  rw [tableL1, h2, Option.bind_some, belowUnlessPage_eq_some_iff, ← hself.l2 hkind] at htable
  obtain ⟨-, hpage, hnext⟩ := htable
  rw [walkL2_of_table hpage, ← hnext]
  rfl

end Follows

end PageTables

theorem walk_of_selfIndexed {S : FieldShift} {m : PageTables} {virt word slot : Nat}
    {kind : PageKind} (hself : SelfIndexed m.level5 virt word kind)
    (hmapped : Mapped S m virt kind slot) (hword : m.word virt = word) :
    m.walkPageTreeByVirtual S virt = (kind.level, slot) := by
  have hleaf := hmapped.leaf
  have hstart : ∀ table3, m.tableL3 S virt = some table3 → m.walkPageTreeByVirtual S virt =
      m.walkL3 S (initPageCoordinate m.level5 word) table3 := by
    intro table3 h3
    obtain ⟨table4, h4, -⟩ := Option.bind_eq_some_iff.mp h3
    rw [PageTables.walkPageTreeByVirtual_of_tableL4 hword hmapped.root hself h4,
      PageTables.walkL4_of_tableL3 h4 hself h3]
  cases kind with
  | page1GB =>
      obtain ⟨table3, h3, rfl⟩ := Option.map_eq_some_iff.mp hleaf
      have hpage := hmapped.page (by decide)
      rw [← hself.l3] at hpage
      rw [hstart table3 h3, PageTables.walkL3_of_page hpage, hself.l3]
      rfl
  | page2MB =>
      obtain ⟨table2, h2, rfl⟩ := Option.map_eq_some_iff.mp hleaf
      obtain ⟨table3, h3, -⟩ := Option.bind_eq_some_iff.mp h2
      have hindex := hself.l2 (by decide)
      have hpage := hmapped.page (by decide)
      rw [← hindex] at hpage
      rw [hstart table3 h3, PageTables.walkL3_of_tableL2 h3 hself h2,
        PageTables.walkL2_of_page hpage, hindex]
      rfl
  | page4KB =>
      obtain ⟨table1, h1, rfl⟩ := Option.map_eq_some_iff.mp hleaf
      obtain ⟨table2, h2, -⟩ := Option.bind_eq_some_iff.mp h1
      obtain ⟨table3, h3, -⟩ := Option.bind_eq_some_iff.mp h2
      obtain ⟨hvirt, hindex⟩ := hself.l1 rfl
      have hfixed : m.mapVirtual table1 = table1 := hmapped.identity .l2 table1 h1
      rw [hstart table3 h3, PageTables.walkL3_of_tableL2 h3 hself h2,
        PageTables.walkL2_of_tableL1 h2 hself (by decide) h1, PageTables.walkL1_eq, hvirt,
        hindex, Nat.mul_zero, Nat.add_zero, hfixed]
      rfl

/-! ## A tree with one page -/

def regionOf (base region : Nat) : Nat := base + region * 2 ^ 21

def pathIndex (virt : Nat) : Nat → Nat
  | 0 => indexL5 virt
  | 1 => indexL4 virt
  | 2 => indexL3 virt
  | 3 => indexL2 virt
  | _ => indexL1 virt

def pathEntry (base : Nat) (kind : PageKind) (leaf lost : Nat) : Nat → Nat
  | 0 => regionOf base 1 + 1
  | 1 => regionOf base 2 + 1
  | 2 => if kind = .page1GB then leaf else regionOf base 3 + 1
  | 3 => if kind = .page2MB then leaf else regionOf base 4 + 1
  | 4 => leaf
  | _ => lost

/--
A tree that maps one address with the page `leaf` and stores `word` there: every
entry off its path is `lost`.
-/
def pageTree (level5 : Bool) (base virt word : Nat) (kind : PageKind) (leaf lost : Nat) :
    PageTables where
  level5 := level5
  storedPageTable := if level5 then regionOf base 0 else regionOf base 1
  mapVirtual := id
  word a :=
    if a = virt then word
    else if (a - base) % 2 ^ 21 = 8 * pathIndex virt ((a - base) / 2 ^ 21) then
      pathEntry base kind leaf lost ((a - base) / 2 ^ 21)
    else lost

abbrev lonePage (level5 : Bool) (base virt word : Nat) (kind : PageKind) : PageTables :=
  pageTree level5 base virt word kind 0x81 (regionOf base 5 + 1)

/-- The six regions lie below `2 ^ 40`, on page boundaries and away from the address. -/
structure Clear (base virt : Nat) : Prop where
  aligned : 4096 ∣ base
  inRange : base < 2 ^ 39
  away : virt < base ∨ base + 2 ^ 24 ≤ virt

theorem pathIndex_lt (virt region : Nat) : pathIndex virt region < 512 := by
  unfold pathIndex
  split <;> exact bits_lt _ _ 9

section LonePage

variable {S : FieldShift} {level5 : Bool} {base virt word : Nat} {kind : PageKind}
  {leaf lost : Nat}

@[simp] theorem mapVirtual_pageTree (a : Nat) :
    (pageTree level5 base virt word kind leaf lost).mapVirtual a = a := rfl

theorem word_self_pageTree : (pageTree level5 base virt word kind leaf lost).word virt = word :=
  if_pos rfl

theorem storedPageTable_pageTree : (pageTree level5 base virt word kind leaf lost).storedPageTable =
    if level5 then regionOf base 0 else regionOf base 1 := rfl

theorem word_pageTree (hclear : Clear base virt) {region off : Nat} (hregion : region ≤ 5)
    (hoff : off < 2 ^ 21) :
    (pageTree level5 base virt word kind leaf lost).word (regionOf base region + off) =
      if off = 8 * pathIndex virt region then pathEntry base kind leaf lost region else lost := by
  have haway := hclear.away
  have hsub : regionOf base region + off - base = region * 2 ^ 21 + off := by
    rw [regionOf]
    omega
  have hdiv : (region * 2 ^ 21 + off) / 2 ^ 21 = region := by omega
  have hmod : (region * 2 ^ 21 + off) % 2 ^ 21 = off := by omega
  have hne : regionOf base region + off ≠ virt := by
    rw [regionOf]
    omega
  simp only [pageTree, if_neg hne, hsub, hdiv, hmod]

theorem frame_regionOf (S : FieldShift) (hclear : Clear base virt) {region : Nat}
    (hregion : region ≤ 5) :
    present (regionOf base region + 1) = true ∧ pageSizeBit (regionOf base region + 1) = false ∧
      tableAddress S (regionOf base region + 1) = regionOf base region := by
  have haligned := hclear.aligned
  have hrange := hclear.inRange
  refine present_frame S ?_ ?_ <;>
  · rw [regionOf]
    omega

theorem word_lost (hclear : Clear base virt) {off : Nat} (hoff : off < 2 ^ 21) :
    (lonePage level5 base virt word kind).word (regionOf base 5 + off) =
      regionOf base 5 + 1 := by
  rw [word_pageTree hclear (Nat.le_refl 5) hoff]
  exact ite_self _

theorem index_scaled (va : Nat) : 8 * indexL2 va < 2 ^ 21 ∧ 8 * indexL3 va < 2 ^ 21 ∧
    4096 * indexL4 va < 2 ^ 21 ∧ 4096 * indexL5 va < 2 ^ 21 := by
  simp only [indexL2, indexL3, indexL4, indexL5, bits]
  omega

/-! A walk that has left the path ends in the sixth region. -/

theorem walkL2_lost (hclear : Clear base virt) (va : Nat) :
    (lonePage level5 base virt word kind).walkL2 S (initPageCoordinate level5 va)
      (regionOf base 5) = (1, regionOf base 5 + 4096 * indexL1 va) := by
  obtain ⟨-, hpage, hnext⟩ := frame_regionOf S hclear (Nat.le_refl 5)
  have hword := @word_lost level5 base virt word kind hclear _ (index_scaled va).1
  rw [PageTables.walkL2_of_table (by rw [hword]; exact hpage), hword, hnext]
  rfl

theorem walkL3_lost (hclear : Clear base virt) (va : Nat) :
    (lonePage level5 base virt word kind).walkL3 S (initPageCoordinate level5 va)
      (regionOf base 5) = (1, regionOf base 5 + 4096 * indexL1 va) := by
  obtain ⟨-, hpage, hnext⟩ := frame_regionOf S hclear (Nat.le_refl 5)
  have hword := @word_lost level5 base virt word kind hclear _ (index_scaled va).2.1
  rw [PageTables.walkL3_of_table (by rw [hword]; exact hpage), hword, hnext]
  exact walkL2_lost hclear va

theorem walkL4_lost (hclear : Clear base virt) (va : Nat) :
    (lonePage level5 base virt word kind).walkL4 S (initPageCoordinate level5 va)
      (regionOf base 5) = (1, regionOf base 5 + 4096 * indexL1 va) := by
  obtain ⟨-, -, hnext⟩ := frame_regionOf S hclear (Nat.le_refl 5)
  have hword := @word_lost level5 base virt word kind hclear _ (index_scaled va).2.2.1
  rw [PageTables.walkL4_eq, hword, hnext]
  exact walkL3_lost hclear va

/-! ### The page is mapped -/

def leafRegion : PageKind → Nat
  | .page4KB => 4
  | .page2MB => 3
  | .page1GB => 2

def loneSlot (base virt : Nat) (kind : PageKind) : Nat :=
  regionOf base (leafRegion kind) + 8 * pathIndex virt (leafRegion kind)

theorem word_path (hclear : Clear base virt) {region : Nat} (hregion : region ≤ 5) :
    (pageTree level5 base virt word kind leaf lost).word
        (regionOf base region + 8 * pathIndex virt region)
      = pathEntry base kind leaf lost region := by
  have hindex := pathIndex_lt virt region
  rw [word_pageTree hclear hregion (by omega), if_pos rfl]

theorem tableL4_pageTree (hclear : Clear base virt) :
    (pageTree level5 base virt word kind leaf lost).tableL4 S virt = some (regionOf base 1) := by
  cases level5 with
  | false => rfl
  | true =>
      obtain ⟨hpresent, -, hnext⟩ := @frame_regionOf base virt S hclear 1 (by decide)
      have hword := @word_path true base virt word kind leaf lost hclear 0 (by decide)
      simp only [pathIndex, pathEntry] at hword
      have hlevel : (pageTree true base virt word kind leaf lost).level5 = true := rfl
      rw [PageTables.tableL4, if_pos hlevel, PageTables.below_eq_some_iff, PageTables.entry,
        mapVirtual_pageTree, mapVirtual_pageTree, storedPageTable_pageTree, if_pos rfl, hword]
      exact ⟨hpresent, hnext⟩

theorem tableL3_pageTree (hclear : Clear base virt) :
    (pageTree level5 base virt word kind leaf lost).tableL3 S virt = some (regionOf base 2) := by
  obtain ⟨hpresent, -, hnext⟩ := @frame_regionOf base virt S hclear 2 (by decide)
  have hword := @word_path level5 base virt word kind leaf lost hclear 1 (by decide)
  simp only [pathIndex, pathEntry] at hword
  rw [PageTables.tableL3, tableL4_pageTree hclear, Option.bind_some,
    PageTables.below_eq_some_iff, PageTables.entry, hword, mapVirtual_pageTree]
  exact ⟨hpresent, hnext⟩

theorem tableL2_pageTree (hclear : Clear base virt) (hkind : kind ≠ .page1GB) :
    (pageTree level5 base virt word kind leaf lost).tableL2 S virt = some (regionOf base 3) := by
  obtain ⟨hpresent, hpage, hnext⟩ := @frame_regionOf base virt S hclear 3 (by decide)
  have hword := @word_path level5 base virt word kind leaf lost hclear 2 (by decide)
  simp only [pathIndex, pathEntry, if_neg hkind] at hword
  rw [PageTables.tableL2, tableL3_pageTree hclear, Option.bind_some,
    PageTables.belowUnlessPage_eq_some_iff, PageTables.entry, hword, mapVirtual_pageTree]
  exact ⟨hpresent, hpage, hnext⟩

theorem tableL1_pageTree (hclear : Clear base virt) :
    (pageTree level5 base virt word .page4KB leaf lost).tableL1 S virt =
      some (regionOf base 4) := by
  obtain ⟨hpresent, hpage, hnext⟩ := @frame_regionOf base virt S hclear 4 (by decide)
  have hkind : PageKind.page4KB ≠ .page1GB := by decide
  have hword := @word_path level5 base virt word .page4KB leaf lost hclear 3 (by decide)
  simp only [pathIndex, pathEntry] at hword
  rw [if_neg (by decide)] at hword
  rw [PageTables.tableL1, tableL2_pageTree hclear hkind, Option.bind_some,
    PageTables.belowUnlessPage_eq_some_iff, PageTables.entry, hword, mapVirtual_pageTree]
  exact ⟨hpresent, hpage, hnext⟩

theorem word_loneSlot (hclear : Clear base virt) :
    (pageTree level5 base virt word kind leaf lost).word (loneSlot base virt kind) = leaf := by
  have hregion : leafRegion kind ≤ 5 := by cases kind <;> decide
  rw [loneSlot, word_path hclear hregion]
  cases kind <;> simp [leafRegion, pathEntry]

theorem mapped_pageTree (hclear : Clear base virt) (hpresent : present leaf = true)
    (hpage : kind ≠ .page4KB → pageSizeBit leaf = true) :
    Mapped S (pageTree level5 base virt word kind leaf lost) virt kind
      (loneSlot base virt kind) := by
  have hword := @word_loneSlot level5 base virt word kind leaf lost hclear
  refine ⟨?_, by rw [hword]; exact hpresent, fun hkind => by rw [hword]; exact hpage hkind,
    ?_, ?_⟩
  · cases kind with
    | page4KB =>
        rw [PageTables.leafSlot, tableL1_pageTree hclear, Option.map_some, loneSlot]
        simp only [leafRegion, pathIndex]
    | page2MB =>
        rw [PageTables.leafSlot, tableL2_pageTree hclear (by decide), Option.map_some, loneSlot]
        simp only [leafRegion, pathIndex]
    | page1GB =>
        rw [PageTables.leafSlot, tableL3_pageTree hclear, Option.map_some, loneSlot]
        simp only [leafRegion, pathIndex]
  · exact mapVirtual_pageTree _
  · intro _ table _
    exact mapVirtual_pageTree table

/-! ### The walk misses it -/

theorem lost_ne_loneSlot {va level : Nat} :
    ((1, regionOf base 5 + 4096 * indexL1 va) : Nat × Nat) ≠
      (level, loneSlot base virt kind) := by
  intro heq
  have hslot := (Prod.mk.inj heq).2
  have hindex := pathIndex_lt virt (leafRegion kind)
  have hregion : leafRegion kind ≤ 4 := by cases kind <;> decide
  simp only [loneSlot, regionOf] at hslot
  omega

theorem walkL1_found
    (hwalk : (lonePage level5 base virt word .page4KB).walkL1 (initPageCoordinate level5 word)
      (regionOf base 4) = (PageKind.page4KB.level, loneSlot base virt .page4KB)) :
    indexL1 virt = 0 ∧ indexL1 word = 0 := by
  have hlt := pathIndex_lt virt 4
  rw [PageTables.walkL1_eq, mapVirtual_pageTree] at hwalk
  have hslot := (Prod.mk.inj hwalk).2
  simp only [loneSlot, leafRegion, pathIndex] at hslot hlt
  omega

section Found

variable (hclear : Clear base virt)

include hclear

theorem walkL2_found
    (hwalk : (lonePage level5 base virt word kind).walkL2 S (initPageCoordinate level5 word)
      (regionOf base 3) = (kind.level, loneSlot base virt kind)) :
    indexL2 word = indexL2 virt ∧ (kind = .page4KB →
      (lonePage level5 base virt word kind).walkL1 (initPageCoordinate level5 word)
        (regionOf base 4) = (kind.level, loneSlot base virt kind)) := by
  have hword := @word_pageTree level5 base virt word kind 0x81 (regionOf base 5 + 1) hclear 3 _
    (by decide)
    (index_scaled word).1
  simp only [pathIndex, pathEntry] at hword
  by_cases hpath : 8 * indexL2 word = 8 * indexL2 virt
  · refine ⟨by omega, fun hsmall => ?_⟩
    obtain ⟨-, hpage, hnext⟩ := @frame_regionOf base virt S hclear 4 (by decide)
    rw [if_pos hpath, if_neg (by rw [hsmall]; decide)] at hword
    rw [PageTables.walkL2_of_table (by rw [hword]; exact hpage), hword, hnext,
      mapVirtual_pageTree] at hwalk
    exact hwalk
  · obtain ⟨-, hpage, hnext⟩ := @frame_regionOf base virt S hclear 5 (by decide)
    rw [if_neg hpath] at hword
    rw [PageTables.walkL2_of_table (by rw [hword]; exact hpage), hword, hnext,
      mapVirtual_pageTree, PageTables.walkL1_eq, mapVirtual_pageTree] at hwalk
    exact absurd hwalk lost_ne_loneSlot

theorem walkL3_found
    (hwalk : (lonePage level5 base virt word kind).walkL3 S (initPageCoordinate level5 word)
      (regionOf base 2) = (kind.level, loneSlot base virt kind)) :
    indexL3 word = indexL3 virt ∧ (kind ≠ .page1GB →
      (lonePage level5 base virt word kind).walkL2 S (initPageCoordinate level5 word)
        (regionOf base 3) = (kind.level, loneSlot base virt kind)) := by
  have hword := @word_pageTree level5 base virt word kind 0x81 (regionOf base 5 + 1) hclear 2 _
    (by decide)
    (index_scaled word).2.1
  simp only [pathIndex, pathEntry] at hword
  by_cases hpath : 8 * indexL3 word = 8 * indexL3 virt
  · refine ⟨by omega, fun hkind => ?_⟩
    obtain ⟨-, hpage, hnext⟩ := @frame_regionOf base virt S hclear 3 (by decide)
    rw [if_pos hpath, if_neg hkind] at hword
    rw [PageTables.walkL3_of_table (by rw [hword]; exact hpage), hword, hnext,
      mapVirtual_pageTree] at hwalk
    exact hwalk
  · obtain ⟨-, hpage, hnext⟩ := @frame_regionOf base virt S hclear 5 (by decide)
    rw [if_neg hpath] at hword
    rw [PageTables.walkL3_of_table (by rw [hword]; exact hpage), hword, hnext,
      mapVirtual_pageTree, walkL2_lost hclear] at hwalk
    exact absurd hwalk lost_ne_loneSlot

theorem walkL4_found
    (hwalk : (lonePage level5 base virt word kind).walkL4 S (initPageCoordinate level5 word)
      (regionOf base 1) = (kind.level, loneSlot base virt kind)) :
    (indexL4 virt = 0 ∧ indexL4 word = 0) ∧
      (lonePage level5 base virt word kind).walkL3 S (initPageCoordinate level5 word)
        (regionOf base 2) = (kind.level, loneSlot base virt kind) := by
  have hlt := pathIndex_lt virt 1
  have hword := @word_pageTree level5 base virt word kind 0x81 (regionOf base 5 + 1) hclear 1 _
    (by decide)
    (index_scaled word).2.2.1
  simp only [pathIndex, pathEntry] at hword hlt
  rw [PageTables.walkL4_eq, hword] at hwalk
  by_cases hpath : 4096 * indexL4 word = 8 * indexL4 virt
  · obtain ⟨-, -, hnext⟩ := @frame_regionOf base virt S hclear 2 (by decide)
    rw [if_pos hpath, hnext, mapVirtual_pageTree] at hwalk
    exact ⟨by omega, hwalk⟩
  · obtain ⟨-, -, hnext⟩ := @frame_regionOf base virt S hclear 5 (by decide)
    rw [if_neg hpath, hnext, mapVirtual_pageTree, walkL3_lost hclear] at hwalk
    exact absurd hwalk lost_ne_loneSlot

theorem walkL5_found
    (hwalk : (lonePage level5 base virt word kind).walkPageTreeByVirtual S virt =
      (kind.level, loneSlot base virt kind)) :
    (level5 = true → indexL5 virt = 0 ∧ indexL5 word = 0) ∧
      (lonePage level5 base virt word kind).walkL4 S (initPageCoordinate level5 word)
        (regionOf base 1) = (kind.level, loneSlot base virt kind) := by
  have hself := @word_self_pageTree level5 base virt word kind 0x81 (regionOf base 5 + 1)
  cases level5 with
  | false =>
      rw [PageTables.walkPageTreeByVirtual_of_level4 rfl, hself, storedPageTable_pageTree,
        if_neg Bool.false_ne_true] at hwalk
      exact ⟨fun h => absurd h Bool.false_ne_true, hwalk⟩
  | true =>
      have hlt := pathIndex_lt virt 0
      have hword := @word_pageTree true base virt word kind 0x81 (regionOf base 5 + 1) hclear 0 _
        (by decide)
        (index_scaled word).2.2.2
      simp only [pathIndex, pathEntry] at hword hlt
      rw [PageTables.walkPageTreeByVirtual_of_level5 rfl, hself, storedPageTable_pageTree,
        if_pos rfl, hword] at hwalk
      by_cases hpath : 4096 * indexL5 word = 8 * indexL5 virt
      · obtain ⟨-, -, hnext⟩ := @frame_regionOf base virt S hclear 1 (by decide)
        rw [if_pos hpath, hnext, mapVirtual_pageTree] at hwalk
        exact ⟨fun _ => by omega, hwalk⟩
      · obtain ⟨-, -, hnext⟩ := @frame_regionOf base virt S hclear 5 (by decide)
        rw [if_neg hpath, hnext, mapVirtual_pageTree, walkL4_lost hclear] at hwalk
        exact absurd hwalk lost_ne_loneSlot

theorem selfIndexed_of_walk
    (hwalk : (lonePage level5 base virt word kind).walkPageTreeByVirtual S virt =
      (kind.level, loneSlot base virt kind)) : SelfIndexed level5 virt word kind := by
  obtain ⟨h5, hwalk4⟩ := walkL5_found hclear hwalk
  obtain ⟨h4, hwalk3⟩ := walkL4_found hclear hwalk4
  obtain ⟨h3, hwalk2⟩ := walkL3_found hclear hwalk3
  refine ⟨h5, h4, h3, fun hkind => (walkL2_found hclear (hwalk2 hkind)).1, ?_⟩
  rintro rfl
  exact walkL1_found ((walkL2_found hclear (hwalk2 (by decide))).2 rfl)

end Found

end LonePage

/-! ## A byte that is left on the stack

`MapPhysical` walks a tree of four levels with five where the byte behind its `Level5` is not
clear.  In a tree whose entries off the path are absent it ends at none, or at another page.
-/

section Stale

variable {S : FieldShift} {base virt word : Nat} {kind : PageKind} {leaf : Nat}

theorem entry_pageTree (hclear : Clear base virt) {level5 : Bool} {lost region index : Nat}
    (hregion : region ≤ 5) (hindex : index < 512) :
    (pageTree level5 base virt word kind leaf lost).entry (regionOf base region) index =
      if index = pathIndex virt region then pathEntry base kind leaf lost region else lost := by
  rw [PageTables.entry, word_pageTree hclear hregion (by omega)]
  exact if_congr (by omega) rfl rfl

theorem entry_behind {level5 : Bool} {table index : Nat} (htable : base + 2 ^ 24 ≤ table)
    (hne : table + 8 * index ≠ virt) :
    (pageTree level5 base virt word kind leaf 0).entry table index = 0 := by
  have hregion : 8 ≤ (table + 8 * index - base) / 2 ^ 21 := by omega
  have hlost : pathEntry base kind leaf 0 ((table + 8 * index - base) / 2 ^ 21) = 0 := by
    obtain ⟨k, hk⟩ := Nat.exists_eq_add_of_le hregion
    rw [hk, Nat.add_comm]
    rfl
  simp only [PageTables.entry, pageTree, if_neg hne, hlost, ite_self]

theorem present_zero : present 0 = false := rfl

theorem mapPhysicalFrom_stale (hclear : Clear base virt) (hleaf : present leaf = true) :
    (pageTree false base virt word kind leaf 0).mapPhysicalFrom S true virt = 0 ∨
      indexL5 virt = indexL4 virt ∧ indexL4 virt = indexL3 virt ∧
        (pageTree false base virt word kind leaf 0).mapPhysicalFrom S true virt =
          (pageTree false base virt word kind leaf 0).translateL3 S
            (if kind = .page1GB then tableAddress S leaf else regionOf base 3) virt := by
  obtain ⟨hpresent, -, hnext⟩ := @frame_regionOf base virt S hclear 2 (by decide)
  obtain ⟨hpresent', -, hnext'⟩ := @frame_regionOf base virt S hclear 3 (by decide)
  have hfive := @entry_pageTree base virt word kind leaf hclear false 0 1 (indexL5 virt)
    (by decide) (pathIndex_lt virt 0)
  have hfour := @entry_pageTree base virt word kind leaf hclear false 0 2 (indexL4 virt)
    (by decide) (pathIndex_lt virt 1)
  simp only [pathIndex, pathEntry] at hfive hfour
  rw [PageTables.mapPhysicalFrom, Bool.or_true, if_pos rfl, storedPageTable_pageTree,
    if_neg Bool.false_ne_true, mapVirtual_pageTree, hfive]
  by_cases h54 : indexL5 virt = indexL4 virt
  · simp only [if_pos h54, hpresent, hnext, mapVirtual_pageTree, PageTables.translateL4, hfour]
    by_cases h43 : indexL4 virt = indexL3 virt
    · refine .inr ⟨h54, h43, ?_⟩
      by_cases hkind : kind = .page1GB
      · simp [h43, hkind, hleaf]
      · simp [h43, hkind, hpresent', hnext']
    · simp [h43, present_zero]
  · simp [h54, present_zero]

theorem mapPhysicalFrom_stale_small (hclear : Clear base virt) (hleaf : present leaf = true)
    (hkind : kind ≠ .page2MB) (hpage : kind = .page4KB → pageSizeBit leaf = false)
    (hframe : base + 2 ^ 24 ≤ tableAddress S leaf)
    (hone : kind = .page4KB → tableAddress S leaf + 8 * indexL1 virt ≠ virt)
    (hthree : kind = .page1GB → indexL4 virt = indexL3 virt →
      tableAddress S leaf + 8 * indexL3 virt ≠ virt) :
    (pageTree false base virt word kind leaf 0).mapPhysicalFrom S true virt = 0 := by
  rcases mapPhysicalFrom_stale hclear hleaf with hzero | ⟨-, h43, heq⟩
  · exact hzero
  rw [heq, PageTables.translateL3]
  cases kind with
  | page2MB => exact absurd rfl hkind
  | page1GB =>
      rw [if_pos rfl, entry_behind hframe (hthree rfl h43)]
      rfl
  | page4KB =>
      obtain ⟨hpresent, hsize, hnext⟩ := @frame_regionOf base virt S hclear 4 (by decide)
      have hthird := @entry_pageTree base virt word .page4KB leaf hclear false 0 3
        (indexL3 virt) (by decide) (pathIndex_lt virt 2)
      have hsecond := @entry_pageTree base virt word .page4KB leaf hclear false 0 4
        (indexL2 virt) (by decide) (pathIndex_lt virt 3)
      simp only [pathIndex, pathEntry, reduceCtorEq, if_false] at hthird hsecond
      simp only [reduceCtorEq, if_false, hthird]
      by_cases h32 : indexL3 virt = indexL2 virt
      · by_cases h21 : indexL2 virt = indexL1 virt
        · have hlast := @entry_behind base virt word .page4KB leaf false _ _ hframe (hone rfl)
          rw [h21, if_pos rfl] at hsecond
          simp [h32, h21, hpresent, hsize, hnext, PageTables.translateL2, hsecond, hleaf,
            hpage rfl, PageTables.translateL1, hlast, present_zero]
        · simp [h32, hpresent, hsize, hnext, PageTables.translateL2, hsecond, h21, present_zero]
      · simp [h32, present_zero]

theorem mapPhysicalFrom_stale_2MB (hclear : Clear base virt) (hleaf : present leaf = true)
    (hpage : pageSizeBit leaf = true) :
    (pageTree false base virt word .page2MB leaf 0).mapPhysicalFrom S true virt = 0 ∨
      (pageTree false base virt word .page2MB leaf 0).mapPhysicalFrom S true virt =
        u64 (address1GB S leaf + bits virt 0 30) := by
  rcases @mapPhysicalFrom_stale S base virt word .page2MB leaf hclear hleaf with hzero | h
  · exact .inl hzero
  have hthird := @entry_pageTree base virt word .page2MB leaf hclear false 0 3
    (indexL3 virt) (by decide) (pathIndex_lt virt 2)
  simp only [pathIndex, pathEntry, if_true] at hthird
  rw [h.2.2, PageTables.translateL3]
  simp only [reduceCtorEq, if_false, hthird]
  by_cases h32 : indexL3 virt = indexL2 virt
  · simp [h32, hleaf, hpage]
  · simp [h32, present_zero]

def staleFrame (virt : Nat) : PageKind → Nat
  | .page4KB => if virt < 2 ^ 29 then 2 ^ 29 else 2 ^ 28
  | .page2MB => if indexL2 virt = 1 then 2 ^ 22 else 2 ^ 21
  | .page1GB => 2 ^ 30

def staleLeaf (virt : Nat) : PageKind → Nat
  | .page4KB => staleFrame virt .page4KB + 1
  | .page2MB => staleFrame virt .page2MB + 0x81
  | .page1GB => staleFrame virt .page1GB + 0x81

theorem present_staleLeaf (virt : Nat) (kind : PageKind) :
    present (staleLeaf virt kind) = true ∧
      pageSizeBit (staleLeaf virt kind) = decide (kind ≠ .page4KB) := by
  cases kind with
  | page1GB =>
      simp only [staleLeaf, staleFrame]
      decide
  | _ =>
      simp only [staleLeaf, staleFrame]
      split <;> decide

theorem tableAddress_staleLeaf (S : FieldShift) (virt : Nat) (kind : PageKind) :
    tableAddress S (staleLeaf virt kind) = staleFrame virt kind := by
  rw [tableAddress]
  rcases S.wide_eq with hwide | hwide <;> rw [hwide]
  all_goals cases kind with
  | page1GB =>
      simp only [staleLeaf, staleFrame]
      rfl
  | _ =>
      simp only [staleLeaf, staleFrame]
      split <;> rfl

theorem decodePage_staleLeaf (S : FieldShift) (kind : PageKind) :
    decodePage S kind (staleLeaf virt kind) virt = staleFrame virt kind + kind.offset virt := by
  have hoffset : kind.offset virt < kind.size := Nat.mod_lt _ (by cases kind <;> decide)
  cases kind with
  | page4KB =>
      rw [decodePage, tableAddress_staleLeaf]
      simp only [staleFrame, pageOffset, bits, PageKind.offset, PageKind.size, u64] at hoffset ⊢
      split <;> omega
  | page2MB =>
      have haddress : address2MB S (staleLeaf virt .page2MB) = staleFrame virt .page2MB := by
        simp only [address2MB, staleLeaf, staleFrame]
        split <;> rw [S.narrow_eq _ 21 (by decide)] <;> rfl
      rw [decodePage, haddress]
      simp only [staleFrame, bits, PageKind.offset, PageKind.size, u64] at hoffset ⊢
      split <;> omega
  | page1GB =>
      have haddress : address1GB S (staleLeaf virt .page1GB) = staleFrame virt .page1GB := by
        simp only [address1GB, staleLeaf, staleFrame]
        rw [S.narrow_eq _ 30 (by decide)]
        rfl
      rw [decodePage, haddress]
      simp only [staleFrame, bits, PageKind.offset, PageKind.size, u64] at hoffset ⊢
      omega

theorem mapPhysicalFrom_staleLeaf (S : FieldShift) (hclear : Clear base virt)
    (hbase : base ≤ 2 ^ 25) (hfour : indexL4 virt = 0) :
    decodePage S kind (staleLeaf virt kind) virt ≠
      (pageTree false base virt word kind (staleLeaf virt kind) 0).mapPhysicalFrom S true
        virt := by
  obtain ⟨hpresent, hpage⟩ := present_staleLeaf virt kind
  have hframe := tableAddress_staleLeaf S virt kind
  rw [decodePage_staleLeaf]
  by_cases hkind : kind = .page2MB
  · subst hkind
    rcases @mapPhysicalFrom_stale_2MB S base virt word _ hclear hpresent hpage with hzero | hlarge
    · rw [hzero, staleFrame]
      split <;> omega
    · have haddress : address1GB S (staleLeaf virt .page2MB) = 0 := by
        simp only [address1GB, staleLeaf, staleFrame]
        split <;> exact S.narrow_eq 0 30 (by decide)
      rw [hlarge, haddress, staleFrame]
      simp only [PageKind.offset, PageKind.size, u64]
      split
      case isTrue htwo =>
        simp only [indexL2, bits] at htwo ⊢
        omega
      case isFalse htwo =>
        simp only [indexL2, bits] at htwo ⊢
        omega
  · have hzero := @mapPhysicalFrom_stale_small S base virt word kind _ hclear hpresent hkind
      (fun hsmall => by rw [hpage, hsmall]; rfl) ?_ ?_ ?_
    · have hpos : 0 < staleFrame virt kind := by
        cases kind <;> simp only [staleFrame] <;> (try split) <;> decide
      omega
    · have hlow : 2 ^ 28 ≤ staleFrame virt kind := by
        cases kind with
        | page2MB => exact absurd rfl hkind
        | page1GB => exact (by decide : 2 ^ 28 ≤ 2 ^ 30)
        | page4KB =>
            simp only [staleFrame]
            split <;> decide
      omega
    · rintro rfl
      rw [hframe, staleFrame]
      have hlt := bits_lt virt 12 9
      simp only [indexL1]
      split <;> omega
    · rintro rfl hthree
      rw [hframe, staleFrame]
      simp only [indexL3, indexL4, bits] at hfour hthree ⊢
      omega

end Stale

/-! ## When the walkers agree -/

theorem exists_clear (virt : Nat) : ∃ base, Clear base virt ∧ base ≤ 2 ^ 25 := by
  by_cases h : virt < 2 ^ 25
  · exact ⟨2 ^ 25, ⟨by decide, by decide, .inl h⟩, Nat.le_refl _⟩
  · exact ⟨0, ⟨by decide, by decide, .inr (by omega)⟩, Nat.zero_le _⟩

/--
The walk starts from the bytes stored at the address and skips whole tables at
three levels, so it finds the entry that translates the address exactly when
those bytes spell the address's own indices and the skipped indices are zero.  With
four levels `MapPhysical` uses that entry only over a clear stack.
-/
theorem walkersAgree_iff (S : FieldShift) (level5 stack : Bool) (virt word : Nat)
    (kind : PageKind) :
    WalkersAgree S level5 stack virt word kind ↔
      SelfIndexed level5 virt word kind ∧ (stack = true → level5 = true) := by
  constructor
  · intro hagree
    obtain ⟨base, hclear, hbase⟩ := exists_clear virt
    have hwalk := hagree (lonePage level5 base virt word kind) (loneSlot base virt kind) rfl
      (mapped_pageTree hclear (by decide) fun _ => by decide) word_self_pageTree
    have hself := selfIndexed_of_walk hclear hwalk.1
    refine ⟨hself, ?_⟩
    rintro rfl
    by_contra hlevel
    rw [Bool.not_eq_true] at hlevel
    subst hlevel
    obtain ⟨hpresent, hpage⟩ := present_staleLeaf virt kind
    have hstale := (hagree (pageTree false base virt word kind (staleLeaf virt kind) 0)
      (loneSlot base virt kind) rfl
      (mapped_pageTree hclear hpresent fun hkind => by rw [hpage]; exact decide_eq_true hkind)
      word_self_pageTree).2
    rw [word_loneSlot hclear] at hstale
    exact mapPhysicalFrom_staleLeaf S hclear hbase hself.l4.1 hstale
  · rintro ⟨hself, hstack⟩ m slot rfl hmapped hword
    refine ⟨walk_of_selfIndexed hself hmapped hword, ?_⟩
    rw [PageTables.mapPhysicalFrom_eq hstack]
    exact hmapped.mapPhysical_eq.symm

/-- A 4 KB page at `0x1000` that stores zeros is not found. -/
theorem not_walkersAgree_zeros :
    ¬ ∃ (S : FieldShift) (level5 stack : Bool),
      WalkersAgree S level5 stack 0x1000 0 .page4KB := by
  rintro ⟨S, level5, stack, hagree⟩
  obtain ⟨base, hclear, -⟩ := exists_clear 0x1000
  have hwalk := hagree (lonePage level5 base 0x1000 0 .page4KB)
    (loneSlot base 0x1000 .page4KB) rfl
    (mapped_pageTree hclear (by decide) fun _ => by decide) word_self_pageTree
  exact absurd ((selfIndexed_of_walk hclear hwalk.1).l1 rfl).1 (by decide)

end BlockyOS.Kernel
