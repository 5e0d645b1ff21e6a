import BlockyOS.Kernel.PageTables

/-!
# The entries that `AllocatePages` writes

The leaf and table entries of `palloc.c` as they are initialised, and what
`MapPhysical` makes of them.
-/

namespace BlockyOS.Kernel

open BlockyOS.Foundation

/-! ## Entry construction -/

def readWritable : Nat := 0x1
def supervisorMode : Nat := 0x4
def pageLevelWriteThroughEnable : Nat := 0x8
def pageLevelCacheEnable : Nat := 0x10
def executeEnable : Nat := 0x80

/-- The `__check` macro. -/
def check (a f : Nat) : Bool := a &&& f = f

def accessFields (flags : Nat) : List BitField :=
  [(1, 1), (1, (check flags readWritable).toNat), (1, (check flags supervisorMode).toNat),
    (1, (check flags pageLevelWriteThroughEnable).toNat),
    (1, (!check flags pageLevelCacheEnable).toNat)]

def tableFields (flags physicalAddress : Nat) : List BitField :=
  accessFields flags ++
    -- Accessed, PageInMemory, PageSize, Available2
    [(1, 0), (1, 1), (1, 0), (4, 0), (40, physicalAddress),
      -- Available3, ExecuteDisable
      (11, 0), (1, (!check flags executeEnable).toNat)]

def tableEntry (flags physicalAddress : Nat) : Nat :=
  packFields (tableFields flags physicalAddress)

inductive PageKind where
  | page4KB
  | page2MB
  | page1GB
  deriving DecidableEq, Repr

namespace PageKind

def size : PageKind → Nat
  | page4KB => 2 ^ 12
  | page2MB => 2 ^ 21
  | page1GB => 2 ^ 30

/-- The part of a virtual address below the page. -/
def offset (kind : PageKind) (virt : Nat) : Nat := virt % kind.size

/-- The fields from `PageAttributeTable` or `PageSize` on up to the address. -/
def addressFields : PageKind → Nat → List BitField
  -- PageAttributeTable, Global, PageInMemory, Available1
  | page4KB, x => [(1, 0), (1, 0), (1, 1), (2, 0), (40, x)]
  -- PageSize, Global, PageInMemory, Available1, PageAttributeTable, reserved
  | page2MB, x => [(1, 0), (1, 0), (1, 1), (2, 0), (1, 0), (8, 0), (31, x)]
  | page1GB, x => [(1, 0), (1, 0), (1, 1), (2, 0), (1, 0), (17, 0), (22, x)]

end PageKind

def pageFields (kind : PageKind) (flags protectionKey physicalAddress : Nat) :
    List BitField :=
  accessFields flags ++
    -- Accessed, Dirty
    ([(1, 0), (1, 0)] ++ (kind.addressFields physicalAddress ++
      -- Available2, ProtectionKey, ExecuteDisable
      [(7, 0), (4, protectionKey), (1, (!check flags executeEnable).toNat)]))

def pageEntry (kind : PageKind) (flags protectionKey physicalAddress : Nat) : Nat :=
  packFields (pageFields kind flags protectionKey physicalAddress)

/-- `(uint64_t)BASE + (cc * PAGE_SIZE)`, the product being taken in 32 bits. -/
def runAddress (kind : PageKind) (base cc : Nat) : Nat := u64 (base + u32 (cc * kind.size))

/-! ### Reading them back -/

theorem present_tableEntry (flags x : Nat) : present (tableEntry flags x) = true := by
  have hfields : tableFields flags x = [] ++ (1, 1) :: (tableFields flags x).tail := rfl
  have h := bits_packFields_field [] 1 1 (tableFields flags x).tail 0 rfl
  rw [← hfields] at h
  simp [present, tableEntry, h]

theorem pageSizeBit_tableEntry (flags x : Nat) :
    pageSizeBit (tableEntry flags x) = false := by
  have hfields : tableFields flags x =
      (tableFields flags x).take 7 ++ (1, 0) :: (tableFields flags x).drop 8 := rfl
  have h := bits_packFields_field ((tableFields flags x).take 7) 1 0
    ((tableFields flags x).drop 8) 7 rfl
  rw [← hfields] at h
  simp [pageSizeBit, tableEntry, h]

theorem bits_tableEntry (flags x : Nat) : bits (tableEntry flags x) 12 40 = x % 2 ^ 40 := by
  have hfields : tableFields flags x =
      (tableFields flags x).take 9 ++ (40, x) :: (tableFields flags x).drop 10 := rfl
  have h := bits_packFields_field ((tableFields flags x).take 9) 40 x
    ((tableFields flags x).drop 10) 12 rfl
  rw [← hfields] at h
  exact h

section Page

variable (kind : PageKind) (flags key x : Nat)

theorem present_pageEntry : present (pageEntry kind flags key x) = true := by
  have hfields : pageFields kind flags key x =
      [] ++ (1, 1) :: (pageFields kind flags key x).tail := rfl
  have h := bits_packFields_field [] 1 1 (pageFields kind flags key x).tail 0 rfl
  rw [← hfields] at h
  simp [present, pageEntry, h]

theorem pageSizeBit_pageEntry : pageSizeBit (pageEntry kind flags key x) = false := by
  have hfields : pageFields kind flags key x = (pageFields kind flags key x).take 7 ++
      (1, 0) :: (pageFields kind flags key x).drop 8 := by
    cases kind <;> rfl
  have h := bits_packFields_field ((pageFields kind flags key x).take 7) 1 0
    ((pageFields kind flags key x).drop 8) 7 (by cases kind <;> rfl)
  rw [← hfields] at h
  simp [pageSizeBit, pageEntry, h]

theorem bits_pageEntry : bits (pageEntry kind flags key x) 12 40 =
    match kind with
    | .page4KB => x % 2 ^ 40
    | .page2MB => 2 ^ 9 * (x % 2 ^ 31)
    | .page1GB => 2 ^ 18 * (x % 2 ^ 22) := by
  have hfields : ∀ mid, (pageFields kind flags key x).drop 11 =
      mid ++ ((pageFields kind flags key x).drop 11).drop mid.length →
        fieldsWidth mid = 40 → bits (pageEntry kind flags key x) 12 40 = packFields mid := by
    intro mid hsplit hwidth
    have h := bits_packFields ((pageFields kind flags key x).take 11) mid
      (((pageFields kind flags key x).drop 11).drop mid.length) 12 40
      (by cases kind <;> simp [pageFields, accessFields, PageKind.addressFields]) hwidth
    rw [← hsplit, List.take_append_drop] at h
    exact h
  cases kind with
  | page4KB =>
      rw [hfields [(40, x)] rfl rfl, packFields_singleton]
  | page2MB =>
      rw [hfields [(1, 0), (8, 0), (31, x)] rfl rfl]
      simp only [packFields]
      ring
  | page1GB =>
      rw [hfields [(1, 0), (17, 0), (22, x)] rfl rfl]
      simp only [packFields]
      ring

end Page

/-! ## Decoding -/

/-- A base and an index into the run of pages that starts there. -/
structure PageRun (kind : PageKind) where
  base : Nat
  cc : Nat
  aligned : kind.size ∣ base
  cc_lt : cc < 512
  inRange : base + cc * kind.size < 2 ^ 52

def PageRun.address {kind : PageKind} (run : PageRun kind) : Nat :=
  run.base + run.cc * kind.size

/-- The address of a fresh table. -/
structure TableFrame where
  address : Nat
  aligned : 4096 ∣ address
  inRange : address < 2 ^ 52

inductive TableLevel where
  | l2
  | l3
  | l4
  | l5
  deriving DecidableEq, Repr

namespace PageTables

def leafSlot (S : FieldShift) (m : PageTables) (virt : Nat) : PageKind → Option Nat
  | .page4KB => (m.tableL1 S virt).map fun table => table + 8 * indexL1 virt
  | .page2MB => (m.tableL2 S virt).map fun table => table + 8 * indexL2 virt
  | .page1GB => (m.tableL3 S virt).map fun table => table + 8 * indexL3 virt

def tableSlot (S : FieldShift) (m : PageTables) (virt : Nat) : TableLevel → Option Nat
  | .l2 => (m.tableL2 S virt).map fun table => table + 8 * indexL2 virt
  | .l3 => (m.tableL3 S virt).map fun table => table + 8 * indexL3 virt
  | .l4 => (m.tableL4 S virt).map fun table => table + 8 * indexL4 virt
  | .l5 => m.tableL5.map fun table => table + 8 * indexL5 virt

def nextTable (S : FieldShift) (m : PageTables) (virt : Nat) : TableLevel → Option Nat
  | .l2 => m.tableL1 S virt
  | .l3 => m.tableL2 S virt
  | .l4 => m.tableL3 S virt
  | .l5 => m.tableL4 S virt

end PageTables

/--
Wherever the page entry is stored, the addresses of its page translate to the
frame it was built for.
-/
def PageDecodes (S : FieldShift) (flags protectionKey : Nat) {kind : PageKind}
    (run : PageRun kind) : Prop :=
  ∀ (m : PageTables) (virt slot : Nat), m.leafSlot S virt kind = some slot →
    m.word slot = pageEntry kind flags protectionKey (runAddress kind run.base run.cc) →
    m.mapPhysical S virt = run.address + kind.offset virt

/-- Wherever the table entry is stored, a walk goes down into the new table. -/
def TableDecodes (S : FieldShift) (flags : Nat) (level : TableLevel) (frame : TableFrame) :
    Prop :=
  ∀ (m : PageTables) (virt slot : Nat), m.tableSlot S virt level = some slot →
    m.word slot = tableEntry flags frame.address →
    m.nextTable S virt level = some (m.mapVirtual frame.address)

theorem shifted_eq_iff (S : FieldShift) {x : Nat} :
    x % 2 ^ 40 * 2 ^ 12 % 2 ^ S.wide = x ↔ x = 0 := by
  have hpow : 2 ^ 40 ∣ 2 ^ S.wide :=
    Nat.pow_dvd_pow 2 (by rcases S.wide_eq with hwide | hwide <;> omega)
  constructor
  · -- modulo 2 ^ 40 the address is its own multiple by 2 ^ 12
    intro heq
    have hmod : x * 2 ^ 12 % 2 ^ 40 = x % 2 ^ 40 := by
      calc x * 2 ^ 12 % 2 ^ 40
          = x % 2 ^ 40 * 2 ^ 12 % 2 ^ 40 := (Nat.mod_mul_mod x _ _).symm
        _ = x % 2 ^ 40 * 2 ^ 12 % 2 ^ S.wide % 2 ^ 40 := (Nat.mod_mod_of_dvd _ hpow).symm
        _ = x % 2 ^ 40 := by rw [heq]
    have hdvd : 2 ^ 40 ∣ x * 4095 := by omega
    have hx : 2 ^ 40 ∣ x :=
      Nat.Coprime.dvd_of_dvd_mul_right (Nat.Coprime.pow_left 40 (by decide)) hdvd
    rw [Nat.mod_eq_zero_of_dvd hx, Nat.zero_mul, Nat.zero_mod] at heq
    exact heq.symm
  · rintro rfl
    rw [Nat.zero_mod, Nat.zero_mul, Nat.zero_mod]

theorem PageRun.runAddress_eq (run : PageRun .page4KB) :
    runAddress .page4KB run.base run.cc = run.address := by
  have hcc := run.cc_lt
  have hrange := run.inRange
  simp only [PageKind.size] at hrange
  simp only [runAddress, PageRun.address, PageKind.size]
  rw [u32_of_lt (by omega), u64_of_lt (by omega)]

/-! ### A chain of tables -/

/--
Five tables in a row, each reached from the first entry of the one before it, and
one more entry stored at `slot`.
-/
def chain (slot entry : Nat) : PageTables where
  level5 := true
  storedPageTable := 0x1000
  mapVirtual := id
  word a :=
    if a = slot then entry
    else if a ∈ [0x1000, 0x2000, 0x3000, 0x4000] then a + 0x1000 + 1
    else 0

theorem word_chain_self (slot e : Nat) : (chain slot e).word slot = e := if_pos rfl

theorem entry_chain_self (slot e : Nat) : (chain slot e).entry slot 0 = e := word_chain_self slot e

theorem index_of_lt {virt : Nat} (h : virt < 4096) : indexL1 virt = 0 ∧ indexL2 virt = 0 ∧
    indexL3 virt = 0 ∧ indexL4 virt = 0 ∧ indexL5 virt = 0 := by
  simp only [indexL1, indexL2, indexL3, indexL4, indexL5, bits]
  omega

section Chain

variable (S : FieldShift) {slot e virt : Nat}

theorem below_chain {k : Nat} (hk : k < 16) (hne : k * 0x1000 ≠ slot)
    (hmem : k * 0x1000 ∈ [0x1000, 0x2000, 0x3000, 0x4000]) :
    present ((chain slot e).word (k * 0x1000)) = true ∧
      pageSizeBit ((chain slot e).word (k * 0x1000)) = false ∧
      tableAddress S ((chain slot e).word (k * 0x1000)) = (k + 1) * 0x1000 := by
  have hword : (chain slot e).word (k * 0x1000) = (k + 1) * 0x1000 + 1 := by
    simp only [chain, if_neg hne, if_pos hmem]
    omega
  rw [hword]
  exact present_frame S (by omega) (by omega)

theorem tableL4_chain (hvirt : virt < 4096) (h5 : 0x1000 ≠ slot) :
    (chain slot e).tableL4 S virt = some 0x2000 := by
  obtain ⟨hpresent, -, hnext⟩ := @below_chain S slot e 1 (by decide) h5 (by decide)
  have hindex := (index_of_lt hvirt).2.2.2.2
  rw [PageTables.tableL4]
  simp only [chain, if_true]
  rw [hindex]
  exact PageTables.below_eq_some_iff.mpr ⟨hpresent, hnext⟩

theorem tableL3_chain (hvirt : virt < 4096) (h5 : 0x1000 ≠ slot) (h4 : 0x2000 ≠ slot) :
    (chain slot e).tableL3 S virt = some 0x3000 := by
  obtain ⟨hpresent, -, hnext⟩ := @below_chain S slot e 2 (by decide) h4 (by decide)
  have hindex := (index_of_lt hvirt).2.2.2.1
  rw [PageTables.tableL3, tableL4_chain S hvirt h5, Option.bind_some, PageTables.entry,
    hindex]
  exact PageTables.below_eq_some_iff.mpr ⟨hpresent, hnext⟩

theorem tableL2_chain (hvirt : virt < 4096) (h5 : 0x1000 ≠ slot) (h4 : 0x2000 ≠ slot)
    (h3 : 0x3000 ≠ slot) : (chain slot e).tableL2 S virt = some 0x4000 := by
  obtain ⟨hpresent, hsize, hnext⟩ := @below_chain S slot e 3 (by decide) h3 (by decide)
  have hindex := (index_of_lt hvirt).2.2.1
  rw [PageTables.tableL2, tableL3_chain S hvirt h5 h4, Option.bind_some, PageTables.entry,
    hindex]
  exact PageTables.belowUnlessPage_eq_some_iff.mpr ⟨hpresent, hsize, hnext⟩

theorem tableL1_chain (hvirt : virt < 4096) (h5 : 0x1000 ≠ slot) (h4 : 0x2000 ≠ slot)
    (h3 : 0x3000 ≠ slot) (h2 : 0x4000 ≠ slot) :
    (chain slot e).tableL1 S virt = some 0x5000 := by
  obtain ⟨hpresent, hsize, hnext⟩ := @below_chain S slot e 4 (by decide) h2 (by decide)
  have hindex := (index_of_lt hvirt).2.1
  rw [PageTables.tableL1, tableL2_chain S hvirt h5 h4 h3, Option.bind_some,
    PageTables.entry, hindex]
  exact PageTables.belowUnlessPage_eq_some_iff.mpr ⟨hpresent, hsize, hnext⟩

end Chain

/-! ### When an entry decodes -/

theorem nextTable_of_tableSlot {S : FieldShift} {m : PageTables} {virt slot flags t : Nat}
    {level : TableLevel} (hslot : m.tableSlot S virt level = some slot)
    (hword : m.word slot = tableEntry flags t) :
    m.nextTable S virt level = some (m.mapVirtual (t % 2 ^ 40 * 2 ^ 12 % 2 ^ S.wide)) := by
  have haddress : tableAddress S (m.word slot) = t % 2 ^ 40 * 2 ^ 12 % 2 ^ S.wide := by
    rw [hword, tableAddress, bits_tableEntry]
  have hpresent : present (m.word slot) = true := by rw [hword, present_tableEntry]
  have hsize : pageSizeBit (m.word slot) = false := by rw [hword, pageSizeBit_tableEntry]
  cases level with
  | l5 =>
      obtain ⟨table, htable, rfl⟩ := Option.map_eq_some_iff.mp hslot
      rw [PageTables.tableL5, Option.ite_none_right_eq_some] at htable
      obtain ⟨hlevel, hstored⟩ := htable
      obtain rfl := Option.some.inj hstored
      rw [PageTables.nextTable, PageTables.tableL4, if_pos hlevel]
      exact PageTables.below_eq_some_iff.mpr ⟨hpresent, by rw [← haddress]; rfl⟩
  | l4 =>
      obtain ⟨table, htable, rfl⟩ := Option.map_eq_some_iff.mp hslot
      rw [PageTables.nextTable, PageTables.tableL3, htable, Option.bind_some]
      exact PageTables.below_eq_some_iff.mpr ⟨hpresent, by rw [← haddress]; rfl⟩
  | l3 =>
      obtain ⟨table, htable, rfl⟩ := Option.map_eq_some_iff.mp hslot
      rw [PageTables.nextTable, PageTables.tableL2, htable, Option.bind_some]
      exact PageTables.belowUnlessPage_eq_some_iff.mpr
        ⟨hpresent, hsize, by rw [← haddress]; rfl⟩
  | l2 =>
      obtain ⟨table, htable, rfl⟩ := Option.map_eq_some_iff.mp hslot
      rw [PageTables.nextTable, PageTables.tableL1, htable, Option.bind_some]
      exact PageTables.belowUnlessPage_eq_some_iff.mpr
        ⟨hpresent, hsize, by rw [← haddress]; rfl⟩

theorem tableDecodes_iff (S : FieldShift) (flags : Nat) (level : TableLevel)
    (frame : TableFrame) : TableDecodes S flags level frame ↔ frame.address = 0 := by
  rw [← @shifted_eq_iff S frame.address]
  constructor
  · intro hdecodes
    have hnext : ∀ slot, (chain slot (tableEntry flags frame.address)).tableSlot S 0 level =
        some slot → frame.address % 2 ^ 40 * 2 ^ 12 % 2 ^ S.wide = frame.address := by
      intro slot hslot
      have hword := word_chain_self slot (tableEntry flags frame.address)
      exact Option.some.inj ((nextTable_of_tableSlot hslot hword).symm.trans
        (hdecodes _ 0 slot hslot hword))
    cases level with
    | l5 => exact hnext 0x1000 rfl
    | l4 =>
        refine hnext 0x2000 ?_
        rw [PageTables.tableSlot, tableL4_chain S (by decide) (by decide)]
        rfl
    | l3 =>
        refine hnext 0x3000 ?_
        rw [PageTables.tableSlot, tableL3_chain S (by decide) (by decide) (by decide)]
        rfl
    | l2 =>
        refine hnext 0x4000 ?_
        rw [PageTables.tableSlot,
          tableL2_chain S (by decide) (by decide) (by decide) (by decide)]
        rfl
  · intro hfixed m virt slot hslot hword
    rw [nextTable_of_tableSlot hslot hword, hfixed]

theorem mapPhysical_of_page4KB {S : FieldShift} {m : PageTables} {virt slot flags key x : Nat}
    (hslot : m.leafSlot S virt .page4KB = some slot)
    (hword : m.word slot = pageEntry .page4KB flags key x) :
    m.mapPhysical S virt = u64 (x % 2 ^ 40 * 2 ^ 12 % 2 ^ S.wide + pageOffset virt) := by
  obtain ⟨table, htable, rfl⟩ := Option.map_eq_some_iff.mp hslot
  have hentry : m.entry table (indexL1 virt) = pageEntry .page4KB flags key x := hword
  rw [PageTables.mapPhysical_of_tableL1 htable, PageTables.translateL1]
  simp only [hentry, present_pageEntry, tableAddress, bits_pageEntry]
  rfl

theorem word_chain {slot e a : Nat} (hslot : slot < 2 ^ 21) (hpos : 0 < slot)
    (ha : 2 ^ 21 ∣ a) : (chain slot e).word a = 0 := by
  obtain ⟨k, rfl⟩ := ha
  have hne : 2 ^ 21 * k ≠ slot := by omega
  have hmem : 2 ^ 21 * k ∉ [0x1000, 0x2000, 0x3000, 0x4000] := by
    simp only [List.mem_cons, List.not_mem_nil, or_false]
    omega
  simp only [chain, if_neg hne, if_neg hmem]

theorem dvd_shifted (S : FieldShift) {n y : Nat} (hn : 9 ≤ n) (hwide : n ≤ 18) :
    2 ^ 21 ∣ 2 ^ n * y * 2 ^ 12 % 2 ^ S.wide := by
  have hpow : 2 ^ 21 ∣ 2 ^ S.wide := by
    rcases S.wide_eq with hwide | hwide <;>
    · rw [hwide]
      exact Nat.pow_dvd_pow 2 (by decide)
  refine (Nat.dvd_mod_iff hpow).mpr ?_
  have hsplit : 2 ^ n * y * 2 ^ 12 = 2 ^ 21 * (2 ^ (n - 9) * y) := by
    obtain ⟨k, rfl⟩ := Nat.exists_eq_add_of_le hn
    rw [Nat.add_sub_cancel_left, Nat.pow_add]
    ring
  rw [hsplit]
  exact Nat.dvd_mul_right _ _

theorem mapPhysical_chain {S : FieldShift} {e : Nat} {kind : PageKind}
    (hkind : kind ≠ .page4KB) (hpresent : present e = true) (hsize : pageSizeBit e = false)
    (hfar : 2 ^ 21 ∣ tableAddress S e) :
    ∃ slot, (chain slot e).leafSlot S 1 kind = some slot ∧
      (chain slot e).mapPhysical S 1 = 0 := by
  obtain ⟨h1, h2, h3, -⟩ := index_of_lt (show 1 < 4096 by decide)
  cases kind with
  | page4KB => exact absurd rfl hkind
  | page2MB =>
      have htable := @tableL2_chain S 0x4000 e 1 (by decide) (by decide) (by decide) (by decide)
      have hentry := entry_chain_self 0x4000 e
      have hnone : (chain 0x4000 e).entry (tableAddress S e) 0 = 0 :=
        word_chain (by decide) (by decide) hfar
      refine ⟨0x4000, by rw [PageTables.leafSlot, htable, h2]; rfl, ?_⟩
      rw [PageTables.mapPhysical_of_tableL2 htable, PageTables.translateL2, h2, hentry,
        hpresent, hsize, PageTables.translateL1, h1]
      change (if !present ((chain 0x4000 e).entry (tableAddress S e) 0) then 0 else _) = 0
      rw [hnone]
      rfl
  | page1GB =>
      have htable := @tableL3_chain S 0x3000 e 1 (by decide) (by decide) (by decide)
      have hentry := entry_chain_self 0x3000 e
      have hnone : (chain 0x3000 e).entry (tableAddress S e) 0 = 0 :=
        word_chain (by decide) (by decide) hfar
      refine ⟨0x3000, by rw [PageTables.leafSlot, htable, h3]; rfl, ?_⟩
      rw [PageTables.mapPhysical_of_tableL3 htable, PageTables.translateL3, h3, hentry,
        hpresent, hsize, PageTables.translateL2, h2]
      change (if !present ((chain 0x3000 e).entry (tableAddress S e) 0) then 0 else _) = 0
      rw [hnone]
      rfl

theorem not_pageDecodes_of_large {S : FieldShift} {flags key : Nat} {kind : PageKind}
    (run : PageRun kind) (hkind : kind ≠ .page4KB) : ¬ PageDecodes S flags key run := by
  intro hdecodes
  have hoff : kind.offset 1 = 1 := by cases kind <;> rfl
  have hfar : 2 ^ 21 ∣ tableAddress S
      (pageEntry kind flags key (runAddress kind run.base run.cc)) := by
    rw [tableAddress, bits_pageEntry]
    cases kind with
    | page4KB => exact absurd rfl hkind
    | page2MB => exact dvd_shifted S (by decide) (by decide)
    | page1GB => exact dvd_shifted S (by decide) (by decide)
  obtain ⟨slot, hslot, hzero⟩ := mapPhysical_chain hkind
    (present_pageEntry kind flags key (runAddress kind run.base run.cc))
    (pageSizeBit_pageEntry kind flags key _) hfar
  have hsum := hdecodes _ 1 slot hslot (word_chain_self _ _)
  rw [hzero, hoff] at hsum
  omega

theorem pageDecodes_iff (S : FieldShift) (flags key : Nat) {kind : PageKind}
    (run : PageRun kind) :
    PageDecodes S flags key run ↔ kind = .page4KB ∧ run.address = 0 := by
  cases kind with
  | page2MB => simpa using not_pageDecodes_of_large run (by decide)
  | page1GB => simpa using not_pageDecodes_of_large run (by decide)
  | page4KB =>
      have hrange := run.inRange
      have hfixed := @shifted_eq_iff S run.address
      have hwide : run.address % 2 ^ 40 * 2 ^ 12 % 2 ^ S.wide < 2 ^ 52 := by
        have hle := Nat.mod_le (run.address % 2 ^ 40 * 2 ^ 12) (2 ^ S.wide)
        omega
      constructor
      · intro hdecodes
        refine ⟨rfl, hfixed.mp ?_⟩
        have hslot : ∀ e, (chain 0x5000 e).leafSlot S 0 .page4KB = some 0x5000 := by
          intro e
          rw [PageTables.leafSlot,
            tableL1_chain S (by decide) (by decide) (by decide) (by decide) (by decide)]
          rfl
        have hword := word_chain_self 0x5000
          (pageEntry .page4KB flags key (runAddress .page4KB run.base run.cc))
        have hsum := hdecodes _ 0 0x5000 (hslot _) hword
        have hoff : pageOffset 0 = 0 := by decide
        have hkind : PageKind.page4KB.offset 0 = 0 := by decide
        rw [mapPhysical_of_page4KB (hslot _) hword, run.runAddress_eq, hoff, hkind,
          Nat.add_zero, Nat.add_zero, u64_of_lt (by omega)] at hsum
        exact hsum
      · rintro ⟨-, hzero⟩ m virt slot hslot hword
        have hoff : pageOffset virt = PageKind.page4KB.offset virt := by
          rw [pageOffset, bits, Nat.pow_zero, Nat.div_one]
          rfl
        have hlt : PageKind.page4KB.offset virt < 2 ^ 12 := Nat.mod_lt _ (by decide)
        rw [mapPhysical_of_page4KB hslot hword, run.runAddress_eq, hfixed.mpr hzero, hoff,
          u64_of_lt (by omega)]

/--
The addresses are stored without the shift that reading them back applies: a
4 KB page and a table survive it at address zero only, and the entries of larger
pages lack the bit that tells them from tables.
-/
theorem entries_decode_iff (S : FieldShift) (flags protectionKey : Nat) :
    (∀ (kind : PageKind) (run : PageRun kind),
      PageDecodes S flags protectionKey run ↔ kind = .page4KB ∧ run.address = 0) ∧
    ∀ (level : TableLevel) (frame : TableFrame),
      TableDecodes S flags level frame ↔ frame.address = 0 :=
  ⟨fun _ run => pageDecodes_iff S flags protectionKey run,
    fun level frame => tableDecodes_iff S flags level frame⟩

/-- The frame at 4 KB, mapped as the first page of a run. -/
def sampleRun : PageRun .page4KB where
  base := 4096
  cc := 0
  aligned := Nat.dvd_refl 4096
  cc_lt := Nat.zero_lt_succ 511
  inRange := Nat.lt_of_sub_pos (Nat.zero_lt_succ _)

/-- A page built for the frame at 4 KB is translated to another one. -/
theorem not_pageDecodes_sampleRun :
    ¬ ∃ (S : FieldShift) (flags protectionKey : Nat),
      PageDecodes S flags protectionKey sampleRun := by
  rintro ⟨S, flags, protectionKey, hdecodes⟩
  exact absurd ((pageDecodes_iff S flags protectionKey sampleRun).mp hdecodes).2 (by decide)

end BlockyOS.Kernel
