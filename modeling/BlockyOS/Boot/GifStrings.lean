import BlockyOS.Boot.GifSafety
import BlockyOS.Foundation.Lzw

/-!
# The strings in the tables of the decoder

The decoder keeps the dictionary of an encoding in its tables: an entry is a chain,
which spells a string from its last pixel to its first.  A code unwinds its chain,
and enters the string of the code before with one pixel more.
-/

namespace BlockyOS.Boot.Gif

open BlockyOS.Foundation BlockyOS.Foundation.Lzw

/-- The coding of rasters whose code size is `initCodeSize`. -/
def rasterCoding (initCodeSize : Nat) : Coding UInt8 where
  literals := 2 ^ initCodeSize
  literal := UInt8.ofNat
  limit := 4096
  maxWidth := 12

/-! ## The strings in the tables -/

section Strings

variable (r : Raster)

/-- The chain of `code`, whose codes are below `bound`, spells the string. -/
inductive Spells (tables : Tables) (bound : Nat) : Nat → Bytes → Prop
  | literal {code} (hlow : code < r.clearCode) (hbound : code < bound) (htable : code < tableSize) :
      Spells tables bound code [tables.suffixes code]
  | entry {code string} (hhigh : r.clearCode ≤ code) (hbound : code < bound)
      (htable : code < tableSize)
      (hrest : Spells tables bound (tables.prefixes code).toNat string) :
      Spells tables bound code (string ++ [tables.suffixes code])

variable {r} {tables : Tables} {bound code : Nat} {string : Bytes}

theorem Spells.code_lt (h : Spells r tables bound code string) :
    code < bound ∧ code < tableSize := by
  cases h with
  | literal _ hbound htable => exact ⟨hbound, htable⟩
  | entry _ hbound htable _ => exact ⟨hbound, htable⟩

theorem Spells.put (h : Spells r tables bound code string) (link : UInt16) (char : UInt8) :
    Spells r
      ⟨Function.update tables.prefixes bound link, Function.update tables.suffixes bound char⟩
      (bound + 1) code string := by
  induction h with
  | @literal code hlow hbound htable =>
      have hstep := @Spells.literal r
        ⟨Function.update tables.prefixes bound link, Function.update tables.suffixes bound char⟩
        _ _ hlow (Nat.lt_succ_of_lt hbound) htable
      simpa [Function.update_of_ne (Nat.ne_of_lt hbound)] using hstep
  | @entry code string hhigh hbound htable hrest ih =>
      have hlink : Function.update tables.prefixes bound link code = tables.prefixes code :=
        Function.update_of_ne (Nat.ne_of_lt hbound) ..
      rw [← hlink] at ih
      have hstep := Spells.entry hhigh (Nat.lt_succ_of_lt hbound) htable ih
      simpa [Function.update_of_ne (Nat.ne_of_lt hbound)] using hstep

/-- Unwinding a chain leaves the string on the stack, all but its first pixel. -/
theorem unwind_of_spells (h : Spells r tables bound code string) {room : Nat}
    (hroom : string.length ≤ room + 1) (stack : Bytes) :
    ∃ last rest, string = tables.suffixes last :: rest ∧ last < tableSize ∧
      unwind r tables room code stack = .ok (last, rest ++ stack) := by
  induction h generalizing room stack with
  | @literal code hlow hbound htable =>
      refine ⟨code, [], rfl, htable, ?_⟩
      cases room <;> simp [unwind, Nat.not_le_of_lt hlow]
  | @entry code string hhigh hbound htable hrest ih =>
      have hlink : r.clearCode ≤ code ∧ code < tableSize := ⟨hhigh, htable⟩
      cases room with
      | zero =>
          obtain ⟨last, rest, rfl, -⟩ := @ih string.length (Nat.le_succ _) []
          simp at hroom
      | succ room =>
          obtain ⟨last, rest, rfl, hlast, hunwind⟩ :=
            @ih room (by simpa using hroom) (tables.suffixes code :: stack)
          refine ⟨last, rest ++ [tables.suffixes code], rfl, hlast, ?_⟩
          rw [unwind, if_pos hlink, hunwind]
          simp

theorem pushFirst_of_spells {s : Decoder} (h : Spells r s.tables bound code string)
    {stack : Bytes} (hroom : string.length + stack.length ≤ stackSize) :
    ∃ last unwound firstChar,
      unwind r s.tables (stackSize - stack.length) code stack = .ok (last, unwound) ∧
        pushFirst s last unwound = .ok (firstChar, string ++ stack) ∧
        string.take 1 = [firstChar] := by
  obtain ⟨last, rest, rfl, hlast, hunwind⟩ :=
    @unwind_of_spells _ _ _ _ _ h (stackSize - stack.length) (by omega) stack
  refine ⟨last, rest ++ stack, s.tables.suffixes last, hunwind, ?_, rfl⟩
  rw [pushFirst, if_pos hlast, push_ok (by simp at hroom ⊢; omega), ok_bind]
  rfl

theorem popPixels_of_room {totalPixels : Nat} {stack indices : Bytes}
    (h : indices.length + stack.length ≤ totalPixels) :
    popPixels totalPixels stack indices = ([], indices ++ stack) := by
  induction stack generalizing indices with
  | nil => simp [popPixels]
  | cons char stack ih =>
      rw [List.length_cons] at h
      rw [popPixels, if_pos (by omega), ih (by simp; omega)]
      simp

end Strings

/-! ## The tables and the dictionary -/

section Dictionary

variable (r : Raster)

structure Sized : Prop where
  size : 2 ≤ r.initCodeSize ∧ r.initCodeSize ≤ 8
  clear : r.clearCode = 2 ^ r.initCodeSize

abbrev Raster.coding : Coding UInt8 := rasterCoding r.initCodeSize

/-- The tables hold the strings of the dictionary, and `oldCode` is the code before. -/
structure Mirrors (d : Dictionary UInt8) (s : Decoder) : Prop where
  availableCode : s.availableCode = r.coding.nextCode d
  codeSize : s.codeSize = r.coding.width d
  maxCode : s.maxCode = 2 ^ s.codeSize
  literal : ∀ k, k < r.clearCode → s.tables.suffixes k = UInt8.ofNat k
  entry : ∀ k e, d.entries[k]? = some e →
    Spells r s.tables s.availableCode (r.clearCode + 2 + k) e
  noOld : d.previous = none → s.oldCode = noCode
  old : ∀ p, d.previous = some p → Spells r s.tables s.availableCode s.oldCode p

/-- The stack is empty, and `firstChar` is the first pixel of the code before. -/
structure Waiting (d : Dictionary UInt8) (s : Decoder) : Prop where
  pixelStack : s.pixelStack = []
  firstChar : ∀ p, d.previous = some p → p.take 1 = [s.firstChar]

variable {r} {d : Dictionary UInt8} {s : Decoder} {code : Nat} {string : Bytes}

theorem Sized.clear_le (hr : Sized r) : r.clearCode ≤ 256 := by
  rw [hr.clear]
  exact Nat.pow_le_pow_right (by decide) hr.size.2

theorem Sized.literals (hr : Sized r) : r.coding.literals = r.clearCode := hr.clear.symm

theorem Sized.fits (hr : Sized r) : r.coding.literals + 2 ≤ r.coding.limit := by
  have hclear := hr.clear_le
  rw [hr.literals, show r.coding.limit = 4096 from rfl]
  omega

theorem Sized.nextCode (hr : Sized r) :
    r.coding.nextCode d = r.clearCode + 2 + d.entries.length := by
  rw [Coding.nextCode, hr.literals]

theorem Mirrors.spells (hr : Sized r) (hm : Mirrors r d s)
    (h : r.coding.string d code = some string) :
    Spells r s.tables s.availableCode code string := by
  have hclear := hr.clear_le
  have havailable : s.availableCode = r.clearCode + 2 + d.entries.length :=
    hm.availableCode.trans hr.nextCode
  rw [Coding.string, hr.literals] at h
  split at h
  · next hlow =>
    cases h
    have hchar := hm.literal code hlow
    have hspells := @Spells.literal r s.tables _ _ hlow
      (show code < s.availableCode by omega) (show code < tableSize by unfold tableSize; omega)
    rwa [hchar] at hspells
  · split at h
    · cases h
    · have hcode : r.clearCode + 2 + (code - (r.clearCode + 2)) = code := by omega
      have hspells := hm.entry _ _ h
      rwa [hcode] at hspells

theorem Spells.oldCode_ne (h : Spells r s.tables s.availableCode s.oldCode string) :
    s.oldCode ≠ noCode := by
  have hlt := h.code_lt.2
  intro hold
  rw [hold] at hlt
  exact absurd hlt (Nat.not_lt_of_le noCode_large)

theorem growCodeSize_eq {n : Nat} (hsize : s.codeSize = min 12 (Nat.size n))
    (hmax : s.maxCode = 2 ^ s.codeSize) (havailable : s.availableCode = n + 1) :
    growCodeSize s = .ok
      { s with
        codeSize := min 12 (Nat.size (n + 1))
        maxCode := 2 ^ min 12 (Nat.size (n + 1)) } := by
  rw [growCodeSize, hmax, hsize, havailable, min_size_succ]
  split
  · next hgrow =>
    rw [shiftOne_ok (by omega), ok_bind]
  · rw [← hsize, ← hmax, ← havailable]

theorem Mirrors.turn (hm : Mirrors r d s) (h : Spells r s.tables s.availableCode code string) :
    Mirrors r ⟨d.entries, some string⟩ { s with oldCode := code } :=
  { hm with
    noOld := fun hnone => by cases hnone
    old := fun p hp => by
      cases hp
      exact h }

def Decoder.entered (s : Decoder) : Decoder :=
  { s with
    tables :=
      ⟨Function.update s.tables.prefixes s.availableCode (UInt16.ofNat s.oldCode),
        Function.update s.tables.suffixes s.availableCode s.firstChar⟩
    availableCode := s.availableCode + 1
    codeSize := min 12 (Nat.size (s.availableCode + 1))
    maxCode := 2 ^ min 12 (Nat.size (s.availableCode + 1)) }

theorem Spells.entered {p : Bytes} (hclear : r.clearCode ≤ s.availableCode)
    (hroom : s.availableCode < tableSize)
    (h : Spells r s.tables s.availableCode s.oldCode p) :
    Spells r s.entered.tables (s.availableCode + 1) s.availableCode (p ++ [s.firstChar]) := by
  have hold : (UInt16.ofNat s.oldCode).toNat = s.oldCode :=
    UInt16.toNat_ofNat_of_lt' (h.code_lt.2.trans (by decide))
  have hlink : (s.entered.tables.prefixes s.availableCode).toNat = s.oldCode := by
    simp [Decoder.entered, hold]
  have hrest : Spells r s.entered.tables (s.availableCode + 1) s.oldCode p := h.put _ _
  rw [← hlink] at hrest
  have hentry := Spells.entry hclear (Nat.lt_succ_self _) hroom hrest
  simpa [Decoder.entered] using hentry

theorem addEntry_of_room {p : Bytes} (hm : Mirrors r d s)
    (hroom : r.coding.nextCode d < tableSize) (hprevious : d.previous = some p) :
    addEntry s = .ok s.entered := by
  have hold := (hm.old p hprevious).oldCode_ne
  rw [← hm.availableCode] at hroom
  rw [addEntry, if_pos ⟨hroom, hold⟩, Tables.put, if_pos hroom, ok_bind,
    growCodeSize_eq (n := s.availableCode)]
  · rfl
  · rw [hm.availableCode]
    exact hm.codeSize
  · exact hm.maxCode
  · rfl

theorem Mirrors.entered {p : Bytes} (hr : Sized r) (hm : Mirrors r d s)
    (hroom : r.coding.nextCode d < tableSize) (hprevious : d.previous = some p) :
    Mirrors r ⟨d.entries ++ [p ++ [s.firstChar]], d.previous⟩ s.entered := by
  have havailable : s.availableCode = r.clearCode + 2 + d.entries.length :=
    hm.availableCode.trans hr.nextCode
  have hold := hm.old p hprevious
  refine ⟨?_, ?_, rfl, ?_, ?_, ?_, ?_⟩
  · simp [Decoder.entered, hr.nextCode, havailable, Nat.add_assoc]
  · rw [Coding.width, hr.nextCode, List.length_append, List.length_singleton, ← Nat.add_assoc,
      ← havailable]
    rfl
  · intro k hk
    have hne : k ≠ s.availableCode := by omega
    rw [← hm.literal k hk]
    exact Function.update_of_ne hne ..
  · intro k e he
    rw [List.getElem?_append] at he
    split at he
    · exact (hm.entry k e he).put _ _
    · obtain ⟨hk, rfl⟩ := List.getElem?_eq_some_iff.mp he
      rw [List.length_singleton] at hk
      rw [List.getElem_singleton, show r.clearCode + 2 + k = s.availableCode by omega]
      rw [← hm.availableCode] at hroom
      exact hold.entered (by omega) hroom
  · intro hnone
    rw [hprevious] at hnone
    cases hnone
  · intro q hq
    exact (hm.old q hq).put _ _

theorem addEntry_of_names (hr : Sized r) (hm : Mirrors r d s) (hd : Grown r.coding d)
    (hnames : r.coding.Names d code string) (hfirst : string.take 1 = [s.firstChar]) :
    ∃ s', addEntry s = .ok s' ∧ s'.bitPos = s.bitPos ∧ s'.indices = s.indices ∧
      s'.firstChar = s.firstChar ∧
      Mirrors r (r.coding.enter d string) { s' with oldCode := code } := by
  cases hprevious : d.previous with
  | none =>
      have hstring := hnames.resolve_right (by simp [hprevious])
      have hkept := hm.turn (hm.spells hr hstring)
      rw [Coding.enter_of_none hprevious, addEntry]
      exact ⟨s, if_neg fun h => h.2 (hm.noOld hprevious), rfl, rfl, rfl, hkept⟩
  | some p =>
      rcases Nat.lt_or_ge (r.coding.nextCode d) tableSize with hroom | hfull
      · have hentered := hm.entered hr hroom hprevious
        have hstring : Spells r s.entered.tables s.entered.availableCode code string := by
          rcases hnames with hstring | ⟨rfl, -, q, hq, rfl⟩
          · exact (hm.spells hr hstring).put _ _
          · rw [hprevious] at hq
            cases hq
            have hne := (hd.previous p hprevious).1
            have hp : p.take 1 = [s.firstChar] := by
              rw [← hfirst, List.take_append_of_le_length (List.length_pos_iff.mpr hne)]
            rw [hp, ← hm.availableCode]
            rw [← hm.availableCode] at hroom
            have hclear : r.clearCode ≤ s.availableCode := by
              rw [hm.availableCode, hr.nextCode]
              omega
            exact (hm.old p hprevious).entered hclear hroom
        have hkept := hentered.turn hstring
        rw [Coding.enter_of_room hroom hprevious, hfirst, addEntry_of_room hm hroom hprevious]
        exact ⟨s.entered, rfl, rfl, rfl, rfl, hkept⟩
      · have hstring := hnames.resolve_right fun h => Nat.not_lt_of_le hfull h.2.1
        have hfull' : ¬ s.availableCode < tableSize := by
          rw [hm.availableCode]
          exact Nat.not_lt_of_le hfull
        have hkept := hm.turn (hm.spells hr hstring)
        rw [Coding.enter_of_full hfull, addEntry]
        exact ⟨s, if_neg fun h => hfull' h.1, rfl, rfl, rfl, hkept⟩

theorem entries_length_le (hr : Sized r) (hd : Grown r.coding d) :
    d.entries.length + 2 ≤ stackSize := by
  have hlimit : r.coding.nextCode d ≤ 4096 := hd.limit
  rw [hr.nextCode] at hlimit
  unfold stackSize
  omega

theorem unwinds_of_names (hr : Sized r) (hm : Mirrors r d s) (hw : Waiting d s)
    (hd : Grown r.coding d) (hnames : r.coding.Names d code string) :
    ∃ first stack last unwound firstChar,
      resolveCode s code = .ok (first, stack) ∧
        unwind r s.tables (stackSize - stack.length) first stack = .ok (last, unwound) ∧
        pushFirst s last unwound = .ok (firstChar, string) ∧ string.take 1 = [firstChar] := by
  have hstack := entries_length_le hr hd
  rcases hnames with hstring | ⟨rfl, -, p, hp, rfl⟩
  · have hspells := hm.spells hr hstring
    have hlength := (Coding.string_bounds hd hstring).2
    obtain ⟨last, unwound, firstChar, hunwind, hpush, hfirst⟩ :=
      @pushFirst_of_spells _ _ _ _ _ hspells [] (by rw [List.length_nil]; omega)
    rw [List.append_nil] at hpush
    refine ⟨code, [], last, unwound, firstChar, ?_, hunwind, hpush, hfirst⟩
    rw [resolveCode, if_neg (Nat.not_le_of_lt hspells.code_lt.1), hw.pixelStack]
  · obtain ⟨hne, hlength⟩ := hd.previous p hp
    obtain ⟨last, unwound, firstChar, hunwind, hpush, hfirst⟩ :=
      @pushFirst_of_spells _ _ _ _ _ (hm.old p hp) [s.firstChar]
        (by rw [List.length_singleton]; omega)
    rw [← hw.firstChar p hp] at hpush
    refine ⟨s.oldCode, [s.firstChar], last, unwound, firstChar, ?_, hunwind, hpush, ?_⟩
    · rw [resolveCode, if_pos (Nat.le_of_eq hm.availableCode), hw.pixelStack, push_ok (by decide)]
      rfl
    · rw [List.take_append_of_le_length (List.length_pos_iff.mpr hne), hfirst]

theorem emitCode_of_names (hr : Sized r) (hm : Mirrors r d s) (hw : Waiting d s)
    (hd : Grown r.coding d) (hnames : r.coding.Names d code string)
    (hroom : s.indices.length + string.length ≤ r.totalPixels) :
    ∃ s', emitCode r s code = .ok s' ∧ s'.bitPos = s.bitPos ∧
      s'.indices = s.indices ++ string ∧ Mirrors r (r.coding.enter d string) s' ∧
      Waiting (r.coding.enter d string) s' := by
  obtain ⟨first, stack, last, unwound, firstChar, hresolve, hunwind, hpush, hfirst⟩ :=
    unwinds_of_names hr hm hw hd hnames
  have hm' : Mirrors r d { s with firstChar := firstChar } := { hm with }
  obtain ⟨s', hadd, hpos, hindices, hchar, hmirrors⟩ :=
    addEntry_of_names hr hm' hd hnames hfirst
  have hpop := @popPixels_of_room r.totalPixels string s'.indices (by rwa [hindices])
  rw [emitCode, hresolve]
  simp only [ok_bind, hunwind, hpush, hadd, hpop]
  refine ⟨_, rfl, hpos, ?_, { hmirrors with }, ⟨rfl, ?_⟩⟩
  · simp [hindices]
  · intro p hp
    cases hp
    simp [hchar, hfirst]

theorem width_empty (hr : Sized r) : r.coding.width .empty = r.initCodeSize + 1 := by
  obtain ⟨hlow, hhigh⟩ := hr.size
  have hfour : 2 ^ 2 ≤ 2 ^ r.initCodeSize := Nat.pow_le_pow_right (by decide) hlow
  have hcode : r.coding.nextCode .empty = 2 ^ r.initCodeSize + 2 := rfl
  have hle : Nat.size (2 ^ r.initCodeSize + 2) ≤ r.initCodeSize + 1 :=
    Nat.size_le.mpr (by omega)
  have hlt : r.initCodeSize < Nat.size (2 ^ r.initCodeSize + 2) :=
    Nat.lt_size.mpr (Nat.le_add_right _ _)
  rw [Coding.width, hcode, show r.coding.maxWidth = 12 from rfl]
  omega

theorem mirrors_empty (hr : Sized r) (havailable : s.availableCode = r.eoiCode + 1)
    (hsize : s.codeSize = r.initCodeSize + 1) (hmax : s.maxCode = 2 ^ s.codeSize)
    (hold : s.oldCode = noCode)
    (hliteral : ∀ k, k < r.clearCode → s.tables.suffixes k = UInt8.ofNat k) :
    Mirrors r .empty s where
  availableCode := by simp [havailable, hr.nextCode, Raster.eoiCode, Dictionary.empty]
  codeSize := by rw [hsize, width_empty hr]
  maxCode := hmax
  literal := hliteral
  entry k e he := by simp [Dictionary.empty] at he
  noOld _ := hold
  old p hp := by cases hp

theorem clearTables_of_mirrors (hr : Sized r) (hm : Mirrors r d s) (hw : Waiting d s) :
    ∃ s', clearTables r s = .ok s' ∧ s'.bitPos = s.bitPos ∧ s'.indices = s.indices ∧
      Mirrors r .empty s' ∧ Waiting .empty s' := by
  have hsize := hr.size.2
  rw [clearTables, shiftOne_ok (by omega)]
  refine ⟨_, rfl, rfl, rfl, mirrors_empty hr rfl rfl rfl rfl hm.literal, hw.pixelStack, ?_⟩
  intro p hp
  cases hp

end Dictionary

end BlockyOS.Boot.Gif
