import BlockyOS.Boot.GifDecoder

/-!
# Where the decoder of GIF rasters stays safe

The chains of the table end because every entry is linked to an earlier code.
The decoder does not check what keeps that up: that a code is in the table, or is
the entry that the code itself is about to define.
-/

namespace BlockyOS.Boot.Gif

open BlockyOS.Foundation

/--
The sizes do not wrap, and the decoding ends without a shift that is too wide or an
index outside an array.
-/
structure DecodesSafely (raster : Nat → UInt8) (width height : Nat) (garbage : Tables) :
    Prop where
  totalPixels : width * height < 2 ^ 32
  maxLzwBytes : width * height * 2 < 2 ^ 32
  ends : ∃ fuel indices, decodeIndices raster width height garbage fuel = some (.ok indices)

section Chains

variable (r : Raster)

/--
`code` is a literal or an entry of the table below `available`, or it is none that
the table could have.
-/
def Chained (available code : Nat) : Prop :=
  tableSize ≤ code ∨ (code < available ∧ code ≠ r.clearCode ∧ code ≠ r.eoiCode)

def Linked (tables : Tables) (available : Nat) : Prop :=
  ∀ k, r.eoiCode < k → k < available → k < tableSize → Chained r k (tables.prefixes k).toNat

variable {r}

theorem Chained.mono {available available' code : Nat} (h : Chained r available code)
    (hle : available ≤ available') : Chained r available' code :=
  h.imp_right fun h => ⟨h.1.trans_le hle, h.2⟩

theorem unwind_ok {tables : Tables} {available room code links : Nat} {stack : Bytes}
    (hlinked : Linked r tables available) (hcode : Chained r available code)
    (hlinks : code < tableSize → code - r.eoiCode ≤ links) (hroom : links ≤ room) :
    ∃ last after, unwind r tables room code stack = .ok (last, after) ∧
      after.length ≤ stack.length + links := by
  induction room generalizing code stack links with
  | zero =>
      refine ⟨code, stack, if_neg ?_, Nat.le_add_right _ _⟩
      rintro ⟨hlow, hhigh⟩
      obtain ⟨-, hclear, heoi⟩ := hcode.resolve_left (Nat.not_le_of_lt hhigh)
      have hcount := hlinks hhigh
      rw [Raster.eoiCode] at heoi hcount
      omega
  | succ room ih =>
      rw [unwind]
      by_cases hlink : r.clearCode ≤ code ∧ code < tableSize
      · rw [if_pos hlink]
        obtain ⟨hlow, hhigh⟩ := hlink
        obtain ⟨havailable, hclear, heoi⟩ := hcode.resolve_left (Nat.not_le_of_lt hhigh)
        have hcount := hlinks hhigh
        have hentry : r.eoiCode < code := by
          rw [Raster.eoiCode] at heoi ⊢
          omega
        have hnext := hlinked code hentry havailable hhigh
        have hfewer : (tables.prefixes code).toNat < tableSize →
            (tables.prefixes code).toNat - r.eoiCode ≤ links - 1 := by
          intro hsmall
          have hlt := (hnext.resolve_left (Nat.not_le_of_lt hsmall)).1
          omega
        obtain ⟨last, after, hunwind, hlength⟩ :=
          @ih _ _ (tables.suffixes code :: stack) (hnext.mono (Nat.le_of_lt havailable)) hfewer
            (by omega)
        refine ⟨last, after, hunwind, hlength.trans ?_⟩
        rw [List.length_cons]
        omega
      · rw [if_neg hlink]
        exact ⟨code, stack, rfl, Nat.le_add_right _ _⟩

end Chains

/-! ## One turn -/

section Turns

variable (r : Raster)

def Known (s : Decoder) (code : Nat) : Prop :=
  code < s.availableCode ∨ (code = s.availableCode ∧ s.oldCode ≠ noCode)

/-- The code that the turn reads is known, and the bit position does not wrap. -/
def TurnFits (s : Decoder) : Prop :=
  HasCode r s → ∀ code, readCode r s = .ok code →
    Known s code ∧ s.bitPos + s.codeSize < 2 ^ 32

structure SetUp : Prop where
  size : r.initCodeSize ≤ 12
  clear : r.clearCode = 2 ^ r.initCodeSize

/-- What every turn preserves. -/
structure Sound (s : Decoder) : Prop where
  codeSize : 1 ≤ s.codeSize ∧ s.codeSize ≤ 13
  entries : r.eoiCode < s.availableCode
  linked : Linked r s.tables s.availableCode
  old : Chained r s.availableCode s.oldCode
  oldSmall : s.oldCode < 2 ^ 16
  stack : s.pixelStack = [] ∨ r.totalPixels ≤ s.indices.length

variable {r}

theorem noCode_large : tableSize ≤ noCode := by decide

theorem noCode_small : noCode < 2 ^ 16 := by decide

theorem shiftOne_ok {n : Nat} (h : n < 32) : shiftOne n = .ok (2 ^ n) := if_pos h

theorem readCode_ok {s : Decoder} (hsize : s.codeSize ≤ 13) :
    ∃ code, readCode r s = .ok code ∧ code < 2 ^ s.codeSize := by
  refine ⟨_, by rw [readCode, shiftOne_ok (by omega)]; rfl, ?_⟩
  rw [Nat.and_two_pow_sub_one_eq_mod]
  exact Nat.mod_lt _ (Nat.two_pow_pos _)

theorem clearCode_pos (hr : SetUp r) : 1 ≤ r.clearCode := by
  rw [hr.clear]
  exact Nat.two_pow_pos _

theorem push_ok {stack : Bytes} {char : UInt8} (h : stack.length < stackSize) :
    push stack char = .ok (char :: stack) := if_pos h

theorem length_popPixels {totalPixels : Nat} {stack indices : Bytes} :
    (popPixels totalPixels stack indices).1 = [] ∨
      totalPixels ≤ (popPixels totalPixels stack indices).2.length := by
  induction stack generalizing indices with
  | nil => exact .inl rfl
  | cons char stack ih =>
      rw [popPixels]
      split
      · exact ih
      · next hfull => exact .inr (Nat.le_of_not_lt hfull)

theorem growCodeSize_ok {s : Decoder} (hs : Sound r s) :
    ∃ after, growCodeSize s = .ok after ∧ Sound r after ∧
      after.availableCode = s.availableCode ∧ after.bitPos = s.bitPos := by
  have hsize := hs.codeSize
  rw [growCodeSize]
  split
  · next hgrow =>
    rw [shiftOne_ok (by omega)]
    exact ⟨_, rfl, { hs with codeSize := ⟨Nat.succ_pos _, by dsimp only; omega⟩ }, rfl, rfl⟩
  · exact ⟨s, rfl, hs, rfl, rfl⟩

theorem addEntry_ok {s : Decoder} (hs : Sound r s) :
    ∃ after, addEntry s = .ok after ∧ Sound r after ∧ after.bitPos = s.bitPos ∧
      s.availableCode ≤ after.availableCode ∧
      (s.availableCode < tableSize → s.oldCode ≠ noCode →
        s.availableCode < after.availableCode) := by
  rw [addEntry]
  split
  · next hadd =>
    have hentries := hs.entries
    have hlinked : Linked r ⟨Function.update s.tables.prefixes s.availableCode
          (UInt16.ofNat s.oldCode), Function.update s.tables.suffixes s.availableCode s.firstChar⟩
        (s.availableCode + 1) := by
      intro k hlow hhigh hsmall
      rcases Nat.lt_or_eq_of_le (Nat.le_of_lt_succ hhigh) with hlt | rfl
      · dsimp only
        rw [Function.update_of_ne (Nat.ne_of_lt hlt)]
        exact hs.linked k hlow hlt hsmall
      · dsimp only
        rw [Function.update_self, UInt16.toNat_ofNat_of_lt' hs.oldSmall]
        exact hs.old
    rw [Tables.put, if_pos hadd.1, ok_bind]
    obtain ⟨after, hgrow, hsound, havailable, hpos⟩ := growCodeSize_ok
      (s := { s with
        tables := ⟨Function.update s.tables.prefixes s.availableCode (UInt16.ofNat s.oldCode),
          Function.update s.tables.suffixes s.availableCode s.firstChar⟩
        availableCode := s.availableCode + 1 })
      { hs with
        entries := Nat.lt_succ_of_lt hentries
        linked := hlinked
        old := hs.old.mono (Nat.le_succ _) }
    refine ⟨after, hgrow, hsound, hpos, ?_, fun _ _ => ?_⟩
    · rw [havailable]
      exact Nat.le_succ _
    · rw [havailable]
      exact Nat.lt_succ_self _
  · next hkeep =>
    exact ⟨s, rfl, hs, rfl, Nat.le_refl _, fun hsmall hold => absurd ⟨hsmall, hold⟩ hkeep⟩

theorem resolveCode_ok {s : Decoder} {code : Nat} (hs : Sound r s) (hempty : s.pixelStack = [])
    (hclear : code ≠ r.clearCode) (heoi : code ≠ r.eoiCode) :
    ∃ first stack, resolveCode s code = .ok (first, stack) ∧ stack.length ≤ 1 ∧
      Chained r s.availableCode first := by
  rw [resolveCode, hempty]
  split
  · rw [push_ok (by decide), ok_bind]
    exact ⟨_, _, rfl, Nat.le_refl _, hs.old⟩
  · next hlow =>
    exact ⟨_, _, rfl, Nat.zero_le _, .inr ⟨Nat.lt_of_not_le hlow, hclear, heoi⟩⟩

theorem pushFirst_ok {s : Decoder} {code : Nat} {stack : Bytes} (h : stack.length < stackSize) :
    ∃ firstChar after, pushFirst s code stack = .ok (firstChar, after) := by
  rw [pushFirst]
  split
  · rw [push_ok h, ok_bind]
    exact ⟨_, _, rfl⟩
  · exact ⟨_, _, rfl⟩

theorem chained_of_known {s after : Decoder} {code : Nat} (hknown : Known s code)
    (hclear : code ≠ r.clearCode)
    (heoi : code ≠ r.eoiCode) (hle : s.availableCode ≤ after.availableCode)
    (hlt : s.availableCode < tableSize → s.oldCode ≠ noCode →
      s.availableCode < after.availableCode) : Chained r after.availableCode code := by
  rcases hknown with hlow | ⟨rfl, hold⟩
  · exact .inr ⟨hlow.trans_le hle, hclear, heoi⟩
  · by_cases hfull : tableSize ≤ s.availableCode
    · exact .inl hfull
    · exact .inr ⟨hlt (Nat.lt_of_not_le hfull) hold, hclear, heoi⟩

theorem emitCode_ok {s : Decoder} {code : Nat} (hr : SetUp r) (hs : Sound r s)
    (hempty : s.pixelStack = []) (hknown : Known s code) (hsmall : code < 2 ^ 16)
    (hclear : code ≠ r.clearCode) (heoi : code ≠ r.eoiCode) :
    ∃ after, emitCode r s code = .ok after ∧ Sound r after ∧ after.bitPos = s.bitPos := by
  obtain ⟨first, stack, hresolve, hstack, hchained⟩ := resolveCode_ok hs hempty hclear heoi
  have hpos := clearCode_pos hr
  have hlinks : first < tableSize → first - r.eoiCode ≤ tableSize - 3 := by
    intro hlt
    rw [Raster.eoiCode]
    unfold tableSize at hlt ⊢
    omega
  obtain ⟨last, unwound, hunwind, hlength⟩ :=
    @unwind_ok r _ _ (stackSize - stack.length) _ _ stack hs.linked hchained hlinks (by
      unfold tableSize stackSize
      omega)
  obtain ⟨firstChar, pushed, hpush⟩ := @pushFirst_ok s last unwound (by
    unfold tableSize at hlength
    unfold stackSize
    omega)
  have hfirst : Sound r { s with firstChar := firstChar } := { hs with }
  obtain ⟨grown, hadd, hsound, hbit, hle, hlt⟩ := addEntry_ok hfirst
  rw [emitCode, hresolve]
  simp only [ok_bind, hunwind, hpush, hadd]
  refine ⟨_, rfl, ?_, hbit⟩
  exact
    { hsound with
      old := chained_of_known hknown hclear heoi hle hlt
      oldSmall := hsmall
      stack := length_popPixels }

theorem clearTables_ok {s : Decoder} (hr : SetUp r) (hs : Sound r s) :
    ∃ after, clearTables r s = .ok after ∧ Sound r after ∧ after.bitPos = s.bitPos := by
  have hsize := hr.size
  rw [clearTables, shiftOne_ok (by omega)]
  refine ⟨_, rfl, ?_, rfl⟩
  exact
    { hs with
      codeSize := ⟨Nat.succ_pos _, by dsimp only; omega⟩
      entries := Nat.lt_succ_self _
      linked := fun k hlow hhigh => by dsimp only at hhigh; omega
      old := .inl noCode_large
      oldSmall := noCode_small }

theorem decodeStep_ok {s : Decoder} (hr : SetUp r) (hs : Sound r s) (hfits : TurnFits r s) :
    (∃ after, decodeStep r s = .inl after ∧ Sound r after ∧
      s.bitPos < after.bitPos ∧ s.bitPos < 8 * r.lzwStream.length) ∨
    ∃ after, decodeStep r s = .inr (.ok after) := by
  rw [decodeStep]
  split
  · next hcode =>
    obtain ⟨code, hread, hlt⟩ := @readCode_ok r s hs.codeSize.2
    obtain ⟨hknown, hwrap⟩ := hfits hcode code hread
    have hsmall : code < 2 ^ 16 :=
      hlt.trans_le (Nat.pow_le_pow_right (by decide) (hs.codeSize.2.trans (by decide)))
    have hempty := hs.stack.resolve_right (Nat.not_le_of_lt hcode.1)
    have hpos : u32 (s.bitPos + s.codeSize) = s.bitPos + s.codeSize := u32_of_lt hwrap
    have hone := hs.codeSize.1
    have hstream := hcode.2
    have hread' : Sound r { s with bitPos := u32 (s.bitPos + s.codeSize) } := { hs with }
    rw [decodeCode, hread, ok_bind]
    by_cases hclear : code = r.clearCode
    · obtain ⟨after, hafter, hsound, hbit⟩ := clearTables_ok hr hread'
      simp only [if_pos hclear, hafter]
      have hbit' : after.bitPos = s.bitPos + s.codeSize := hbit.trans hpos
      exact .inl ⟨after, rfl, hsound, by omega, by omega⟩
    · by_cases heoi : code = r.eoiCode
      · simp only [if_neg hclear, if_pos heoi]
        exact .inr ⟨_, rfl⟩
      · obtain ⟨after, hafter, hsound, hbit⟩ :=
          emitCode_ok hr hread' hempty hknown hsmall hclear heoi
        simp only [if_neg hclear, if_neg heoi, hafter]
        have hbit' : after.bitPos = s.bitPos + s.codeSize := hbit.trans hpos
        exact .inl ⟨after, rfl, hsound, by omega, by omega⟩
  · exact .inr ⟨s, rfl⟩

end Turns

/-! ## A whole raster -/

theorem fillTables_literal {clearCode : Nat} {garbage : Tables} (h : clearCode ≤ tableSize) :
    ∃ tables, fillTables clearCode garbage = .ok tables ∧
      ∀ k, k < clearCode → tables.suffixes k = UInt8.ofNat k := by
  have hput : ∀ i (t : Tables), 0 ≤ i → i < 0 + clearCode →
      (∀ k, k < i → t.suffixes k = UInt8.ofNat k) →
      ∃ t', t.put i 0 (UInt8.ofNat i) = .ok t' ∧
        ∀ k, k < i + 1 → t'.suffixes k = UInt8.ofNat k := by
    intro i t _ hi ht
    refine ⟨_, if_pos (by omega), ?_⟩
    intro k hk
    rcases Nat.lt_or_eq_of_le (Nat.le_of_lt_succ hk) with hlt | rfl
    · exact (Function.update_of_ne (Nat.ne_of_lt hlt) ..).trans (ht k hlt)
    · exact Function.update_self ..
  have hnone : ∀ k, k < 0 → garbage.suffixes k = UInt8.ofNat k :=
    fun k hk => absurd hk k.not_lt_zero
  obtain ⟨tables, hfill, htables⟩ := loop_invariant hnone hput
  rw [Nat.zero_add] at htables
  exact ⟨tables, hfill, htables⟩

theorem fillTables_ok_iff {clearCode : Nat} {garbage : Tables} :
    (∃ tables, fillTables clearCode garbage = .ok tables) ↔ clearCode ≤ tableSize := by
  constructor
  · rintro ⟨tables, hfill⟩
    by_contra hlarge
    obtain ⟨t, t', -, hput⟩ := turn_ok_of_loop (P := fun _ => True) trivial
      (fun _ _ _ _ _ => trivial) hfill (Nat.zero_le tableSize) (by omega)
    rw [Tables.put, if_neg (Nat.lt_irrefl _)] at hput
    cases hput
  · intro hle
    obtain ⟨tables, hfill, -⟩ := fillTables_literal hle
    exact ⟨tables, hfill⟩

section Rasters

variable {raster : Nat → UInt8} {width height : Nat} {garbage : Tables}

theorem startDecoder_ok (hsize : (raster 0).toNat ≤ 12) :
    ∃ r s, startDecoder raster width height garbage = .ok (r, s) ∧ SetUp r ∧ Sound r s := by
  have hclear : 2 ^ (raster 0).toNat ≤ tableSize :=
    Nat.pow_le_pow_right (by decide) hsize
  obtain ⟨tables, hfill⟩ := (@fillTables_ok_iff _ garbage).mpr hclear
  rw [startDecoder, openRaster, shiftOne_ok (by omega)]
  simp only [ok_bind]
  rw [initialDecoder, shiftOne_ok (by dsimp only; omega)]
  simp only [ok_bind, hfill]
  refine ⟨_, _, rfl, ⟨hsize, rfl⟩, ?_⟩
  exact
    { codeSize := ⟨Nat.succ_pos _, by dsimp only; omega⟩
      entries := Nat.lt_succ_self _
      linked := fun k hlow hhigh => by dsimp only at hhigh; omega
      old := .inl noCode_large
      oldSmall := noCode_small
      stack := .inl rfl }

theorem size_of_startDecoder {r : Raster} {s : Decoder}
    (h : startDecoder raster width height garbage = .ok (r, s)) : (raster 0).toNat ≤ 12 := by
  obtain ⟨r', hopen, h⟩ := bind_ok h
  obtain ⟨s', hinit, h⟩ := bind_ok h
  obtain ⟨clearCode, hshift, hopen⟩ := bind_ok hopen
  obtain ⟨maxCode, hshift', hinit⟩ := bind_ok hinit
  obtain ⟨tables, hfill, hinit⟩ := bind_ok hinit
  cases hopen
  have hle := fillTables_ok_iff.mp ⟨tables, hfill⟩
  rw [shiftOne] at hshift
  split at hshift
  · cases hshift
    by_contra hlarge
    have hpow := Nat.pow_le_pow_right (show 0 < 2 by decide) (Nat.lt_of_not_le hlarge)
    exact absurd (hpow.trans hle) (by decide)
  · cases hshift

theorem startDecoder_of_decodeIndices {fuel : Nat} {indices : Bytes}
    (h : decodeIndices raster width height garbage fuel = some (.ok indices)) :
    ∃ r s, startDecoder raster width height garbage = .ok (r, s) := by
  rw [decodeIndices] at h
  cases hstart : startDecoder raster width height garbage with
  | error fault =>
      rw [hstart] at h
      cases h
  | ok started => exact ⟨started.1, started.2, rfl⟩

/--
Where every turn of the decoding reads a known code and keeps its bit position from
wrapping, the decoder is safe exactly when there is room for the single pixels in
the table and the size of the stream does not wrap.
-/
theorem decodesSafely_iff
    (hfits : ∀ r s₀, startDecoder raster width height garbage = .ok (r, s₀) →
      ∀ s, Trail (decodeStep r) s₀ s → TurnFits r s) :
    DecodesSafely raster width height garbage ↔
      (raster 0).toNat ≤ 12 ∧ width * height < 2 ^ 31 := by
  constructor
  · rintro ⟨-, hbytes, fuel, indices, hdecode⟩
    obtain ⟨r, s, hstart⟩ := startDecoder_of_decodeIndices hdecode
    exact ⟨size_of_startDecoder hstart, by omega⟩
  · rintro ⟨hsize, hpixels⟩
    obtain ⟨r, s₀, hstart, hr, hs⟩ := @startDecoder_ok raster width height garbage hsize
    have hturn : ∀ s, Sound r s ∧ Trail (decodeStep r) s₀ s →
        (∃ s', decodeStep r s = .inl s' ∧ (Sound r s' ∧ Trail (decodeStep r) s₀ s') ∧
          8 * r.lzwStream.length - s'.bitPos < 8 * r.lzwStream.length - s.bitPos) ∨
        ∃ result, decodeStep r s = .inr result ∧ ∃ after, result = .ok after := by
      rintro s ⟨hsound, htrail⟩
      rcases decodeStep_ok hr hsound (hfits r s₀ hstart s htrail) with
        ⟨after, hmove, hsound', hlater, hinside⟩ | ⟨after, hend⟩
      · exact .inl ⟨after, hmove, ⟨hsound', htrail.tail hmove⟩, by omega⟩
      · exact .inr ⟨_, hend, after, rfl⟩
    obtain ⟨fuel, result, hfollow, after, rfl⟩ := ends_of_measure _ hturn ⟨hs, .refl⟩
    refine ⟨by omega, by omega, fuel, padTo r.totalPixels after.indices, ?_⟩
    rw [decodeIndices, hstart]
    simp only [hfollow]
    rfl

end Rasters

/-- A raster of code size 2: a single pixel, the end of information, and padding. -/
def sampleRaster : Nat → UInt8 := fun i => [2, 4, 41, 0, 0, 0, 0].getD i 0

theorem decodesSafely_sampleRaster :
    DecodesSafely sampleRaster 2 1 blankTables ↔
      (sampleRaster 0).toNat ≤ 12 ∧ 2 * 1 < 2 ^ 31 := by
  refine decodesSafely_iff fun r s₀ hstart s htrail => ?_
  obtain ⟨s₁, hfirst, hcode₀, hcode₁, hend, hfits₀, hfits₁⟩ : ∃ s₁,
      decodeStep r s₀ = .inl s₁ ∧ readCode r s₀ = .ok 1 ∧ readCode r s₁ = .ok 5 ∧
        (∃ result, decodeStep r s₁ = .inr result) ∧
        (1 < s₀.availableCode ∧ s₀.bitPos + s₀.codeSize < 2 ^ 32) ∧
        5 < s₁.availableCode ∧ s₁.bitPos + s₁.codeSize < 2 ^ 32 := by
    cases hstart
    exact ⟨_, rfl, rfl, rfl, ⟨_, rfl⟩, by decide, by decide⟩
  obtain ⟨result, hend⟩ := hend
  have hreached : s = s₀ ∨ s = s₁ := by
    rcases Relation.ReflTransGen.cases_head htrail with rfl | ⟨mid, hmove, hrest⟩
    · exact .inl rfl
    · rw [Moves, hfirst] at hmove
      cases hmove
      rcases Relation.ReflTransGen.cases_head hrest with rfl | ⟨next, hmove, -⟩
      · exact .inr rfl
      · rw [Moves, hend] at hmove
        cases hmove
  intro _ code hcode
  rcases hreached with rfl | rfl
  · rw [hcode₀] at hcode
    cases hcode
    exact ⟨.inl hfits₀.1, hfits₀.2⟩
  · rw [hcode₁] at hcode
    cases hcode
    exact ⟨.inl hfits₁.1, hfits₁.2⟩

/-- A raster with a code size of 13 and no data. -/
def wideRaster : Nat → UInt8 := fun i => if i = 0 then 13 else 0

/-- The literals of that code size are filled in past the end of the table. -/
theorem not_decodesSafely_wideRaster : ¬ DecodesSafely wideRaster 1 1 blankTables := by
  rintro ⟨-, -, fuel, indices, hdecode⟩
  obtain ⟨r, s, hstart⟩ := startDecoder_of_decodeIndices hdecode
  exact absurd (size_of_startDecoder hstart) (by decide)

end BlockyOS.Boot.Gif
