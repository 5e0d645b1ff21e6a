import BlockyOS.Libcrt.BoundedText

/-!
# Formatted integers

A negative number is negated in the type its argument is promoted to.  Types narrower
than `int` have room for the magnitude of their minimum, and that of 64 bits is right
again as an unsigned number; only the minimum of 32 bits is widened with its sign.
-/

namespace BlockyOS.Libcrt

open BlockyOS.Foundation
open BlockyOS.HostTool (CString)

/-! ## The integer directives -/

inductive IntegerType where
  | UInteger8 | UInteger16 | UInteger32 | UInteger64
  | Integer8 | Integer16 | Integer32 | Integer64
  deriving DecidableEq

namespace IntegerType

def directive : IntegerType → UInt8
  | UInteger8 => FormatUInteger8
  | UInteger16 => FormatUInteger16
  | UInteger32 => FormatUInteger32
  | UInteger64 => FormatUInteger64
  | Integer8 => FormatInteger8
  | Integer16 => FormatInteger16
  | Integer32 => FormatInteger32
  | Integer64 => FormatInteger64

def Holds : IntegerType → Int → Prop
  | UInteger8, v => 0 ≤ v ∧ v < 2 ^ 8
  | UInteger16, v => 0 ≤ v ∧ v < 2 ^ 16
  | UInteger32, v => 0 ≤ v ∧ v < 2 ^ 32
  | UInteger64, v => 0 ≤ v ∧ v < 2 ^ 64
  | Integer8, v => -2 ^ 7 ≤ v ∧ v < 2 ^ 7
  | Integer16, v => -2 ^ 15 ≤ v ∧ v < 2 ^ 15
  | Integer32, v => -2 ^ 31 ≤ v ∧ v < 2 ^ 31
  | Integer64, v => -2 ^ 63 ≤ v ∧ v < 2 ^ 63

def arg (v : Int) : IntegerType → Arg
  | UInteger64 | Integer64 => .quad (UInt64.ofNat (widen v))
  | _ => .word (UInt32.ofNat (widen v))

/-- The format that consists of the directive. -/
def format (type : IntegerType) : CString where
  bytes := [FormatStart, type.directive]
  terminated := by cases type <;> decide
  fits := by cases type <;> decide

end IntegerType

/-! ## Digits -/

theorem sample_digit {d : Nat} (h : d < 10) : sample.getD d 0 = digitByte d := by
  have hall : ∀ d < 10, sample.getD d 0 = digitByte d := by decide
  exact hall d h

theorem numDigits_eq {places value : Nat} (h : value < 10 ^ places) :
    numDigits 10 places value = (Nat.digits 10 value).map digitByte := by
  induction places generalizing value with
  | zero =>
      obtain rfl : value = 0 := by omega
      rfl
  | succ places ih =>
      rw [numDigits]
      split
      · next hpos =>
          have hrest : value / 10 < 10 ^ places := by
            rw [Nat.pow_succ] at h
            omega
          rw [sample_digit (Nat.mod_lt _ (by decide)), ih hrest,
            Nat.digits_def' (by decide) hpos, List.map_cons]
      · next hzero =>
          obtain rfl : value = 0 := by omega
          rfl

theorem reverse_numBuf {negative : Bool} {value : Nat} (h : value < 2 ^ 64) :
    (numBuf negative value).reverse = (if negative then [0x2D] else []) ++ decimal value := by
  have hplaces : value < 10 ^ 70 := Nat.lt_trans h (by norm_num)
  have hsign : (if negative then chars "-" else []).reverse =
      if negative then [0x2D] else [] := by
    cases negative <;> rfl
  have hdigits : (if value = 0 then chars "0" else numDigits 10 70 value).reverse =
      decimal value := by
    rw [decimal, numDigits_eq hplaces]
    split <;> rfl
  rw [numBuf, List.reverse_append, hsign, hdigits]

theorem length_numDigits_le (base places value : Nat) :
    (numDigits base places value).length ≤ places := by
  induction places generalizing value with
  | zero => exact Nat.le_refl 0
  | succ places ih =>
      rw [numDigits]
      split
      · rw [List.length_cons]
        exact Nat.succ_le_succ (ih _)
      · exact Nat.zero_le _

theorem length_numBuf_le (negative : Bool) (value : Nat) : (numBuf negative value).length ≤ 71 := by
  have hdigits : (if value = 0 then chars "0" else numDigits 10 70 value).length ≤ 70 := by
    split
    · decide
    · exact length_numDigits_le _ _ _
  have hsign : (if negative then chars "-" else []).length ≤ 1 := by
    cases negative <;> decide
  rw [numBuf, List.length_append]
  omega

theorem widen_of_fits {x : Int} (hnonneg : 0 ≤ x) (hlt : x < 2 ^ 64) : widen x = x.toNat := by
  rw [widen, Int.emod_eq_of_lt hnonneg hlt]

theorem narrow_widen {bits width : Nat} (hbits : bits ≤ width) (hwidth : width ≤ 64) (v : Int) :
    narrow bits ((widen v % 2 ^ width : Nat) : Int) = narrow bits v := by
  have hcast : ((widen v % 2 ^ width : Nat) : Int) = v % 2 ^ 64 % 2 ^ width := by
    rw [widen]
    push_cast
    rw [Int.toNat_of_nonneg (Int.emod_nonneg v (by decide))]
  have hwide : (2 ^ bits : Int) ∣ 2 ^ 64 := pow_dvd_pow 2 (Nat.le_trans hbits hwidth)
  have hword : (2 ^ bits : Int) ∣ 2 ^ width := pow_dvd_pow 2 hbits
  have hmod : ((widen v % 2 ^ width : Nat) : Int) % ((2 ^ bits : Nat) : Int) =
      v % ((2 ^ bits : Nat) : Int) := by
    rw [hcast, Nat.cast_pow, Nat.cast_ofNat, Int.emod_emod_of_dvd _ hword,
      Int.emod_emod_of_dvd _ hwide]
  rw [narrow, narrow, ← Int.emod_bmod, hmod, Int.emod_bmod]

/-! ## The text of an integer -/

section Texts

variable {v : Int}

theorem number_text (hlow : 0 ≤ v) (hhigh : v < 2 ^ 64) :
    (Piece.number false v.toNat).text = numeral v := by
  have hv : v.toNat = v.natAbs := by omega
  rw [Piece.text, reverse_numBuf (by omega), numeral, if_neg (Int.not_lt.mpr hlow), hv]
  rfl

theorem signedPiece_text {bits promoted value : Nat} (hvalue : narrow bits value = v)
    (hlow : -2 ^ 63 ≤ v) (hhigh : v < 2 ^ 63) :
    (signedPiece bits promoted value).text =
      if v < 0 then 0x2D :: decimal (widen (narrow promoted (-v))) else numeral v := by
  have hwiden : ∀ x, widen x < 2 ^ 64 := fun x => by
    rw [widen]
    omega
  rw [signedPiece, hvalue]
  split
  · next hneg =>
      rw [Piece.text, reverse_numBuf (hwiden _)]
      rfl
  · next hnonneg =>
      rw [widen_of_fits (by omega) (by omega)]
      exact number_text (by omega) (by omega)

theorem signedPiece_text_of_fits {bits promoted value : Nat} (hvalue : narrow bits value = v)
    (hlow : -2 ^ 63 ≤ v) (hhigh : v < 2 ^ 63) (hneg : -v < 2 ^ promoted) :
    (signedPiece bits (promoted + 1) value).text = numeral v := by
  rw [signedPiece_text hvalue hlow hhigh, numeral]
  split
  · next hlt =>
      have hpos : 0 ≤ (2 : Int) ^ promoted := pow_nonneg (by decide) _
      have hv : (-v).toNat = v.natAbs := by omega
      rw [narrow_of_fits (by omega) hneg, widen_of_fits (by omega) (by omega), hv]
  · rfl

theorem signedPiece_text_quad {value : Nat} (hvalue : narrow 64 value = v) (hlow : -2 ^ 63 ≤ v)
    (hhigh : v < 2 ^ 63) : (signedPiece 64 64 value).text = numeral v := by
  rw [signedPiece_text hvalue hlow hhigh, numeral]
  split
  · next hlt =>
      have hv : (-v).toNat = v.natAbs := by omega
      have hwiden : widen (narrow 64 (-v)) = widen (-v) := by
        rw [widen, widen, narrow]
        exact congrArg Int.toNat Int.bmod_emod
      rw [hwiden, widen_of_fits (by omega) (by omega), hv]
  · rfl

end Texts

def IntegerType.piece (v : Int) : IntegerType → Piece
  | UInteger8 => .number false (widen v % 2 ^ 32 % 2 ^ 8)
  | UInteger16 => .number false (widen v % 2 ^ 32 % 2 ^ 16)
  | UInteger32 => .number false (widen v % 2 ^ 32)
  | UInteger64 => .number false (widen v % 2 ^ 64)
  | Integer8 => signedPiece 8 32 (widen v % 2 ^ 32)
  | Integer16 => signedPiece 16 32 (widen v % 2 ^ 32)
  | Integer32 => signedPiece 32 32 (widen v % 2 ^ 32)
  | Integer64 => signedPiece 64 64 (widen v % 2 ^ 64)

theorem convert_integer (type : IntegerType) (v : Int) (ls : List Arg) :
    convert type.directive (type.arg v :: ls) = some (type.piece v, ls) := by
  cases type <;> rfl

theorem length_integer_text_le (type : IntegerType) (v : Int) :
    (type.piece v).text.length ≤ 71 := by
  have hsigned : ∀ bits promoted value : Nat, ∃ negative magnitude,
      signedPiece bits promoted value = .number negative magnitude := by
    intro bits promoted value
    rw [signedPiece]
    split
    · exact ⟨_, _, rfl⟩
    · exact ⟨_, _, rfl⟩
  have hnumber : ∃ negative value, type.piece v = .number negative value := by
    cases type with
    | UInteger8 | UInteger16 | UInteger32 | UInteger64 => exact ⟨_, _, rfl⟩
    | Integer8 | Integer16 | Integer32 | Integer64 =>
        rw [IntegerType.piece]
        exact hsigned _ _ _
  obtain ⟨negative, value, hpiece⟩ := hnumber
  rw [hpiece, Piece.text, List.length_reverse]
  exact length_numBuf_le negative value

theorem integer32_piece_minimum :
    (IntegerType.Integer32.piece (-2 ^ 31)).text = chars "-18446744071562067968" := by
  decide

theorem integer_piece_text (type : IntegerType) {v : Int} (hv : type.Holds v)
    (hmin : ¬ (type = .Integer32 ∧ v = -2 ^ 31)) : (type.piece v).text = numeral v := by
  have hunsigned : ∀ {n : Nat}, 0 ≤ v → v < 2 ^ 64 → (widen v = v.toNat → n = v.toNat) →
      (Piece.number false n).text = numeral v := by
    intro n hlow hhigh hn
    rw [hn (widen_of_fits hlow hhigh)]
    exact number_text hlow hhigh
  have hvalue : ∀ {bits width : Nat}, bits + 1 ≤ width → width ≤ 64 → -2 ^ bits ≤ v →
      v < 2 ^ bits → narrow (bits + 1) ((widen v % 2 ^ width : Nat) : Int) = v :=
    fun hbits hwidth hlow hhigh =>
      (narrow_widen hbits hwidth v).trans (narrow_of_fits hlow hhigh)
  cases type with
  | UInteger8 | UInteger16 | UInteger32 | UInteger64 =>
      obtain ⟨hlow, hhigh⟩ := hv
      rw [IntegerType.piece]
      exact hunsigned hlow (by omega) fun hwiden => by omega
  | Integer8 | Integer16 =>
      obtain ⟨hlow, hhigh⟩ := hv
      rw [IntegerType.piece]
      exact signedPiece_text_of_fits (hvalue (by decide) (by decide) hlow hhigh) (by omega)
        (by omega) (by omega)
  | Integer32 =>
      obtain ⟨hlow, hhigh⟩ := hv
      rw [IntegerType.piece]
      have hne : v ≠ -2 ^ 31 := fun h => hmin ⟨rfl, h⟩
      exact signedPiece_text_of_fits (hvalue (by decide) (by decide) hlow hhigh) (by omega)
        (by omega) (by omega)
  | Integer64 =>
      obtain ⟨hlow, hhigh⟩ := hv
      rw [IntegerType.piece]
      exact signedPiece_text_quad (hvalue (by decide) (by decide) hlow hhigh) hlow hhigh

/-! ## A directive alone -/

section Alone

variable {format stream beyond : Memory} {size k k' fuel : Nat} {ls ls' : List Arg} {more : Bytes}

theorem follow_item (hitem : nextItem (indexed format) k ls = some (some (more, k', ls')))
    (hend : nextItem (indexed format) k' ls' = some none) (hshort : more.length < 2 ^ 32) :
    ∃ k'' ls'', follow (copyTurn format size) (fuel + 2) (shownState stream k [] ls) =
      some (.ok (shownState stream k'' (more.take (size - 1)) ls'')) := by
  by_cases hroom : size - 1 = 0
  · rw [hroom, List.take_zero]
    exact ⟨k, ls, follow_of_answer (copyTurn_full (by omega)) _⟩
  · have hturn : copyTurn format size (shownState stream k [] ls) =
        .inl (shownState stream k' (more.take (size - 1)) ls') := by
      have hfirst := @copyTurn_item format stream size k ls [] (Nat.pos_of_ne_zero hroom) (by
        intro more' k'' ls'' hitem'
        cases hitem.symm.trans hitem'
        rw [List.length_nil]
        omega)
      rw [hitem] at hfirst
      exact hfirst
    rw [follow_of_moves hturn]
    by_cases hfull : size - 1 ≤ (more.take (size - 1)).length
    · exact ⟨k', ls', follow_of_answer (copyTurn_full hfull) _⟩
    · have hlast := @copyTurn_item format stream size k' ls' (more.take (size - 1))
        (Nat.lt_of_not_le hfull) (by
          intro more' k'' ls'' hitem'
          cases hend.symm.trans hitem')
      rw [hend] at hlast
      exact ⟨_, ls', follow_of_answer hlast _⟩

theorem nextItem_integer (type : IntegerType) (v : Int) :
    nextItem (indexed (stringAt type.format beyond)) 0 [type.arg v] =
        some (some ((type.piece v).text, 2, [])) ∧
      nextItem (indexed (stringAt type.format beyond)) 2 [] = some none := by
  have hshows : ShowsFrom (indexed (stringAt type.format beyond)) 0
      [FormatStart, type.directive] :=
    showsFrom_indexed (f := type.format) (by change 2 < 2 ^ 32; decide)
  obtain ⟨hstart, hrest⟩ := hshows.tail
  obtain ⟨hdirective, hnil⟩ := hrest.tail
  have hne : type.directive ≠ 0 := by cases type <;> decide
  constructor
  · rw [nextItem, hstart, if_neg (by decide), if_pos rfl, hdirective, if_neg hne, convert_integer]
    rfl
  · rw [nextItem, if_pos hnil.nil]

theorem copyF_integer (type : IntegerType) (v : Int) (hpos : 1 ≤ size) :
    ∃ ls', copyF (stringAt type.format beyond) stream size 0 [type.arg v] =
      .ok ⟨writtenString stream ((type.piece v).text.take (size - 1)),
        ((type.piece v).text.take (size - 1)).length, 0, ls'⟩ := by
  have hshort : (type.piece v).text.length < 2 ^ 32 :=
    Nat.lt_of_le_of_lt (length_integer_text_le type v) (by decide)
  obtain ⟨hitem, hend⟩ := @nextItem_integer beyond type v
  obtain ⟨k, ls', hrun⟩ := @follow_item (stringAt type.format beyond) stream size 0 2 size _ _ _
    hitem hend hshort
  have hstate : (⟨0, 0, stream, [type.arg v]⟩ : Rendering) = shownState stream 0 [] [type.arg v] :=
    rfl
  have hfuel : [type.arg v].length + size + 1 = size + 2 := by
    rw [List.length_singleton]
    omega
  refine ⟨ls', ?_⟩
  rw [copyF, if_neg (by omega), stringAt_start, copyLoop, hstate, hfuel, hrun]
  rfl

theorem copiesText_integer_iff (type : IntegerType) (v : Int) {t : Bytes} (hpos : 1 ≤ size) :
    CopiesText copyF type.format beyond stream size [type.arg v] t ↔
      (type.piece v).text.take (size - 1) = t.take (size - 1) := by
  obtain ⟨ls', hcopy⟩ := @copyF_integer stream beyond size type v hpos
  rw [← @copiesPrefix_iff stream size t _ ls' hpos (List.length_take_le ..)]
  constructor
  · rintro ⟨out, hout, hcopies⟩
    cases hcopy.symm.trans hout
    exact hcopies
  · exact fun hcopies => ⟨_, hcopy, hcopies⟩

theorem not_copiesText_minimum (hspace : (numeral (-2 ^ 31)).length < size) :
    ¬ CopiesText copyF IntegerType.Integer32.format beyond stream size
      [IntegerType.Integer32.arg (-2 ^ 31)] (numeral (-2 ^ 31)) := by
  have hlength : (numeral (-2 ^ 31)).length = 11 := by simp [numeral, decimal]
  rw [copiesText_integer_iff _ _ (by omega), integer32_piece_minimum]
  intro h
  have hsecond := congrArg (·[1]?) h
  simp only [List.getElem?_take_of_lt (show 1 < size - 1 by omega)] at hsecond
  revert hsecond
  simp [numeral, decimal]
  decide

end Alone

/--
With enough space for the numeral both formatters render it, for every value of every
integer type, except for the minimum of 32 bits.
-/
theorem integerText_canonical_iff (type : IntegerType) {v : Int} (hv : type.Holds v)
    (stream beyond : Memory) {size : Nat} (hspace : (numeral v).length < size) :
    CopiesText SimpleCopyF type.format beyond stream size [type.arg v] (numeral v) ∧
        CopiesText TextCopyF type.format beyond stream size [type.arg v] (numeral v) ↔
      ¬ (type = .Integer32 ∧ v = -2 ^ 31) := by
  constructor
  · rintro ⟨hcopies, -⟩ ⟨rfl, rfl⟩
    exact not_copiesText_minimum hspace hcopies
  · intro hmin
    have hcopies : CopiesText copyF type.format beyond stream size [type.arg v] (numeral v) := by
      rw [copiesText_integer_iff type v (by omega), integer_piece_text type hv hmin]
    exact ⟨hcopies, hcopies⟩

/-- The minimum of 8 bits, with room for its zero and nothing else. -/
theorem integerText_canonical_sample :
    CopiesText SimpleCopyF IntegerType.Integer8.format (fun _ => 0) (fun _ => 1) 5
        [IntegerType.Integer8.arg (-128)] (numeral (-128)) ∧
      CopiesText TextCopyF IntegerType.Integer8.format (fun _ => 0) (fun _ => 1) 5
        [IntegerType.Integer8.arg (-128)] (numeral (-128)) :=
  (integerText_canonical_iff .Integer8 ⟨by decide, by decide⟩ (fun _ => 1) (fun _ => 0)
    (by simp [numeral, decimal])).mpr (by decide)

theorem not_integerText_minimum :
    IntegerType.Integer32.Holds (-2 ^ 31) ∧ (numeral (-2 ^ 31)).length < 64 ∧
      ¬ CopiesText SimpleCopyF IntegerType.Integer32.format (fun _ => 0) (fun _ => 0) 64
        [IntegerType.Integer32.arg (-2 ^ 31)] (numeral (-2 ^ 31)) := by
  have hspace : (numeral (-2 ^ 31)).length < 64 := by simp [numeral, decimal]
  exact ⟨⟨by decide, by decide⟩, hspace, not_copiesText_minimum hspace⟩

end BlockyOS.Libcrt
