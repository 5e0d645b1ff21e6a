import BlockyOS.Foundation.Decimals
import BlockyOS.Foundation.SignedWords

/-!
# Parsing decimal numerals

The digit loops store into accumulators of their own widths, which wrap.  The last
negation wraps as well, so that the smallest number comes out of a result that is
its own negative.
-/

namespace BlockyOS.Libcrt

open BlockyOS.Foundation

/-! ## The functions -/

def isdigit (c : UInt8) : Bool := 0x30 ≤ c && c ≤ 0x39

def digitLoop (bits : Nat) : Int → Bytes → Int
  | out, [] => out
  | out, c :: rest =>
      if isdigit c then digitLoop bits (narrow bits (out * 10 + (c.toNat - 0x30))) rest else out

def tobyte (str : Bytes) : Int := digitLoop 8 0 str

def parseSigned (bits : Nat) (str : Bytes) : Int :=
  if str.head? = some 0x2D then -digitLoop bits 0 str.tail else digitLoop bits 0 str

def toword (str : Bytes) : Int := narrow 16 (parseSigned 16 str)

/-- `tolong`, whose accumulator is a `long` of the compiler. -/
def tolong (longBits : Nat) (str : Bytes) : Int :=
  narrow 32 (narrow longBits (parseSigned longBits str))

def tolonglong (str : Bytes) : Int := narrow 64 (parseSigned 64 str)

/-! ## The digits -/

/-- The string is empty or starts with something else than a digit. -/
def Stops (rest : Bytes) : Prop := ∀ c, rest.head? = some c → isdigit c = false

variable {rest : Bytes} {bits : Nat}

theorem digitLoop_eq {digits : Bytes} (hdigits : ∀ c ∈ digits, isdigit c = true)
    (hrest : Stops rest) (a : Int) :
    digitLoop bits (narrow bits a) (digits ++ rest) = narrow bits (valueFrom a digits) := by
  induction digits generalizing a with
  | nil =>
      cases rest with
      | nil => rfl
      | cons c rest =>
          have hc := hrest c rfl
          rw [List.nil_append, digitLoop, if_neg (by rw [hc]; decide)]
          rfl
  | cons c digits ih =>
      have hwrap : narrow bits (narrow bits a * 10 + (c.toNat - 0x30)) =
          narrow bits (a * 10 + (c.toNat - 0x30)) := by
        rw [narrow, narrow, ← Int.bmod_add_bmod, Int.bmod_mul_bmod, Int.bmod_add_bmod]
        rfl
      rw [List.cons_append, digitLoop, if_pos (hdigits c (List.mem_cons_self ..)), hwrap,
        ih fun c hc => hdigits c (List.mem_cons_of_mem _ hc)]
      rfl

theorem digitLoop_decimal (hrest : Stops rest) (n : Nat) :
    digitLoop bits 0 (decimal n ++ rest) = narrow bits n := by
  have hall := @digitLoop_eq rest bits (decimal n) (fun c hc => isDigit_of_mem_decimal hc) hrest 0
  rwa [narrow, Int.zero_bmod, valueFrom_decimal] at hall

theorem narrow_parseSigned (hrest : Stops rest) (v : Int) :
    narrow bits (parseSigned bits (numeral v ++ rest)) = narrow bits v := by
  rw [numeral]
  split
  · next hneg =>
      have hv : 0 - (v.natAbs : Int) = v := by omega
      rw [parseSigned, List.cons_append, List.head?_cons, if_pos rfl, List.tail_cons,
        digitLoop_decimal hrest, narrow, narrow, ← Int.zero_sub, Int.sub_bmod_bmod, hv]
      rfl
  · next hnonneg =>
      have hv : (v.natAbs : Int) = v := by omega
      have hhead : (decimal v.natAbs ++ rest).head? ≠ some 0x2D := by
        obtain ⟨c, digits, hdigits⟩ := List.exists_cons_of_ne_nil (decimal_ne_nil v.natAbs)
        have hc : isDigit c = true := @isDigit_of_mem_decimal v.natAbs c (by simp [hdigits])
        rw [hdigits, List.cons_append, List.head?_cons]
        rintro ⟨⟩
        exact absurd hc (by decide)
      rw [parseSigned, if_neg hhead, digitLoop_decimal hrest, hv, narrow, narrow, Int.bmod_bmod]

/-! ## The parsers -/

theorem tobyte_numeral (hrest : Stops rest) {v : Int} (hnonneg : 0 ≤ v) (hhigh : v < 2 ^ 7) :
    tobyte (numeral v ++ rest) = v := by
  have hv : (v.natAbs : Int) = v := by omega
  rw [tobyte, numeral, if_neg (by omega), digitLoop_decimal hrest, hv]
  exact narrow_of_fits (by omega) hhigh

theorem toword_numeral (hrest : Stops rest) {v : Int} (hlow : -2 ^ 15 ≤ v) (hhigh : v < 2 ^ 15) :
    toword (numeral v ++ rest) = v :=
  (narrow_parseSigned hrest v).trans (narrow_of_fits hlow hhigh)

theorem tolong_numeral {longBits : Nat} (hlong : 32 ≤ longBits) (hrest : Stops rest) {v : Int}
    (hlow : -2 ^ 31 ≤ v) (hhigh : v < 2 ^ 31) : tolong longBits (numeral v ++ rest) = v := by
  have hdvd : 2 ^ 32 ∣ 2 ^ longBits := Nat.pow_dvd_pow 2 hlong
  rw [tolong, narrow_parseSigned hrest, narrow, narrow, Int.bmod_bmod_of_dvd hdvd]
  exact narrow_of_fits hlow hhigh

theorem tolonglong_numeral (hrest : Stops rest) {v : Int} (hlow : -2 ^ 63 ≤ v)
    (hhigh : v < 2 ^ 63) : tolonglong (numeral v ++ rest) = v :=
  (narrow_parseSigned hrest v).trans (narrow_of_fits hlow hhigh)

/-- Each parser gives back every number of its type from its numeral, whatever stands
behind the digits. -/
theorem decimalParsing_correct {longBits : Nat} (hlong : 32 ≤ longBits) (hrest : Stops rest)
    (v : Int) :
    (-2 ^ 15 ≤ v → v < 2 ^ 15 → toword (numeral v ++ rest) = v) ∧
    (-2 ^ 31 ≤ v → v < 2 ^ 31 → tolong longBits (numeral v ++ rest) = v) ∧
    (-2 ^ 63 ≤ v → v < 2 ^ 63 → tolonglong (numeral v ++ rest) = v) ∧
    (0 ≤ v → v < 128 → tobyte (numeral v ++ rest) = v) :=
  ⟨toword_numeral hrest, tolong_numeral hlong hrest, tolonglong_numeral hrest,
    tobyte_numeral hrest⟩

/-- The smallest words of both widths, in front of a unit and at the end. -/
theorem decimalParsing_sample :
    toword (numeral (-32768) ++ [0x6B, 0x42]) = -32768 ∧
    tolong 64 (numeral (-2147483648) ++ []) = -2147483648 ∧
    tobyte (numeral 127 ++ [0x2D, 0x31]) = 127 :=
  ⟨(@decimalParsing_correct [0x6B, 0x42] 64 (by decide) (fun c hc => by cases hc; rfl) _).1
      (by decide) (by decide),
    (@decimalParsing_correct [] 64 (by decide) (fun c hc => by cases hc) _).2.1
      (by decide) (by decide),
    (@decimalParsing_correct [0x2D, 0x31] 64 (by decide) (fun c hc => by cases hc; rfl) _).2.2.2
      (by decide) (by decide)⟩

end BlockyOS.Libcrt
