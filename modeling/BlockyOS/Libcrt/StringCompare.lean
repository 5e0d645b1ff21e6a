import BlockyOS.Libcrt.Strings

/-!
# Comparing strings

`strcmpc` is a loop over both strings.  `strcmp` is a macro whose conditional stands
without parentheses, so that an operator in front of it applies to the first length
and one behind it to the call of `memcmp` only.
-/

namespace BlockyOS.Libcrt

open BlockyOS.Foundation
open BlockyOS.HostTool (CString)

/-! ## The function -/

/-- The loop of `strcmpc` over the characters and the terminators. -/
def strcmpcFrom : Bytes → Bytes → Int
  | a :: as, b :: bs => if a ≠ 0 ∧ a = b then strcmpcFrom as bs else a.toNat - b.toNat
  | _, _ => 0

def strcmpc (a b : CString) : Int := strcmpcFrom (a.bytes ++ [0]) (b.bytes ++ [0])

/-! ## The macro -/

inductive Comparison where
  | eq | ne | lt | le | gt | ge

/-- `x op y` in an order. -/
def Comparison.Holds {α : Type} [LT α] : Comparison → α → α → Prop
  | .eq, x, y => x = y
  | .ne, x, y => x ≠ y
  | .lt, x, y => x < y
  | .le, x, y => ¬ y < x
  | .gt, x, y => y < x
  | .ge, x, y => ¬ x < y

instance : ∀ (op : Comparison) (x y : Int), Decidable (op.Holds x y)
  | .eq, x, y => inferInstanceAs (Decidable (x = y))
  | .ne, x, y => inferInstanceAs (Decidable (x ≠ y))
  | .lt, x, y => inferInstanceAs (Decidable (x < y))
  | .le, x, y => inferInstanceAs (Decidable (¬ y < x))
  | .gt, x, y => inferInstanceAs (Decidable (y < x))
  | .ge, x, y => inferInstanceAs (Decidable (¬ x < y))

/-- Where the macro stands: on its own, behind `!`, and beside a comparison with 0. -/
inductive Use where
  | value
  | not
  | left (op : Comparison)
  | right (op : Comparison)

section Macro

variable (a b : CString) (beyond beyond' : Memory)

def strcmpOperand : Int :=
  memcmp (stringAt a beyond) (stringAt b beyond')
    (if strlen a < strlen b then strlen a else strlen b)

def strcmp : Use → Int
  | .value => if strlen a ≠ strlen b then 0 else strcmpOperand a b beyond beyond'
  | .not =>
      if (if strlen a = 0 then 1 else 0) ≠ strlen b then 0 else strcmpOperand a b beyond beyond'
  | .left op =>
      if strlen a ≠ strlen b then 0
      else if op.Holds (strcmpOperand a b beyond beyond') 0 then 1 else 0
  | .right op =>
      if (if op.Holds (0 : Int) (strlen a) then 1 else 0) ≠ strlen b then 0
      else strcmpOperand a b beyond beyond'

/--
The macro says what `strcmpc` says: it is zero for equal strings only, and its
negation and its comparisons with 0 are true where those of `strcmpc` are.
-/
def SaysAs : Use → Prop
  | .value => (strcmp a b beyond beyond' .value = 0 ↔ a.bytes = b.bytes) ∧
      (strcmpc a b = 0 ↔ a.bytes = b.bytes) ∧
      (strcmp a b beyond beyond' .value ≠ 0 → strcmpc a b ≠ 0 →
        (strcmp a b beyond beyond' .value < 0 ↔ strcmpc a b < 0))
  | .not => strcmp a b beyond beyond' .not ≠ 0 ↔ strcmpc a b = 0
  | .left op => strcmp a b beyond beyond' (.left op) ≠ 0 ↔ op.Holds (strcmpc a b) 0
  | .right op => strcmp a b beyond beyond' (.right op) ≠ 0 ↔ op.Holds 0 (strcmpc a b)

/-- Where the strings are such that the macro does, in the order of the strings. -/
def SaysRightly : Use → Prop
  | .value => a.bytes.length = b.bytes.length
  | .not => a.bytes ≠ b.bytes
  | .left op => a.bytes.length = b.bytes.length ∨ ¬ op.Holds a.bytes b.bytes
  | .right op => op.Holds b.bytes a.bytes ↔
      op.Holds (0 : Int) 1 ∧ ∃ c d rest, b.bytes = [c] ∧ a.bytes = d :: rest ∧ d ≠ c

end Macro

/-! ## The order of strings -/

def compareBytes : Bytes → Bytes → Int
  | [], [] => 0
  | [], b :: _ => -b.toNat
  | a :: _, [] => a.toNat
  | a :: as, b :: bs => if a = b then compareBytes as bs else a.toNat - b.toNat

theorem strcmpcFrom_eq {x y : Bytes} (hx : 0 ∉ x) (hy : 0 ∉ y) :
    strcmpcFrom (x ++ [0]) (y ++ [0]) = compareBytes x y := by
  induction x generalizing y with
  | nil =>
      cases y with
      | nil => rfl
      | cons b bs => simp [strcmpcFrom, compareBytes]
  | cons a as ih =>
      rw [List.mem_cons, not_or] at hx
      cases y with
      | nil => simp [strcmpcFrom, compareBytes, Ne.symm hx.1]
      | cons b bs =>
          rw [List.mem_cons, not_or] at hy
          have ha : a ≠ 0 := Ne.symm hx.1
          rw [List.cons_append, List.cons_append, strcmpcFrom, compareBytes, ih hx.2 hy.2]
          simp only [ha, ne_eq, not_false_eq_true, true_and]

theorem strcmpc_eq (a b : CString) : strcmpc a b = compareBytes a.bytes b.bytes :=
  strcmpcFrom_eq a.terminated b.terminated

theorem toNat_pos_of_ne {c : UInt8} (h : c ≠ 0) : 0 < c.toNat :=
  Nat.pos_of_ne_zero fun hzero => h (UInt8.toNat_inj.mp hzero)

theorem compareBytes_swap (x y : Bytes) : compareBytes y x = -compareBytes x y := by
  induction x generalizing y with
  | nil =>
      cases y with
      | nil => rfl
      | cons b bs => rw [compareBytes, compareBytes, Int.neg_neg]
  | cons a as ih =>
      cases y with
      | nil => rfl
      | cons b bs =>
          rw [compareBytes, compareBytes]
          by_cases heq : a = b
          · rw [if_pos heq, if_pos heq.symm, ih]
          · rw [if_neg heq, if_neg (Ne.symm heq), Int.neg_sub]

theorem compareBytes_eq_zero_iff {x y : Bytes} (hx : 0 ∉ x) (hy : 0 ∉ y) :
    compareBytes x y = 0 ↔ x = y := by
  induction x generalizing y with
  | nil =>
      cases y with
      | nil => exact iff_of_true rfl rfl
      | cons b bs =>
          have hb := toNat_pos_of_ne (Ne.symm (not_or.mp (List.mem_cons.not.mp hy)).1)
          exact iff_of_false (by rw [compareBytes]; omega) (List.cons_ne_nil b bs).symm
  | cons a as ih =>
      obtain ⟨ha, has⟩ := not_or.mp (List.mem_cons.not.mp hx)
      cases y with
      | nil =>
          have ha := toNat_pos_of_ne (Ne.symm ha)
          exact iff_of_false (by rw [compareBytes]; omega) (List.cons_ne_nil a as)
      | cons b bs =>
          obtain ⟨hb, hbs⟩ := not_or.mp (List.mem_cons.not.mp hy)
          rw [compareBytes, List.cons.injEq]
          by_cases heq : a = b
          · rw [if_pos heq, ih has hbs, and_iff_right heq]
          · have hne : a.toNat ≠ b.toNat := fun h => heq (UInt8.toNat_inj.mp h)
            rw [if_neg heq]
            exact iff_of_false (by omega) fun h => heq h.1

theorem compareBytes_neg_iff {x y : Bytes} (hx : 0 ∉ x) (hy : 0 ∉ y) :
    compareBytes x y < 0 ↔ x < y := by
  induction x generalizing y with
  | nil =>
      cases y with
      | nil => exact iff_of_false (Int.lt_irrefl 0) (List.not_lt_nil [])
      | cons b bs =>
          have hb := toNat_pos_of_ne (Ne.symm (not_or.mp (List.mem_cons.not.mp hy)).1)
          exact iff_of_true (by rw [compareBytes]; omega) (List.nil_lt_cons b bs)
  | cons a as ih =>
      obtain ⟨-, has⟩ := not_or.mp (List.mem_cons.not.mp hx)
      cases y with
      | nil => exact iff_of_false (by rw [compareBytes]; omega) (List.not_lt_nil _)
      | cons b bs =>
          obtain ⟨-, hbs⟩ := not_or.mp (List.mem_cons.not.mp hy)
          rw [compareBytes, List.cons_lt_cons_iff, UInt8.lt_iff_toNat_lt]
          by_cases heq : a = b
          · rw [if_pos heq, ih has hbs, heq]
            exact ⟨fun h => Or.inr ⟨rfl, h⟩, fun h => h.elim (absurd · (Nat.lt_irrefl _)) And.right⟩
          · rw [if_neg heq]
            exact ⟨fun h => Or.inl (by omega), fun h => h.elim (fun h => by omega)
              fun h => absurd h.1 heq⟩

theorem compareBytes_pos_iff {x y : Bytes} (hx : 0 ∉ x) (hy : 0 ∉ y) :
    0 < compareBytes x y ↔ y < x := by
  rw [← compareBytes_neg_iff hy hx, compareBytes_swap x y]
  omega

theorem holds_strcmpc_iff (a b : CString) (op : Comparison) :
    (op.Holds (strcmpc a b) 0 ↔ op.Holds a.bytes b.bytes) ∧
      (op.Holds 0 (strcmpc a b) ↔ op.Holds b.bytes a.bytes) := by
  have hzero := compareBytes_eq_zero_iff a.terminated b.terminated
  have hneg := compareBytes_neg_iff a.terminated b.terminated
  have hpos := compareBytes_pos_iff a.terminated b.terminated
  rw [strcmpc_eq]
  cases op with
  | eq => exact ⟨hzero, eq_comm.trans (hzero.trans eq_comm)⟩
  | ne => exact ⟨not_congr hzero, not_congr (eq_comm.trans (hzero.trans eq_comm))⟩
  | lt => exact ⟨hneg, hpos⟩
  | le => exact ⟨not_congr hpos, not_congr hneg⟩
  | gt => exact ⟨hpos, hneg⟩
  | ge => exact ⟨not_congr hneg, not_congr hpos⟩

/-! ## The operand of the macro -/

variable {a b : CString} {beyond beyond' : Memory}

theorem compareBytes_of_first {x y : Bytes} {i : Nat} (hx : i < x.length) (hy : i < y.length)
    (hne : x[i] ≠ y[i]) (hbefore : ∀ j, (hj : j < i) → x[j] = y[j]) :
    compareBytes x y = x[i].toNat - y[i].toNat := by
  induction x generalizing y i with
  | nil => exact absurd hx (Nat.not_lt_zero i)
  | cons a as ih =>
      cases y with
      | nil => exact absurd hy (Nat.not_lt_zero i)
      | cons b bs =>
          rw [compareBytes]
          cases i with
          | zero => exact if_neg hne
          | succ i =>
              have hhead : a = b := hbefore 0 (Nat.zero_lt_succ i)
              rw [if_pos hhead]
              exact ih (Nat.lt_of_succ_lt_succ hx) (Nat.lt_of_succ_lt_succ hy) hne
                fun j hj => hbefore (j + 1) (Nat.succ_lt_succ hj)

theorem strcmpOperand_of_length_eq (h : a.bytes.length = b.bytes.length) :
    strcmpOperand a b beyond beyond' = strcmpc a b := by
  rw [strcmpOperand, strlen_eq, strlen_eq, h, if_neg (Nat.lt_irrefl _), memcmp_eq_memcmpBytes,
    memcmpBytes, strcmpc_eq]
  cases hsearch : search (difference (stringAt a beyond) (stringAt b beyond')) b.bytes.length 0 with
  | none =>
      have hequal : a.bytes = b.bytes := by
        refine List.ext_getElem h fun k hka hkb => ?_
        have hk := difference_eq_none_iff.mp
          (search_eq_none_iff.mp hsearch k (Nat.zero_le k) (by omega))
        rwa [stringAt_of_lt hka, stringAt_of_lt hkb] at hk
      rw [Option.getD_none]
      exact ((compareBytes_eq_zero_iff a.terminated b.terminated).mpr hequal).symm
  | some d =>
      obtain ⟨k, -, hlt, hk, hfirst⟩ := search_eq_some hsearch
      have hkb : k < b.bytes.length := by omega
      have hka : k < a.bytes.length := by omega
      rw [difference, stringAt_of_lt hka, stringAt_of_lt hkb] at hk
      split at hk
      · next hne =>
          rw [Option.getD_some, compareBytes_of_first hka hkb hne ?_]
          · exact (Option.some.inj hk).symm
          · intro j hj
            have hequal := difference_eq_none_iff.mp (hfirst j (Nat.zero_le j) hj)
            rwa [stringAt_of_lt (by omega), stringAt_of_lt (by omega)] at hequal
      · cases hk

theorem strcmpOperand_of_nil (h : a.bytes = [] ∨ b.bytes = []) :
    strcmpOperand a b beyond beyond' = 0 := by
  have hlength : (if strlen a < strlen b then strlen a else strlen b) = 0 := by
    rw [strlen_eq, strlen_eq]
    rcases h with h | h
    · rw [h, List.length_nil]
      split <;> omega
    · rw [h, List.length_nil, if_neg (Nat.not_lt_zero _)]
  rw [strcmpOperand, hlength, memcmp_eq_memcmpBytes]
  exact memcmpBytes_of_equal fun i hi => absurd hi (Nat.not_lt_zero i)

theorem strcmpOperand_of_single {c d : UInt8} {rest : Bytes} (ha : a.bytes = d :: rest)
    (hb : b.bytes = [c]) : strcmpOperand a b beyond beyond' = d.toNat - c.toNat := by
  have hlength : (if strlen a < strlen b then strlen a else strlen b) = 1 := by
    rw [strlen_eq, strlen_eq, ha, hb, List.length_singleton, List.length_cons,
      if_neg (by omega)]
  have hfirst : ∀ {s : CString} {beyond : Memory} {c : UInt8} {rest : Bytes},
      s.bytes = c :: rest → stringAt s beyond 0 = c := by
    intro s beyond c rest hs
    rw [stringAt, hs, List.cons_append, List.getElem?_cons_zero, Option.getD_some]
  rw [strcmpOperand, hlength, memcmp_eq_memcmpBytes, memcmpBytes, search, search, Option.or_none,
    difference, hfirst ha, hfirst hb]
  split
  · rfl
  · next hequal => rw [Decidable.not_not.mp hequal, Option.getD_none, Int.sub_self]

/-! ## The uses of the macro -/

theorem strcmp_not : strcmp a b beyond beyond' .not = 0 := by
  rw [strcmp]
  by_cases hlengths : (if strlen a = 0 then 1 else 0) = strlen b
  · rw [if_neg (not_not.mpr hlengths)]
    rw [strlen_eq, strlen_eq] at hlengths
    refine strcmpOperand_of_nil ?_
    by_cases hempty : a.bytes.length = 0
    · exact Or.inl (List.length_eq_zero_iff.mp hempty)
    · rw [if_neg hempty] at hlengths
      exact Or.inr (List.length_eq_zero_iff.mp hlengths.symm)
  · exact if_pos hlengths

theorem Comparison.holds_zero_pos {op : Comparison} {n : Int} (h : 0 < n) :
    op.Holds 0 n ↔ op.Holds (0 : Int) 1 := by
  cases op with
  | eq => exact iff_of_false (Int.ne_of_lt h) (by decide)
  | ne => exact iff_of_true (Int.ne_of_lt h) (by decide)
  | lt => exact iff_of_true h (by decide)
  | le => exact iff_of_true (Int.not_lt.mpr (Int.le_of_lt h)) (by decide)
  | gt => exact iff_of_false (Int.not_lt.mpr (Int.le_of_lt h)) (by decide)
  | ge => exact iff_of_false (not_not.mpr h) (by decide)

theorem strcmp_right_ne_zero_iff {op : Comparison} :
    strcmp a b beyond beyond' (.right op) ≠ 0 ↔
      op.Holds (0 : Int) 1 ∧ ∃ c d rest, b.bytes = [c] ∧ a.bytes = d :: rest ∧ d ≠ c := by
  rw [strcmp, strlen_eq, strlen_eq]
  cases ha : a.bytes with
  | nil =>
      have hzero : strcmpOperand a b beyond beyond' = 0 := strcmpOperand_of_nil (Or.inl ha)
      rw [hzero, ite_self]
      refine iff_of_false (not_not.mpr rfl) ?_
      rintro ⟨-, c, d, rest, -, hcons, -⟩
      cases hcons
  | cons d rest =>
      have hop := @Comparison.holds_zero_pos op (d :: rest).length (by simp)
      simp only [hop]
      constructor
      · intro hne
        have hlengths : (if op.Holds (0 : Int) 1 then 1 else 0) = b.bytes.length := by
          by_contra hdiffer
          exact hne (if_pos hdiffer)
        rw [if_neg (not_not.mpr hlengths)] at hne
        have hb : b.bytes.length ≠ 0 := fun h =>
          hne (strcmpOperand_of_nil (Or.inr (List.length_eq_zero_iff.mp h)))
        by_cases hholds : op.Holds (0 : Int) 1
        · rw [if_pos hholds] at hlengths
          obtain ⟨c, hc⟩ := List.length_eq_one_iff.mp hlengths.symm
          refine ⟨hholds, c, d, rest, hc, rfl, fun hdc => ?_⟩
          rw [strcmpOperand_of_single ha hc, hdc] at hne
          exact hne (Int.sub_self _)
        · rw [if_neg hholds] at hlengths
          exact absurd hlengths.symm hb
      · rintro ⟨hholds, c, d', rest', hb, hcons, hdc⟩
        obtain ⟨rfl, rfl⟩ := List.cons.inj hcons
        have hne : d.toNat ≠ c.toNat := fun h => hdc (UInt8.toNat_inj.mp h)
        rw [hb, List.length_singleton, if_pos hholds, if_neg (not_not.mpr rfl),
          strcmpOperand_of_single ha hb]
        omega

theorem strcmp_left_ne_zero_iff {op : Comparison} :
    strcmp a b beyond beyond' (.left op) ≠ 0 ↔
      a.bytes.length = b.bytes.length ∧ op.Holds a.bytes b.bytes := by
  rw [strcmp, strlen_eq, strlen_eq]
  by_cases hlength : a.bytes.length = b.bytes.length
  · rw [if_neg (not_not.mpr hlength), strcmpOperand_of_length_eq hlength, and_iff_right hlength,
      ← (holds_strcmpc_iff a b op).1]
    split
    · next hholds => exact iff_of_true Int.one_ne_zero hholds
    · next hholds => exact iff_of_false (not_not.mpr rfl) hholds
  · rw [if_pos hlength]
    exact iff_of_false (not_not.mpr rfl) fun h => hlength h.1

theorem strcmp_value : strcmp a b beyond beyond' .value =
    if a.bytes.length = b.bytes.length then strcmpc a b else 0 := by
  rw [strcmp, strlen_eq, strlen_eq]
  by_cases hlength : a.bytes.length = b.bytes.length
  · rw [if_neg (not_not.mpr hlength), if_pos hlength, strcmpOperand_of_length_eq hlength]
  · rw [if_pos hlength, if_neg hlength]

theorem strcmpc_eq_zero_iff : strcmpc a b = 0 ↔ a.bytes = b.bytes :=
  (holds_strcmpc_iff a b .eq).1

/--
In each of its uses the macro says what `strcmpc` says exactly for these strings: on its
own for those of one length, behind `!` for different ones, and in comparisons where
the lengths do not decide otherwise than the order.
-/
theorem strcmp_saysAs_iff (a b : CString) (beyond beyond' : Memory) (use : Use) :
    SaysAs a b beyond beyond' use ↔ SaysRightly a b use := by
  cases use with
  | value =>
      rw [SaysAs, SaysRightly, strcmp_value, strcmpc_eq_zero_iff]
      constructor
      · rintro ⟨hzero, -, -⟩
        by_contra hlength
        rw [if_neg hlength] at hzero
        exact hlength (congrArg List.length (hzero.mp rfl))
      · intro hlength
        rw [if_pos hlength, strcmpc_eq_zero_iff]
        exact ⟨Iff.rfl, Iff.rfl, fun _ _ => Iff.rfl⟩
  | not =>
      rw [SaysAs, SaysRightly, strcmp_not, strcmpc_eq_zero_iff]
      exact ⟨fun h hequal => h.mpr hequal rfl, fun hne => iff_of_false (not_not.mpr rfl) hne⟩
  | left op =>
      rw [SaysAs, SaysRightly, strcmp_left_ne_zero_iff, (holds_strcmpc_iff a b op).1]
      constructor
      · intro h
        by_cases hlength : a.bytes.length = b.bytes.length
        · exact Or.inl hlength
        · exact Or.inr fun hholds => hlength (h.mpr hholds).1
      · rintro (hlength | hholds)
        · exact and_iff_right hlength
        · exact iff_of_false (fun h => hholds h.2) hholds
  | right op =>
      rw [SaysAs, SaysRightly, strcmp_right_ne_zero_iff, (holds_strcmpc_iff a b op).2]
      exact Iff.comm

/-- To the macro the empty string is `a`, and behind `!` the string `a` is not `a`. -/
theorem not_saysAs_sample :
    let empty : CString := ⟨[], by decide, by decide⟩
    let one : CString := ⟨[0x61], by decide, by decide⟩
    let beyond : Memory := fun _ => 0
    ¬ SaysAs empty one beyond beyond (.left .ne) ∧ ¬ SaysAs one one beyond beyond .not := by
  refine ⟨fun h => ?_, fun h => ?_⟩
  · have hdiffer : strcmpc ⟨[], by decide, by decide⟩ ⟨[0x61], by decide, by decide⟩ = -0x61 := rfl
    exact h.mpr (show strcmpc _ _ ≠ 0 by rw [hdiffer]; decide) rfl
  · exact h.mpr rfl rfl

end BlockyOS.Libcrt
