import BlockyOS.Foundation.Occurrences
import BlockyOS.HostTool.Raw

/-!
# Replacing in strings

`str_replace` counts the occurrences first, computes the length of the result in
64-bit words, and fills the buffer in a second pass.  Memory for the buffer is
always there.
-/

namespace BlockyOS.HostTool

open BlockyOS.Foundation

/-- What a C string holds before its terminator; it has an address for each byte. -/
structure CString where
  bytes : Bytes
  terminated : 0 ∉ bytes
  fits : bytes.length < 2 ^ 64

/-! ## The function -/

def strstr (old : Bytes) : Bytes → Option Nat
  | [] => if old.isPrefixOf [] then some 0 else none
  | byte :: rest =>
      if old.isPrefixOf (byte :: rest) then some 0 else (strstr old rest).map (· + 1)

/-- The counting loop; its pointer moves on at each pass, so `fuel` passes are enough. -/
def countOccurrences (old : Bytes) : Nat → Bytes → Nat → Except Fault Nat
  | 0, _, _ => .error .hang
  | fuel + 1, p, count =>
      match strstr old p with
      | none => .ok count
      | some off => countOccurrences old fuel (p.drop (off + old.length)) (u64 (count + 1))

/-- `new_len`, with a difference that wraps around when the replacement is shorter. -/
def newLen (lenStr lenOld lenNew count : Nat) : Nat :=
  u64 (lenStr + count * u64sub lenNew lenOld)

/-- A copy behind what was written to a buffer of `size` bytes. -/
def copyTo (size : Nat) (out data : Bytes) : Except Fault Bytes :=
  if out.length + data.length ≤ size then .ok (out ++ data) else .error .outOfBounds

/-- The replacing loop and the `strcpy` of the remainder with its terminator. -/
def fill (old new : Bytes) (size : Nat) : Nat → Bytes → Bytes → Except Fault Bytes
  | 0, _, _ => .error .hang
  | fuel + 1, rest, out =>
      match strstr old rest with
      | none => copyTo size out (rest ++ [0])
      | some off =>
          match copyTo size out (rest.take off) with
          | .error e => .error e
          | .ok out =>
              match copyTo size out new with
              | .error e => .error e
              | .ok out => fill old new size fuel (rest.drop (off + old.length)) out

/-- The bytes of the buffer that is returned, or `NULL`. -/
def strReplace (str old new : Bytes) : Except Fault (Option Bytes) :=
  if old.length = 0 then .ok none
  else
    match countOccurrences old (str.length + 1) str 0 with
    | .error e => .error e
    | .ok count =>
        if count = 0 then .ok (some (str ++ [0]))
        else
          match fill old new (u64 (newLen str.length old.length new.length count + 1))
              (str.length + 1) str [] with
          | .error e => .error e
          | .ok out => .ok (some out)

/-! ## Both passes -/

theorem strstr_eq_none_iff (old s : Bytes) : strstr old s = none ↔ ¬ old <:+: s := by
  induction s with
  | nil =>
      rw [strstr]
      simp [List.isPrefixOf_iff_prefix]
  | cons byte rest ih =>
      rw [strstr, List.infix_cons_iff, ← List.isPrefixOf_iff_prefix]
      split
      case isTrue h => simp [h]
      case isFalse h => simp [h, ih]

theorem strstr_eq_some {old s : Bytes} {off : Nat} (h : strstr old s = some off) :
    ∃ pre post, s = pre ++ old ++ post ∧ pre.length = off ∧ Leftmost old pre post := by
  induction s generalizing off with
  | nil =>
      rw [strstr] at h
      split at h
      case isTrue hprefix =>
        cases h
        obtain ⟨post, hpost⟩ := List.isPrefixOf_iff_prefix.mp hprefix
        exact ⟨[], post, hpost.symm, rfl, fun _ _ _ => Nat.zero_le _⟩
      case isFalse => cases h
  | cons byte rest ih =>
      rw [strstr] at h
      split at h
      case isTrue hprefix =>
        cases h
        obtain ⟨post, hpost⟩ := List.isPrefixOf_iff_prefix.mp hprefix
        exact ⟨[], post, hpost.symm, rfl, fun _ _ _ => Nat.zero_le _⟩
      case isFalse hprefix =>
        obtain ⟨off', hoff', rfl⟩ := Option.map_eq_some_iff.mp h
        obtain ⟨pre, post, rfl, rfl, hfirst⟩ := ih hoff'
        refine ⟨byte :: pre, post, rfl, rfl, fun pre' post' heq => ?_⟩
        cases pre' with
        | nil =>
            -- An occurrence at the front would have been found there.
            refine absurd (List.isPrefixOf_iff_prefix.mpr ⟨post', ?_⟩) hprefix
            exact heq.symm
        | cons byte' pre' =>
            have htail : pre ++ old ++ post = pre' ++ old ++ post' := (List.cons.inj heq).2
            exact Nat.succ_le_succ (hfirst pre' post' htail)

theorem strstr_cut {old pre post : Bytes} (hfirst : Leftmost old pre post) :
    strstr old (pre ++ old ++ post) = some pre.length := by
  cases hfind : strstr old (pre ++ old ++ post) with
  | none => exact absurd ⟨pre, post, rfl⟩ ((strstr_eq_none_iff _ _).mp hfind)
  | some off =>
      obtain ⟨pre', post', heq, rfl, hfirst'⟩ := strstr_eq_some hfind
      rw [(hfirst.unique hfirst' heq).1]

theorem drop_occurrence (old pre post : Bytes) :
    (pre ++ old ++ post).drop (pre.length + old.length) = post := by
  rw [← List.length_append, List.drop_left]

theorem countOccurrences_eq {old s : Bytes} {pieces : List Bytes} (hold : old ≠ [])
    (hsplits : Foundation.Splits old s pieces) {fuel count : Nat} (hfuel : s.length < fuel)
    (hcount : count + s.length < 2 ^ 64) :
    countOccurrences old fuel s count = .ok (count + (pieces.length - 1)) := by
  have hpos := List.length_pos_iff.mpr hold
  induction hsplits generalizing fuel count with
  | @last s hnone =>
      obtain ⟨fuel, rfl⟩ := Nat.exists_eq_succ_of_ne_zero (Nat.ne_of_gt (Nat.zero_lt_of_lt hfuel))
      rw [countOccurrences, (strstr_eq_none_iff old s).mpr hnone]
      rfl
  | @cut pre post pieces hfirst hrest ih =>
      obtain ⟨fuel, rfl⟩ := Nat.exists_eq_succ_of_ne_zero (Nat.ne_of_gt (Nat.zero_lt_of_lt hfuel))
      have hpieces := hrest.length_pos
      simp only [List.length_append] at hfuel hcount
      rw [countOccurrences, strstr_cut hfirst]
      simp only [drop_occurrence]
      rw [u64_of_lt (by omega), ih (by omega) (by omega), List.length_cons]
      congr 1
      omega

theorem fill_eq {old s : Bytes} {pieces : List Bytes} (hold : old ≠ [])
    (hsplits : Foundation.Splits old s pieces) (new : Bytes) {size fuel : Nat}
    (hfuel : s.length < fuel) (out : Bytes) :
    fill old new size fuel s out =
      if out.length + (new.intercalate pieces).length + 1 ≤ size then
        .ok (out ++ new.intercalate pieces ++ [0])
      else .error .outOfBounds := by
  have hpos := List.length_pos_iff.mpr hold
  induction hsplits generalizing fuel out with
  | @last s hnone =>
      obtain ⟨fuel, rfl⟩ := Nat.exists_eq_succ_of_ne_zero (Nat.ne_of_gt (Nat.zero_lt_of_lt hfuel))
      rw [fill, (strstr_eq_none_iff old s).mpr hnone]
      simp [copyTo, List.intercalate, Nat.add_assoc]
  | @cut pre post pieces hfirst hrest ih =>
      obtain ⟨fuel, rfl⟩ := Nat.exists_eq_succ_of_ne_zero (Nat.ne_of_gt (Nat.zero_lt_of_lt hfuel))
      simp only [List.length_append] at hfuel
      have hjoin := intercalate_cons_of_ne_nil new pre hrest.ne_nil
      have htake : (pre ++ old ++ post).take pre.length = pre := by
        rw [List.append_assoc, List.take_left]
      rw [fill, strstr_cut hfirst, hjoin]
      simp only [drop_occurrence, htake, copyTo, List.length_append]
      by_cases hpre : out.length + pre.length ≤ size
      · by_cases hnew : out.length + pre.length + new.length ≤ size
        · simp only [if_pos hpre, List.length_append, if_pos hnew]
          rw [ih (by omega)]
          simp only [List.length_append, List.append_assoc]
          exact if_congr (by omega) rfl rfl
        · simp only [if_pos hpre, List.length_append, if_neg hnew]
          rw [if_neg (by omega)]
      · simp only [if_neg hpre]
        rw [if_neg (by omega)]

/-! ## The length of the result -/

theorem u64sub_add {a b : Nat} (ha : a < 2 ^ 64) (hb : b < 2 ^ 64) :
    u64sub a b + b = a ∨ u64sub a b + b = a + 2 ^ 64 := by
  unfold u64sub u64
  omega

theorem newLen_eq {old new s : Bytes} {pieces : List Bytes}
    (hsplits : Foundation.Splits old s pieces) (hold : old.length < 2 ^ 64)
    (hnew : new.length < 2 ^ 64) :
    newLen s.length old.length new.length (pieces.length - 1) =
      u64 (new.intercalate pieces).length := by
  have hlength := hsplits.length_intercalate new
  generalize pieces.length - 1 = k at hlength
  rw [newLen]
  rcases u64sub_add hnew hold with hsub | hsub
  · have hproduct : k * u64sub new.length old.length + k * old.length = k * new.length := by
      rw [← Nat.mul_add, hsub]
    congr 1
    omega
  · have hproduct : k * u64sub new.length old.length + k * old.length =
        k * new.length + k * 2 ^ 64 := by
      rw [← Nat.mul_add, hsub, Nat.mul_add]
    have hsum : s.length + k * u64sub new.length old.length =
        (new.intercalate pieces).length + k * 2 ^ 64 := by omega
    rw [hsum, u64, u64, Nat.add_mul_mod_self_right]

theorem strReplace_eq {str old new : CString} {pieces : List Bytes} (hold : old.bytes ≠ [])
    (hsplits : Foundation.Splits old.bytes str.bytes pieces) :
    strReplace str.bytes old.bytes new.bytes =
      if pieces.length = 1 ∨ (new.bytes.intercalate pieces).length + 1 < 2 ^ 64 then
        .ok (some (new.bytes.intercalate pieces ++ [0]))
      else .error .outOfBounds := by
  have hpos := List.length_pos_iff.mpr hold
  have hpieces := hsplits.length_pos
  have hfits := str.fits
  have hcount := countOccurrences_eq hold hsplits (Nat.lt_succ_self _)
    (by rw [Nat.zero_add]; exact str.fits)
  rw [Nat.zero_add] at hcount
  rw [strReplace, if_neg (by omega)]
  simp only [hcount]
  by_cases hone : pieces.length = 1
  · rw [if_pos (by omega), if_pos (Or.inl hone), hsplits.eq_singleton hone]
    simp [List.intercalate]
  · rw [if_neg (by omega), newLen_eq hsplits old.fits new.fits,
      fill_eq hold hsplits new.bytes (Nat.lt_succ_self _) []]
    simp only [List.length_nil, Nat.zero_add, List.nil_append, hone, false_or]
    have hiff : (new.bytes.intercalate pieces).length + 1 ≤
          u64 (u64 (new.bytes.intercalate pieces).length + 1) ↔
        (new.bytes.intercalate pieces).length + 1 < 2 ^ 64 := by
      unfold u64
      omega
    by_cases hlt : (new.bytes.intercalate pieces).length + 1 < 2 ^ 64
    · simp only [if_pos (hiff.mpr hlt), if_pos hlt]
    · simp only [if_neg fun h => hlt (hiff.mp h), if_neg hlt]

/-- The leftmost occurrences are replaced, and `new_len + 1` bytes are written for that. -/
def Replaces (str old new : CString) : Prop :=
  ∃ pieces, Foundation.Splits old.bytes str.bytes pieces ∧
    strReplace str.bytes old.bytes new.bytes =
      .ok (some (new.bytes.intercalate pieces ++ [0])) ∧
    (1 < pieces.length → (new.bytes.intercalate pieces ++ [0]).length =
      newLen str.bytes.length old.bytes.length new.bytes.length (pieces.length - 1) + 1)

/-- There is nothing to replace, or the result has an address for each byte. -/
def NewLenFits (str old new : CString) : Prop :=
  ∀ pieces, Foundation.Splits old.bytes str.bytes pieces → pieces.length = 1 ∨
    str.bytes.length + (pieces.length - 1) * new.bytes.length + 1 <
      2 ^ 64 + (pieces.length - 1) * old.bytes.length

/--
For every string, every replacement and every non-empty string to be replaced,
the replacement is right and stays in its buffer if and only if nothing is
replaced or the length of the result with its terminator is less than `2 ^ 64`.
-/
theorem replaces_iff {str old new : CString} (hold : old.bytes ≠ []) :
    Replaces str old new ↔ NewLenFits str old new := by
  obtain ⟨pieces, hsplits⟩ := exists_splits hold str.bytes
  have heq := @strReplace_eq str old new pieces hold hsplits
  have hlength := hsplits.length_intercalate new.bytes
  have hfits : NewLenFits str old new ↔
      pieces.length = 1 ∨ (new.bytes.intercalate pieces).length + 1 < 2 ^ 64 := by
    constructor
    · intro h
      have hone := h pieces hsplits
      omega
    · intro h pieces' hsplits'
      obtain rfl := hsplits.unique hsplits'
      omega
  rw [hfits]
  constructor
  · rintro ⟨pieces', hsplits', hok, -⟩
    obtain rfl := hsplits.unique hsplits'
    by_contra hover
    rw [heq, if_neg hover] at hok
    cases hok
  · intro hshort
    refine ⟨pieces, hsplits, by rw [heq, if_pos hshort], fun hmany => ?_⟩
    rw [newLen_eq hsplits old.fits new.fits, u64_of_lt (by omega), List.length_append,
      List.length_singleton]

theorem replaces_iff_letter :
    Replaces ⟨[97], by decide, by decide⟩ ⟨[97], by decide, by decide⟩
      ⟨[98], by decide, by decide⟩ := by
  refine (replaces_iff (List.cons_ne_nil _ _)).mpr fun pieces hsplits => Or.inr ?_
  have hle := hsplits.length_le (List.cons_ne_nil _ _)
  simp only [List.length_cons, List.length_nil] at hle ⊢
  omega

/-! ## A result that is too long -/

theorem zero_notMem_replicate {a : UInt8} (ha : a ≠ 0) (n : Nat) : 0 ∉ List.replicate n a :=
  fun h => ha (List.eq_of_mem_replicate h).symm

theorem length_replicate_lt {a : UInt8} {n : Nat} (hn : n < 2 ^ 64) :
    (List.replicate n a).length < 2 ^ 64 := by
  rwa [List.length_replicate]

/-- A letter `n` times. -/
def repeated (a : UInt8) (ha : a ≠ 0) (n : Nat) (hn : n < 2 ^ 64) : CString :=
  ⟨List.replicate n a, zero_notMem_replicate ha n, length_replicate_lt hn⟩

theorem splits_replicate (a : UInt8) (n : Nat) :
    Foundation.Splits [a] (List.replicate n a) (List.replicate (n + 1) []) := by
  induction n with
  | zero => exact .last (by simp)
  | succ n ih =>
      have hfirst : Leftmost [a] [] (List.replicate n a) := fun _ _ _ => Nat.zero_le _
      exact .cut hfirst ih

theorem not_replaces_of_long {n : Nat} (hn : n < 2 ^ 64) (hone : (1 : Nat) < 2 ^ 64)
    (hlong : 2 ^ 64 ≤ n * n) :
    ¬ Replaces (repeated 97 (by decide) n hn) (repeated 97 (by decide) 1 hone)
      (repeated 98 (by decide) n hn) := by
  have hold : (repeated 97 (by decide) 1 hone).bytes ≠ [] := List.cons_ne_nil _ _
  have hsplits : Foundation.Splits (repeated 97 (by decide) 1 hone).bytes
      (repeated 97 (by decide) n hn).bytes (List.replicate (n + 1) []) := splits_replicate 97 n
  have heq := @strReplace_eq (repeated 97 (by decide) n hn) (repeated 97 (by decide) 1 hone)
    (repeated 98 (by decide) n hn) _ hold hsplits
  have hlength := hsplits.length_intercalate (repeated 98 (by decide) n hn).bytes
  simp only [repeated, List.length_replicate, Nat.add_sub_cancel, Nat.mul_one] at hlength
  rintro ⟨pieces, hsplits', hok, -⟩
  obtain rfl := hsplits.unique hsplits'
  rw [heq, if_neg] at hok
  · cases hok
  · rw [List.length_replicate]
    simp only [repeated]
    have hpos : n ≠ 0 := by
      rintro rfl
      omega
    omega

/-- `2 ^ 32` letters, each replaced by `2 ^ 32` others, get a buffer of one byte. -/
theorem not_replaces_twoPow32 :
    ¬ Replaces (repeated 97 (by decide) (2 ^ 32) (by decide))
      (repeated 97 (by decide) 1 (by decide)) (repeated 98 (by decide) (2 ^ 32) (by decide)) :=
  not_replaces_of_long _ _ (by decide)

end BlockyOS.HostTool
