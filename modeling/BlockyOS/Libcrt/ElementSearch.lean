import BlockyOS.Foundation.Trails
import BlockyOS.Libcrt.Strings

/-!
# Searching an array

The four searches for an element leave their counter as it is: they look at the
element behind the last one, and again.  Only an empty array is searched as it
should be.
-/

namespace BlockyOS.Libcrt

open BlockyOS.Foundation
open BlockyOS.HostTool (CString)

/-! ## The functions -/

structure ElementSearch where
  n : Nat
  reads : List Nat

/-- A turn of the loop in an array with elements of `size` bytes. -/
def searchTurn (size : Nat) (p : Memory) (value : Nat) (s : ElementSearch) :
    ElementSearch ⊕ (Bool × List Nat) :=
  if s.n = 0 then .inr (false, s.reads)
  else if loadLe size p (s.n * size) = value then .inr (true, s.n :: s.reads)
  else .inl { s with reads := s.n :: s.reads }

/-- The search from the element `n` on, for at most `fuel` turns. -/
def memcheck (size : Nat) (p : Memory) (value n fuel : Nat) : Option (Bool × List Nat) :=
  follow (searchTurn size p value) fuel ⟨n, []⟩

def memcheckb (p : Memory) (b : UInt8) (n : Nat) := memcheck 1 p b.toNat n

def memcheckw (p : Memory) (w : UInt16) (n : Nat) := memcheck 2 p w.toNat (n / 2)

def memcheckl (p : Memory) (l : UInt32) (n : Nat) := memcheck 4 p l.toNat (n / 4)

def memcheckll (p : Memory) (ll : UInt64) (n : Nat) := memcheck 8 p ll.toNat (n / 8)

def strcheck (s : CString) (beyond : Memory) (c : UInt8) :=
  memcheckb (stringAt s beyond) c (strlen s)

/-! ## When they search -/

/-- The search returns whether one of the `n` elements has the value, and reads only those. -/
def ChecksRight (size : Nat) (p : Memory) (value n : Nat)
    (run : Nat → Option (Bool × List Nat)) : Prop :=
  ∃ fuel found reads, run fuel = some (found, reads) ∧
    (found = true ↔ ∃ i < n, loadLe size p (i * size) = value) ∧ ∀ i ∈ reads, i < n

/-- `strcheck` returns whether the character occurs in the string. -/
def StrcheckRight (s : CString) (beyond : Memory) (c : UInt8) : Prop :=
  ∃ fuel found reads, strcheck s beyond c fuel = some (found, reads) ∧
    (found = true ↔ c ∈ s.bytes)

variable {size : Nat} {p : Memory} {value n : Nat}

theorem memcheck_zero (fuel : Nat) : memcheck size p value 0 (fuel + 1) = some (false, []) := by
  have hturn : searchTurn size p value ⟨0, []⟩ = .inr (false, []) := if_pos rfl
  exact follow_of_answer hturn fuel

theorem memcheck_eq_some {fuel : Nat} {found : Bool} {reads : List Nat} (hn : n ≠ 0)
    (h : memcheck size p value n fuel = some (found, reads)) :
    loadLe size p (n * size) = value ∧ found = true ∧ n ∈ reads := by
  by_cases hvalue : loadLe size p (n * size) = value
  · have hturn : searchTurn size p value ⟨n, []⟩ = .inr (true, [n]) := by
      rw [searchTurn, if_neg hn, if_pos hvalue]
    obtain ⟨rfl, rfl⟩ := Prod.mk.inj (follow_unique (follow_of_answer hturn 0) h)
    exact ⟨hvalue, rfl, List.mem_cons_self ..⟩
  · have hmove : ∀ s : ElementSearch, s.n = n →
        ∃ s', searchTurn size p value s = .inl s' ∧ s'.n = n := by
      rintro s rfl
      exact ⟨{ s with reads := s.n :: s.reads },
        by rw [searchTurn, if_neg hn, if_neg hvalue], rfl⟩
    have hnever := @follow_eq_none_of_invariant _ _ _ (fun s : ElementSearch => s.n = n) hmove
      ⟨n, []⟩ rfl fuel
    rw [memcheck, hnever] at h
    cases h

theorem checksRight_iff : ChecksRight size p value n (memcheck size p value n) ↔ n = 0 := by
  constructor
  · rintro ⟨fuel, found, reads, hrun, -, hreads⟩
    by_contra hn
    exact Nat.lt_irrefl n (hreads n (memcheck_eq_some hn hrun).2.2)
  · rintro rfl
    refine ⟨1, false, [], memcheck_zero 0, iff_of_false Bool.false_ne_true ?_,
      fun i hi => absurd hi List.not_mem_nil⟩
    rintro ⟨i, hi, -⟩
    exact Nat.not_lt_zero i hi

theorem strcheckRight_iff {s : CString} {beyond : Memory} {c : UInt8} :
    StrcheckRight s beyond c ↔ s.bytes = [] := by
  rw [StrcheckRight, strcheck, memcheckb, strlen_eq]
  constructor
  · rintro ⟨fuel, found, reads, hrun, hfound⟩
    by_contra hne
    -- the element behind the last one is the terminator, which does not occur
    obtain ⟨hvalue, htrue, -⟩ := memcheck_eq_some (fun h => hne (List.length_eq_zero_iff.mp h)) hrun
    have hload : loadLe 1 (stringAt s beyond) (s.bytes.length * 1) = 0 := by
      rw [Nat.mul_one]
      change (stringAt s beyond s.bytes.length).toNat + 256 * 0 = 0
      rw [stringAt_length]
      rfl
    have hzero : c = 0 := UInt8.toNat_inj.mp (hvalue.symm.trans hload)
    exact s.terminated (hzero ▸ hfound.mp htrue)
  · intro hempty
    rw [hempty]
    exact ⟨1, false, [], memcheck_zero 0,
      iff_of_false Bool.false_ne_true List.not_mem_nil⟩

/--
The searches return, read only elements of the array and find what is in it exactly
when the array has no element, and `strcheck` exactly when the string is empty.
-/
theorem elementSearches_right_iff (p : Memory) (n : Nat) :
    (∀ b, ChecksRight 1 p b.toNat n (memcheckb p b n) ↔ n = 0) ∧
      (∀ w, ChecksRight 2 p w.toNat (n / 2) (memcheckw p w n) ↔ n / 2 = 0) ∧
      (∀ l, ChecksRight 4 p l.toNat (n / 4) (memcheckl p l n) ↔ n / 4 = 0) ∧
      (∀ ll, ChecksRight 8 p ll.toNat (n / 8) (memcheckll p ll n) ↔ n / 8 = 0) ∧
      ∀ s beyond c, StrcheckRight s beyond c ↔ s.bytes = [] :=
  ⟨fun _ => checksRight_iff, fun _ => checksRight_iff, fun _ => checksRight_iff,
    fun _ => checksRight_iff, fun _ _ _ => strcheckRight_iff⟩

/-- In the array of the byte 1 the search for it reads the byte behind, and does not end. -/
theorem not_checksRight_singleByte :
    ¬ ChecksRight 1 (fun i => if i = 0 then 1 else 0) 1 1
      (memcheckb (fun i => if i = 0 then 1 else 0) 1 1) := by
  rintro ⟨fuel, found, reads, hrun, -⟩
  have hvalue := (memcheck_eq_some (by decide) hrun).1
  revert hvalue
  decide

end BlockyOS.Libcrt
