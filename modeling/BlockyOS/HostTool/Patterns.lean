import BlockyOS.Foundation.Globs
import BlockyOS.HostTool.DirWalk

/-!
# Patterns of names

What a pattern means by its documentation, and what the matcher makes of it.
The matcher works on a copy in which escapes are resolved, so that an escaped
star is a wildcard to it.
-/

namespace BlockyOS.HostTool

open BlockyOS.Foundation
open BlockyOS.Foundation.Glob (Matches skeleton)

/-! ## The documented meaning -/

/-- A character of a pattern: a star that is not escaped, or one that stands for itself. -/
inductive Sign where
  | wild
  | char (c : UInt8)
  deriving DecidableEq, Repr

def Sign.of (c : UInt8) : Sign := if c = wildcard then .wild else .char c

/-- The byte that the copy of the pattern has for it. -/
def Sign.byte : Sign → UInt8
  | .wild => wildcard
  | .char c => c

/-- A backslash makes the next character literal; at the end it stands for itself. -/
def signs : Bytes → List Sign
  | [] => []
  | [c] => [.of c]
  | c :: d :: rest =>
      if c = pathNoSep then .char d :: signs rest else .of c :: signs (d :: rest)

/-- Three wild stars are a block wildcard, and any other one is a wildcard for a character. -/
def tokens : List Sign → List (Glob UInt8)
  | [] => []
  | .wild :: .wild :: .wild :: rest => .block :: tokens rest
  | .wild :: rest => .any :: tokens rest
  | .char c :: rest => .lit c :: tokens rest

theorem Sign.byte_of (c : UInt8) : (Sign.of c).byte = c := by
  rw [Sign.of]
  split
  case isTrue h => exact h.symm
  case isFalse => rfl

theorem unescape_eq (pattern : Bytes) : unescape pattern = (signs pattern).map Sign.byte := by
  fun_induction signs pattern with
  | case1 => rfl
  | case2 c => rw [unescape, List.map_singleton, Sign.byte_of]
  | case3 d rest ih =>
      rw [unescape, if_pos rfl, List.map_cons, ih]
      rfl
  | case4 c d rest hc ih => rw [unescape, if_neg hc, List.map_cons, Sign.byte_of, ih]

/-! ## The meaning to the matcher -/

/-- What a run of stars means, escaped or not. -/
def codeRun (k : Nat) : List (Glob UInt8) :=
  if k < 3 then List.replicate k .any
  else if k = 3 then [.block]
  else .block :: .lit wildcard ::
    (if k % 3 = 1 then [] else if k % 3 = 2 then [.any] else [.block])

/-- What the copy of a pattern means behind `k` stars. -/
def codeFrom (k : Nat) : Bytes → List (Glob UInt8)
  | [] => codeRun k
  | c :: rest =>
      if c = wildcard then codeFrom (k + 1) rest
      else codeRun k ++ .lit c :: codeFrom 0 rest

theorem tails_any_iff {s : Bytes} {p : Bytes → Bool} :
    s.tails.any p = true ↔ ∃ skipped rest, s = skipped ++ rest ∧ p rest = true := by
  rw [List.any_eq_true]
  constructor
  · rintro ⟨rest, hrest, hp⟩
    obtain ⟨skipped, rfl⟩ := (List.mem_tails _ _).mp hrest
    exact ⟨skipped, rest, rfl, hp⟩
  · rintro ⟨skipped, rest, rfl, hp⟩
    exact ⟨rest, (List.mem_tails _ _).mpr ⟨skipped, rfl⟩, hp⟩

theorem matchRec_char {c : UInt8} (hc : c ≠ wildcard) (p s : Bytes) :
    matchRec (c :: p) s = true ↔ ∃ rest, s = c :: rest ∧ matchRec p rest = true := by
  rw [matchRec.eq_def]
  simp only [if_neg hc]
  cases s with
  | nil => simp
  | cons d rest =>
      simp only [Bool.and_eq_true, decide_eq_true_eq, List.cons.injEq]
      constructor
      · rintro ⟨rfl, h⟩
        exact ⟨rest, ⟨rfl, rfl⟩, h⟩
      · rintro ⟨rest', ⟨rfl, rfl⟩, h⟩
        exact ⟨rfl, h⟩

theorem matchRec_single {p : Bytes} (hp : ¬ [wildcard, wildcard] <+: p) (s : Bytes) :
    matchRec (wildcard :: p) s = true ↔ ∃ c rest, s = c :: rest ∧ matchRec p rest = true := by
  have hstep : matchRec (wildcard :: p) [] = false ∧
      ∀ c rest, matchRec (wildcard :: p) (c :: rest) = matchRec p rest := by
    rw [matchRec.eq_def]
    simp only [matchRec.eq_def (wildcard :: p) (_ :: _)]
    rcases p with _ | ⟨c₁, _ | ⟨c₂, q⟩⟩
    · exact ⟨rfl, fun _ _ => rfl⟩
    · exact ⟨rfl, fun _ _ => rfl⟩
    · have hstars : ¬ (c₁ = wildcard ∧ c₂ = wildcard) := by
        rintro ⟨rfl, rfl⟩
        exact hp ⟨q, rfl⟩
      simp only [if_neg hstars]
      exact ⟨rfl, fun _ _ => rfl⟩
  cases s with
  | nil => simp [hstep.1]
  | cons c rest =>
      rw [hstep.2]
      simp only [List.cons.injEq]
      constructor
      · intro h
        exact ⟨c, rest, ⟨rfl, rfl⟩, h⟩
      · rintro ⟨c', rest', ⟨-, rfl⟩, h⟩
        exact h

theorem matchRec_block_nil (s : Bytes) :
    matchRec [wildcard, wildcard, wildcard] s = true := by
  rw [matchRec.eq_def]
  simp

theorem matchRec_block (c : UInt8) (p s : Bytes) :
    matchRec (wildcard :: wildcard :: wildcard :: c :: p) s = true ↔
      ∃ skipped rest, s = skipped ++ rest ∧ rest.head? = some c ∧
        matchRec (c :: p) rest = true := by
  rw [matchRec.eq_def]
  simp only [if_pos, and_self]
  rw [tails_any_iff]
  simp only [Bool.and_eq_true, decide_eq_true_eq]

/-! ## Runs of stars -/

section Runs

variable {rest : Bytes} {gs : List (Glob UInt8)} (hhead : rest.head? ≠ some wildcard)
  (hrest : ∀ s, matchRec rest s = true ↔ Matches gs s)

theorem matches_block_absorb {gs : List (Glob UInt8)} {skipped s : Bytes}
    (h : Matches (.block :: gs) s) : Matches (.block :: gs) (skipped ++ s) := by
  obtain ⟨skipped', s', rfl, h'⟩ := Glob.matches_block_iff.mp h
  rw [← List.append_assoc]
  exact .block _ h'

theorem codeRun_three_mod (j : Nat) : codeRun (j + 7) = codeRun (j + 4) := by
  have hmod : (j + 7) % 3 = (j + 4) % 3 := by omega
  simp only [codeRun, hmod, if_neg (show ¬ j + 7 < 3 by omega), if_neg (show ¬ j + 7 = 3 by omega),
    if_neg (show ¬ j + 4 < 3 by omega), if_neg (show ¬ j + 4 = 3 by omega)]

theorem codeRun_long (j : Nat) : ∃ run, codeRun (j + 4) = .block :: .lit wildcard :: run := by
  rw [codeRun, if_neg (by omega), if_neg (by omega)]
  exact ⟨_, rfl⟩

theorem matches_any_star_iff (gs : List (Glob UInt8)) (t : Bytes) :
    t.head? = some wildcard ∧ Matches (.any :: gs) t ↔ Matches (.lit wildcard :: gs) t := by
  rw [Glob.matches_any_iff, Glob.matches_lit_iff]
  constructor
  · rintro ⟨hhead, a, t', rfl, h⟩
    obtain rfl := Option.some.inj hhead
    exact ⟨t', rfl, h⟩
  · rintro ⟨t', rfl, h⟩
    exact ⟨rfl, _, t', rfl, h⟩

theorem codeRun_step (hstar : ∀ s, ¬ Matches gs (wildcard :: s)) (k : Nat) (s : Bytes) :
    (∃ skipped t, s = skipped ++ t ∧ t.head? = some wildcard ∧ Matches (codeRun (k + 1) ++ gs) t) ↔
      Matches (codeRun (k + 4) ++ gs) s := by
  match k with
  | 0 =>
      change _ ↔ Matches (.block :: .lit wildcard :: gs) s
      rw [Glob.matches_block_iff]
      refine exists_congr fun skipped => exists_congr fun t => and_congr_right fun _ => ?_
      exact matches_any_star_iff gs t
  | 1 =>
      change _ ↔ Matches (.block :: .lit wildcard :: .any :: gs) s
      rw [Glob.matches_block_iff]
      refine exists_congr fun skipped => exists_congr fun t => and_congr_right fun _ => ?_
      exact matches_any_star_iff (.any :: gs) t
  | 2 =>
      change _ ↔ Matches (.block :: .lit wildcard :: .block :: gs) s
      rw [Glob.matches_block_iff]
      refine exists_congr fun skipped => exists_congr fun t => and_congr_right fun _ => ?_
      rw [show codeRun (2 + 1) ++ gs = .block :: gs from rfl, Glob.matches_lit_iff]
      constructor
      · rintro ⟨hhead, h⟩
        obtain ⟨skipped', t', rfl, h'⟩ := Glob.matches_block_iff.mp h
        cases skipped' with
        | nil =>
            obtain ⟨t'', rfl⟩ := List.head?_eq_some_iff.mp hhead
            exact absurd h' (hstar t'')
        | cons a skipped' =>
            obtain rfl := Option.some.inj hhead
            exact ⟨skipped' ++ t', rfl, .block _ h'⟩
      · rintro ⟨t', rfl, h⟩
        exact ⟨rfl, @matches_block_absorb gs [wildcard] t' h⟩
  | j + 3 =>
      rw [show j + 3 + 4 = j + 7 from rfl, codeRun_three_mod]
      obtain ⟨run, hrun⟩ := codeRun_long j
      rw [show j + 3 + 1 = j + 4 from rfl, hrun]
      constructor
      · rintro ⟨skipped, t, rfl, -, h⟩
        exact matches_block_absorb h
      · intro h
        obtain ⟨skipped, t, rfl, h'⟩ := Glob.matches_block_iff.mp h
        obtain ⟨t', rfl, -⟩ := Glob.matches_lit_iff.mp h'
        exact ⟨skipped, _, rfl, rfl, .block [] h'⟩

include hhead hrest

theorem not_matches_star (s : Bytes) : ¬ Matches gs (wildcard :: s) := by
  intro h
  have hmatch := (hrest _).mpr h
  cases rest with
  | nil => cases hmatch
  | cons c rest =>
      have hc : c ≠ wildcard := fun heq => hhead (by rw [heq]; rfl)
      obtain ⟨s', heq, -⟩ := (matchRec_char hc rest _).mp hmatch
      exact hc (List.cons.inj heq).1.symm

theorem matchRec_run (k : Nat) (s : Bytes) :
    matchRec (List.replicate k wildcard ++ rest) s = true ↔ Matches (codeRun k ++ gs) s := by
  have hpair : ∀ j, j < 2 → ¬ [wildcard, wildcard] <+: List.replicate j wildcard ++ rest := by
    rintro j hj ⟨t, ht⟩
    match j with
    | 0 =>
        rw [List.replicate_zero, List.nil_append] at ht
        rw [← ht] at hhead
        exact hhead rfl
    | 1 =>
        have hrest' : wildcard :: t = rest := List.cons.inj ht |>.2
        rw [← hrest'] at hhead
        exact hhead rfl
  induction k using Nat.strong_induction_on generalizing s with
  | h k ih =>
      match k with
      | 0 => exact hrest s
      | 1 =>
          have hsingle := @matchRec_single rest (hpair 0 (by decide)) s
          rw [show codeRun 1 ++ gs = .any :: gs from rfl, Glob.matches_any_iff]
          simp only [hrest] at hsingle
          exact hsingle
      | 2 =>
          have hfirst := @matchRec_single (wildcard :: rest) (hpair 1 (by decide)) s
          have hsecond := @matchRec_single rest (hpair 0 (by decide))
          rw [show codeRun 2 ++ gs = .any :: .any :: gs from rfl, Glob.matches_any_iff]
          simp only [hsecond, hrest] at hfirst
          simp only [Glob.matches_any_iff]
          exact hfirst
      | 3 =>
          rw [show codeRun 3 ++ gs = .block :: gs from rfl, Glob.matches_block_iff]
          cases rest with
          | nil =>
              exact iff_of_true (matchRec_block_nil s)
                ⟨s, [], (List.append_nil s).symm, (hrest []).mp rfl⟩
          | cons c rest =>
              have hc : c ≠ wildcard := fun heq => hhead (by rw [heq]; rfl)
              refine (matchRec_block c rest s).trans ?_
              refine exists_congr fun skipped => exists_congr fun t => and_congr_right fun _ => ?_
              rw [hrest, and_iff_right_iff_imp]
              intro h
              obtain ⟨t', rfl, -⟩ := (matchRec_char hc rest t).mp ((hrest t).mpr h)
              rfl
      | k + 4 =>
          have hstar := not_matches_star hhead hrest
          rw [← codeRun_step hstar k s]
          refine (matchRec_block wildcard (List.replicate k wildcard ++ rest) s).trans ?_
          refine exists_congr fun skipped => exists_congr fun t => and_congr_right fun _ => ?_
          exact and_congr_right fun _ => ih (k + 1) (by omega) t

end Runs

theorem codeFrom_replicate (k j : Nat) (rest : Bytes) :
    codeFrom j (List.replicate k wildcard ++ rest) = codeFrom (j + k) rest := by
  induction k generalizing j with
  | zero => rfl
  | succ k ih =>
      rw [List.replicate_succ, List.cons_append, codeFrom, if_pos rfl, ih]
      congr 1
      omega

theorem exists_run (u : Bytes) :
    ∃ k rest, u = List.replicate k wildcard ++ rest ∧ rest.head? ≠ some wildcard := by
  induction u with
  | nil => exact ⟨0, [], rfl, by simp⟩
  | cons c u ih =>
      by_cases hc : c = wildcard
      · obtain ⟨k, rest, rfl, hrest⟩ := ih
        exact ⟨k + 1, rest, by rw [hc]; rfl, hrest⟩
      · exact ⟨0, c :: u, rfl, by simpa using hc⟩

theorem matchRec_iff (u s : Bytes) : matchRec u s = true ↔ Matches (codeFrom 0 u) s := by
  generalize hn : u.length = n
  induction n using Nat.strong_induction_on generalizing u s with
  | h n ih =>
      obtain ⟨k, rest, rfl, hhead⟩ := exists_run u
      rw [codeFrom_replicate, Nat.zero_add]
      cases rest with
      | nil =>
          have hnil : ∀ s, matchRec [] s = true ↔ Matches [] s := by
            intro s
            rw [matchRec, Glob.matches_nil_iff, List.isEmpty_iff]
          rw [matchRec_run hhead hnil, List.append_nil]
          rfl
      | cons c rest =>
          have hc : c ≠ wildcard := fun heq => hhead (by rw [heq]; rfl)
          have hrest : ∀ s, matchRec (c :: rest) s = true ↔
              Matches (.lit c :: codeFrom 0 rest) s := by
            intro s
            rw [matchRec_char hc, Glob.matches_lit_iff]
            simp only [List.length_append, List.length_cons] at hn
            exact exists_congr fun s' => and_congr_right fun _ =>
              ih rest.length (by omega) rest s' rfl
          rw [matchRec_run hhead hrest, codeFrom, if_neg hc]

end BlockyOS.HostTool
