import BlockyOS.HostTool.Patterns

/-!
# Runs of stars in patterns

The matcher meets the documentation of a pattern if and only if every run of
stars in it, escaped or not, is one of a few: at most three stars, all of them
wild, or blocks before one escaped star and at most one wild star behind it.
-/

namespace BlockyOS.Kernel

open BlockyOS.Foundation

/-- The kernel's copy differs from the tool's in the allocator it calls only. -/
def pattmatch (pattern str : Bytes) : Bool := HostTool.pattmatch pattern str

end BlockyOS.Kernel

namespace BlockyOS.HostTool

open BlockyOS.Foundation
open BlockyOS.Foundation.Glob (Matches skeleton)

/-- Both matchers find the strings that the documentation of the pattern says. -/
def MatchesRight (pattern : Path) : Prop :=
  ∀ str : Path,
    (pattmatch pattern.chars str.chars = true ↔
      Matches (tokens (signs pattern.chars)) str.chars) ∧
    (Kernel.pattmatch pattern.chars str.chars = true ↔
      Matches (tokens (signs pattern.chars)) str.chars)

def GoodRun (run : List Sign) : Prop :=
  (∃ k ≤ 3, run = List.replicate k .wild) ∨
    ∃ a, run = List.replicate (3 * (a + 1)) .wild ++ [.char wildcard] ∨
      run = List.replicate (3 * (a + 1)) .wild ++ [.char wildcard, .wild]

/-- All the stars between two characters, or between one and an end, are such a run. -/
def GoodStars (ss : List Sign) : Prop :=
  ∀ front run back, ss = front ++ run ++ back → (∀ s ∈ run, s.byte = wildcard) →
    (∀ s ∈ front.getLast?, s.byte ≠ wildcard) → (∀ s ∈ back.head?, s.byte ≠ wildcard) →
    GoodRun run

/-! ## Patterns cut at a character -/

theorem tokens_append_char (c : UInt8) (front back : List Sign) :
    tokens (front ++ .char c :: back) = tokens front ++ .lit c :: tokens back := by
  fun_induction tokens front with
  | case1 => rfl
  | case2 rest ih => exact congrArg (Glob.block :: ·) ih
  | case3 rest hrest ih =>
      rw [List.cons_append, tokens, ih]
      · rfl
      · intro rest' heq
        match rest, heq with
        | [.wild], heq => cases heq
        | .wild :: .wild :: rest', heq => exact hrest rest' rfl
  | case4 d rest ih => exact congrArg (Glob.lit d :: ·) ih

theorem tokens_replicate (k : Nat) {back : List Sign} (hback : back.head? ≠ some .wild) :
    tokens (List.replicate k .wild ++ back) =
      List.replicate (k / 3) .block ++ (List.replicate (k % 3) .any ++ tokens back) := by
  induction k using Nat.strong_induction_on with
  | h k ih =>
      match k with
      | 0 => rfl
      | 1 =>
          change tokens (.wild :: back) = _
          rw [tokens]
          · rfl
          · rintro rest rfl
            exact hback rfl
      | 2 =>
          change tokens (.wild :: .wild :: back) = _
          rw [tokens, tokens]
          · rfl
          · rintro rest rfl
            exact hback rfl
          · rintro rest heq
            rw [(List.cons.inj heq).2] at hback
            exact hback rfl
      | k + 3 =>
          have hdiv : (k + 3) / 3 = k / 3 + 1 := by omega
          rw [hdiv, Nat.add_mod_right]
          exact congrArg (Glob.block :: ·) (ih k (by omega))

theorem codeFrom_append_char {c : UInt8} (hc : c ≠ wildcard) (k : Nat) (front back : Bytes) :
    codeFrom k (front ++ c :: back) = codeFrom k front ++ .lit c :: codeFrom 0 back := by
  induction front generalizing k with
  | nil =>
      rw [List.nil_append, codeFrom.eq_2, if_neg hc]
      rfl
  | cons d front ih =>
      rw [List.cons_append, codeFrom.eq_2, codeFrom.eq_2]
      split
      · exact ih (k + 1)
      · rw [ih, List.append_assoc]
        rfl

theorem map_byte_of_stars {run : List Sign} (hrun : ∀ s ∈ run, s.byte = wildcard) :
    run.map Sign.byte = List.replicate run.length wildcard := by
  rw [List.eq_replicate_iff, List.length_map]
  exact ⟨rfl, List.forall_mem_map.mpr hrun⟩

theorem Sign.eq_of_star {s : Sign} (hs : s.byte = wildcard) : s = .wild ∨ s = .char wildcard := by
  cases s with
  | wild => exact Or.inl rfl
  | char c => exact Or.inr (congrArg Sign.char hs)

theorem Sign.exists_of_not_star {s : Sign} (hs : s.byte ≠ wildcard) :
    ∃ c, s = .char c ∧ c ≠ wildcard := by
  cases s with
  | wild => exact absurd rfl hs
  | char c => exact ⟨c, rfl, hs⟩

/-! ## Runs that are read as documented -/

theorem GoodRun.matches_iff {run : List Sign} (h : GoodRun run) {back : List Sign}
    (hback : back.head? ≠ some .wild) (s : Bytes) :
    Matches (codeRun run.length ++ tokens back) s ↔ Matches (tokens (run ++ back)) s := by
  have hchar : ∀ c (rest : List Sign), (Sign.char c :: rest).head? ≠ some .wild := by
    intro c rest heq
    cases heq
  obtain ⟨k, hk, rfl⟩ | ⟨a, rfl | rfl⟩ := h
  · rw [tokens_replicate k hback, List.length_replicate]
    obtain rfl | rfl | rfl | rfl : k = 0 ∨ k = 1 ∨ k = 2 ∨ k = 3 := by omega
    · rfl
    · rfl
    · rfl
    · rfl
  · rw [List.append_assoc, List.cons_append, tokens_replicate _ (hchar _ _), Nat.mul_mod_right,
      Nat.mul_div_cancel_left _ (by decide)]
    have hrun : codeRun (List.replicate (3 * (a + 1)) Sign.wild ++ [Sign.char wildcard]).length =
        [.block, .lit wildcard] := by
      rw [List.length_append, List.length_replicate, List.length_singleton, codeRun,
        if_neg (by omega), if_neg (by omega), if_pos (by omega)]
    rw [hrun]
    exact (Glob.matches_replicate_block a _ s).symm
  · rw [List.append_assoc, List.cons_append, tokens_replicate _ (hchar _ _), Nat.mul_mod_right,
      Nat.mul_div_cancel_left _ (by decide)]
    have hrun : codeRun (List.replicate (3 * (a + 1)) Sign.wild ++
        [Sign.char wildcard, Sign.wild]).length = [.block, .lit wildcard, .any] := by
      rw [List.length_append, List.length_replicate, List.length_cons, List.length_singleton,
        codeRun, if_neg (by omega), if_neg (by omega), if_neg (by omega), if_pos (by omega)]
    have hwild : tokens (Sign.wild :: back) = .any :: tokens back :=
      tokens_replicate 1 hback
    rw [hrun]
    refine Iff.trans ?_ (Glob.matches_replicate_block a _ s).symm
    change _ ↔ Matches (.block :: .lit wildcard :: tokens (.wild :: back)) s
    rw [hwild]
    rfl

theorem exists_star_run (ss : List Sign) :
    ∃ run back, ss = run ++ back ∧ (∀ s ∈ run, s.byte = wildcard) ∧
      (back = [] ∨ ∃ c rest, back = .char c :: rest ∧ c ≠ wildcard) := by
  induction ss with
  | nil => exact ⟨[], [], rfl, fun _ h => absurd h List.not_mem_nil, Or.inl rfl⟩
  | cons s ss ih =>
      by_cases hs : s.byte = wildcard
      · obtain ⟨run, back, rfl, hrun, hback⟩ := ih
        exact ⟨s :: run, back, rfl, List.forall_mem_cons.mpr ⟨hs, hrun⟩, hback⟩
      · obtain ⟨c, rfl, hc⟩ := Sign.exists_of_not_star hs
        exact ⟨[], .char c :: ss, rfl, fun _ h => absurd h List.not_mem_nil,
          Or.inr ⟨c, ss, rfl, hc⟩⟩

theorem GoodStars.matches_iff {ss : List Sign} (h : GoodStars ss) (s : Bytes) :
    Matches (codeFrom 0 (ss.map Sign.byte)) s ↔ Matches (tokens ss) s := by
  generalize hn : ss.length = n
  induction n using Nat.strong_induction_on generalizing ss s with
  | h n ih =>
      obtain ⟨run, back, rfl, hrun, hback⟩ := exists_star_run ss
      rw [List.map_append, map_byte_of_stars hrun, codeFrom_replicate, Nat.zero_add]
      rcases hback with rfl | ⟨c, rest, rfl, hc⟩
      · have hgood : GoodRun run :=
          h [] run [] rfl hrun (by simp) (by simp)
        have hiff := hgood.matches_iff (show ([] : List Sign).head? ≠ some .wild by simp) s
        rw [tokens, List.append_nil] at hiff
        exact hiff
      · have hgood : GoodRun run :=
          h [] run (.char c :: rest) rfl hrun (by simp) fun s hs => by
            obtain rfl : Sign.char c = s := Option.some.inj hs
            exact hc
        have hrest : GoodStars rest := by
          rintro front run' back rfl hrun' hfront hback
          refine h (run ++ .char c :: front) run' back ?_ hrun' ?_ hback
          · simp only [List.append_assoc, List.cons_append]
          · intro s hs
            cases front with
            | nil =>
                rw [List.getLast?_append_of_ne_nil _ (by simp)] at hs
                obtain rfl : Sign.char c = s := Option.some.inj hs
                exact hc
            | cons s' front =>
                rw [List.getLast?_append_of_ne_nil _ (by simp), List.getLast?_cons_cons] at hs
                exact hfront s hs
        simp only [List.length_append, List.length_cons] at hn
        rw [← hgood.matches_iff (by simp) s, List.map_cons, codeFrom, Sign.byte, if_neg hc]
        change _ ↔ Matches (codeRun run.length ++ .lit c :: tokens rest) s
        refine Glob.matches_append_congr _ (fun t => ?_) s
        simp only [Glob.matches_lit_iff]
        exact exists_congr fun t' => and_congr_right fun _ =>
          ih rest.length (by omega) hrest t' rfl

/-! ## Runs in a pattern that is read as documented -/

def IsSeparator (place : Option UInt8) : Prop := ∃ c, place = some c ∧ c ≠ wildcard

instance : DecidablePred IsSeparator := fun place =>
  match place with
  | none => .isFalse fun ⟨_, h, _⟩ => nomatch h
  | some c =>
      if h : c = wildcard then .isFalse fun ⟨_, heq, hc⟩ => hc (Option.some.inj heq ▸ h)
      else .isTrue ⟨c, rfl, h⟩

theorem not_isSeparator_none : ¬ IsSeparator none := by
  rintro ⟨c, h, -⟩
  cases h

theorem isSeparator_some {c : UInt8} : IsSeparator (some c) ↔ c ≠ wildcard := by
  constructor
  · rintro ⟨d, h, hd⟩
    rwa [Option.some.inj h]
  · intro hc
    exact ⟨c, rfl, hc⟩

theorem skeleton_codeRun (k : Nat) : ∀ place ∈ skeleton (codeRun k), ¬ IsSeparator place := by
  have hstar : ¬ IsSeparator (some wildcard) := fun h => isSeparator_some.mp h rfl
  have hnone := not_isSeparator_none
  by_cases hk : k < 4
  · obtain rfl | rfl | rfl | rfl : k = 0 ∨ k = 1 ∨ k = 2 ∨ k = 3 := by omega
    all_goals simp [codeRun, skeleton, hnone]
  · rw [codeRun, if_neg (by omega), if_neg (by omega)]
    split
    · simp [skeleton, hstar]
    · split
      · simp [skeleton, hstar, hnone]
      · simp [skeleton, hstar]

theorem countP_codeFrom (k : Nat) (u : Bytes) :
    (skeleton (codeFrom k u)).countP IsSeparator = u.countP (· ≠ wildcard) := by
  have hrun : ∀ k, (skeleton (codeRun k)).countP IsSeparator = 0 := by
    intro k
    rw [List.countP_eq_zero]
    exact fun place hplace h => skeleton_codeRun k place hplace (of_decide_eq_true h)
  induction u generalizing k with
  | nil => exact hrun k
  | cons c u ih =>
      rw [codeFrom]
      split
      case isTrue hc =>
        rw [ih, List.countP_cons_of_neg (by simpa using hc)]
      case isFalse hc =>
        rw [Glob.skeleton_append, List.countP_append, hrun, skeleton, List.countP_cons,
          if_pos (decide_eq_true (isSeparator_some.mpr hc)), ih, List.countP_cons,
          if_pos (by simpa using hc), Nat.zero_add]

theorem countP_tokens (ss : List Sign) :
    (skeleton (tokens ss)).countP IsSeparator = ss.countP (·.byte ≠ wildcard) := by
  fun_induction tokens ss with
  | case1 => rfl
  | case2 rest ih => exact ih
  | case3 rest _ ih =>
      rw [skeleton, List.countP_cons_of_neg (by simpa using not_isSeparator_none), ih,
        List.countP_cons_of_neg (by simp [Sign.byte])]
  | case4 c rest ih =>
      rw [skeleton, List.countP_cons, List.countP_cons, ih]
      congr 1
      rw [decide_eq_decide.mpr (@isSeparator_some c)]
      rfl

theorem exists_concat_char {front : List Sign} (hfront : ∀ s ∈ front.getLast?, s.byte ≠ wildcard) :
    front = [] ∨ ∃ init c, front = init ++ [.char c] ∧ c ≠ wildcard := by
  rcases List.eq_nil_or_concat front with rfl | ⟨init, s, rfl⟩
  · exact Or.inl rfl
  · obtain ⟨c, rfl, hc⟩ := Sign.exists_of_not_star (hfront s (by simp))
    exact Or.inr ⟨init, c, List.concat_eq_append, hc⟩

section Front

variable {front : List Sign} (hfront : ∀ s ∈ front.getLast?, s.byte ≠ wildcard)

include hfront

theorem tokens_front (back : List Sign) : tokens (front ++ back) = tokens front ++ tokens back := by
  obtain rfl | ⟨init, c, rfl, -⟩ := exists_concat_char hfront
  · rfl
  · rw [List.append_assoc, List.singleton_append, tokens_append_char, tokens_append_char,
      List.append_assoc]
    rfl

theorem codeFrom_front (u : Bytes) :
    codeFrom 0 (front.map Sign.byte ++ u) = codeFrom 0 (front.map Sign.byte) ++ codeFrom 0 u := by
  obtain rfl | ⟨init, c, rfl, hc⟩ := exists_concat_char hfront
  · rfl
  · rw [List.map_append, List.append_assoc]
    change codeFrom 0 (init.map Sign.byte ++ c :: u) = codeFrom 0 (init.map Sign.byte ++ [c]) ++ _
    rw [codeFrom_append_char hc, codeFrom_append_char hc, List.append_assoc]
    rfl

theorem skeleton_front :
    (∀ place ∈ (skeleton (tokens front)).getLast?, IsSeparator place) ∧
      ∀ place ∈ (skeleton (codeFrom 0 (front.map Sign.byte))).getLast?, IsSeparator place := by
  obtain rfl | ⟨init, c, rfl, hc⟩ := exists_concat_char hfront
  · exact ⟨by simp [tokens, skeleton], by simp [codeFrom, codeRun, skeleton]⟩
  · rw [List.map_append, List.map_singleton, Sign.byte, codeFrom_append_char hc,
      tokens_append_char, Glob.skeleton_append, Glob.skeleton_append]
    have hlast : ∀ places : List (Option UInt8), ∀ place ∈ (places ++ [some c]).getLast?,
        IsSeparator place := by
      intro places place hplace
      rw [List.getLast?_concat] at hplace
      obtain rfl := Option.some.inj hplace
      exact isSeparator_some.mpr hc
    exact ⟨hlast _, hlast _⟩

end Front

section Back

variable {back : List Sign} (hback : back = [] ∨ ∃ c rest, back = .char c :: rest ∧ c ≠ wildcard)

include hback

theorem tokens_back (run : List Sign) : tokens (run ++ back) = tokens run ++ tokens back := by
  obtain rfl | ⟨c, rest, rfl, -⟩ := hback
  · rw [List.append_nil, tokens, List.append_nil]
  · exact tokens_append_char c run rest

theorem codeFrom_back (k : Nat) :
    codeFrom k (back.map Sign.byte) = codeRun k ++ codeFrom 0 (back.map Sign.byte) := by
  obtain rfl | ⟨c, rest, rfl, hc⟩ := hback
  · exact (List.append_nil _).symm
  · rw [List.map_cons, Sign.byte, codeFrom.eq_2, if_neg hc, codeFrom.eq_2, if_neg hc]
    rfl

theorem skeleton_back :
    (∀ place ∈ (skeleton (tokens back)).head?, IsSeparator place) ∧
      ∀ place ∈ (skeleton (codeFrom 0 (back.map Sign.byte))).head?, IsSeparator place := by
  obtain rfl | ⟨c, rest, rfl, hc⟩ := hback
  · exact ⟨by simp [tokens, skeleton], by simp [codeFrom, codeRun, skeleton]⟩
  · rw [List.map_cons, Sign.byte, codeFrom.eq_2, if_neg hc]
    have hhead : ∀ place ∈ some (some c), IsSeparator place := by
      intro place hplace
      obtain rfl := Option.some.inj hplace
      exact isSeparator_some.mpr hc
    exact ⟨hhead, hhead⟩

end Back

/-! ## Stars of a run -/

theorem skeleton_replicate_any (k : Nat) (gs : List (Glob UInt8)) :
    skeleton (List.replicate k .any ++ gs) = List.replicate k none ++ skeleton gs := by
  induction k with
  | zero => rfl
  | succ k ih => exact congrArg (none :: ·) ih

theorem skeleton_replicate_block (k : Nat) (gs : List (Glob UInt8)) :
    skeleton (List.replicate k .block ++ gs) = skeleton gs := by
  induction k with
  | zero => rfl
  | succ k ih => exact ih

theorem skeleton_wild (k : Nat) :
    skeleton (tokens (List.replicate k .wild)) = List.replicate (k % 3) none := by
  have htokens := @tokens_replicate k [] (by simp)
  rw [List.append_nil] at htokens
  rw [htokens, skeleton_replicate_block, skeleton_replicate_any]
  exact List.append_nil _

theorem skeleton_wild_star (k : Nat) (run : List Sign) :
    skeleton (tokens (List.replicate k .wild ++ .char wildcard :: run)) =
      List.replicate (k % 3) none ++ some wildcard :: skeleton (tokens run) := by
  rw [tokens_replicate k (by simp), skeleton_replicate_block, skeleton_replicate_any]
  rfl

theorem exists_wild {run : List Sign} (hrun : ∀ s ∈ run, s.byte = wildcard) :
    ∃ k, run = List.replicate k .wild ∨
      ∃ rest, run = List.replicate k .wild ++ .char wildcard :: rest ∧
        ∀ s ∈ rest, s.byte = wildcard := by
  induction run with
  | nil => exact ⟨0, Or.inl rfl⟩
  | cons s run ih =>
      obtain ⟨hs, hrest⟩ := List.forall_mem_cons.mp hrun
      rcases Sign.eq_of_star hs with rfl | rfl
      · obtain ⟨k, rfl | ⟨rest, rfl, hstars⟩⟩ := ih hrest
        · exact ⟨k + 1, Or.inl rfl⟩
        · exact ⟨k + 1, Or.inr ⟨rest, rfl, hstars⟩⟩
      · exact ⟨0, Or.inr ⟨run, rfl, hrest⟩⟩

theorem skeleton_codeRun_short {k : Nat} (hk : k < 4) : some wildcard ∉ skeleton (codeRun k) := by
  obtain rfl | rfl | rfl | rfl : k = 0 ∨ k = 1 ∨ k = 2 ∨ k = 3 := by omega
  all_goals decide

theorem skeleton_codeRun_long {k : Nat} (hk : 4 ≤ k) :
    skeleton (codeRun k) = some wildcard :: List.replicate (if k % 3 = 2 then 1 else 0) none := by
  rw [codeRun, if_neg (by omega), if_neg (by omega)]
  have hlt : k % 3 < 3 := Nat.mod_lt k (by decide)
  obtain h | h | h : k % 3 = 0 ∨ k % 3 = 1 ∨ k % 3 = 2 := by omega
  all_goals
    rw [h]
    rfl

structure Misread (run : List Sign) (m n : Nat) : Prop where
  eq : run = List.replicate m .wild ++ .char wildcard :: List.replicate n .wild
  front_mod : m % 3 = 0
  three_le : 3 ≤ n
  long : 4 ≤ run.length
  short : run.length % 3 = 1 ∨ run.length % 3 = 2

section Misread

variable {run : List Sign} {m n : Nat} (h : Misread run m n)

include h

theorem Misread.exists_tokens : ∃ a behind, tokens run =
    List.replicate a .block ++ .lit wildcard :: .block :: behind := by
  have hback := @tokens_replicate n [] (by simp)
  have hn := h.three_le
  obtain ⟨j, hj⟩ : ∃ j, n / 3 = j + 1 := ⟨n / 3 - 1, by omega⟩
  rw [List.append_nil, hj, List.replicate_succ, List.cons_append] at hback
  refine ⟨m / 3, List.replicate j .block ++ (List.replicate (n % 3) .any ++ tokens []), ?_⟩
  rw [h.eq, tokens_replicate _ (by simp), h.front_mod, tokens.eq_4, hback]
  rfl

theorem Misread.exists_codeRun :
    ∃ middle, codeRun run.length = .block :: .lit wildcard :: middle ∧ .block ∉ middle := by
  have hlong := h.long
  rw [codeRun, if_neg (by omega), if_neg (by omega)]
  rcases h.short with hmod | hmod
  · exact ⟨[], by rw [if_pos hmod], List.not_mem_nil⟩
  · exact ⟨[.any], by rw [if_neg (by omega), if_pos hmod], by decide⟩

end Misread

theorem goodRun_of_skeleton {run : List Sign} (hrun : ∀ s ∈ run, s.byte = wildcard)
    (h : skeleton (codeRun run.length) = skeleton (tokens run)) :
    GoodRun run ∨ ∃ m n, Misread run m n := by
  obtain ⟨m, rfl | ⟨rest, rfl, hrest⟩⟩ := exists_wild hrun
  · left
    rw [skeleton_wild, List.length_replicate] at h
    by_cases hm : m < 4
    · exact Or.inl ⟨m, by omega, rfl⟩
    · rw [skeleton_codeRun_long (by omega)] at h
      have hmem : some wildcard ∈ List.replicate (m % 3) none := h ▸ List.mem_cons_self
      cases List.eq_of_mem_replicate hmem
  · rw [skeleton_wild_star] at h
    have hlong : 4 ≤ (List.replicate m Sign.wild ++ .char wildcard :: rest).length := by
      by_contra hk
      refine skeleton_codeRun_short (Nat.lt_of_not_le hk) ?_
      rw [h]
      exact List.mem_append_right _ List.mem_cons_self
    rw [skeleton_codeRun_long hlong] at h
    have hm : m % 3 = 0 := by
      by_contra hne
      obtain ⟨j, hj⟩ := Nat.exists_eq_succ_of_ne_zero hne
      rw [hj, List.replicate_succ] at h
      cases (List.cons.inj h).1
    rw [hm, List.replicate_zero, List.nil_append] at h
    replace h := (List.cons.inj h).2
    obtain ⟨n, rfl | ⟨rest', rfl, -⟩⟩ := exists_wild hrest
    · have hn := congrArg List.length h
      rw [skeleton_wild, List.length_replicate, List.length_replicate] at hn
      simp only [List.length_append, List.length_cons, List.length_replicate] at hn hlong
      by_cases hback : 3 ≤ n
      · refine Or.inr ⟨m, n, rfl, hm, hback, ?_, ?_⟩
        · simpa only [List.length_append, List.length_cons, List.length_replicate] using hlong
        · simp only [List.length_append, List.length_cons, List.length_replicate]
          split at hn
          · omega
          · omega
      · obtain ⟨a, rfl⟩ : ∃ a, m = 3 * (a + 1) := ⟨m / 3 - 1, by omega⟩
        obtain rfl | rfl : n = 0 ∨ n = 1 := by
          split at hn
          · omega
          · omega
        · exact Or.inl (Or.inr ⟨a, Or.inl rfl⟩)
        · exact Or.inl (Or.inr ⟨a, Or.inr rfl⟩)
    · rw [skeleton_wild_star] at h
      generalize (if _ % 3 = 2 then 1 else 0) = j at h
      have hmem : some wildcard ∈ List.replicate j none :=
        h ▸ List.mem_append_right _ List.mem_cons_self
      cases List.eq_of_mem_replicate hmem

/-! ## Patterns that are read as documented -/

theorem ne_zero_of_mem_codeFrom {u : Bytes} (hu : 0 ∉ u) (k : Nat) :
    ∀ a, some a ∈ skeleton (codeFrom k u) → a ≠ 0 := by
  have hrun : ∀ k a, some a ∈ skeleton (codeRun k) → a ≠ 0 := by
    intro k a ha hzero
    have hsep : IsSeparator (some a) := isSeparator_some.mpr (by rw [hzero]; decide)
    exact skeleton_codeRun k _ ha hsep
  induction u generalizing k with
  | nil => exact hrun k
  | cons c u ih =>
      have hrest := ih (fun h => hu (List.mem_cons_of_mem _ h))
      intro a ha
      rw [codeFrom] at ha
      split at ha
      · exact hrest _ a ha
      · rw [Glob.skeleton_append, List.mem_append] at ha
        rcases ha with ha | ha
        · exact hrun k a ha
        · rcases List.mem_cons.mp ha with ha | ha
          · rw [Option.some.inj ha]
            rintro rfl
            exact hu List.mem_cons_self
          · exact hrest 0 a ha

theorem ne_zero_of_mem_tokens {ss : List Sign} (hss : 0 ∉ ss.map Sign.byte) :
    ∀ a, some a ∈ skeleton (tokens ss) → a ≠ 0 := by
  fun_induction tokens ss with
  | case1 => exact fun _ ha => absurd ha List.not_mem_nil
  | case2 rest ih => exact ih fun h => hss (by simp [h])
  | case3 rest _ ih =>
      intro a ha
      rcases List.mem_cons.mp ha with ha | ha
      · cases ha
      · exact ih (fun h => hss (by simp [h])) a ha
  | case4 c rest ih =>
      intro a ha
      rcases List.mem_cons.mp ha with ha | ha
      · rw [Option.some.inj ha]
        rintro rfl
        exact hss List.mem_cons_self
      · exact ih (fun h => hss (by simp [h])) a ha

theorem exists_letter (back : List Sign) : ∃ f : UInt8, f ≠ 0 ∧ f ≠ wildcard ∧
    ∀ c rest, back = .char c :: rest → f ≠ c := by
  by_cases h : ∃ rest, back = .char 1 :: rest
  · obtain ⟨rest, rfl⟩ := h
    refine ⟨2, by decide, by decide, fun c rest' heq => ?_⟩
    obtain rfl := Sign.char.inj (List.cons.inj heq).1
    decide
  · refine ⟨1, by decide, by decide, fun c rest heq hc => ?_⟩
    exact h ⟨rest, by rw [heq, ← hc]⟩

theorem goodStars_of_agree {ss : List Sign} (hss : 0 ∉ ss.map Sign.byte)
    (hagree : Glob.Agree (· ≠ 0) (tokens ss) (codeFrom 0 (ss.map Sign.byte))) : GoodStars ss := by
  rintro front run back rfl hrun hfront hback
  replace hback : back = [] ∨ ∃ c rest, back = .char c :: rest ∧ c ≠ wildcard := by
    cases back with
    | nil => exact Or.inl rfl
    | cons s rest =>
        obtain ⟨c, rfl, hc⟩ := Sign.exists_of_not_star (hback s rfl)
        exact Or.inr ⟨c, rest, rfl, hc⟩
  have hskeleton := Glob.skeleton_eq hagree (ne_zero_of_mem_tokens hss)
    (ne_zero_of_mem_codeFrom hss 0) (show (1 : UInt8) ≠ 0 by decide)
    (show (2 : UInt8) ≠ 0 by decide) (by decide)
  have hlits := ne_zero_of_mem_codeFrom hss 0
  -- Both patterns are cut before the run and behind it.
  have hcode : codeFrom 0 ((front ++ run ++ back).map Sign.byte) =
      codeFrom 0 (front.map Sign.byte) ++
        (codeRun run.length ++ codeFrom 0 (back.map Sign.byte)) := by
    rw [List.append_assoc, List.map_append, List.map_append, codeFrom_front hfront,
      map_byte_of_stars hrun, codeFrom_replicate, Nat.zero_add, codeFrom_back hback]
  have htokens : tokens (front ++ run ++ back) = tokens front ++ (tokens run ++ tokens back) := by
    rw [List.append_assoc, tokens_front hfront, tokens_back hback]
  rw [hcode] at hagree hskeleton hlits
  rw [htokens] at hagree hskeleton
  have hcut := hskeleton
  rw [Glob.skeleton_append, Glob.skeleton_append (codeFrom _ _)] at hcut
  have hplaces : skeleton (tokens front) = skeleton (codeFrom 0 (front.map Sign.byte)) := by
    refine append_eq_of_countP hcut ?_ (skeleton_front hfront).1 (skeleton_front hfront).2
    rw [countP_tokens, countP_codeFrom, List.countP_map]
    rfl
  rw [hplaces] at hcut
  replace hcut := List.append_cancel_left hcut
  rw [Glob.skeleton_append, Glob.skeleton_append] at hcut
  have hstars : ∀ place ∈ skeleton (tokens run), ¬ IsSeparator place := by
    have hzero : (skeleton (tokens run)).countP IsSeparator = 0 := by
      rw [countP_tokens, List.countP_eq_zero]
      exact fun s hs h => of_decide_eq_true h (hrun s hs)
    exact fun place hplace h => List.countP_eq_zero.mp hzero place hplace (decide_eq_true h)
  have hsame := append_inj_of_separated hcut hstars (skeleton_codeRun _)
    (skeleton_back hback).1 (skeleton_back hback).2
  rcases goodRun_of_skeleton hrun hsame.symm with hgood | ⟨m, n, hmis⟩
  · exact hgood
  · exfalso
    obtain ⟨a, behind, hrunTokens⟩ := hmis.exists_tokens
    obtain ⟨middle, hrunCode, hmiddle⟩ := hmis.exists_codeRun
    obtain ⟨f, hzero, hstar, hnext⟩ := exists_letter back
    have hleft : tokens front ++ (tokens run ++ tokens back) =
        (tokens front ++ (List.replicate a .block ++ [.lit wildcard])) ++
          .block :: (behind ++ tokens back) := by
      rw [hrunTokens]
      simp only [List.append_assoc, List.cons_append, List.nil_append]
    have hright : codeFrom 0 (front.map Sign.byte) ++
        (codeRun run.length ++ codeFrom 0 (back.map Sign.byte)) =
        (codeFrom 0 (front.map Sign.byte) ++ [.block]) ++
          .lit wildcard :: (middle ++ codeFrom 0 (back.map Sign.byte)) := by
      rw [hrunCode]
      simp only [List.append_assoc, List.cons_append, List.nil_append]
    rw [hleft, hright] at hagree hskeleton
    rw [hright] at hlits
    have hbefore : skeleton (tokens front ++ (List.replicate a .block ++ [.lit wildcard])) =
        skeleton (codeFrom 0 (front.map Sign.byte) ++ [.block]) ++ some wildcard :: [] := by
      rw [Glob.skeleton_append, hplaces, skeleton_replicate_block, Glob.skeleton_append]
      exact congrArg (· ++ [some wildcard]) (List.append_nil _).symm
    refine Glob.not_agree_of_block_behind hagree hskeleton hlits hzero hstar hbefore
      (fun _ h => absurd h List.not_mem_nil) hmiddle ?_
    obtain rfl | ⟨c, rest, rfl, hc⟩ := hback
    · exact Or.inl rfl
    · refine Or.inr ⟨c, codeFrom 0 (rest.map Sign.byte), ?_, hnext c rest rfl⟩
      rw [List.map_cons, Sign.byte, codeFrom.eq_2, if_neg hc]
      rfl

theorem mem_of_mem_signs {pattern : Bytes} {s : Sign} (hs : s ∈ signs pattern) :
    s.byte ∈ pattern := by
  fun_induction signs pattern with
  | case1 => exact absurd hs List.not_mem_nil
  | case2 c =>
      rw [List.mem_singleton.mp hs, Sign.byte_of]
      exact List.mem_cons_self
  | case3 d rest ih =>
      rcases List.mem_cons.mp hs with rfl | hs
      · exact List.mem_cons_of_mem _ List.mem_cons_self
      · exact List.mem_cons_of_mem _ (List.mem_cons_of_mem _ (ih hs))
  | case4 c d rest hc ih =>
      rcases List.mem_cons.mp hs with rfl | hs
      · rw [Sign.byte_of]
        exact List.mem_cons_self
      · exact List.mem_cons_of_mem _ (ih hs)

/-- The stars of a pattern decide whether it is read as documented. -/
theorem matchesRight_iff (pattern : Path) :
    MatchesRight pattern ↔ GoodStars (signs pattern.chars) := by
  have hcode : ∀ str : Path, pattmatch pattern.chars str.chars = true ↔
      Matches (codeFrom 0 ((signs pattern.chars).map Sign.byte)) str.chars := by
    intro str
    rw [pattmatch, unescape_eq, matchRec_iff]
  have hzero : 0 ∉ (signs pattern.chars).map Sign.byte := by
    intro h
    obtain ⟨s, hs, heq⟩ := List.mem_map.mp h
    exact pattern.terminated (heq ▸ mem_of_mem_signs hs)
  constructor
  · intro h
    refine goodStars_of_agree hzero fun s hs => ?_
    have hstr : 0 ∉ s := fun hmem => hs 0 hmem rfl
    rw [← (h ⟨s, hstr⟩).1, hcode ⟨s, hstr⟩]
  · intro h str
    have hiff := (hcode str).trans (h.matches_iff str.chars)
    exact ⟨hiff, hiff⟩

/-- An escaped star matches any character. -/
theorem not_matchesRight_escaped : ¬ MatchesRight ⟨[pathNoSep, wildcard], by decide⟩ := by
  intro h
  have hmatch := (h ⟨[0x61], by decide⟩).1.mp (by decide)
  obtain ⟨rest, heq, -⟩ := Glob.matches_lit_iff.mp hmatch
  exact absurd (List.cons.inj heq).1 (by decide)

end BlockyOS.HostTool
