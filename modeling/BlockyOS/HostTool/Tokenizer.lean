import BlockyOS.Foundation.Segments
import BlockyOS.HostTool.Raw
import BlockyOS.HostTool.ClusterMap

/-!
# The tokenizer of the shell

`strtok_i` copies a string, and every call of `strtok_k` puts a terminator into
the copy behind the token it returns.  A pointer into the copy is an offset.
-/

namespace BlockyOS.HostTool

open BlockyOS.Foundation

/-! ## The functions -/

abbrev StrTokFlags := BitVec 32

def forceSameBorderingDelims : StrTokFlags := 0x1
def forceDifferentBorderingDelims : StrTokFlags := 0x2
def forceStartingDelim : StrTokFlags := 0x80000000
def forceEndingDelim : StrTokFlags := 0x00002000

/-- `flagcheck` of a flag of the tokenizer. -/
def StrTokFlags.has (enables f : StrTokFlags) : Bool := enables &&& f == f

structure StrTok where
  dup : Bytes
  tok : Option Nat
  delims : Bytes
  sdelim : UInt8
  edelim : UInt8
  flags : StrTokFlags
  deriving DecidableEq, Repr

/-- `strcheck` of a string of delimiters. -/
def isDelim (delims : Bytes) (c : UInt8) : Bool := delims.contains c

/-- The state, or `NULL`; the byte before an empty string is read. -/
def strtokI (inp delims : Bytes) (enables : StrTokFlags) : Except Fault (Option StrTok) :=
  if (enables.has forceSameBorderingDelims || enables.has forceDifferentBorderingDelims) &&
      (enables.has forceEndingDelim || enables.has forceStartingDelim) then .ok none
  else if enables.has forceSameBorderingDelims && enables.has forceDifferentBorderingDelims then
    .ok none
  else
    match inp.head?, inp.getLast? with
    | some first, some last => .ok (some ⟨inp ++ [0], none, delims, first, last, enables⟩)
    | _, _ => .error .outOfBounds

def spanTo (stop : UInt8 → Bool) : Bytes → Except Fault Nat
  | [] => .error .outOfBounds
  | c :: rest =>
      if c = 0 then .ok 0
      else
        match rest with
        | [] => .error .outOfBounds
        | next :: _ =>
            if next = 0 ∨ stop c = true then .ok 0
            else (spanTo stop rest).map (· + 1)

def strspn (src delims : Bytes) : Except Fault Nat := spanTo (isDelim delims) src

def nstrspn (src delims : Bytes) : Except Fault Nat := spanTo (fun c => !isDelim delims c) src

def readChar (dup : Bytes) (p : Nat) : Except Fault UInt8 :=
  match dup[p]? with
  | none => .error .outOfBounds
  | some c => .ok c

/-- What the flags say of the token that ends at `s`: the place behind which to go on, or `edel`. -/
def borders (t : StrTok) (s : Nat) (sdel : UInt8) : Except Fault (Nat ⊕ UInt8) :=
  let different (edel : UInt8) : Nat ⊕ UInt8 :=
    if t.flags &&& forceDifferentBorderingDelims ≠ 0 ∧ sdel = edel then .inl s else .inr edel
  if t.flags.has forceSameBorderingDelims then
    match strspn (t.dup.drop s) t.delims with
    | .error e => .error e
    | .ok n =>
        match readChar t.dup (s + n) with
        | .error e => .error e
        | .ok c => .ok (if c ≠ 0 ∧ c ≠ sdel then .inl (s + n) else different c)
  else .ok (different 0)

def endToken (t : StrTok) (s : Nat) (sdel edel : UInt8) : StrTok :=
  { t with
    sdelim := if t.flags &&& forceStartingDelim ≠ 0 then sdel ||| 0x80 else sdel
    edelim := if t.flags &&& forceEndingDelim ≠ 0 then edel ||| 0x00 else edel
    dup := t.dup.set s 0
    tok := some (s + 1) }

/-- The token, and the state behind it; `fuel` bounds the tokens that the flags skip. -/
def strtokK : Nat → StrTok → Except Fault (Option Nat × StrTok)
  | 0, _ => .error .hang
  | fuel + 1, t =>
      if t.edelim = 0 ∨ t.sdelim = 0 then .ok (none, t)
      else
        let p := t.tok.getD 0
        match nstrspn (t.dup.drop p) t.delims with
        | .error e => .error e
        | .ok skipped =>
            let start := p + skipped
            match readChar t.dup start with
            | .error e => .error e
            | .ok c =>
                if c = 0 then .ok (none, { t with tok := none })
                else
                  match if isDelim t.delims c then .ok 0
                      else strspn (t.dup.drop start) t.delims with
                  | .error e => .error e
                  | .ok length =>
                      let s := start + length
                      match readChar t.dup s with
                      | .error e => .error e
                      | .ok sdel =>
                          if sdel = 0 then
                            .ok (some start, { t with sdelim := 0, edelim := 0, tok := none })
                          else
                            match borders t s sdel with
                            | .error e => .error e
                            | .ok (.inl behind) => strtokK fuel { t with tok := some (behind + 1) }
                            | .ok (.inr edel) => .ok (some start, endToken t s sdel edel)

/-- The string that a pointer is to. -/
def cstring (src : Bytes) : Bytes := src.takeWhile (· ≠ 0)

/-- The tokens of the calls up to the first one that returns `NULL`. -/
def callAll : Nat → StrTok → Except Fault (List Bytes)
  | 0, _ => .error .hang
  | calls + 1, t =>
      match strtokK (t.dup.length + 1) t with
      | .error e => .error e
      | .ok (none, _) => .ok []
      | .ok (some start, t') => (callAll calls t').map (cstring (t'.dup.drop start) :: ·)

def tokenize (inp delims : Bytes) (enables : StrTokFlags) : Except Fault (List Bytes) :=
  match strtokI inp delims enables with
  | .error e => .error e
  | .ok none => .ok []
  | .ok (some t) => callAll (inp.length + 2) t

/-! ## What they are for -/

/-- The flags of the shell: for the version of a file system, and for a command. -/
inductive ShellUse where
  | version
  | command
  deriving DecidableEq, Repr

def ShellUse.flags : ShellUse → StrTokFlags
  | .version => 0
  | .command => forceSameBorderingDelims

def Agrees (segment : Segment UInt8) : Bool :=
  match segment.before, segment.behind with
  | some sdel, some edel => sdel == edel
  | _, _ => true

def ShellUse.wanted (use : ShellUse) (inp delims : Bytes) : List Bytes :=
  let all := segments (isDelim delims) inp
  match use with
  | .version => all.map Segment.text
  | .command => (all.filter Agrees).map Segment.text

def TokensRight (use : ShellUse) (inp delims : Path) : Prop :=
  tokenize inp.chars delims.chars use.flags = .ok (use.wanted inp.chars delims.chars)

def EndsOnce (inp delims : Bytes) : Prop :=
  ∃ front c d, inp = front ++ [c, d] ∧ isDelim delims c = false ∧ isDelim delims d = true

/-- The strings whose tokens come out right. -/
def ShellUse.Suits (use : ShellUse) (inp delims : Bytes) : Prop :=
  match use with
  | .version => ∃ segment, segments (isDelim delims) inp = [segment] ∧ segment.behind ≠ none
  | .command => EndsOnce inp delims ∧ ∀ segment ∈ segments (isDelim delims) inp, Agrees segment

/-! ## One call -/

theorem spanTo_eq {stop : UInt8 → Bool} {skipped rest : Bytes} {c : UInt8}
    (hskipped : ∀ a ∈ skipped, a ≠ 0 ∧ stop a = false) (hc : c ≠ 0)
    (hstop : stop c = true ∨ rest.head? = some 0) (hrest : rest ≠ []) :
    spanTo stop (skipped ++ c :: rest) = .ok skipped.length := by
  induction skipped with
  | nil =>
      cases rest with
      | nil => exact absurd rfl hrest
      | cons next rest =>
          have hlast : next = 0 ∨ stop c = true := by
            rcases hstop with h | h
            · exact Or.inr h
            · exact Or.inl (Option.some.inj h)
          rw [List.nil_append, spanTo, if_neg hc]
          simp only [if_pos hlast, List.length_nil]
  | cons a skipped ih =>
      obtain ⟨⟨ha, hgo⟩, hrest⟩ := List.forall_mem_cons.mp hskipped
      obtain ⟨next, more, hnext, hzero⟩ : ∃ next more, skipped ++ c :: rest = next :: more ∧
          next ≠ 0 := by
        cases skipped with
        | nil => exact ⟨c, rest, rfl, hc⟩
        | cons b skipped => exact ⟨b, skipped ++ c :: rest, rfl, (hrest b List.mem_cons_self).1⟩
      have hon : ¬ (next = 0 ∨ stop a = true) := by
        rintro (h | h)
        · exact hzero h
        · rw [hgo] at h
          cases h
      rw [List.cons_append, spanTo.eq_def]
      rw [hnext] at ih ⊢
      simp only [if_neg ha, if_neg hon, ih hrest]
      rfl

theorem readChar_append (past : Bytes) (c : UInt8) (rest : Bytes) :
    readChar (past ++ c :: rest) past.length = .ok c := by
  rw [readChar, List.getElem?_append_right (Nat.le_refl _), Nat.sub_self]
  rfl

/-- A state of either use whose unread part is `s`. -/
structure StrTok.At (use : ShellUse) (delims past s : Bytes) (t : StrTok) : Prop where
  dup_eq : t.dup = past ++ (s ++ [0])
  tok_eq : t.tok.getD 0 = past.length
  delims_eq : t.delims = delims
  flags_eq : t.flags = use.flags
  sdelim_ne : t.sdelim ≠ 0
  edelim_ne : t.edelim ≠ 0

def ShellUse.edelim (use : ShellUse) (c : UInt8) : UInt8 :=
  match use with
  | .version => 0
  | .command => c

theorem borders_eq {use : ShellUse} {t : StrTok} (hflags : t.flags = use.flags) {past rest : Bytes}
    {c : UInt8} (hdup : t.dup = past ++ (c :: rest)) (hc : c ≠ 0) (hrest : rest ≠ [])
    (hstop : isDelim t.delims c = true ∨ rest.head? = some 0) :
    borders t past.length c = .ok (.inr (use.edelim c)) := by
  cases use with
  | version =>
      rw [borders, hflags]
      rfl
  | command =>
      have hspan : strspn (t.dup.drop past.length) t.delims = .ok 0 := by
        rw [hdup, List.drop_left]
        exact @spanTo_eq _ [] rest c (fun _ h => absurd h List.not_mem_nil) hc hstop hrest
      have hread : readChar t.dup (past.length + 0) = .ok c := by
        rw [hdup]
        exact readChar_append past c rest
      rw [borders, hflags]
      simp only [hspan, hread, ne_eq, not_true_eq_false, and_false, if_false]
      rfl

theorem endToken_eq {use : ShellUse} {t : StrTok} (hflags : t.flags = use.flags) (s : Nat)
    (sdel edel : UInt8) : endToken t s sdel edel =
      { t with sdelim := sdel, edelim := edel, dup := t.dup.set s 0, tok := some (s + 1) } := by
  rw [endToken, hflags]
  cases use with
  | version => rfl
  | command => rfl

section Step

variable {use : ShellUse} {delims past seps text rest : Bytes} {c : UInt8} {t : StrTok}
  (ht : t.At use delims past (seps ++ (text ++ c :: rest)))
  (hseps : ∀ a ∈ seps, isDelim delims a = true) (htext : ∀ a ∈ text, isDelim delims a = false)
  (hend : text ≠ [] ∧ isDelim delims c = true ∨ rest = [])
  (hzero : 0 ∉ seps ++ (text ++ c :: rest))

include ht hseps htext hend hzero

theorem strtokK_step (fuel : Nat) : strtokK (fuel + 1) t =
    .ok (some (past ++ seps).length,
      { t with
        sdelim := c
        edelim := use.edelim c
        dup := (past ++ seps) ++ (text ++ 0 :: (rest ++ [0]))
        tok := some (past ++ seps ++ text ++ [c]).length }) := by
  obtain ⟨hdup, htok, rfl, hflags, hsdelim, hedelim⟩ := ht
  simp only [List.mem_append, List.mem_cons, not_or] at hzero
  obtain ⟨hzseps, hztext, hc, hzrest⟩ := hzero
  have hc' : c ≠ 0 := fun h => hc h.symm
  have hmore : rest ++ [0] ≠ [] := by simp
  have hstop : isDelim t.delims c = true ∨ (rest ++ [0]).head? = some 0 := by
    rcases hend with ⟨-, h⟩ | rfl
    · exact Or.inl h
    · exact Or.inr rfl
  have hskip : nstrspn (t.dup.drop (t.tok.getD 0)) t.delims = .ok seps.length := by
    have hall : ∀ a ∈ seps, a ≠ 0 ∧ (!isDelim t.delims a) = false := by
      intro a ha
      exact ⟨fun h => hzseps (h ▸ ha), by rw [hseps a ha]; rfl⟩
    rw [htok, hdup, List.drop_left, nstrspn, List.append_assoc]
    cases text with
    | nil =>
        obtain rfl := hend.resolve_left fun h => h.1 rfl
        exact spanTo_eq hall hc' (Or.inr rfl) (by simp)
    | cons a text =>
        rw [List.cons_append, List.cons_append]
        refine spanTo_eq hall (fun h => hztext (h ▸ List.mem_cons_self)) (Or.inl ?_) (by simp)
        rw [htext a List.mem_cons_self]
        rfl
  have hdup' : t.dup = (past ++ seps) ++ (text ++ c :: (rest ++ [0])) := by
    rw [hdup]
    simp only [List.append_assoc, List.cons_append]
  have hdup'' : t.dup = (past ++ seps ++ text) ++ c :: (rest ++ [0]) := by
    rw [hdup', ← List.append_assoc _ text]
  have hstart : t.tok.getD 0 + seps.length = (past ++ seps).length := by
    rw [htok, List.length_append]
  have hplace : (past ++ seps).length + text.length = (past ++ seps ++ text).length :=
    List.length_append.symm
  obtain ⟨first, hfirst, hfirst0, hlength⟩ : ∃ first,
      readChar t.dup (past ++ seps).length = .ok first ∧ first ≠ 0 ∧
      (if isDelim t.delims first then Except.ok 0
        else strspn (t.dup.drop (past ++ seps).length) t.delims) = .ok text.length := by
    have hspan : strspn (t.dup.drop (past ++ seps).length) t.delims = .ok text.length := by
      rw [hdup', List.drop_left]
      exact spanTo_eq (fun a ha => ⟨fun h => hztext (h ▸ ha), htext a ha⟩) hc' hstop hmore
    cases text with
    | nil =>
        refine ⟨c, by rw [hdup']; exact readChar_append _ c _, hc', ?_⟩
        split
        · rfl
        · exact hspan
    | cons a text =>
        refine ⟨a, by rw [hdup']; exact readChar_append _ a _,
          fun h => hztext (h ▸ List.mem_cons_self), ?_⟩
        rw [if_neg (by rw [htext a List.mem_cons_self]; decide)]
        exact hspan
  have hread : readChar t.dup (past ++ seps ++ text).length = .ok c := by
    rw [hdup'']
    exact readChar_append _ c _
  rw [strtokK, if_neg (by simp only [hedelim, hsdelim, or_self, not_false_iff])]
  simp only [hskip, hstart, hfirst, if_neg hfirst0, hlength, hplace, hread, if_neg hc',
    borders_eq hflags hdup'' hc' hmore hstop, endToken_eq hflags]
  congr 3
  · rw [hdup'', List.set_append_right _ _ (Nat.le_refl _), Nat.sub_self, List.append_assoc]
    rfl
  · simp only [List.length_append, List.length_singleton]

end Step

theorem strtokK_end {use : ShellUse} {delims past : Bytes} {t : StrTok}
    (ht : t.At use delims past []) (fuel : Nat) :
    strtokK (fuel + 1) t = .ok (none, { t with tok := none }) := by
  obtain ⟨hdup, htok, -, -, hsdelim, hedelim⟩ := ht
  have hskip : nstrspn (t.dup.drop (t.tok.getD 0)) t.delims = .ok 0 := by
    rw [htok, hdup, List.drop_left]
    rfl
  have hread : readChar t.dup (t.tok.getD 0 + 0) = .ok 0 := by
    rw [htok, hdup]
    exact readChar_append past 0 []
  rw [strtokK, if_neg (by simp only [hedelim, hsdelim, or_self, not_false_iff])]
  simp only [hskip, hread, if_pos]

theorem strtokK_closed {t : StrTok} (h : t.edelim = 0) (fuel : Nat) :
    strtokK (fuel + 1) t = .ok (none, t) := by
  rw [strtokK, if_pos (Or.inl h)]

/-! ## The calls on a string -/

/-- The tokens that the calls cut from a string, unless they are gated. -/
inductive Reads (delims : Bytes) : Bytes → List Bytes → Prop
  | nil : Reads delims [] []
  | blank {seps : Bytes} (hne : seps ≠ []) (hseps : ∀ a ∈ seps, isDelim delims a = true) :
      Reads delims seps [[]]
  | last {seps text : Bytes} (hseps : ∀ a ∈ seps, isDelim delims a = true) (hne : text ≠ [])
      (htext : ∀ a ∈ text, isDelim delims a = false) : Reads delims (seps ++ text) [text.dropLast]
  | next {seps text : Bytes} {c : UInt8} {rest : Bytes} {tokens : List Bytes}
      (hseps : ∀ a ∈ seps, isDelim delims a = true) (hne : text ≠ [])
      (htext : ∀ a ∈ text, isDelim delims a = false) (hc : isDelim delims c = true)
      (h : Reads delims rest tokens) : Reads delims (seps ++ (text ++ c :: rest)) (text :: tokens)

theorem exists_reads (delims s : Bytes) : ∃ tokens, Reads delims s tokens := by
  induction @cut _ (isDelim delims) s with
  | blank hseps =>
      rename_i seps
      by_cases hne : seps = []
      · exact ⟨[], hne ▸ .nil⟩
      · exact ⟨_, .blank hne hseps⟩
  | last hseps hne htext => exact ⟨_, .last hseps hne htext⟩
  | next hseps hne htext hc _ ih =>
      obtain ⟨tokens, h⟩ := ih
      exact ⟨_, .next hseps hne htext hc h⟩

theorem Reads.length_le {delims s : Bytes} {tokens : List Bytes} (h : Reads delims s tokens) :
    tokens.length ≤ s.length := by
  induction h with
  | nil => exact Nat.le_refl 0
  | blank hne => exact List.length_pos_of_ne_nil hne
  | last _ hne =>
      have hpos := List.length_pos_of_ne_nil hne
      rw [List.length_append, List.length_singleton]
      omega
  | next _ _ _ _ _ ih =>
      simp only [List.length_append, List.length_cons]
      omega

theorem Reads.exists_step {delims s : Bytes} {tokens : List Bytes} (h : Reads delims s tokens)
    (hne : s ≠ []) : ∃ seps text c rest tokens', s = seps ++ (text ++ c :: rest) ∧
      tokens = text :: tokens' ∧ (∀ a ∈ seps, isDelim delims a = true) ∧
      (∀ a ∈ text, isDelim delims a = false) ∧ (text ≠ [] ∧ isDelim delims c = true ∨ rest = []) ∧
      Reads delims rest tokens' := by
  cases h with
  | nil => exact absurd rfl hne
  | blank _ hseps =>
      refine ⟨s.dropLast, [], s.getLast hne, [], [], ?_, rfl, ?_, ?_, Or.inr rfl, .nil⟩
      · exact (List.dropLast_append_getLast hne).symm
      · exact fun a ha => hseps a ((List.dropLast_sublist _).subset ha)
      · exact fun _ ha => absurd ha List.not_mem_nil
  | last hseps htextne htext =>
      refine ⟨_, _, List.getLast _ htextne, [], [], ?_, rfl, hseps, ?_, Or.inr rfl, .nil⟩
      · rw [List.dropLast_append_getLast htextne]
      · exact fun a ha => htext a ((List.dropLast_sublist _).subset ha)
  | next hseps htextne htext hc h =>
      exact ⟨_, _, _, _, _, rfl, rfl, hseps, htext, Or.inl ⟨htextne, hc⟩, h⟩

theorem cstring_append {text : Bytes} (htext : 0 ∉ text) (rest : Bytes) :
    cstring (text ++ 0 :: rest) = text := by
  rw [cstring, List.takeWhile_append_of_pos]
  · rw [List.takeWhile_cons_of_neg (by simp), List.append_nil]
  · intro a ha
    simp only [ne_eq, decide_not, Bool.not_eq_eq_eq_not, Bool.not_true, decide_eq_false_iff_not]
    rintro rfl
    exact htext ha

theorem callAll_command {delims s : Bytes} {tokens : List Bytes} (h : Reads delims s tokens)
    (hzero : 0 ∉ s) {past : Bytes} {t : StrTok} (ht : t.At .command delims past s) {calls : Nat}
    (hcalls : tokens.length < calls) : callAll calls t = .ok tokens := by
  generalize hn : tokens.length = n
  induction n generalizing s tokens past t calls with
  | zero =>
      obtain rfl := List.length_eq_zero_iff.mp hn
      cases h
      obtain ⟨calls, rfl⟩ := Nat.exists_eq_succ_of_ne_zero (Nat.ne_of_gt hcalls)
      rw [callAll, strtokK_end ht]
  | succ n ih =>
      have hne : s ≠ [] := by
        rintro rfl
        exact absurd h.length_le (by rw [hn]; simp)
      obtain ⟨seps, text, c, rest, tokens', rfl, rfl, hseps, htext, hend, hrest⟩ :=
        h.exists_step hne
      obtain ⟨calls, rfl⟩ : ∃ k, calls = k + 1 := ⟨calls - 1, by omega⟩
      have hzero' : 0 ∉ text ∧ c ≠ 0 ∧ 0 ∉ rest := by
        simp only [List.mem_append, List.mem_cons, not_or] at hzero
        exact ⟨hzero.2.1, fun h => hzero.2.2.1 h.symm, hzero.2.2.2⟩
      rw [callAll, strtokK_step ht hseps htext hend hzero]
      simp only [List.drop_left, cstring_append hzero'.1]
      rw [List.length_cons] at hcalls hn
      have hat : StrTok.At .command delims ((past ++ seps ++ text) ++ [0]) rest
          { t with
            sdelim := c
            edelim := c
            dup := (past ++ seps) ++ (text ++ 0 :: (rest ++ [0]))
            tok := some (past ++ seps ++ text ++ [c]).length } := by
        refine ⟨?_, ?_, ht.delims_eq, ht.flags_eq, hzero'.2.1, hzero'.2.1⟩
        · simp only [List.append_assoc, List.singleton_append]
        · simp only [Option.getD_some, List.length_append, List.length_singleton]
      rw [show ShellUse.command.edelim c = c from rfl,
        ih hrest hzero'.2.2 hat (by omega) (by omega)]
      rfl

theorem callAll_version {delims s : Bytes} {tokens : List Bytes} (h : Reads delims s tokens)
    (hzero : 0 ∉ s) (hne : s ≠ []) {past : Bytes} {t : StrTok}
    (ht : t.At .version delims past s) (calls : Nat) :
    callAll (calls + 2) t = .ok (tokens.take 1) := by
  obtain ⟨seps, text, c, rest, tokens', rfl, rfl, hseps, htext, hend, -⟩ := h.exists_step hne
  have hztext : 0 ∉ text := by
    simp only [List.mem_append, List.mem_cons, not_or] at hzero
    exact hzero.2.1
  rw [callAll, strtokK_step ht hseps htext hend hzero]
  simp only [List.drop_left, cstring_append hztext]
  rw [callAll, strtokK_closed rfl]
  rfl

/-! ## The tokens and the segments of a string -/

theorem dropLast_ne {text : Bytes} (hne : text ≠ []) : text.dropLast ≠ text := by
  intro h
  have hlength := congrArg List.length h
  have hpos := List.length_pos_of_ne_nil hne
  rw [List.length_dropLast] at hlength
  omega

theorem endsOnce_next {delims seps text : Bytes} {c : UInt8} {rest : Bytes} (hne : text ≠ [])
    (htext : ∀ a ∈ text, isDelim delims a = false) (hc : isDelim delims c = true) :
    EndsOnce (seps ++ (text ++ c :: rest)) delims ↔ rest = [] ∨ EndsOnce rest delims := by
  constructor
  · rintro ⟨front, a, d, heq, ha, hd⟩
    rcases List.eq_nil_or_concat rest with rfl | ⟨rest, z, rfl⟩
    · exact Or.inl rfl
    · right
      rw [List.concat_eq_append] at heq ⊢
      rcases List.eq_nil_or_concat rest with rfl | ⟨rest, y, rfl⟩
      · -- Two delimiters end the string.
        have hends : (seps ++ text) ++ [c, z] = front ++ [a, d] := by
          rw [← heq, List.append_assoc]
          rfl
        have hinj := (List.append_inj' hends rfl).2
        rw [← (List.cons.inj hinj).1, hc] at ha
        cases ha
      · rw [List.concat_eq_append] at heq ⊢
        have hends : (seps ++ (text ++ c :: rest)) ++ [y, z] = front ++ [a, d] := by
          rw [← heq]
          simp only [List.append_assoc, List.cons_append, List.nil_append]
        have hinj := (List.append_inj' hends rfl).2
        obtain ⟨rfl, hlast⟩ := List.cons.inj hinj
        obtain ⟨rfl, -⟩ := List.cons.inj hlast
        exact ⟨rest, y, z, by rw [List.append_assoc]; rfl, ha, hd⟩
  · rintro (rfl | ⟨front, a, d, rfl, ha, hd⟩)
    · refine ⟨seps ++ text.dropLast, text.getLast hne, c, ?_, htext _ (List.getLast_mem hne), hc⟩
      rw [List.append_assoc]
      congr 1
      conv_lhs => rw [← List.dropLast_append_getLast hne, List.append_assoc]
      rfl
    · refine ⟨seps ++ (text ++ c :: front), a, d, ?_, ha, hd⟩
      simp only [List.append_assoc, List.cons_append]

section Compare

variable {delims s : Bytes} {tokens : List Bytes} (h : Reads delims s tokens)

include h

theorem Reads.segments_le (before : Option UInt8) :
    (segmentsFrom (isDelim delims) before [] s).length ≤ tokens.length := by
  induction h generalizing before with
  | nil => exact Nat.le_refl 0
  | blank _ hseps =>
      rw [segmentsFrom_blank hseps]
      exact Nat.zero_le _
  | last hseps hne htext =>
      obtain ⟨before', heq⟩ := segmentsFrom_last hseps hne htext before
      rw [heq]
      exact Nat.le_refl 1
  | next hseps hne htext hc _ ih =>
      obtain ⟨before', heq⟩ := segmentsFrom_next hseps hne htext before hc _
      rw [heq]
      exact Nat.succ_le_succ (ih _)

theorem Reads.single_iff (hne : s ≠ []) :
    tokens.take 1 = (segments (isDelim delims) s).map Segment.text ↔
      ∃ segment, segments (isDelim delims) s = [segment] ∧ segment.behind ≠ none := by
  rw [segments]
  cases h with
  | nil => exact absurd rfl hne
  | blank _ hseps =>
      rw [segmentsFrom_blank hseps]
      simp
  | last hseps htextne htext =>
      obtain ⟨before', heq⟩ := segmentsFrom_last hseps htextne htext none
      rw [heq]
      constructor
      · intro h
        exact absurd (List.cons.inj h).1 (dropLast_ne htextne)
      · rintro ⟨segment, hsegment, hbehind⟩
        rw [← (List.cons.inj hsegment).1] at hbehind
        exact absurd rfl hbehind
  | next hseps htextne htext hc h =>
      obtain ⟨before', heq⟩ := segmentsFrom_next hseps htextne htext none hc _
      rw [heq]
      constructor
      · intro h
        refine ⟨_, congrArg _ (List.map_eq_nil_iff.mp (List.cons.inj h).2.symm), ?_⟩
        simp
      · rintro ⟨segment, hsegment, -⟩
        rw [(List.cons.inj hsegment).2]
        rfl

theorem Reads.agrees_iff (before : Option UInt8) :
    tokens = ((segmentsFrom (isDelim delims) before [] s).filter Agrees).map Segment.text ↔
      (s = [] ∨ EndsOnce s delims) ∧
        ∀ segment ∈ segmentsFrom (isDelim delims) before [] s, Agrees segment := by
  induction h generalizing before with
  | nil => exact iff_of_true rfl ⟨Or.inl rfl, fun _ h => absurd h List.not_mem_nil⟩
  | @blank seps hne hseps =>
      rw [segmentsFrom_blank hseps]
      refine iff_of_false (by simp) ?_
      rintro ⟨rfl | ⟨front, c, d, rfl, hc, -⟩, -⟩
      · exact hne rfl
      · rw [hseps c (by simp)] at hc
        cases hc
  | @last seps text hseps hne htext =>
      obtain ⟨before', heq⟩ := segmentsFrom_last hseps hne htext before
      have hagree : Agrees ⟨before', text, none⟩ = true := by
        cases before' with
        | none => rfl
        | some sdel => rfl
      rw [heq, List.filter_cons_of_pos hagree]
      refine iff_of_false ?_ ?_
      · intro h
        exact dropLast_ne hne (List.cons.inj h).1
      · rintro ⟨hs | ⟨front, c, d, hs, -, hd⟩, -⟩
        · exact hne (List.append_eq_nil_iff.mp hs).2
        · have hlast := congrArg List.getLast? hs
          rw [List.getLast?_append_of_ne_nil _ hne, List.getLast?_append_of_ne_nil _ (by simp),
            List.getLast?_eq_some_getLast hne] at hlast
          have heqd : text.getLast hne = d := Option.some.inj hlast
          rw [← heqd, htext _ (List.getLast_mem hne)] at hd
          cases hd
  | @next seps text c rest tokens hseps hne htext hc hrest ih =>
      obtain ⟨before', heq⟩ := segmentsFrom_next hseps hne htext before hc rest
      have hnil : seps ++ (text ++ c :: rest) ≠ [] := by simp
      rw [heq]
      by_cases hagree : Agrees ⟨before', text, some c⟩ = true
      · rw [List.filter_cons_of_pos hagree, List.map_cons, List.cons.injEq, List.forall_mem_cons]
        rw [endsOnce_next hne htext hc, ih (some c)]
        simp only [true_and, hagree, hnil, false_or]
      · -- All the tokens come, and the one at hand is not wanted.
        refine iff_of_false ?_ ?_
        · intro h
          have hlength := congrArg List.length h
          have hall := hrest.segments_le (some c)
          have hfilter := List.length_filter_le Agrees
            (segmentsFrom (isDelim delims) (some c) [] rest)
          rw [List.filter_cons_of_neg hagree, List.length_cons, List.length_map] at hlength
          omega
        · rintro ⟨-, h⟩
          exact hagree (h _ List.mem_cons_self)

end Compare

/-- What the calls return is right for the strings that suit the use only. -/
theorem tokensRight_iff (use : ShellUse) (inp delims : Path) (hne : inp.chars ≠ []) :
    TokensRight use inp delims ↔ use.Suits inp.chars delims.chars := by
  obtain ⟨tokens, h⟩ := exists_reads delims.chars inp.chars
  have hhead : inp.chars.head? = some (inp.chars.head hne) := List.head?_eq_some_head hne
  have hlast : inp.chars.getLast? = some (inp.chars.getLast hne) :=
    List.getLast?_eq_some_getLast hne
  have hat : StrTok.At use delims.chars [] inp.chars ⟨inp.chars ++ [0], none, delims.chars,
      inp.chars.head hne, inp.chars.getLast hne, use.flags⟩ := by
    refine ⟨rfl, rfl, rfl, rfl, fun heq => ?_, fun heq => ?_⟩
    · exact inp.terminated (heq ▸ List.head_mem hne)
    · exact inp.terminated (heq ▸ List.getLast_mem hne)
  have hopen : strtokI inp.chars delims.chars use.flags = .ok (some ⟨inp.chars ++ [0], none,
      delims.chars, inp.chars.head hne, inp.chars.getLast hne, use.flags⟩) := by
    cases use with
    | version => simp only [strtokI, hhead, hlast]; rfl
    | command => simp only [strtokI, hhead, hlast]; rfl
  rw [TokensRight, tokenize, hopen]
  cases use with
  | version =>
      simp only [callAll_version h inp.terminated hne hat inp.chars.length, Except.ok.injEq]
      exact h.single_iff hne
  | command =>
      have hcalls : tokens.length < inp.chars.length + 2 := by
        have hle := h.length_le
        omega
      simp only [callAll_command h inp.terminated hat hcalls, Except.ok.injEq]
      refine (h.agrees_iff none).trans ?_
      rw [or_iff_right hne]
      rfl

/-- The command `cd` with a space behind it. -/
theorem tokensRight_iff_cd :
    ([0x63, 0x64, 0x20] : Bytes) ≠ [] ∧
      (TokensRight .command ⟨[0x63, 0x64, 0x20], by decide⟩ ⟨[0x20, 0x22], by decide⟩ ↔
        ShellUse.command.Suits [0x63, 0x64, 0x20] [0x20, 0x22]) :=
  ⟨by decide, tokensRight_iff .command ⟨[0x63, 0x64, 0x20], by decide⟩
    ⟨[0x20, 0x22], by decide⟩ (by decide)⟩

/-- Without the space its last character is cut. -/
theorem not_tokensRight_cd :
    ¬ TokensRight .command ⟨[0x63, 0x64], by decide⟩ ⟨[0x20, 0x22], by decide⟩ := by
  unfold TokensRight
  decide +kernel

end BlockyOS.HostTool
