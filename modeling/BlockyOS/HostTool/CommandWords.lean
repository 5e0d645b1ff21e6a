import BlockyOS.HostTool.CommandLines

/-!
# The words of a command line

`__shellparse` cuts its tokens out of a copy of the line that it changes while it
reads on, and keeps pointers into it.  What a command finds in its buffer is said
here by the words of the line alone.
-/

namespace BlockyOS.HostTool

open BlockyOS.Foundation

/-! ## The words of a line -/

/-- A word, the delimiters in front of it, and the part of the line that both are cut from. -/
structure CommandWord where
  unread : Bytes
  lead : Bytes
  text : Bytes
  deriving DecidableEq, Repr

/-- The last word loses its last byte unless a delimiter ends the line. -/
inductive Words : Bytes → List CommandWord → Prop
  | nil : Words [] []
  | cons {lead text : Bytes} {c : UInt8} {rest : Bytes} {ws : List CommandWord}
      (hlead : ∀ a ∈ lead, isDelim shellDelims a = true)
      (htext : ∀ a ∈ text, isDelim shellDelims a = false)
      (hend : text ≠ [] ∧ isDelim shellDelims c = true ∨ rest = []) (h : Words rest ws) :
      Words (lead ++ (text ++ c :: rest)) (⟨lead ++ (text ++ c :: rest), lead, text⟩ :: ws)

/-- What an argument is to the function that gets it. -/
inductive ArgValue (α : Type) where
  | number (n : Nat)
  | text (s : Bytes)
  | symbol (data : α)
  deriving DecidableEq, Repr

section Values

variable {α : Type} (ulongBits : Nat) (read : α → Bytes) (symbols : Option (List (SymRef α)))

def Arg.value (line : Bytes) : Arg α → ArgValue α
  | .number n => .number n
  | .inLine place => .text (cstring (line.drop place))
  | .replaced buffer => .text (cstring buffer)
  | .symbol data => .symbol data

def ArgValue.string : ArgValue α → Bytes
  | .number _ => []
  | .text s => s
  | .symbol data => read data

def substituted (src kept : Bytes) : Except Fault (ArgValue α) :=
  (resolvedata symbols (some src)).map fun found => (found.map (Arg.value [])).getD (.text kept)

def storedValue (type : CmdDescArgType) (v : ArgValue α) : ArgValue α :=
  ((type.number ulongBits (v.string read)).map ArgValue.number).getD v

def findFlag (word : Bytes) : List CmdDescFlag → Nat → Option (Nat × CmdDescArgType)
  | [], _ => none
  | f :: rest, cc => if word = f.flag then some (cc, f.type) else findFlag word rest (cc + 1)

def assign (flags : List CmdDescFlag) :
    List CommandWord → List (ArgValue α) → Except Fault (List (ArgValue α))
  | [], buffer => .ok buffer
  | w :: ws, buffer =>
      match findFlag w.text flags 0 with
      | none => assign flags ws buffer
      | some (cc, .switch) => assign flags ws (buffer.set cc (.number 1))
      | some (cc, .longInteger) =>
          match ws with
          | [] => .ok (buffer.set cc (.number 0))
          | next :: _ =>
              match substituted symbols next.unread (next.lead ++ next.text) with
              | .error e => .error e
              | .ok v => assign flags ws (buffer.set cc v)
      | some (cc, type) =>
          match ws with
          | [] => .ok (if type = .string then buffer.set cc (.number 0) else buffer)
          | next :: ws =>
              match substituted symbols next.text next.text with
              | .error e => .error e
              | .ok v => assign flags ws (buffer.set cc (storedValue ulongBits read type v))

section Assign

variable {ulongBits read symbols} {flags : List CmdDescFlag} {w : CommandWord}
  {ws : List CommandWord} {values : List (ArgValue α)} {cc : Nat} {type : CmdDescArgType}

theorem assign_none (h : findFlag w.text flags 0 = none) :
    assign ulongBits read symbols flags (w :: ws) values =
      assign ulongBits read symbols flags ws values := by
  rw [assign.eq_def]
  simp only [h]

theorem assign_switch (h : findFlag w.text flags 0 = some (cc, .switch)) :
    assign ulongBits read symbols flags (w :: ws) values =
      assign ulongBits read symbols flags ws (values.set cc (.number 1)) := by
  rw [assign.eq_def]
  simp only [h]

theorem assign_longInteger (h : findFlag w.text flags 0 = some (cc, .longInteger)) :
    assign ulongBits read symbols flags (w :: ws) values =
      match ws with
      | [] => .ok (values.set cc (.number 0))
      | next :: _ =>
          match substituted symbols next.unread (next.lead ++ next.text) with
          | .error e => .error e
          | .ok v => assign ulongBits read symbols flags ws (values.set cc v) := by
  rw [assign.eq_def]
  simp only [h]

theorem assign_argument (h : findFlag w.text flags 0 = some (cc, type)) (hswitch : type ≠ .switch)
    (hlong : type ≠ .longInteger) :
    assign ulongBits read symbols flags (w :: ws) values =
      match ws with
      | [] => .ok (if type = .string then values.set cc (.number 0) else values)
      | next :: ws =>
          match substituted symbols next.text next.text with
          | .error e => .error e
          | .ok v => assign ulongBits read symbols flags ws
              (values.set cc (storedValue ulongBits read type v)) := by
  rw [assign.eq_def]
  simp only [h]

end Assign

end Values

/-! ## The calls of the tokenizer -/

section Calls

variable {past lead text rest : Bytes} {c : UInt8} {t : StrTok}

theorem strtokK_word (ht : t.At .command shellDelims past (lead ++ (text ++ c :: rest)))
    (hlead : ∀ a ∈ lead, isDelim shellDelims a = true)
    (htext : ∀ a ∈ text, isDelim shellDelims a = false)
    (hend : text ≠ [] ∧ isDelim shellDelims c = true ∨ rest = [])
    (hzero : 0 ∉ lead ++ (text ++ c :: rest)) (fuel : Nat) :
    ∃ t', strtokK (fuel + 1) t = .ok (some (past ++ lead).length, t') ∧
      t'.At .command shellDelims (past ++ lead ++ text ++ [0]) rest := by
  refine ⟨_, strtokK_step ht hlead htext hend hzero fuel, ?_⟩
  have hc : c ≠ 0 := by
    simp only [List.mem_append, List.mem_cons, not_or] at hzero
    exact fun h => hzero.2.2.1 h.symm
  refine ⟨?_, ?_, ht.delims_eq, ht.flags_eq, hc, hc⟩
  · simp only [List.append_assoc, List.cons_append, List.nil_append]
  · simp only [Option.getD_some, List.length_append, List.length_singleton]

/-- A state whose pointer is at a terminator, or is not set. -/
structure StrTok.Restarts (first more : Bytes) (t : StrTok) : Prop where
  dup_eq : t.dup = first ++ 0 :: more
  delims_eq : t.delims = shellDelims
  flags_eq : t.flags = ShellUse.command.flags
  sdelim_ne : t.sdelim ≠ 0
  edelim_ne : t.edelim ≠ 0

theorem strtokK_restart {more : Bytes} (ht : t.Restarts (lead ++ (text ++ [c])) more)
    (htok : t.tok = none) (hlead : ∀ a ∈ lead, isDelim shellDelims a = true)
    (htext : ∀ a ∈ text ++ [c], isDelim shellDelims a = false)
    (hzero : 0 ∉ lead ++ (text ++ [c])) (fuel : Nat) :
    ∃ t', strtokK (fuel + 1) t = .ok (some lead.length, t') ∧
      t'.Restarts (lead ++ text) (0 :: more) ∧ t'.tok = some (lead ++ text ++ [0]).length := by
  obtain ⟨hdup, hdelims, hflags, hsdelim, hedelim⟩ := ht
  simp only [List.mem_append, List.mem_singleton, not_or] at hzero
  obtain ⟨hzlead, hztext, hc⟩ := hzero
  have hc' : c ≠ 0 := fun h => hc h.symm
  have hplace : t.dup = (lead ++ text) ++ c :: 0 :: more := by
    rw [hdup]
    simp only [List.append_assoc, List.cons_append, List.nil_append]
  obtain ⟨first, word, hfirst, hfirst0, hstop⟩ : ∃ first word, text ++ [c] = first :: word ∧
      first ≠ 0 ∧ isDelim shellDelims first = false := by
    cases text with
    | nil => exact ⟨c, [], rfl, hc', htext c List.mem_cons_self⟩
    | cons a text =>
        exact ⟨a, text ++ [c], rfl, fun h => hztext (h ▸ List.mem_cons_self),
          htext a List.mem_cons_self⟩
  have hword : t.dup = lead ++ first :: (word ++ 0 :: more) := by
    rw [hdup, hfirst]
    simp only [List.append_assoc, List.cons_append]
  have hskip : nstrspn (t.dup.drop (t.tok.getD 0)) t.delims = .ok lead.length := by
    rw [htok, hdelims, hword, nstrspn]
    refine spanTo_eq (fun a ha => ⟨fun h => hzlead (h ▸ ha), ?_⟩) hfirst0 (Or.inl ?_) (by simp)
    · rw [hlead a ha]
      rfl
    · rw [hstop]
      rfl
  have hread : readChar t.dup lead.length = .ok first := by
    rw [hword]
    exact readChar_append lead first _
  have hspan : strspn (t.dup.drop lead.length) t.delims = .ok text.length := by
    rw [hdelims, hplace, List.append_assoc, List.drop_left, strspn]
    exact spanTo_eq (fun a ha => ⟨fun h => hztext (h ▸ ha),
      htext a (List.mem_append_left _ ha)⟩) hc' (Or.inr rfl) (by simp)
  have hlast : readChar t.dup (lead ++ text).length = .ok c := by
    rw [hplace]
    exact readChar_append _ c _
  have hstart : t.tok.getD 0 + lead.length = lead.length := by
    rw [htok]
    exact Nat.zero_add _
  have hend : lead.length + text.length = (lead ++ text).length := List.length_append.symm
  have hborders : borders t (lead ++ text).length c = .ok (.inr (ShellUse.command.edelim c)) :=
    borders_eq hflags hplace hc' (by simp) (Or.inr rfl)
  refine ⟨{ t with
    sdelim := c
    edelim := c
    dup := t.dup.set (lead ++ text).length 0
    tok := some ((lead ++ text).length + 1) }, ?_, ⟨?_, hdelims, hflags, hc', hc'⟩, ?_⟩
  · rw [strtokK, if_neg (by simp only [hedelim, hsdelim, or_self, not_false_iff])]
    rw [← hdelims] at hstop
    simp only [hskip, hstart, hread, if_neg hfirst0, hstop, Bool.false_eq_true, if_false, hspan,
      hend, hlast, if_neg hc', hborders, endToken_eq hflags]
    rfl
  · change t.dup.set (lead ++ text).length 0 = _
    rw [hplace, List.set_append_right _ _ (Nat.le_refl _), Nat.sub_self]
    rfl
  · simp only [List.length_append, List.length_singleton]

theorem strtokK_again {more : Bytes} (ht : t.Restarts (lead ++ text) (0 :: more))
    (htok : t.tok = some (lead ++ text ++ [0]).length) (fuel : Nat) :
    strtokK (fuel + 1) t = .ok (none, { t with tok := none }) := by
  have hplace : t.dup = (lead ++ text ++ [0]) ++ 0 :: more := by
    rw [ht.dup_eq, List.append_assoc _ [0]]
    rfl
  have hskip : nstrspn (t.dup.drop (t.tok.getD 0)) t.delims = .ok 0 := by
    rw [htok, hplace, Option.getD_some, List.drop_left]
    rfl
  have hread : readChar t.dup (t.tok.getD 0 + 0) = .ok 0 := by
    rw [htok, hplace]
    exact readChar_append _ 0 more
  rw [strtokK, if_neg (by simp only [ht.edelim_ne, ht.sdelim_ne, or_self, not_false_iff])]
  simp only [hskip, hread, if_pos]

end Calls

/-! ## One token -/

section Tokens

variable {α : Type} {ulongBits : Nat} {read : α → Bytes} {symbols : Option (List (SymRef α))}
  {flags : List CmdDescFlag} {t t' : StrTok} {tok cc : Nat} {word : Bytes} {buffer : List (Arg α)}

theorem findFlag_none (h : findFlag word flags cc = none) : ∀ f ∈ flags, word ≠ f.flag := by
  induction flags generalizing cc with
  | nil => exact fun f hf => absurd hf List.not_mem_nil
  | cons f rest ih =>
      rw [findFlag] at h
      split at h
      case isTrue => cases h
      case isFalse hne => exact List.forall_mem_cons.mpr ⟨hne, ih h⟩

theorem matchFlags_absent (h : ∀ f ∈ flags, cstring (t.dup.drop tok) ≠ f.flag) :
    matchFlags ulongBits read symbols tok flags cc t buffer = .ok (t, buffer) := by
  induction flags generalizing cc with
  | nil => rfl
  | cons f rest ih =>
      obtain ⟨hne, hrest⟩ := List.forall_mem_cons.mp h
      rw [matchFlags, if_neg hne, ih hrest]

def stored (buffer : List (Arg α)) (cc : Nat) (arg : Option (Arg α)) : List (Arg α) :=
  match arg with
  | some arg => buffer.set cc arg
  | none => buffer

/-- The flags are different, so that only one of them is that of the token. -/
theorem matchFlags_found (hflags : (flags.map CmdDescFlag.flag).Nodup) {k : Nat}
    {type : CmdDescArgType} (hfind : findFlag word flags cc = some (k, type))
    (hword : cstring (t.dup.drop tok) = word)
    (hkeep : ∀ arg t', setFlag ulongBits read symbols type t = .ok (arg, t') →
      cstring (t'.dup.drop tok) = word) :
    matchFlags ulongBits read symbols tok flags cc t buffer =
      (setFlag ulongBits read symbols type t).map fun r => (r.2, stored buffer k r.1) := by
  induction flags generalizing cc with
  | nil => cases hfind
  | cons f rest ih =>
      rw [List.map_cons, List.nodup_cons] at hflags
      rw [findFlag] at hfind
      rw [matchFlags, hword]
      split at hfind
      case isTrue heq =>
        obtain ⟨rfl, rfl⟩ := Prod.mk.inj (Option.some.inj hfind)
        have hothers : ∀ g ∈ rest, word ≠ g.flag := fun g hg h =>
          hflags.1 (List.mem_map.mpr ⟨g, hg, h.symm.trans heq⟩)
        rw [if_pos heq]
        cases hset : setFlag ulongBits read symbols f.type t with
        | error e => rfl
        | ok r =>
            obtain ⟨arg, t'⟩ := r
            have hrest : ∀ g ∈ rest, cstring (t'.dup.drop tok) ≠ g.flag := by
              rw [hkeep arg t' hset]
              exact hothers
            cases arg with
            | none => exact matchFlags_absent hrest
            | some arg => exact matchFlags_absent hrest
      case isFalse hne =>
        rw [if_neg hne, ih hflags.2 hfind]

section Found

variable (hflags : (flags.map CmdDescFlag.flag).Nodup) {k : Nat} {type : CmdDescArgType}
  (hfind : findFlag word flags cc = some (k, type)) (hword : cstring (t.dup.drop tok) = word)

include hflags hfind hword

theorem matchFlags_error {e : Fault} (hset : setFlag ulongBits read symbols type t = .error e) :
    matchFlags ulongBits read symbols tok flags cc t buffer = .error e := by
  rw [matchFlags_found hflags hfind hword (by rw [hset]; rintro arg t' ⟨⟩), hset]
  rfl

theorem matchFlags_ok {arg : Option (Arg α)}
    (hset : setFlag ulongBits read symbols type t = .ok (arg, t'))
    (hkeep : cstring (t'.dup.drop tok) = word) :
    matchFlags ulongBits read symbols tok flags cc t buffer = .ok (t', stored buffer k arg) := by
  rw [matchFlags_found hflags hfind hword (by rw [hset]; rintro arg t' ⟨⟩; exact hkeep), hset]
  rfl

end Found

theorem resolveFrom_value (read : α → Bytes) {src : Bytes} {buffer : List (SymRef α)} {arg : Arg α}
    (h : resolveFrom src buffer = .ok (some arg)) (line : Bytes) :
    arg.value line = arg.value [] ∧ arg.text read line = (arg.value []).string read := by
  induction buffer with
  | nil => cases h
  | cons sym rest ih =>
      rw [resolveFrom] at h
      split at h
      case isFalse => exact ih h
      case isTrue =>
        cases hdata : sym.data with
        | string data =>
            rw [hdata] at h
            dsimp only at h
            cases hreplaced : strReplace src sym.aliasName data with
            | error e =>
                rw [hreplaced] at h
                cases h
            | ok r =>
                rw [hreplaced] at h
                cases r with
                | none => cases h
                | some r =>
                    cases h
                    exact ⟨rfl, rfl⟩
        | fhandle data =>
            rw [hdata] at h
            cases h
            exact ⟨rfl, rfl⟩
        | unknown data =>
            rw [hdata] at h
            cases h
            exact ⟨rfl, rfl⟩

theorem resolvedata_value (read : α → Bytes) {src : Option Bytes} {arg : Arg α}
    (h : resolvedata symbols src = .ok (some arg)) (line : Bytes) :
    arg.value line = arg.value [] ∧ arg.text read line = (arg.value []).string read := by
  cases src with
  | none => cases h
  | some src =>
      cases symbols with
      | none => cases h
      | some buffer => exact resolveFrom_value read h line

end Tokens

/-! ## The loop over the tokens -/

section Loop

variable {α : Type} {ulongBits : Nat} {read : α → Bytes} {symbols : Option (List (SymRef α))}
  {flags : List CmdDescFlag} {head args lead text rest : Bytes} {c : UInt8} {t : StrTok}
  {type : CmdDescArgType}

theorem value_inLine (args lead : Bytes) {head' : Bytes} (hhead : head'.length = head.length)
    (hzero : 0 ∉ text) (tail : Bytes) :
    (Arg.inLine (head ++ args ++ lead).length : Arg α).value
      (head' ++ (args ++ lead ++ text ++ [0] ++ tail)) = .text text := by
  have hdrop : head' ++ (args ++ lead ++ text ++ [0] ++ tail) =
      (head' ++ args ++ lead) ++ (text ++ 0 :: tail) := by
    simp only [List.append_assoc, List.cons_append, List.nil_append]
  have hlength : (head ++ args ++ lead).length = (head' ++ args ++ lead).length := by
    simp only [List.length_append, hhead]
  rw [Arg.value, hdrop, hlength, List.drop_left, cstring_append hzero]

theorem setFlag_argument (hswitch : type ≠ .switch) (hlong : type ≠ .longInteger) :
    setFlag ulongBits read symbols type t =
      match strtokK (t.dup.length + 1) t with
      | .error e => .error e
      | .ok (temp, t) =>
          match resolvedata symbols (temp.map fun p => cstring (t.dup.drop p)) with
          | .error e => .error e
          | .ok found =>
              match found <|> temp.map Arg.inLine with
              | some arg => .ok (some (type.store ulongBits arg (arg.text read t.dup)), t)
              | none => .ok (if type = .string then some (.number 0) else none, t) := by
  cases type with
  | switch => exact absurd rfl hswitch
  | longInteger => exact absurd rfl hlong
  | _ => rfl

variable (ulongBits read symbols)

theorem setFlag_word (ht : t.At .command shellDelims (head ++ args) (lead ++ (text ++ c :: rest)))
    (hlead : ∀ a ∈ lead, isDelim shellDelims a = true)
    (htext : ∀ a ∈ text, isDelim shellDelims a = false)
    (hend : text ≠ [] ∧ isDelim shellDelims c = true ∨ rest = [])
    (hzero : 0 ∉ lead ++ (text ++ c :: rest)) (hswitch : type ≠ .switch)
    (hlong : type ≠ .longInteger) :
    (∃ e, setFlag ulongBits read symbols type t = .error e ∧
      substituted symbols text text = .error e) ∨
    ∃ arg t' v, setFlag ulongBits read symbols type t = .ok (some arg, t') ∧
      substituted symbols text text = .ok v ∧
      t'.At .command shellDelims (head ++ (args ++ lead ++ text ++ [0])) rest ∧
      ∀ head' tail, head'.length = head.length →
        arg.value (head' ++ (args ++ lead ++ text ++ [0] ++ tail)) =
          storedValue ulongBits read type v := by
  have hztext : 0 ∉ text := fun h => hzero (by simp [h])
  obtain ⟨t', hcall, hat⟩ := strtokK_word ht hlead htext hend hzero t.dup.length
  have hplace : head ++ args ++ lead ++ text ++ [0] = head ++ (args ++ lead ++ text ++ [0]) := by
    simp only [List.append_assoc]
  have hcontent : cstring (t'.dup.drop (head ++ args ++ lead).length) = text := by
    rw [hat.dup_eq, List.append_assoc _ [0], List.append_assoc _ text, List.drop_left]
    exact cstring_append hztext _
  have hset : setFlag ulongBits read symbols type t =
      match resolvedata symbols (some text) with
      | .error e => .error e
      | .ok found =>
          match found <|> some (.inLine (head ++ args ++ lead).length) with
          | some arg => .ok (some (type.store ulongBits arg (arg.text read t'.dup)), t')
          | none => .ok (if type = .string then some (.number 0) else none, t') := by
    rw [setFlag_argument hswitch hlong]
    simp only [hcall, Option.map_some, hcontent]
  rw [hset]
  cases hfound : resolvedata symbols (some text) with
  | error e => exact Or.inl ⟨e, rfl, by rw [substituted, hfound]; rfl⟩
  | ok found =>
      right
      cases found with
      | none =>
          refine ⟨_, t', .text text, rfl, by rw [substituted, hfound]; rfl, hplace ▸ hat, ?_⟩
          intro head' tail hhead
          have hvalue := value_inLine (α := α) args lead hhead hztext tail
          have hread : (Arg.inLine (head ++ args ++ lead).length : Arg α).text read t'.dup = text :=
            hcontent
          rw [hread]
          cases hnumber : type.number ulongBits text with
          | none =>
              rw [CmdDescArgType.store, storedValue, ArgValue.string, hnumber]
              exact hvalue
          | some n =>
              rw [CmdDescArgType.store, storedValue, ArgValue.string, hnumber]
              rfl
      | some arg =>
          obtain ⟨-, hread⟩ := resolvedata_value read hfound t'.dup
          refine ⟨_, t', arg.value [], rfl, by rw [substituted, hfound]; rfl, hplace ▸ hat, ?_⟩
          intro head' tail _
          rw [hread]
          cases hnumber : type.number ulongBits ((arg.value []).string read) with
          | none =>
              rw [CmdDescArgType.store, storedValue, hnumber]
              exact (resolvedata_value read hfound _).1
          | some n =>
              rw [CmdDescArgType.store, storedValue, hnumber]
              rfl

structure Named (flags : List CmdDescFlag) (lead text : Bytes) (c : UInt8) : Prop where
  lead_delims : ∀ a ∈ lead, isDelim shellDelims a = true
  text_plain : ∀ a ∈ text ++ [c], isDelim shellDelims a = false
  terminated : 0 ∉ lead ++ (text ++ [c])
  other : ∀ f ∈ flags, text ≠ f.flag

def nameEnd (lead text : Bytes) (c : UInt8) : Bytes := lead ++ (text ++ [c]) ++ [0]

theorem parseArgs_missing (hname : Named flags lead text c)
    (ht : t.At .command shellDelims (nameEnd lead text c ++ args) []) (fuel : Nat)
    (buffer : List (Arg α)) :
    ∃ t' head', parseArgs ulongBits read symbols flags (fuel + 2) { t with tok := none } buffer =
        .ok (t', buffer) ∧
      t'.dup = head' ++ (args ++ [0]) ∧ head'.length = (nameEnd lead text c).length := by
  have hrestarts : ({ t with tok := none } : StrTok).Restarts (lead ++ (text ++ [c]))
      (args ++ [0]) := by
    refine ⟨?_, ht.delims_eq, ht.flags_eq, ht.sdelim_ne, ht.edelim_ne⟩
    rw [ht.dup_eq, nameEnd]
    simp only [List.append_assoc, List.cons_append, List.nil_append]
  obtain ⟨t', hcall, hrestarts', htok⟩ := strtokK_restart hrestarts rfl hname.lead_delims
    hname.text_plain hname.terminated t.dup.length
  have hztext : 0 ∉ text := fun h => hname.terminated (by simp [h])
  have hcontent : cstring (t'.dup.drop lead.length) = text := by
    rw [hrestarts'.dup_eq, List.append_assoc, List.drop_left]
    exact cstring_append hztext _
  have habsent : ∀ f ∈ flags, cstring (t'.dup.drop lead.length) ≠ f.flag := by
    rw [hcontent]
    exact hname.other
  refine ⟨{ t' with tok := none }, lead ++ text ++ [0, 0], ?_, ?_, ?_⟩
  · rw [parseArgs]
    simp only [hcall, matchFlags_absent habsent]
    rw [parseArgs]
    simp only [strtokK_again hrestarts' htok]
  · rw [hrestarts'.dup_eq]
    simp only [List.append_assoc, List.cons_append, List.nil_append]
  · simp only [nameEnd, List.length_append, List.length_cons, List.length_nil]
    omega

def coming : List CommandWord → Bytes
  | [] => []
  | w :: _ => w.lead ++ w.text ++ [0]

theorem cstring_place {past : Bytes} (ht : t.dup = past ++ lead ++ text ++ [0] ++ rest)
    (hzero : 0 ∉ text) : cstring (t.dup.drop (past ++ lead).length) = text := by
  rw [ht, List.append_assoc _ [0], List.append_assoc _ text, List.drop_left]
  exact cstring_append hzero _

theorem map_stored (f : Arg α → ArgValue α) (buffer : List (Arg α)) (cc : Nat) (arg : Arg α) :
    (stored buffer cc (some arg)).map f = (buffer.map f).set cc (f arg) :=
  List.map_set

theorem setFlag_long {ws : List CommandWord} (hws : Words rest ws) (hzero : 0 ∉ rest)
    (ht : t.At .command shellDelims (head ++ args) rest) (hhead : head ≠ []) :
    (∃ e w ws', ws = w :: ws' ∧ setFlag ulongBits read symbols .longInteger t = .error e ∧
      substituted symbols w.unread (w.lead ++ w.text) = .error e) ∨
    ∃ arg v, setFlag ulongBits read symbols .longInteger t = .ok (some arg, t) ∧
      (match ws with
        | [] => v = .number 0
        | w :: _ => substituted symbols w.unread (w.lead ++ w.text) = .ok v) ∧
      ∀ head' tail, head'.length = head.length →
        arg.value (head' ++ (args ++ coming ws ++ tail)) = v := by
  have hpos : 0 < (head ++ args).length := by
    rw [List.length_append]
    have := List.length_pos_of_ne_nil hhead
    omega
  have htok : t.tok = some (head ++ args).length := by
    have hget := ht.tok_eq
    cases hp : t.tok with
    | none =>
        rw [hp, Option.getD_none] at hget
        omega
    | some p =>
        rw [hp, Option.getD_some] at hget
        rw [hget]
  cases hws with
  | nil =>
      have hend : t.dup[(head ++ args).length]? = some 0 := by
        rw [ht.dup_eq, List.getElem?_append_right (Nat.le_refl _), Nat.sub_self]
        rfl
      have hff : strtokFf t = none := by
        rw [strtokFf, htok]
        exact if_pos hend
      exact Or.inr ⟨.number 0, .number 0, by rw [setFlag, hff]; rfl, rfl, fun _ _ _ => rfl⟩
  | cons hlead htext hend hws =>
      rename_i lead text c rest ws
      have hplain : 0 ∉ lead ++ text := fun h => hzero (by
        rw [← List.append_assoc]
        exact List.mem_append_left _ h)
      have hgoes : t.dup[(head ++ args).length]? ≠ some 0 := by
        rw [ht.dup_eq, List.getElem?_append_right (Nat.le_refl _), Nat.sub_self,
          List.getElem?_append_left (by simp)]
        intro h
        exact hzero (List.mem_of_getElem? h)
      have hff : strtokFf t = some (head ++ args).length := by
        rw [strtokFf, htok]
        exact if_neg hgoes
      have hunread : cstring (t.dup.drop (head ++ args).length) = lead ++ (text ++ c :: rest) := by
        rw [ht.dup_eq, List.drop_left]
        exact cstring_append hzero []
      have hset : setFlag ulongBits read symbols .longInteger t =
          (resolvedata symbols (some (lead ++ (text ++ c :: rest)))).map fun found =>
            (some ((found <|> some (Arg.inLine (head ++ args).length)).getD (.number 0)), t) := by
        rw [setFlag, hff]
        simp only [Option.map_some, hunread]
        cases resolvedata symbols (some (lead ++ (text ++ c :: rest))) with
        | error e => rfl
        | ok found => rfl
      rw [hset]
      cases hfound : resolvedata symbols (some (lead ++ (text ++ c :: rest))) with
      | error e =>
          exact Or.inl ⟨e, _, _, rfl, rfl, by rw [substituted, hfound]; rfl⟩
      | ok found =>
          right
          cases found with
          | none =>
              have hsub : substituted symbols (lead ++ (text ++ c :: rest)) (lead ++ text) =
                  .ok (.text (lead ++ text)) := by
                rw [substituted, hfound]
                rfl
              refine ⟨_, .text (lead ++ text), rfl, hsub, ?_⟩
              intro head' tail hlength
              have hvalue := value_inLine (α := α) args [] hlength hplain tail
              simp only [List.append_nil] at hvalue
              rw [coming, ← List.append_assoc args]
              simp only [List.append_assoc] at hvalue ⊢
              exact hvalue
          | some arg =>
              exact ⟨arg, arg.value [], rfl, by dsimp only; rw [substituted, hfound]; rfl,
                fun _ _ _ => (resolvedata_value read hfound _).1⟩

variable {ulongBits read symbols}

theorem parseArgs_words (hflags : (flags.map CmdDescFlag.flag).Nodup)
    (hname : Named flags lead text c) {s args : Bytes} {ws : List CommandWord} (hws : Words s ws)
    (hzero : 0 ∉ s) {t : StrTok} (ht : t.At .command shellDelims (nameEnd lead text c ++ args) s)
    {fuel : Nat} (hfuel : ws.length + 2 ≤ fuel) {buffer : List (Arg α)}
    {values : List (ArgValue α)}
    (hbuffer : ∀ head' tail, head'.length = (nameEnd lead text c).length →
      buffer.map (Arg.value (head' ++ (args ++ coming ws ++ tail))) = values) :
    (parseArgs ulongBits read symbols flags fuel t buffer).map
        (fun r => r.2.map (Arg.value r.1.dup)) =
      assign ulongBits read symbols flags ws values := by
  induction hn : ws.length using Nat.strong_induction_on
    generalizing s args ws t fuel buffer values with
  | h n ih =>
  obtain ⟨fuel, rfl⟩ : ∃ k, fuel = k + 1 := ⟨fuel - 1, by omega⟩
  cases hws with
  | nil =>
      rw [parseArgs, assign]
      simp only [strtokK_end ht]
      rw [← hbuffer _ [0] rfl]
      change Except.ok (buffer.map (Arg.value t.dup)) = _
      rw [ht.dup_eq]
      simp only [coming, List.append_assoc, List.nil_append]
  | cons hlead htext hend hws =>
      rename_i lead' word c' rest ws
      rw [List.length_cons] at hn hfuel
      obtain ⟨t', hcall, hat⟩ := strtokK_word ht hlead htext hend hzero t.dup.length
      have hzword : 0 ∉ word := fun h => hzero (by simp [h])
      have hzrest : 0 ∉ rest := fun h => hzero (by simp [h])
      have hcontent : cstring (t'.dup.drop (nameEnd lead text c ++ args ++ lead').length) = word :=
        cstring_place (by rw [hat.dup_eq]) hzword
      have hnext : nameEnd lead text c ++ args ++ lead' ++ word ++ [0] =
          nameEnd lead text c ++ (args ++ lead' ++ word ++ [0]) := by
        simp only [List.append_assoc]
      rw [hnext] at hat
      have hbuffer' : ∀ head' tail, head'.length = (nameEnd lead text c).length →
          buffer.map (Arg.value (head' ++ (args ++ lead' ++ word ++ [0] ++ coming ws ++ tail))) =
            values := by
        intro head' tail hlength
        rw [← hbuffer head' (coming ws ++ tail) hlength]
        simp only [coming, List.append_assoc]
      rw [parseArgs]
      simp only [hcall]
      cases hfind : findFlag word flags 0 with
      | none =>
          have habsent : ∀ f ∈ flags, cstring (t'.dup.drop
              (nameEnd lead text c ++ args ++ lead').length) ≠ f.flag := by
            rw [hcontent]
            exact findFlag_none hfind
          rw [assign_none hfind]
          simp only [matchFlags_absent habsent]
          exact ih ws.length (by omega) hws hzrest hat (by omega) hbuffer' rfl
      | some found =>
          obtain ⟨cc, type⟩ := found
          by_cases hswitch : type = .switch
          · subst hswitch
            rw [assign_switch hfind]
            simp only [matchFlags_ok hflags hfind hcontent rfl hcontent]
            refine ih ws.length (by omega) hws hzrest hat (by omega)
              (fun head' tail hlength => ?_) rfl
            rw [map_stored, hbuffer' head' tail hlength]
            rfl
          · by_cases hlong : type = .longInteger
            · subst hlong
              have hhead : nameEnd lead text c ≠ [] := by simp [nameEnd]
              rw [assign_longInteger hfind]
              rcases setFlag_long ulongBits read symbols hws hzrest hat hhead with
                ⟨e, w, ws, rfl, hset, hsub⟩ | ⟨arg, v, hset, hv, hvalue⟩
              · simp only [matchFlags_error hflags hfind hcontent hset, hsub]
                rfl
              · have hafter : ∀ head' tail, head'.length = (nameEnd lead text c).length →
                    (stored buffer cc (some arg)).map
                      (Arg.value (head' ++ (args ++ lead' ++ word ++ [0] ++ coming ws ++ tail))) =
                        values.set cc v := by
                  intro head' tail hlength
                  rw [map_stored, hbuffer' head' tail hlength, hvalue head' tail hlength]
                have hrun := ih ws.length (by omega) hws hzrest hat
                  (show ws.length + 2 ≤ fuel by omega) hafter rfl
                simp only [matchFlags_ok hflags hfind hcontent hset hcontent]
                cases ws with
                | nil =>
                    dsimp only at hv
                    rw [hv] at hrun
                    exact hrun
                | cons w ws =>
                    dsimp only at hv
                    simp only [hv]
                    exact hrun
            · rw [assign_argument hfind hswitch hlong]
              cases hws with
              | nil =>
                  have hset : setFlag ulongBits read symbols type t' =
                      .ok (if type = .string then some (.number 0) else none,
                        { t' with tok := none }) := by
                    rw [setFlag_argument hswitch hlong]
                    simp only [strtokK_end hat, Option.map_none, resolvedata]
                    rfl
                  obtain ⟨k, rfl⟩ : ∃ k, fuel = k + 2 := ⟨fuel - 2, by
                    rw [List.length_nil] at hfuel
                    omega⟩
                  obtain ⟨t'', head', hrun, hdup, hlength⟩ := parseArgs_missing ulongBits
                    read symbols hname hat k
                    (stored buffer cc (if type = .string then some (.number 0) else none))
                  have hvalues := hbuffer' head' [0] hlength
                  rw [coming, List.append_nil, ← hdup] at hvalues
                  simp only [matchFlags_ok hflags hfind hcontent hset hcontent, hrun]
                  rw [Except.map]
                  split
                  · rw [map_stored, hvalues]
                    rfl
                  · exact congrArg Except.ok hvalues
              | cons hlead' htext' hend' hws' =>
                  rename_i lead'' word' c'' rest ws
                  rw [List.length_cons] at hn hfuel
                  have hzmore : 0 ∉ rest := fun h => hzrest (by simp [h])
                  rcases setFlag_word ulongBits read symbols hat hlead' htext' hend' hzrest
                      hswitch hlong with
                      ⟨e, hset, hsub⟩ | ⟨arg, t'', v, hset, hsub, hat', hvalue⟩
                  · simp only [matchFlags_error hflags hfind hcontent hset, hsub]
                    rfl
                  · have hdup : t''.dup = nameEnd lead text c ++ args ++ lead' ++ word ++ [0] ++
                        (lead'' ++ word' ++ [0] ++ (rest ++ [0])) := by
                      rw [hat'.dup_eq]
                      simp only [List.append_assoc]
                    have hkeep := cstring_place hdup hzword
                    simp only [matchFlags_ok hflags hfind hcontent hset hkeep, hsub]
                    refine ih ws.length (by omega) hws' hzmore hat' (by omega)
                      (fun head' tail hlength => ?_) rfl
                    have hold := hbuffer' head' (coming ws ++ tail) hlength
                    have hnew := hvalue head' (coming ws ++ tail) hlength
                    simp only [coming, List.append_assoc] at hold hnew ⊢
                    rw [map_stored, hold, hnew]

end Loop

/-! ## A whole line -/

theorem commands_names : ∀ c ∈ commands, c.cmd.head? ≠ some 0x2D ∧ c.aliasName.head? ≠ some 0x2D ∧
    (c.flags.map CmdDescFlag.flag).Nodup ∧ ∀ f ∈ c.flags, f.flag.head? = some 0x2D := by
  decide +kernel

theorem commandMatches_head {a : UInt8} {cmd name : Bytes}
    (h : commandMatches (a :: cmd) name = true) : name.head? = some a := by
  rw [commandMatches, beq_iff_eq] at h
  have hmin : min (a :: cmd).length 8 = min cmd.length 7 + 1 := by
    rw [List.length_cons]
    omega
  rw [hmin] at h
  cases name with
  | nil => cases h
  | cons b name =>
      rw [List.take_succ_cons, List.take_succ_cons] at h
      rw [(List.cons.inj h).1]
      rfl

theorem getcmd_mem {cmd : Bytes} {cd : Nat} (h : getcmd (some cmd) = some cd) :
    ∃ c ∈ commands, commands[cd]? = some c ∧ c.named cmd = true := by
  obtain ⟨hlt, hnamed, -⟩ := List.findIdx?_eq_some_iff_getElem.mp h
  exact ⟨commands[cd], List.getElem_mem hlt, List.getElem?_eq_getElem hlt, hnamed⟩

theorem getcmd_head {cmd : Bytes} {cd : Nat} (h : getcmd (some cmd) = some cd) :
    cmd.head? ≠ some 0x2D := by
  obtain ⟨c, hc, -, hnamed⟩ := getcmd_mem h
  obtain ⟨hcmd, hname, -, -⟩ := commands_names c hc
  intro hhead
  cases cmd with
  | nil => cases hhead
  | cons a cmd =>
      obtain rfl := Option.some.inj hhead
      rw [CmdDesc.named, Bool.or_eq_true] at hnamed
      rcases hnamed with hnamed | hnamed
      · exact hname (commandMatches_head hnamed)
      · exact hcmd (commandMatches_head hnamed)

section Line

variable {α : Type} (ulongBits : Nat) (read : α → Bytes) (symbols : Option (List (SymRef α)))

/-- The command that is called, and what its function finds in its buffer. -/
def Parsed.seen : Parsed α → Option (Nat × List (ArgValue α))
  | .emptyCommand => none
  | .noCommand => none
  | .call cd buffer line => some (cd, buffer.map (Arg.value line))

/-- What the words of a line mean. -/
def understood : List CommandWord → Except Fault (Option (Nat × List (ArgValue α)))
  | [] => .ok none
  | w :: ws =>
      match getcmd (some w.text) with
      | none => .ok none
      | some cd =>
          match commands[cd]? with
          | none => .ok none
          | some c =>
              if c.func then
                (assign ulongBits read symbols c.flags ws
                  (List.replicate c.flags.length (.number 0))).map fun vs => some (cd, vs)
              else .ok none

theorem strtokI_command {inp : Bytes} (hne : inp ≠ []) (hzero : 0 ∉ inp) :
    ∃ t, strtokI inp shellDelims forceSameBorderingDelims = .ok (some t) ∧
      t.At .command shellDelims [] inp := by
  obtain ⟨first, rest, rfl⟩ := List.exists_cons_of_ne_nil hne
  have hlast := List.getLast?_eq_some_getLast hne
  refine ⟨⟨first :: rest ++ [0], none, shellDelims, first, (first :: rest).getLast hne,
    forceSameBorderingDelims⟩, ?_, ?_⟩
  · rw [strtokI, hlast]
    rfl
  · exact ⟨rfl, rfl, rfl, rfl, fun h => hzero (h ▸ List.mem_cons_self),
      fun h => hzero (h ▸ List.getLast_mem hne)⟩

theorem words_length {s : Bytes} {ws : List CommandWord} (h : Words s ws) :
    ws.length ≤ s.length := by
  induction h with
  | nil => exact Nat.le_refl 0
  | cons _ _ _ _ ih =>
      rw [List.length_cons, List.length_append, List.length_append, List.length_cons]
      omega

theorem words_nil {ws : List CommandWord} (h : Words [] ws) : ws = [] :=
  List.eq_nil_of_length_eq_zero (Nat.le_zero.mp (words_length h))

theorem parseArgs_command {c : CmdDesc} (hc : c ∈ commands) {lead text rest : Bytes}
    {ws : List CommandWord} (hlead : ∀ a ∈ lead, isDelim shellDelims a = true)
    (htext : ∀ a ∈ text, isDelim shellDelims a = false) (hdash : text.head? ≠ some 0x2D)
    (hend : text ≠ [] ∨ rest = []) (hws : Words rest ws) (hzero : 0 ∉ lead ++ (text ++ rest))
    {t : StrTok} (ht : t.At .command shellDelims (lead ++ text ++ [0]) rest) {fuel : Nat}
    (hfuel : ws.length + 2 ≤ fuel) :
    (parseArgs ulongBits read symbols c.flags fuel t
        (List.replicate c.flags.length (.number 0))).map
        (fun r => r.2.map (Arg.value r.1.dup)) =
      assign ulongBits read symbols c.flags ws
        (List.replicate c.flags.length (.number 0)) := by
  have hnumbers (line : Bytes) :
      (List.replicate c.flags.length (Arg.number 0 : Arg α)).map (Arg.value line) =
        List.replicate c.flags.length (.number 0) := List.map_replicate
  obtain ⟨-, -, hflags, hdashes⟩ := commands_names c hc
  simp only [List.mem_append, not_or] at hzero
  obtain ⟨hzlead, hztext, hzrest⟩ := hzero
  rcases List.eq_nil_or_concat' text with rfl | ⟨init, last, rfl⟩
  · obtain rfl : rest = [] := hend.resolve_left (fun h => h rfl)
    obtain ⟨k, rfl⟩ : ∃ k, fuel = k + 1 := ⟨fuel - 1, by omega⟩
    obtain rfl := words_nil hws
    rw [parseArgs, assign]
    simp only [strtokK_end ht]
    exact congrArg Except.ok (hnumbers _)
  · have hother : ∀ f ∈ c.flags, init ≠ f.flag := by
      rintro f hf rfl
      refine hdash ?_
      rw [List.head?_append, hdashes f hf]
      rfl
    have hname : Named c.flags lead init last :=
      ⟨hlead, htext, by simp only [List.mem_append, not_or] at hztext ⊢; exact ⟨hzlead, hztext⟩,
        hother⟩
    have hplace : t.At .command shellDelims (nameEnd lead init last ++ []) rest := by
      rw [List.append_nil]
      exact ht
    exact parseArgs_words hflags hname hws hzrest hplace hfuel fun head' tail _ => hnumbers _

/-- Every line is understood by its words alone. -/
theorem shellParse_words {input : Path} {ws : List CommandWord} (hws : Words input.chars ws) :
    (shellParse ulongBits read symbols input.chars).map Parsed.seen =
      understood ulongBits read symbols ws := by
  have hzero := input.terminated
  generalize input.chars = s at hws hzero
  cases hws with
  | nil => rfl
  | cons hlead htext hend hws =>
      rename_i lead text c rest ws
      have hne : lead ++ (text ++ c :: rest) ≠ [] := by simp
      obtain ⟨t, hinit, hat⟩ := strtokI_command hne hzero
      obtain ⟨t', hcall, hat'⟩ := strtokK_word hat hlead htext hend hzero t.dup.length
      have hplain : 0 ∉ lead ++ (text ++ rest) := by
        simp only [List.mem_append, List.mem_cons, not_or] at hzero ⊢
        exact ⟨hzero.1, hzero.2.1, hzero.2.2.2⟩
      have hcontent : cstring (t'.dup.drop ([] ++ lead).length) = text :=
        cstring_place hat'.dup_eq (fun h => hplain (by simp [h]))
      rw [shellParse, if_neg hne, understood]
      simp only [hinit, hcall, Option.map_some, hcontent]
      cases hcmd : getcmd (some text) with
      | none => rfl
      | some cd =>
          obtain ⟨d, hd, hget, -⟩ := getcmd_mem hcmd
          simp only [hget]
          cases d.func with
          | false => rfl
          | true =>
              have hlength := words_length hws
              have hrun := parseArgs_command ulongBits read symbols hd hlead htext
                (getcmd_head hcmd) (hend.imp_left And.left) hws hplain hat'
                (show ws.length + 2 ≤ (lead ++ (text ++ c :: rest)).length + 3 by
                  rw [List.length_append, List.length_append, List.length_cons]
                  omega)
              rw [if_pos rfl, if_pos rfl, ← hrun]
              cases parseArgs ulongBits read symbols d.flags _ t' _ with
              | error e => rfl
              | ok r => rfl

theorem shellParse_words_help :
    (shellParse 32 (fun _ : Unit => []) none (ascii "help -h \"open\" ")).map Parsed.seen =
      .ok (some (0, [.text (ascii "open")])) := by
  have hwords : Words (ascii "help -h \"open\" ") [⟨ascii "help -h \"open\" ", [], ascii "help"⟩,
      ⟨ascii "-h \"open\" ", [], ascii "-h"⟩, ⟨ascii "\"open\" ", ascii "\"", ascii "open"⟩,
      ⟨ascii " ", [], []⟩] := by
    have hblank : Words ([] ++ ([] ++ 0x20 :: [])) [⟨ascii " ", [], []⟩] :=
      .cons (by decide +kernel) (by decide +kernel) (Or.inr rfl) .nil
    have hopen : Words (ascii "\"" ++ (ascii "open" ++ 0x22 :: ascii " ")) _ :=
      .cons (by decide +kernel) (by decide +kernel) (Or.inl (by decide)) hblank
    have hflag : Words ([] ++ (ascii "-h" ++ 0x20 :: ascii "\"open\" ")) _ :=
      .cons (by decide +kernel) (by decide +kernel) (Or.inl (by decide)) hopen
    have hname : Words ([] ++ (ascii "help" ++ 0x20 :: ascii "-h \"open\" ")) _ :=
      .cons (by decide +kernel) (by decide +kernel) (Or.inl (by decide)) hflag
    exact hname
  exact @shellParse_words Unit 32 (fun _ => []) none ⟨ascii "help -h \"open\" ", by decide⟩ _ hwords

end Line

end BlockyOS.HostTool
