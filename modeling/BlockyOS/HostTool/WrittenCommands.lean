import BlockyOS.HostTool.CommandWords

/-!
# Lines that are written for a command

A line with the name of a command and values for its flags is read back.
-/

namespace BlockyOS.HostTool

open BlockyOS.Foundation

theorem getcmd_name {cd : Nat} {c : CmdDesc} (h : commands[cd]? = some c) {name : Bytes}
    (hname : name = cstring c.cmd ∨ name = cstring c.aliasName) : getcmd (some name) = some cd := by
  have hall : ∀ cd < commands.length, ∀ c ∈ commands[cd]?,
      getcmd (some (cstring c.cmd)) = some cd ∧ getcmd (some (cstring c.aliasName)) = some cd := by
    decide +kernel
  obtain ⟨hcmd, halias⟩ := hall cd (List.getElem?_eq_some_iff.mp h).1 c h
  rcases hname with rfl | rfl
  · exact hcmd
  · exact halias

structure PlainWord (word : Bytes) : Prop where
  ne_nil : word ≠ []
  plain : ∀ a ∈ word, isDelim shellDelims a = false
  terminated : 0 ∉ word

theorem commands_plain {c : CmdDesc} (hc : c ∈ commands) :
    PlainWord (cstring c.cmd) ∧ PlainWord (cstring c.aliasName) ∧
      ∀ f ∈ c.flags, PlainWord f.flag := by
  have hall : ∀ c ∈ commands, ∀ word ∈ cstring c.cmd :: cstring c.aliasName ::
      c.flags.map CmdDescFlag.flag,
      word ≠ [] ∧ (∀ a ∈ word, isDelim shellDelims a = false) ∧ 0 ∉ word := by
    decide +kernel
  have hplain : ∀ word ∈ cstring c.cmd :: cstring c.aliasName :: c.flags.map CmdDescFlag.flag,
      PlainWord word := fun word hword =>
    ⟨(hall c hc word hword).1, (hall c hc word hword).2.1, (hall c hc word hword).2.2⟩
  refine ⟨hplain _ List.mem_cons_self, hplain _ (List.mem_cons_of_mem _ List.mem_cons_self),
    fun f hf => hplain _ ?_⟩
  exact List.mem_cons_of_mem _ (List.mem_cons_of_mem _ (List.mem_map.mpr ⟨f, hf, rfl⟩))

theorem isDigit_apart {c : UInt8} (h : isDigit c = true) :
    isSpace c = false ∧ c ≠ 0x2D ∧ c ≠ 0x2B ∧ isDelim shellDelims c = false ∧ c ≠ 0 := by
  have hall : ∀ n < 256, isDigit (UInt8.ofNat n) = true →
      isSpace (UInt8.ofNat n) = false ∧ UInt8.ofNat n ≠ 0x2D ∧ UInt8.ofNat n ≠ 0x2B ∧
        isDelim shellDelims (UInt8.ofNat n) = false ∧ UInt8.ofNat n ≠ 0 := by
    decide +kernel
  have hc := hall c.toNat c.toNat_lt
  rw [UInt8.ofNat_toNat] at hc
  exact hc h

theorem strtoul_decimal {bits n : Nat} (h : n < 2 ^ bits) : strtoul bits (decimal n) = n := by
  have hdigits : ∀ c ∈ decimal n, isDigit c = true := fun c => isDigit_of_mem_decimal
  obtain ⟨first, rest, hcons⟩ := List.exists_cons_of_ne_nil (decimal_ne_nil n)
  obtain ⟨hspace, hminus, hplus, -, -⟩ :=
    isDigit_apart (hdigits first (hcons ▸ List.mem_cons_self))
  have hdrop : (decimal n).dropWhile isSpace = decimal n := by
    rw [hcons]
    exact List.dropWhile_cons_of_neg (by rw [hspace]; exact Bool.false_ne_true)
  have hhead : (decimal n).head? = some first := by rw [hcons]; rfl
  have htake : (decimal n).takeWhile isDigit = decimal n := List.takeWhile_eq_self_iff.mpr hdigits
  have hvalue : (valueFrom 0 (decimal n)).toNat = n := by
    rw [valueFrom_decimal]
    exact Int.toNat_natCast n
  have hsign : ¬ (some first = some (0x2D : UInt8) ∨ some first = some 0x2B) := by
    rintro (h | h)
    · exact hminus (Option.some.inj h)
    · exact hplus (Option.some.inj h)
  have hpositive : ¬ some first = some (0x2D : UInt8) := fun h => hsign (Or.inl h)
  rw [strtoul]
  simp only [hdrop, hhead, if_neg hsign, htake, hvalue, if_neg (Nat.not_le.mpr h),
    if_neg hpositive]

section Written

variable {α : Type} {ulongBits : Nat} {read : α → Bytes} {symbols : Option (List (SymRef α))}

def CmdDescArgType.bits (ulongBits : Nat) : CmdDescArgType → Option Nat
  | .byte | .word | .dword => some ulongBits
  | .qword => some 64
  | .switch | .bool | .char | .string | .longInteger => none

/-- The values that a line can state for a flag. -/
def CmdDescArgType.Takes (ulongBits : Nat) (type : CmdDescArgType) : ArgValue α → Prop
  | .number n => ∃ bits, type.bits ulongBits = some bits ∧ n < 2 ^ bits
  | .text s => type = .string ∧ PlainWord s
  | .symbol _ => False

def ArgValue.written : ArgValue α → Bytes
  | .number n => decimal n
  | .text s => s
  | .symbol _ => []

def writtenArgs : List (Bytes × ArgValue α) → Bytes
  | [] => []
  | (flag, v) :: args => flag ++ 0x20 :: (v.written ++ 0x20 :: writtenArgs args)

/-- The name of a command, then flags and their values, each with a blank behind it. -/
def commandLine (name : Bytes) (args : List (Bytes × ArgValue α)) : Bytes :=
  name ++ 0x20 :: writtenArgs args

/-- The last value that is stated for a flag. -/
def lastGiven (flag : Bytes) (args : List (Bytes × ArgValue α)) : Option (ArgValue α) :=
  (args.reverse.find? fun a => a.1 = flag).map Prod.snd

/-- No symbol occurs in a text. -/
def NoSymbol (symbols : Option (List (SymRef α))) (src : Bytes) : Prop :=
  ∀ buffer, symbols = some buffer → ∀ sym ∈ buffer, ¬ sym.aliasName <:+: src

theorem storedValue_written {type : CmdDescArgType} {v : ArgValue α} (h : type.Takes ulongBits v) :
    storedValue ulongBits read type (.text v.written) = v := by
  cases v with
  | number n =>
      obtain ⟨bits, hbits, hlt⟩ := h
      have hnumber := strtoul_decimal hlt
      cases type with
      | byte | word | dword | qword =>
          cases hbits
          rw [storedValue, ArgValue.string, ArgValue.written, CmdDescArgType.number, hnumber]
          rfl
      | switch | bool | char | string | longInteger => cases hbits
  | text s =>
      obtain ⟨rfl, -⟩ := h
      rfl
  | symbol data => exact h.elim

theorem CmdDescArgType.Takes.plain {type : CmdDescArgType} {v : ArgValue α}
    (h : type.Takes ulongBits v) : PlainWord v.written := by
  cases v with
  | number n =>
      have hdigits : ∀ a ∈ decimal n, isDelim shellDelims a = false ∧ a ≠ 0 := fun a ha =>
        (isDigit_apart (isDigit_of_mem_decimal ha)).2.2.2
      exact ⟨decimal_ne_nil n, fun a ha => (hdigits a ha).1, fun h0 => (hdigits 0 h0).2 rfl⟩
  | text s => exact h.2
  | symbol data => exact h.elim

theorem CmdDescArgType.Takes.takes_word {type : CmdDescArgType} {v : ArgValue α}
    (h : type.Takes ulongBits v) : type ≠ .switch ∧ type ≠ .longInteger := by
  cases v with
  | number n =>
      obtain ⟨bits, hbits, -⟩ := h
      constructor <;> rintro rfl <;> cases hbits
  | text s =>
      obtain ⟨rfl, -⟩ := h
      constructor <;> rintro ⟨⟩
  | symbol data => exact h.elim

theorem resolvedata_none {src : Bytes} (h : NoSymbol symbols src) :
    resolvedata symbols (some src) = .ok none := by
  have hfrom : ∀ buffer : List (SymRef α), (∀ sym ∈ buffer, ¬ sym.aliasName <:+: src) →
      resolveFrom src buffer = .ok none := by
    intro buffer hbuffer
    induction buffer with
    | nil => rfl
    | cons sym rest ih =>
        obtain ⟨hsym, hrest⟩ := List.forall_mem_cons.mp hbuffer
        rw [resolveFrom, (strstr_eq_none_iff _ _).mpr hsym]
        exact ih hrest
  cases symbols with
  | none => rfl
  | some buffer => exact hfrom buffer (h buffer rfl)

theorem substituted_text {src : Bytes} (h : NoSymbol symbols src) (kept : Bytes) :
    substituted symbols src kept = .ok (.text kept) := by
  rw [substituted, resolvedata_none h]
  rfl

theorem words_written {word rest : Bytes} {ws : List CommandWord} (hword : PlainWord word)
    (h : Words rest ws) :
    Words (word ++ 0x20 :: rest) (⟨word ++ 0x20 :: rest, [], word⟩ :: ws) := by
  have hlead : ∀ a ∈ ([] : Bytes), isDelim shellDelims a = true := fun _ ha =>
    absurd ha List.not_mem_nil
  exact .cons hlead hword.plain (Or.inl ⟨hword.ne_nil, rfl⟩) h

theorem findFlag_eq {flags : List CmdDescFlag} (hflags : (flags.map CmdDescFlag.flag).Nodup)
    {f : CmdDescFlag} (hf : f ∈ flags) (k : Nat) :
    ∃ cc, findFlag f.flag flags k = some (k + cc, f.type) ∧
      ∀ (v : CmdDescFlag → ArgValue α) (x : ArgValue α),
        (flags.map v).set cc x = flags.map fun g => if g.flag = f.flag then x else v g := by
  induction flags generalizing k with
  | nil => exact absurd hf List.not_mem_nil
  | cons g rest ih =>
      rw [List.map_cons, List.nodup_cons] at hflags
      obtain ⟨hfresh, hrest⟩ := hflags
      by_cases heq : f.flag = g.flag
      · have hothers : ∀ e ∈ rest, e.flag ≠ f.flag := fun e he h =>
          hfresh (List.mem_map.mpr ⟨e, he, h.trans heq⟩)
        obtain rfl : f = g := by
          rcases List.mem_cons.mp hf with rfl | hf
          · rfl
          · exact absurd rfl (hothers f hf)
        refine ⟨0, by rw [findFlag, if_pos rfl]; rfl, fun v x => ?_⟩
        rw [List.map_cons, List.map_cons, List.set_cons_zero, if_pos rfl,
          List.map_congr_left fun e he => (if_neg (hothers e he)).symm]
      · have hmem : f ∈ rest := (List.mem_cons.mp hf).resolve_left (fun h => heq (h ▸ rfl))
        obtain ⟨cc, hfind, hset⟩ := ih hrest hmem (k + 1)
        refine ⟨cc + 1, ?_, fun v x => ?_⟩
        · rw [findFlag, if_neg heq, hfind, Nat.add_assoc, Nat.add_comm 1]
        · rw [List.map_cons, List.map_cons, List.set_cons_succ, hset,
            if_neg fun h => heq h.symm]

theorem lastGiven_cons (flag : Bytes) (a : Bytes × ArgValue α) (args : List (Bytes × ArgValue α))
    (v : ArgValue α) :
    (lastGiven flag (a :: args)).getD v =
      (lastGiven flag args).getD (if flag = a.1 then a.2 else v) := by
  rw [lastGiven, lastGiven, List.reverse_cons, List.find?_append]
  cases args.reverse.find? fun a => a.1 = flag with
  | some found => rfl
  | none =>
      by_cases heq : a.1 = flag
      · subst heq
        simp
      · have hne : ¬ flag = a.1 := fun h => heq h.symm
        simp [heq, hne]

theorem writtenArgs_terminated {args : List (Bytes × ArgValue α)}
    (h : ∀ a ∈ args, PlainWord a.1 ∧ PlainWord a.2.written) : 0 ∉ writtenArgs args := by
  induction args with
  | nil => exact List.not_mem_nil
  | cons a args ih =>
      obtain ⟨⟨hflag, hvalue⟩, hmore⟩ := List.forall_mem_cons.mp h
      simp only [writtenArgs, List.mem_append, List.mem_cons, not_or]
      exact ⟨hflag.terminated, by decide, hvalue.terminated, by decide, ih hmore⟩

theorem assign_written (read : α → Bytes) {flags : List CmdDescFlag}
    (hflags : (flags.map CmdDescFlag.flag).Nodup)
    (hplain : ∀ f ∈ flags, PlainWord f.flag) {args : List (Bytes × ArgValue α)}
    (hargs : ∀ a ∈ args, ∃ f ∈ flags, f.flag = a.1 ∧ f.type.Takes ulongBits a.2)
    (hsymbols : ∀ a ∈ args, NoSymbol symbols a.2.written) (v : CmdDescFlag → ArgValue α) :
    ∃ ws, Words (writtenArgs args) ws ∧
      assign ulongBits read symbols flags ws (flags.map v) =
        .ok (flags.map fun f => (lastGiven f.flag args).getD (v f)) := by
  induction args generalizing v with
  | nil => exact ⟨[], .nil, rfl⟩
  | cons a args ih =>
      obtain ⟨flag, x⟩ := a
      obtain ⟨⟨f, hf, rfl, htakes⟩, hmore⟩ := List.forall_mem_cons.mp hargs
      obtain ⟨hsymbol, hnone⟩ := List.forall_mem_cons.mp hsymbols
      obtain ⟨ws, hws, hrun⟩ := ih hmore hnone fun g => if g.flag = f.flag then x else v g
      obtain ⟨cc, hfind, hset⟩ := findFlag_eq (α := α) hflags hf 0
      obtain ⟨hswitch, hlong⟩ := htakes.takes_word
      refine ⟨_, words_written (hplain f hf) (words_written htakes.plain hws), ?_⟩
      rw [assign_argument hfind hswitch hlong]
      simp only [substituted_text hsymbol, storedValue_written htakes, Nat.zero_add, hset, hrun]
      congr 1
      exact List.map_congr_left fun g _ => (lastGiven_cons g.flag (f.flag, x) args (v g)).symm

/-- A written line calls its command, with the last value of each flag in its buffer. -/
theorem shellParse_commandLine {cd : Nat} {c : CmdDesc} (hc : commands[cd]? = some c)
    (hfunc : c.func = true) {name : Bytes}
    (hname : name = cstring c.cmd ∨ name = cstring c.aliasName) {args : List (Bytes × ArgValue α)}
    (hargs : ∀ a ∈ args, ∃ f ∈ c.flags, f.flag = a.1 ∧ f.type.Takes ulongBits a.2)
    (hsymbols : ∀ a ∈ args, NoSymbol symbols a.2.written) :
    (shellParse ulongBits read symbols (commandLine name args)).map Parsed.seen =
      .ok (some (cd, c.flags.map fun f => (lastGiven f.flag args).getD (.number 0))) := by
  have hmem := List.mem_of_getElem? hc
  obtain ⟨hcmd, halias, hplain⟩ := commands_plain hmem
  obtain ⟨-, -, hflags, -⟩ := commands_names c hmem
  have hword : PlainWord name := by
    rcases hname with rfl | rfl
    · exact hcmd
    · exact halias
  obtain ⟨ws, hws, hrun⟩ := assign_written read hflags hplain hargs hsymbols fun _ => .number 0
  have hpairs : ∀ a ∈ args, PlainWord a.1 ∧ PlainWord a.2.written := by
    intro a ha
    obtain ⟨f, hf, hflag, htakes⟩ := hargs a ha
    exact ⟨hflag ▸ hplain f hf, htakes.plain⟩
  have hterminated : 0 ∉ commandLine name args := by
    simp only [commandLine, List.mem_append, List.mem_cons, not_or]
    exact ⟨hword.terminated, by decide, writtenArgs_terminated hpairs⟩
  have hline := @shellParse_words α ulongBits read symbols ⟨commandLine name args, hterminated⟩ _
    (words_written hword hws)
  rw [List.map_const'] at hrun
  rw [hline, understood]
  simp only [getcmd_name hc hname, hc, hfunc, if_true, hrun]
  rfl

theorem shellParse_commandLine_fread :
    (shellParse 32 (fun _ : Unit => []) none (ascii ",fr -n 512 -pp f -n 1024 ")).map Parsed.seen =
      .ok (some (13, [.text (ascii "f"), .number 0, .number 0, .number 1024])) := by
  have hplain : PlainWord (ascii "f") := ⟨by decide, by decide +kernel, by decide⟩
  let args : List (Bytes × ArgValue Unit) :=
    [(ascii "-n", .number 512), (ascii "-pp", .text (ascii "f")), (ascii "-n", .number 1024)]
  have hargs : ∀ a ∈ args, ∃ f ∈ (cmdDesc "fread" ",fr" [("-pp", .string), ("-ia", .string),
      ("-p", .qword), ("-n", .qword)]).flags, f.flag = a.1 ∧ f.type.Takes 32 a.2 := by
    simp only [args, List.forall_mem_cons]
    refine ⟨⟨⟨ascii "-n", .qword⟩, by decide, rfl, 64, rfl, by decide⟩,
      ⟨⟨ascii "-pp", .string⟩, by decide, rfl, rfl, hplain⟩,
      ⟨⟨ascii "-n", .qword⟩, by decide, rfl, 64, rfl, by decide⟩, by simp⟩
  exact @shellParse_commandLine Unit 32 (fun _ => []) none 13 _ rfl rfl (ascii ",fr")
    (Or.inr (by decide)) args hargs (fun _ _ _ h => nomatch h)

end Written

end BlockyOS.HostTool
