import BlockyOS.Foundation.Decimals
import BlockyOS.HostTool.StringReplace
import BlockyOS.HostTool.Tokenizer

/-!
# Command lines of the shell

`__shellparse` finds a command by its first token and fills one word of a buffer
for each flag of the command from the tokens behind it.  The data of symbols
that are no strings are of an arbitrary type.
-/

namespace BlockyOS.HostTool

open BlockyOS.Foundation

/-! ## The table of commands -/

inductive CmdDescArgType where
  | switch
  | bool
  | char
  | byte
  | word
  | dword
  | qword
  | string
  | longInteger
  deriving DecidableEq, Repr

structure CmdDescFlag where
  flag : Bytes
  type : CmdDescArgType
  deriving DecidableEq, Repr

/-- The two names, of eight bytes each, whether there is a function, and the flags. -/
structure CmdDesc where
  cmd : Bytes
  aliasName : Bytes
  func : Bool
  flags : List CmdDescFlag
  deriving DecidableEq, Repr

def ascii (s : String) : Bytes := s.toList.map fun c => UInt8.ofNat c.toNat

def cmdDesc (cmd aliasName : String) (flags : List (String × CmdDescArgType)) : CmdDesc where
  cmd := padTo 8 (ascii cmd)
  aliasName := padTo 8 (ascii aliasName)
  func := true
  flags := flags.map fun f => ⟨ascii f.1, f.2⟩

def commands : List CmdDesc := [
  cmdDesc "help" ",h" [("-h", .string)],
  cmdDesc "e.sym" ",s" [("-%", .string), ("-n", .qword), ("-d", .longInteger)],
  cmdDesc "symdump" ",sd" [("-%", .string), ("-P", .string)],
  cmdDesc "symprint" ",sp" [("-n", .string)],
  cmdDesc "e.disk" ",u" [("-pp", .string), ("-pt", .string), ("-bs", .dword), ("-lb", .dword),
    ("-v", .string)],
  { cmdDesc "e.mount" ",m" [] with func := false },
  cmdDesc "e.flush" ",fu" [],
  cmdDesc "create" ",cr" [("-la", .string), ("-p", .string), ("-n", .string)],
  cmdDesc "delete" ",d" [("-a", .string)],
  cmdDesc "open" ",o" [("-la", .string), ("-p", .string), ("-a", .string)],
  cmdDesc "close" ",cl" [("-a", .string)],
  cmdDesc "read" ",r" [("-oa", .string), ("-ia", .string), ("-p", .qword), ("-n", .qword)],
  cmdDesc "write" ",w" [("-oa", .string), ("-ia", .string), ("-p", .qword), ("-n", .qword)],
  cmdDesc "fread" ",fr" [("-pp", .string), ("-ia", .string), ("-p", .qword), ("-n", .qword)],
  cmdDesc "fwrite" ",fw" [("-pp", .string), ("-ia", .string), ("-p", .qword), ("-n", .qword)],
  cmdDesc "exit" ",e" []]

/-- `!memcmp(name, cmd, __min(strlen(cmd), 8))` -/
def commandMatches (cmd name : Bytes) : Bool := name.take (min cmd.length 8) == cmd.take 8

def CmdDesc.named (c : CmdDesc) (cmd : Bytes) : Bool :=
  commandMatches cmd c.aliasName || commandMatches cmd c.cmd

def getcmd (cmd : Option Bytes) : Option Nat :=
  match cmd with
  | none => none
  | some cmd => commands.findIdx? fun c => c.named cmd

/-! ## Numbers -/

/-- `isspace` -/
def isSpace (c : UInt8) : Bool := c == 0x20 || (0x09 ≤ c && c ≤ 0x0D)

/-- `strtoul(s, NULL, 10)` for numbers of so many bits, as the C library has it. -/
def strtoul (bits : Nat) (s : Bytes) : Nat :=
  let s := s.dropWhile isSpace
  let negative := s.head? = some 0x2D
  let s := if s.head? = some 0x2D ∨ s.head? = some 0x2B then s.tail else s
  let n := (valueFrom 0 (s.takeWhile isDigit)).toNat
  if 2 ^ bits ≤ n then 2 ^ bits - 1 else if negative then (2 ^ bits - n) % 2 ^ bits else n

/-! ## Symbols and arguments -/

inductive SymData (α : Type) where
  | string (data : Bytes)
  | fhandle (data : α)
  | unknown (data : α)
  deriving DecidableEq, Repr

structure SymRef (α : Type) where
  aliasName : Bytes
  data : SymData α
  nbytes : Nat
  deriving DecidableEq, Repr

inductive Arg (α : Type) where
  | number (n : Nat)
  | inLine (place : Nat)
  | replaced (buffer : Bytes)
  | symbol (data : α)
  deriving DecidableEq, Repr

section Parsing

variable {α : Type} (ulongBits : Nat) (read : α → Bytes) (symbols : Option (List (SymRef α)))

/-- The loop of `resolvedata`. -/
def resolveFrom (src : Bytes) : List (SymRef α) → Except Fault (Option (Arg α))
  | [] => .ok none
  | sym :: rest =>
      if (strstr sym.aliasName src).isSome then
        match sym.data with
        | .string data => (strReplace src sym.aliasName data).map fun r => r.map .replaced
        | .fhandle data => .ok (some (.symbol data))
        | .unknown data => .ok (some (.symbol data))
      else resolveFrom src rest

def resolvedata (src : Option Bytes) : Except Fault (Option (Arg α)) :=
  match src, symbols with
  | some src, some buffer => resolveFrom src buffer
  | _, _ => .ok none

/-- The string that an argument points to, given the copy of the line. -/
def Arg.text (line : Bytes) : Arg α → Bytes
  | .number _ => []
  | .inLine place => cstring (line.drop place)
  | .replaced buffer => cstring buffer
  | .symbol data => read data

/-- A `char` is signed. -/
def charValue (s : Bytes) : Nat :=
  let c := (s.head?.getD 0).toNat
  if c < 0x80 then c else c + (2 ^ 64 - 0x100)

/-- The number that a type reads from a text; the other types keep the pointer. -/
def CmdDescArgType.number (type : CmdDescArgType) (text : Bytes) : Option Nat :=
  match type with
  | .bool =>
      some (if (ascii "true").isPrefixOf text || (ascii "TRUE").isPrefixOf text then 1 else 0)
  | .char => some (charValue text)
  | .byte | .word | .dword => some (strtoul ulongBits text)
  | .qword => some (strtoul 64 text)
  | .switch | .string | .longInteger => none

def CmdDescArgType.store (type : CmdDescArgType) (arg : Arg α) (text : Bytes) : Arg α :=
  ((type.number ulongBits text).map Arg.number).getD arg

/-- `strtok_ff`: the rest of the copy, which later tokens are still cut from. -/
def strtokFf (t : StrTok) : Option Nat :=
  match t.tok with
  | none => none
  | some p => if t.dup[p]? = some 0 then none else some p

def setFlag (type : CmdDescArgType) (t : StrTok) : Except Fault (Option (Arg α) × StrTok) :=
  match type with
  | .switch => .ok (some (.number 1), t)
  | .longInteger =>
      let temp := strtokFf t
      match resolvedata symbols (temp.map fun p => cstring (t.dup.drop p)) with
      | .error e => .error e
      | .ok found => .ok (some ((found <|> temp.map Arg.inLine).getD (.number 0)), t)
  | type =>
      match strtokK (t.dup.length + 1) t with
      | .error e => .error e
      | .ok (temp, t) =>
          match resolvedata symbols (temp.map fun p => cstring (t.dup.drop p)) with
          | .error e => .error e
          | .ok found =>
              match found <|> temp.map Arg.inLine with
              | some arg => .ok (some (type.store ulongBits arg (arg.text read t.dup)), t)
              | none => .ok (if type = .string then some (.number 0) else none, t)

def matchFlags (tok : Nat) : List CmdDescFlag → Nat → StrTok → List (Arg α) →
    Except Fault (StrTok × List (Arg α))
  | [], _, t, buffer => .ok (t, buffer)
  | f :: rest, cc, t, buffer =>
      if cstring (t.dup.drop tok) = f.flag then
        match setFlag ulongBits read symbols f.type t with
        | .error e => .error e
        | .ok (some arg, t) => matchFlags tok rest (cc + 1) t (buffer.set cc arg)
        | .ok (none, t) => matchFlags tok rest (cc + 1) t buffer
      else matchFlags tok rest (cc + 1) t buffer

def parseArgs (flags : List CmdDescFlag) : Nat → StrTok → List (Arg α) →
    Except Fault (StrTok × List (Arg α))
  | 0, _, _ => .error .hang
  | fuel + 1, t, buffer =>
      match strtokK (t.dup.length + 1) t with
      | .error e => .error e
      | .ok (none, t) => .ok (t, buffer)
      | .ok (some tok, t) =>
          match matchFlags ulongBits read symbols tok flags 0 t buffer with
          | .error e => .error e
          | .ok (t, buffer) => parseArgs flags fuel t buffer

def shellDelims : Bytes := ascii " \""

inductive Parsed (α : Type) where
  | emptyCommand
  | noCommand
  | call (command : Nat) (buffer : List (Arg α)) (line : Bytes)
  deriving Repr

def shellParse (input : Bytes) : Except Fault (Parsed α) :=
  if input = [] then .ok .emptyCommand
  else
    match strtokI input shellDelims forceSameBorderingDelims with
    | .error e => .error e
    | .ok none => .ok .noCommand
    | .ok (some t) =>
        match strtokK (t.dup.length + 1) t with
        | .error e => .error e
        | .ok (tok, t) =>
            match getcmd (tok.map fun p => cstring (t.dup.drop p)) with
            | none => .ok .noCommand
            | some cd =>
                match commands[cd]? with
                | none => .ok .noCommand
                | some c =>
                    if c.func then
                      (parseArgs ulongBits read symbols c.flags (input.length + 3) t
                        (List.replicate c.flags.length (.number 0))).map fun r =>
                          .call cd r.2 r.1.dup
                    else .ok .noCommand

end Parsing

end BlockyOS.HostTool
