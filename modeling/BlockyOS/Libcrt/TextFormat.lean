import BlockyOS.Foundation.Decimals
import BlockyOS.Foundation.Memories
import BlockyOS.Foundation.SignedWords
import BlockyOS.Foundation.Trails
import BlockyOS.Foundation.Words
import BlockyOS.HostTool.StringReplace

/-!
# Formatted text

The formatter of the debug output and that of the video output are the same text.
They take the format one item at a time: a character for itself, or a directive with
its argument.  An index of 32 bits runs over the format, and another over the stream.
-/

namespace BlockyOS.Libcrt

open BlockyOS.Foundation
open BlockyOS.HostTool (CString)

/-! ## Arguments -/

/-- An argument as it is promoted: an `int` or 32-bit integer, a 64-bit integer, or a string. -/
inductive Arg where
  | word (w : UInt32)
  | quad (q : UInt64)
  | string (str : Option CString)

def Arg.word? : Arg → Option Nat
  | .word w => some w.toNat
  | _ => none

def Arg.quad? : Arg → Option Nat
  | .quad q => some q.toNat
  | _ => none

def Arg.string? : Arg → Option (Option CString)
  | .string str => some str
  | _ => none

def va_arg {α : Type} (type : Arg → Option α) : List Arg → Option (α × List Arg)
  | [] => none
  | arg :: ls => (type arg).map (·, ls)

/-! ## Directives -/

def FormatStart : UInt8 := 0x25
def FormatUInteger8 : UInt8 := 0x75
def FormatUInteger16 : UInt8 := 0x68
def FormatUInteger32 : UInt8 := 0x6C
def FormatUInteger64 : UInt8 := 0x7A
def FormatInteger8 : UInt8 := 0x6F
def FormatInteger16 : UInt8 := 0x65
def FormatInteger32 : UInt8 := 0x72
def FormatInteger64 : UInt8 := 0x69
def FormatString : UInt8 := 0x73
def FormatChar : UInt8 := 0x63

def chars (s : String) : Bytes := s.toUTF8.data.toList

def sample : Bytes := chars "0123456789abcdefghijklmnopqrstuvwxyzABCDEFGHIJKLMNOPQRSTUVWXYZ"

inductive Piece where
  | number (negative : Bool) (value : Nat)
  | string (bytes : Bytes)
  | char (c : UInt8)

/-- An integer of up to 64 bits converted to `uint64_t`. -/
def widen (x : Int) : Nat := (x % 2 ^ 64).toNat

def signedPiece (bits promoted value : Nat) : Piece :=
  let temp := narrow bits value
  if temp < 0 then .number true (widen (narrow promoted (-temp))) else .number false (widen temp)

def convert (directive : UInt8) (ls : List Arg) : Option (Piece × List Arg) :=
  if directive = FormatUInteger8 then
    (va_arg Arg.word? ls).map fun (w, ls) => (.number false (w % 2 ^ 8), ls)
  else if directive = FormatUInteger16 then
    (va_arg Arg.word? ls).map fun (w, ls) => (.number false (w % 2 ^ 16), ls)
  else if directive = FormatUInteger32 then
    (va_arg Arg.word? ls).map fun (w, ls) => (.number false w, ls)
  else if directive = FormatUInteger64 then
    (va_arg Arg.quad? ls).map fun (q, ls) => (.number false q, ls)
  else if directive = FormatInteger8 then
    (va_arg Arg.word? ls).map fun (w, ls) => (signedPiece 8 32 w, ls)
  else if directive = FormatInteger16 then
    (va_arg Arg.word? ls).map fun (w, ls) => (signedPiece 16 32 w, ls)
  else if directive = FormatInteger32 then
    (va_arg Arg.word? ls).map fun (w, ls) => (signedPiece 32 32 w, ls)
  else if directive = FormatInteger64 then
    (va_arg Arg.quad? ls).map fun (q, ls) => (signedPiece 64 64 q, ls)
  else if directive = FormatString then
    (va_arg Arg.string? ls).map fun (str, ls) =>
      (.string (str.elim (chars "(null)") CString.bytes), ls)
  else if directive = FormatChar then
    (va_arg Arg.word? ls).map fun (w, ls) => (.char (UInt8.ofNat w), ls)
  else some (.char directive, ls)

def numDigits (base : Nat) : Nat → Nat → Bytes
  | 0, _ => []
  | places + 1, value =>
      if value > 0 then sample.getD (value % base) 0 :: numDigits base places (value / base) else []

/-- The contents of `num_buf`, whose size is 70. -/
def numBuf (negative : Bool) (value : Nat) : Bytes :=
  (if value = 0 then chars "0" else numDigits 10 70 value) ++ if negative then chars "-" else []

/-! ## The formatter -/

structure Rendering where
  cc : Nat
  counter : Nat
  stream : Memory
  ls : List Arg

inductive CopyFault where
  | argument
  | hang
  deriving DecidableEq

/-- `stream[counter++] = c`. -/
def Rendering.put (s : Rendering) (c : UInt8) : Rendering :=
  { s with stream := Function.update s.stream s.counter c, counter := u32 (s.counter + 1) }

def putWhileRoom (size : Nat) : Bytes → Rendering → Rendering
  | [], s => s
  | c :: rest, s => if s.counter < size - 1 then putWhileRoom size rest (s.put c) else s

def Rendering.putPiece (size : Nat) (s : Rendering) : Piece → Rendering
  | .number negative value => putWhileRoom size (numBuf negative value).reverse s
  | .string bytes => putWhileRoom size bytes s
  | .char c => s.put c

def Rendering.next (s : Rendering) : Rendering := { s with cc := u32 (s.cc + 1) }

def directiveTurn (format : Memory) (size : Nat) (s : Rendering) :
    Rendering ⊕ Except CopyFault Rendering :=
  if format s.cc = 0 then .inr (.ok s)
  else
    match convert (format s.cc) s.ls with
    | none => .inr (.error .argument)
    | some (piece, ls) => .inl (Rendering.putPiece size { s with ls } piece).next

def copyTurn (format : Memory) (size : Nat) (s : Rendering) :
    Rendering ⊕ Except CopyFault Rendering :=
  if format s.cc ≠ 0 ∧ s.counter < size - 1 then
    if format s.cc = FormatStart then directiveTurn format size s.next
    else .inl (s.put (format s.cc)).next
  else .inr (.ok s)

structure Copied where
  stream : Memory
  size : Nat
  f : Nat
  ls : List Arg

/--
The loop over the format.  No turn leaves everything as it is, and this many turns end
it for every size up to `2 ^ 32`.
-/
def copyLoop (format : Memory) (size : Nat) (stream : Memory) (ls : List Arg) :
    Except CopyFault Rendering :=
  (follow (copyTurn format size) (ls.length + size + 1) ⟨0, 0, stream, ls⟩).getD (.error .hang)

abbrev Formatter :=
  (mem stream : Memory) → (size f : Nat) → List Arg → Except CopyFault Copied

/-- The formatter of both outputs, at the place `f` in the format. -/
def copyF : Formatter := fun mem stream size f ls =>
  if size = 0 then .ok ⟨stream, size, f, ls⟩
  else
    (copyLoop (fun cc => mem (f + cc)) size stream ls).map fun s =>
      ⟨Function.update s.stream s.counter 0, s.counter, f, s.ls⟩

def SimpleCopyF : Formatter := copyF

def TextCopyF : Formatter := copyF

end BlockyOS.Libcrt
