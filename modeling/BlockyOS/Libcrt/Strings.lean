import BlockyOS.HostTool.StringReplace
import BlockyOS.Libcrt.MemoryCompare

/-!
# Strings in memory

A pointer to a string shows its characters, the terminator, and bytes that are not
its own.
-/

namespace BlockyOS.Libcrt

open BlockyOS.Foundation
open BlockyOS.HostTool (CString)

/-- The bytes from a pointer to the string on. -/
def stringAt (s : CString) (beyond : Memory) : Memory :=
  fun k => (s.bytes ++ [0])[k]?.getD (beyond k)

/-- The loop of `strlen` over the characters and their terminator. -/
def strlenFrom : Bytes → Nat
  | [] => 0
  | c :: rest => if c ≠ 0 then strlenFrom rest + 1 else 0

def strlen (s : CString) : Nat := strlenFrom (s.bytes ++ [0])

variable {s : CString} {beyond : Memory}

@[simp] theorem strlen_eq (s : CString) : strlen s = s.bytes.length := by
  have hfrom : ∀ bytes : Bytes, 0 ∉ bytes → strlenFrom (bytes ++ [0]) = bytes.length := by
    intro bytes
    induction bytes with
    | nil => exact fun _ => rfl
    | cons c rest ih =>
        intro hzero
        rw [List.mem_cons, not_or] at hzero
        rw [List.cons_append, strlenFrom, if_pos (Ne.symm hzero.1), ih hzero.2, List.length_cons]
  exact hfrom s.bytes s.terminated

theorem stringAt_of_lt {k : Nat} (h : k < s.bytes.length) :
    stringAt s beyond k = s.bytes[k] := by
  rw [stringAt, List.getElem?_append_left h, List.getElem?_eq_getElem h, Option.getD_some]

theorem stringAt_length : stringAt s beyond s.bytes.length = 0 := by
  rw [stringAt, List.getElem?_concat_length, Option.getD_some]

end BlockyOS.Libcrt
