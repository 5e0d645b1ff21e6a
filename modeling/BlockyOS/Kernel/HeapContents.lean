import BlockyOS.Kernel.HeapRelease

/-!
# The bytes of blocks

The functions of the heap that write into the blocks they hand out.  What
`mmalloc` itself writes, descriptors and the zeroes of new pools, is not among
these bytes.
-/

namespace BlockyOS.Kernel

open BlockyOS.Foundation
open BlockyOS.HostTool (Fault)

/-! ## Setting and copying bytes -/

abbrev Contents : Type := Nat → UInt8

def memset (bytes : Contents) (buffer : Nat) (val : UInt8) (len : Nat) : Contents :=
  fun a => if buffer ≤ a ∧ a < buffer + len then val else bytes a

def copyRun (bytes : Contents) (dst src len : Nat) : Contents :=
  fun a => if dst ≤ a ∧ a < dst + len then bytes (src + (a - dst)) else bytes a

/-- The loop of `memcpy` over runs of `size` bytes, from run `first` on. -/
def copyRuns (bytes : Contents) (dst src size first : Nat) : Nat → Contents
  | 0 => bytes
  | count + 1 =>
      let i := (first + count) * size
      copyRun (copyRuns bytes dst src size first count) (dst + i) (src + i) size

/-- `memcpy`: runs of 16 bytes if there is a free register, then byte after byte. -/
def Contents.memcpy (sse : Bool) (bytes : Contents) (dst src len : Nat) : Contents :=
  let chunks := if 16 ≤ len ∧ sse then len / 16 else 0
  copyRuns (copyRuns bytes dst src 16 0 chunks) dst src 1 (chunks * 16) (len - chunks * 16)

theorem copyRun_zero (bytes : Contents) (dst src : Nat) : copyRun bytes dst src 0 = bytes := by
  funext a
  exact if_neg (by omega)

theorem copyRun_copyRun (bytes : Contents) {dst src m k : Nat}
    (h : dst ≤ src ∨ src + (m + k) ≤ dst) :
    copyRun (copyRun bytes dst src m) (dst + m) (src + m) k = copyRun bytes dst src (m + k) := by
  funext a
  simp only [copyRun]
  by_cases hsecond : dst + m ≤ a ∧ a < dst + m + k
  · rw [if_pos hsecond, if_neg (by omega), if_pos (by omega)]
    congr 1
    omega
  · rw [if_neg hsecond]
    exact if_congr (by omega) rfl rfl

theorem copyRuns_eq (bytes : Contents) (dst src size first count : Nat)
    (h : dst ≤ src ∨ src + (first + count) * size ≤ dst) :
    copyRuns (copyRun bytes dst src (first * size)) dst src size first count =
      copyRun bytes dst src ((first + count) * size) := by
  induction count with
  | zero => rfl
  | succ count ih =>
      have hsplit : (first + (count + 1)) * size = (first + count) * size + size := by ring
      rw [hsplit] at h ⊢
      rw [copyRuns, ih (by omega), copyRun_copyRun bytes h]

theorem memcpy_eq (sse : Bool) (bytes : Contents) {dst src len : Nat}
    (h : dst ≤ src ∨ src + len ≤ dst) :
    Contents.memcpy sse bytes dst src len = copyRun bytes dst src len := by
  have hchunks : (if 16 ≤ len ∧ sse then len / 16 else 0) * 16 ≤ len := by
    split
    · exact Nat.div_mul_le_self len 16
    · omega
  rw [Contents.memcpy]
  generalize (if 16 ≤ len ∧ sse then len / 16 else 0) = chunks at hchunks
  have hfirst := copyRuns_eq bytes dst src 16 0 chunks (by omega)
  have hrest := copyRuns_eq bytes dst src 1 (chunks * 16) (len - chunks * 16) (by omega)
  rw [Nat.zero_mul, copyRun_zero, Nat.zero_add] at hfirst
  rw [Nat.mul_one, Nat.mul_one, Nat.add_sub_cancel' hchunks] at hrest
  rw [hfirst]
  exact hrest

theorem memcpy_const (sse : Bool) (val : UInt8) (dst src len : Nat) :
    Contents.memcpy sse (fun _ => val) dst src len = fun _ => val := by
  have hruns : ∀ size first count, copyRuns (fun _ => val) dst src size first count =
      fun _ => val := by
    intro size first count
    induction count with
    | zero => rfl
    | succ count ih =>
        rw [copyRuns, ih]
        funext a
        exact ite_self _
  rw [Contents.memcpy, hruns, hruns]

/-! ## The functions that use them -/

structure HeapMem where
  heap : Heap
  bytes : Contents

namespace HeapMem

/-- `memset` is called on the result, which for `NULL` is address zero. -/
def mmalloczero (E : HeapEnv) (s : HeapMem) (nbytes : Nat) :
    Except Fault (Option Nat × HeapMem) :=
  match s.heap.mmalloc E nbytes with
  | .error e => .error e
  | .ok (out, h) => .ok (out, ⟨h, memset s.bytes (out.getD 0) 0 nbytes⟩)

def mcalloc (E : HeapEnv) (s : HeapMem) (nItems itemSize : Nat) :
    Except Fault (Option Nat × HeapMem) :=
  mmalloczero E s (u64 (nItems * itemSize))

def mclone (sse : Bool) (E : HeapEnv) (s : HeapMem) (original : Nat) :
    Except Fault (Option Nat × HeapMem) :=
  let size := s.heap.originalSize original
  if size ≠ 0 then
    match mmalloczero E s size with
    | .error e => .error e
    | .ok (none, s) => .ok (none, s)
    | .ok (some out, s) => .ok (some out, ⟨s.heap, Contents.memcpy sse s.bytes out original size⟩)
  else .ok (none, s)

def mrealloc (sse : Bool) (E : HeapEnv) (s : HeapMem) (ptr new : Nat) :
    Except Fault (Option Nat × HeapMem) :=
  let originalsize := s.heap.originalSize ptr
  if ptr = 0 then (s.heap.mmalloc E new).map fun r => (r.1, ⟨r.2, s.bytes⟩)
  else if new = 0 then (s.heap.mfree E ptr).map fun h => (none, ⟨h, s.bytes⟩)
  else if originalsize = 0 then .ok (none, s)
  else
    match s.heap.mmalloc E new with
    | .error e => .error e
    | .ok (none, h) => .ok (none, ⟨h, s.bytes⟩)
    | .ok (some out, h) =>
        (h.mfree E ptr).map fun h =>
          (some out, ⟨h, Contents.memcpy sse s.bytes out ptr (min originalsize new)⟩)

variable {E : HeapEnv} {s : HeapMem}

theorem mmalloczero_heap {s' : HeapMem} {nbytes : Nat} {block : Option Nat}
    (h : s.mmalloczero E nbytes = .ok (block, s')) :
    s.heap.mmalloc E nbytes = .ok (block, s'.heap) := by
  rw [mmalloczero] at h
  cases hmalloc : s.heap.mmalloc E nbytes with
  | error e =>
      rw [hmalloc] at h
      cases h
  | ok r =>
      rw [hmalloc] at h
      cases h
      rfl

end HeapMem

end BlockyOS.Kernel
