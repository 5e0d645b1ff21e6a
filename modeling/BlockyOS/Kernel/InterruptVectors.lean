import BlockyOS.Foundation.Runs
import Mathlib.Data.List.Basic

/-!
# Interrupt vectors

The callback table of the kernel.  A vector is free while its slot holds the
generic handler; asking for one takes the first such slot and leaves it as it
is, so that a vector is taken only once its callback is set.
-/

namespace BlockyOS.Kernel

open Foundation

/-! ## The callback table -/

def IDTLength : Nat := 256

inductive ISRCallback where
  | generic
  | debugException
  | nonMaskableExt
  | breakpoint
  | overflow
  | boundRangeException
  | invalidOpcode
  | unavailableDevice
  | doubleFault
  | coprocessorSegmentOverrun
  | invalidTSS
  | segmentNotPresent
  | stackSegmentFault
  | generalProtection
  | pageFault
  | x87FPUError
  | alignmentCheck
  | machineCheck
  | simdFloatingPointException
  | virtualisationException
  | controlProtectionException
  | driver (address : Nat)
  deriving DecidableEq, Repr

structure ISRCallbackTable where
  slots : List ISRCallback
  length_slots : slots.length = IDTLength

def exceptionCallbacks : List ISRCallback :=
  [.debugException, .nonMaskableExt, .breakpoint, .overflow, .boundRangeException,
    .invalidOpcode, .unavailableDevice, .doubleFault, .coprocessorSegmentOverrun,
    .invalidTSS, .segmentNotPresent, .stackSegmentFault, .generalProtection, .pageFault,
    .x87FPUError, .alignmentCheck, .machineCheck, .simdFloatingPointException,
    .virtualisationException, .controlProtectionException]

/-- `InterruptCallbacks` as the kernel starts with it. -/
def interruptCallbacks : ISRCallbackTable where
  slots := exceptionCallbacks ++ List.replicate 236 .generic
  length_slots := by
    rw [List.length_append, List.length_replicate]
    rfl

namespace ISRCallbackTable

def callback (t : ISRCallbackTable) (vector : Nat) : Option ISRCallback := t.slots[vector]?

def put (t : ISRCallbackTable) (vector : Nat) (cb : ISRCallback) : ISRCallbackTable where
  slots := t.slots.set vector cb
  length_slots := by rw [List.length_set, t.length_slots]

def allocateInterruptVector (t : ISRCallbackTable) : Option Nat :=
  t.slots.findIdx? fun cb => cb = .generic

/-- Only a slot that still holds the generic handler is set; a missing callback sets none. -/
def isrSetCallback (t : ISRCallbackTable) (vector : Nat) (new : Option ISRCallback) :
    ISRCallbackTable :=
  match new with
  | none => t
  | some cb =>
      if IDTLength ≤ vector then t
      else if t.callback vector = some .generic then t.put vector cb
      else t

def isrUSetCallback (t : ISRCallbackTable) (vector : Nat) : ISRCallbackTable :=
  if IDTLength ≤ vector then t
  else if t.callback vector ≠ some .generic then t.put vector .generic
  else t

theorem allocateInterruptVector_eq_some_iff {t : ISRCallbackTable} {v : Nat} :
    t.allocateInterruptVector = some v ↔
      t.callback v = some .generic ∧ ∀ u < v, t.callback u ≠ some .generic := by
  rw [allocateInterruptVector, List.findIdx?_eq_some_iff_getElem]
  constructor
  · rintro ⟨hlt, hgeneric, hbefore⟩
    refine ⟨?_, fun u hu hfree => ?_⟩
    · rw [callback, List.getElem?_eq_getElem hlt]
      exact congrArg some (of_decide_eq_true hgeneric)
    · rw [callback, List.getElem?_eq_getElem (Nat.lt_trans hu hlt)] at hfree
      exact hbefore u hu (decide_eq_true (Option.some.inj hfree))
  · rintro ⟨hgeneric, hbefore⟩
    obtain ⟨hlt, hcb⟩ := List.getElem?_eq_some_iff.mp hgeneric
    refine ⟨hlt, decide_eq_true hcb, fun u hu hfree => hbefore u hu ?_⟩
    rw [callback, List.getElem?_eq_getElem (Nat.lt_trans hu hlt)]
    exact congrArg some (of_decide_eq_true hfree)

theorem allocateInterruptVector_eq_none_iff {t : ISRCallbackTable} :
    t.allocateInterruptVector = none ↔ ∀ v, t.callback v ≠ some .generic := by
  rw [allocateInterruptVector, List.findIdx?_eq_none_iff]
  constructor
  · intro h v hfree
    obtain ⟨hlt, hcb⟩ := List.getElem?_eq_some_iff.mp hfree
    have hnot := h _ (List.getElem_mem hlt)
    rw [hcb] at hnot
    exact absurd hnot (by decide)
  · intro h cb hcb
    obtain ⟨v, hlt, hv⟩ := List.getElem_of_mem hcb
    refine decide_eq_false fun hgeneric => h v ?_
    rw [callback, List.getElem?_eq_getElem hlt, hv, hgeneric]

end ISRCallbackTable

/-! ## Calls -/

/-- The calls of the drivers. -/
inductive VectorCall where
  | allocateInterruptVector
  | isrSetCallback (vector : BitVec 8) (new : Option ISRCallback)
  | isrUSetCallback (vector : BitVec 32)

structure Grant where
  vector : Nat
  callback : Option ISRCallback
  held : List Nat

structure VectorSession where
  table : ISRCallbackTable
  grants : List Grant
  /-- The vectors handed out and not released since. -/
  held : List Nat

namespace VectorSession

def initial : VectorSession := ⟨interruptCallbacks, [], []⟩

def call (s : VectorSession) : VectorCall → Except Unit VectorSession
  | .allocateInterruptVector =>
      match s.table.allocateInterruptVector with
      | none => .ok s
      | some v =>
          .ok { s with
            grants := ⟨v, s.table.callback v, s.held⟩ :: s.grants
            held := v :: s.held }
  | .isrSetCallback vector new =>
      .ok { s with table := s.table.isrSetCallback vector.toNat new }
  | .isrUSetCallback vector =>
      .ok { s with
        table := s.table.isrUSetCallback vector.toNat
        held := s.held.filter fun v => v ≠ vector.toNat }

def firstExternal : Nat := 0x20

/--
Every vector handed out is external, was not held by another caller, and was not
that of an installed callback.
-/
def VectorsOwned (s : VectorSession) : Prop :=
  ∀ g ∈ s.grants,
    firstExternal ≤ g.vector ∧ g.vector ∉ g.held ∧ g.callback = some .generic

/--
The slots below the external ones hold callbacks, and a held vector that is
still generic has a generic slot before it that nobody holds.
-/
def VectorClear (s : VectorSession) : VectorCall → Prop
  | .allocateInterruptVector =>
      (∀ v < firstExternal, s.table.callback v ≠ some .generic) ∧
        ∀ v ∈ s.held, s.table.callback v = some .generic →
          ∃ u < v, s.table.callback u = some .generic ∧ u ∉ s.held
  | .isrSetCallback _ _ => True
  | .isrUSetCallback _ => True

theorem lowest_not_held_iff {t : ISRCallbackTable} {held : List Nat} {v : Nat}
    (hv : t.allocateInterruptVector = some v) :
    v ∉ held ↔ ∀ w ∈ held, t.callback w = some .generic →
      ∃ u < w, t.callback u = some .generic ∧ u ∉ held := by
  obtain ⟨hgeneric, hlowest⟩ :=
    ISRCallbackTable.allocateInterruptVector_eq_some_iff.mp hv
  constructor
  · intro hfree w hw hwgeneric
    have hle : v ≤ w := Nat.le_of_not_lt fun hlt => hlowest w hlt hwgeneric
    have hne : v ≠ w := fun heq => hfree (heq ▸ hw)
    exact ⟨v, by omega, hgeneric, hfree⟩
  · intro hbelow hheld
    obtain ⟨u, hlt, hu, -⟩ := hbelow v hheld hgeneric
    exact hlowest u hlt hu

theorem lowest_external_iff {t : ISRCallbackTable} {v : Nat}
    (hv : t.allocateInterruptVector = some v) :
    firstExternal ≤ v ↔ ∀ u < firstExternal, t.callback u ≠ some .generic := by
  obtain ⟨hgeneric, hlowest⟩ :=
    ISRCallbackTable.allocateInterruptVector_eq_some_iff.mp hv
  constructor
  · intro hle u hu
    exact hlowest u (Nat.lt_of_lt_of_le hu hle)
  · intro hlow
    exact Nat.le_of_not_lt fun hlt => hlow v hlt hgeneric

theorem call_exact {s s' : VectorSession} {c : VectorCall} (howned : s.VectorsOwned)
    (hcall : s.call c = .ok s') : s'.VectorsOwned ↔ s.VectorClear c := by
  cases c with
  | allocateInterruptVector =>
      rw [call] at hcall
      cases hv : s.table.allocateInterruptVector with
      | none =>
          rw [hv] at hcall
          cases hcall
          have hnone := ISRCallbackTable.allocateInterruptVector_eq_none_iff.mp hv
          exact iff_of_true howned
            ⟨fun v _ => hnone v, fun v _ hgeneric => absurd hgeneric (hnone v)⟩
      | some v =>
          rw [hv] at hcall
          cases hcall
          have hgeneric := (ISRCallbackTable.allocateInterruptVector_eq_some_iff.mp hv).1
          rw [VectorClear, ← lowest_external_iff hv, ← lowest_not_held_iff hv]
          constructor
          · intro h
            obtain ⟨hexternal, hfree, -⟩ := h _ List.mem_cons_self
            exact ⟨hexternal, hfree⟩
          · rintro ⟨hexternal, hfree⟩ g hg
            rcases List.mem_cons.mp hg with rfl | hg
            · exact ⟨hexternal, hfree, hgeneric⟩
            · exact howned g hg
  | isrSetCallback vector new =>
      cases hcall
      exact iff_of_true howned trivial
  | isrUSetCallback vector =>
      cases hcall
      exact iff_of_true howned trivial

theorem vectorsOwned_initial : initial.VectorsOwned :=
  fun _ hg => absurd hg List.not_mem_nil

end VectorSession

/-! ## Runs -/

/--
From the table the kernel starts with, every vector handed out in a run is an
external one that nobody else holds if and only if at each request all slots
below the external ones hold callbacks and no vector is held that would be the
next to be taken.
-/
theorem vectorsOwned_always_iff (calls : List VectorCall) :
    Always VectorSession.call VectorSession.VectorsOwned .initial calls ↔
      Meets VectorSession.call VectorSession.VectorClear .initial calls :=
  always_iff_meets (fun _ _ _ => VectorSession.call_exact)
    VectorSession.vectorsOwned_initial

/-- The first vector of all is 20, the slot of an exception. -/
theorem not_vectorsOwned_first :
    ¬ Always VectorSession.call VectorSession.VectorsOwned .initial
      [.allocateInterruptVector] := by
  rintro ⟨-, halways⟩
  have howned := halways ⟨interruptCallbacks, [⟨20, some .generic, []⟩], [20]⟩ rfl
  exact absurd (howned _ List.mem_cons_self).1 (by decide)

end BlockyOS.Kernel
