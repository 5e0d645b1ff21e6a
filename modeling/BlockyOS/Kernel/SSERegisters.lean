import BlockyOS.Foundation.Runs
import Mathlib.Algebra.Group.Nat.Defs
import Mathlib.Data.List.Nodup
import Mathlib.Logic.Function.Basic

/-!
# The allocator of the SSE registers

Sixteen stores with a map of 32 registers each.  The scan reads a map byte by
byte and bit by bit, but its elements are booleans, so that a stored byte keeps
only whether it is zero.
-/

namespace BlockyOS.Kernel

open Foundation

/-! ## Stores -/

def NXmmRegisters : Nat := 32

def registerBitmapLength : Nat := NXmmRegisters / 8

def NSSEStores : Nat := 16

@[ext] structure XmmRegister where
  store : Nat
  register : Nat
  deriving DecidableEq, Repr

structure SSEStore where
  enabled : Bool
  registerBitmap : Fin registerBitmapLength → Bool

abbrev SSEStores := Fin NSSEStores → SSEStore

def byteOfBool (b : Bool) : Nat := b.toNat

def boolOfByte (n : Nat) : Bool := n != 0

/-- The value of `byte & ~(1 << bit)`. -/
def clearBit (byte bit : Nat) : Nat := byte &&& (2 ^ 32 - 1 - 2 ^ bit)

namespace SSEStore

def setByte (s : SSEStore) (byteIdx : Fin registerBitmapLength) (byte : Nat) : SSEStore :=
  { s with registerBitmap := Function.update s.registerBitmap byteIdx (boolOfByte byte) }

/-- The scan of one store: the first byte that is not full, and its first clear bit. -/
def scan (s : SSEStore) : Option (Fin registerBitmapLength × Nat) :=
  (List.finRange registerBitmapLength).findSome? fun byteIdx =>
    let currentByte := byteOfBool (s.registerBitmap byteIdx)
    if currentByte = 0xFF then none
    else ((List.range 8).find? fun bitIdx => !currentByte.testBit bitIdx).map
      fun bitIdx => (byteIdx, bitIdx)

end SSEStore

namespace SSEStores

def initial : SSEStores := fun _ => ⟨false, fun _ => false⟩

/-- The first place the scan of the enabled stores comes upon. -/
def scan (stores : SSEStores) :
    Option (Fin NSSEStores × Fin registerBitmapLength × Nat) :=
  (List.finRange NSSEStores).findSome? fun cc =>
    if (stores cc).enabled then (stores cc).scan.map fun place => (cc, place) else none

def allocateSSERegister (stores : SSEStores) : SSEStores × Option XmmRegister :=
  match stores.scan with
  | none => (stores, none)
  | some (cc, byteIdx, bitIdx) =>
      let regID := byteIdx * 8 + bitIdx
      if NXmmRegisters ≤ regID then (stores, none)
      else
        let currentByte := byteOfBool ((stores cc).registerBitmap byteIdx)
        (Function.update stores cc ((stores cc).setByte byteIdx (currentByte ||| 2 ^ bitIdx)),
          some ⟨cc, regID⟩)

def freeSSERegister (stores : SSEStores) (r : XmmRegister) : SSEStores × Bool :=
  if h : r.store < NSSEStores ∧ r.register < NXmmRegisters ∧
      r.register / 8 < registerBitmapLength then
    let cc : Fin NSSEStores := ⟨r.store, h.1⟩
    let byteIdx : Fin registerBitmapLength := ⟨r.register / 8, h.2.2⟩
    let currentByte := byteOfBool ((stores cc).registerBitmap byteIdx)
    (Function.update stores cc
      ((stores cc).setByte byteIdx (clearBit currentByte (r.register % 8))), true)
  else (stores, false)

/-- `pushStore` takes the first store that is not enabled; `saved` is what `pushSSE` reports. -/
def pushStore (stores : SSEStores) (saved : Bool) : SSEStores × Option (Fin NSSEStores) × Bool :=
  match (List.finRange NSSEStores).find? fun cc => !(stores cc).enabled with
  | none => (stores, none, false)
  | some cc => (Function.update stores cc ⟨true, fun _ => false⟩, some cc, saved)

/-- `restored` is what `popSSE` reports. -/
def popStore (stores : SSEStores) (n : Nat) (restored : Bool) : SSEStores × Bool :=
  if h : n < NSSEStores then
    if (stores ⟨n, h⟩).enabled then
      (Function.update stores ⟨n, h⟩ { stores ⟨n, h⟩ with enabled := false }, restored)
    else (stores, false)
  else (stores, false)

/-- `switchCurrentStore`; a missing `Previous` pushes no store. -/
def switchCurrentStore (stores : SSEStores) (n : Nat) (previous saved restored : Bool) :
    SSEStores × Bool :=
  if h : n < NSSEStores then
    if (stores ⟨n, h⟩).enabled then
      popStore (if previous then (stores.pushStore saved).1 else stores) n restored
    else (stores, false)
  else (stores, false)

def Unmarked (stores : SSEStores) (r : XmmRegister) : Prop :=
  ∃ (cc : Fin NSSEStores) (byteIdx : Fin registerBitmapLength),
    r.store = cc ∧ r.register / 8 = byteIdx ∧
      (byteOfBool ((stores cc).registerBitmap byteIdx)).testBit (r.register % 8) = false

def firstEnabled (stores : SSEStores) : Option (Fin NSSEStores) :=
  (List.finRange NSSEStores).find? fun cc => (stores cc).enabled

end SSEStores

/-! ## What a boolean byte remembers -/

theorem testBit_boolOfByte_clearBit (b : Bool) {bit : Nat} (hbit : bit < 8) :
    (byteOfBool (boolOfByte (clearBit (byteOfBool b) bit))).testBit bit = false := by
  cases b with
  | false => simp [byteOfBool, boolOfByte, clearBit]
  | true =>
      have hall : ∀ bit < 8,
          (byteOfBool (boolOfByte (clearBit 1 bit))).testBit bit = false := by decide
      exact hall bit hbit

theorem SSEStore.scan_eq (s : SSEStore) :
    s.scan = some (⟨0, by decide⟩, if s.registerBitmap ⟨0, by decide⟩ then 1 else 0) := by
  have hrange : List.finRange registerBitmapLength =
      [⟨0, by decide⟩, ⟨1, by decide⟩, ⟨2, by decide⟩, ⟨3, by decide⟩] := by decide
  rw [scan, hrange, List.findSome?_cons]
  cases s.registerBitmap ⟨0, by decide⟩ with
  | false => rfl
  | true => rfl

namespace SSEStores

theorem scan_eq (stores : SSEStores) :
    stores.scan = stores.firstEnabled.map fun cc =>
      (cc, ⟨0, by decide⟩, if (stores cc).registerBitmap ⟨0, by decide⟩ then 1 else 0) := by
  rw [scan, firstEnabled]
  induction List.finRange NSSEStores with
  | nil => rfl
  | cons cc rest ih =>
      rw [List.findSome?_cons, List.find?_cons]
      cases henabled : (stores cc).enabled with
      | true => simp [SSEStore.scan_eq]
      | false => simpa using ih

def nextRegister (stores : SSEStores) (cc : Fin NSSEStores) : XmmRegister :=
  ⟨cc, if (stores cc).registerBitmap ⟨0, by decide⟩ then 1 else 0⟩

theorem allocateSSERegister_eq (stores : SSEStores) :
    stores.allocateSSERegister = match stores.firstEnabled with
      | none => (stores, none)
      | some cc => (Function.update stores cc ((stores cc).setByte ⟨0, by decide⟩ 1),
          some (stores.nextRegister cc)) := by
  rw [allocateSSERegister, scan_eq]
  cases stores.firstEnabled with
  | none => rfl
  | some cc =>
      simp only [Option.map_some, nextRegister]
      cases (stores cc).registerBitmap ⟨0, by decide⟩ with
      | false => rfl
      | true => rfl

theorem allocateSSERegister_result (stores : SSEStores) :
    stores.allocateSSERegister.2 = stores.firstEnabled.map stores.nextRegister := by
  rw [allocateSSERegister_eq]
  cases stores.firstEnabled with
  | none => rfl
  | some cc => rfl

theorem nextRegister_lt (stores : SSEStores) (cc : Fin NSSEStores) :
    (stores.nextRegister cc).store < NSSEStores ∧
      (stores.nextRegister cc).register < NXmmRegisters := by
  refine ⟨cc.isLt, ?_⟩
  change (if (stores cc).registerBitmap ⟨0, by decide⟩ then 1 else 0) < 32
  split <;> omega

theorem allocateSSERegister_none {stores stores' : SSEStores}
    (h : stores.allocateSSERegister = (stores', none)) : stores' = stores := by
  rw [allocateSSERegister_eq] at h
  cases hfirst : stores.firstEnabled with
  | none =>
      rw [hfirst] at h
      exact (Prod.mk.inj h).1.symm
  | some cc =>
      rw [hfirst] at h
      cases (Prod.mk.inj h).2

theorem nextRegister_le_one (stores : SSEStores) (cc : Fin NSSEStores) :
    (stores.nextRegister cc).register ≤ 1 := by
  rw [nextRegister]
  dsimp only
  split <;> omega

theorem freeSSERegister_nextRegister (stores : SSEStores) (cc : Fin NSSEStores) :
    (freeSSERegister (Function.update stores cc ((stores cc).setByte ⟨0, by decide⟩ 1))
      (stores.nextRegister cc)).1 = stores := by
  have hle := stores.nextRegister_le_one cc
  have hbyte : (stores.nextRegister cc).register / 8 = 0 := by omega
  have hplace : (stores.nextRegister cc).store < NSSEStores ∧
      (stores.nextRegister cc).register < NXmmRegisters ∧
      (stores.nextRegister cc).register / 8 < registerBitmapLength :=
    ⟨cc.isLt, Nat.lt_of_le_of_lt hle (by decide), hbyte ▸ by decide⟩
  rw [freeSSERegister, dif_pos hplace]
  have hcc : (⟨(stores.nextRegister cc).store, hplace.1⟩ : Fin NSSEStores) = cc := rfl
  simp only [hbyte, hcc, Function.update_self, Function.update_idem]
  rw [Function.update_eq_self_iff]
  have hbit : boolOfByte (clearBit (byteOfBool (boolOfByte 1))
      ((stores.nextRegister cc).register % 8)) = (stores cc).registerBitmap ⟨0, by decide⟩ := by
    simp only [nextRegister]
    cases (stores cc).registerBitmap ⟨0, by decide⟩ with
    | false => decide
    | true => decide
  simp only [SSEStore.setByte, Function.update_self, Function.update_idem, hbit,
    Function.update_eq_self]

theorem allocateSSERegister_some {stores stores' : SSEStores} {r : XmmRegister}
    (h : stores.allocateSSERegister = (stores', some r)) :
    r.register ≤ 1 ∧ (stores'.freeSSERegister r).1 = stores := by
  rw [allocateSSERegister_eq] at h
  cases hfirst : stores.firstEnabled with
  | none =>
      rw [hfirst] at h
      cases (Prod.mk.inj h).2
  | some cc =>
      rw [hfirst] at h
      obtain ⟨rfl, hr⟩ := Prod.mk.inj h
      obtain rfl := Option.some.inj hr
      exact ⟨stores.nextRegister_le_one cc, freeSSERegister_nextRegister stores cc⟩

theorem unmarked_freeSSERegister (stores : SSEStores) {r : XmmRegister}
    (hstore : r.store < NSSEStores) (hregister : r.register < NXmmRegisters) :
    (stores.freeSSERegister r).1.Unmarked r := by
  have hbyte : r.register / 8 < registerBitmapLength := by
    change r.register < 32 at hregister
    change r.register / 8 < 4
    omega
  refine ⟨⟨r.store, hstore⟩, ⟨r.register / 8, hbyte⟩, rfl, rfl, ?_⟩
  rw [freeSSERegister, dif_pos ⟨hstore, hregister, hbyte⟩]
  simp only [Function.update_self, SSEStore.setByte]
  exact testBit_boolOfByte_clearBit _ (Nat.mod_lt _ (by decide))

end SSEStores

/-! ## Calls -/

inductive SSECall where
  | allocateSSERegister
  | freeSSERegister (r : XmmRegister)
  | pushStore (saved : Bool)
  | popStore (n : Nat) (restored : Bool)
  | switchCurrentStore (n : Nat) (previous saved restored : Bool)

/-- The stores, and the registers allocated and not freed since. -/
structure SSESession where
  stores : SSEStores
  held : List XmmRegister

namespace SSESession

def initial : SSESession := ⟨.initial, []⟩

def call (s : SSESession) : SSECall → Except Unit SSESession
  | .allocateSSERegister =>
      .ok ⟨s.stores.allocateSSERegister.1, s.stores.allocateSSERegister.2.toList ++ s.held⟩
  | .freeSSERegister r =>
      .ok ⟨(s.stores.freeSSERegister r).1,
        if (s.stores.freeSSERegister r).2 then s.held.filter fun r' => r' ≠ r else s.held⟩
  | .pushStore saved => .ok { s with stores := (s.stores.pushStore saved).1 }
  | .popStore n restored => .ok { s with stores := (s.stores.popStore n restored).1 }
  | .switchCurrentStore n previous saved restored =>
      .ok { s with stores := (s.stores.switchCurrentStore n previous saved restored).1 }

/--
The registers held are distinct registers of the stores, none is refused while
an enabled store has one left, and each can be allocated again once it is freed.
-/
structure RegistersOwned (s : SSESession) : Prop where
  distinct : s.held.Nodup
  inRange : ∀ r ∈ s.held, r.store < NSSEStores ∧ r.register < NXmmRegisters
  exhausted : s.stores.allocateSSERegister.2 = none →
    ∀ cc, (s.stores cc).enabled = true → ∀ regID < NXmmRegisters, ⟨cc, regID⟩ ∈ s.held
  reusable : ∀ r ∈ s.held, (s.stores.freeSSERegister r).1.Unmarked r

/--
Of the first enabled store register 0 is not held while it is unmarked, and
register 1 is not held while register 0 is marked.
-/
def RegisterClear (s : SSESession) : SSECall → Prop
  | .allocateSSERegister => ∀ cc, s.stores.firstEnabled = some cc →
      if (s.stores cc).registerBitmap ⟨0, by decide⟩ then ⟨cc, 1⟩ ∉ s.held
      else ⟨cc, 0⟩ ∉ s.held
  | _ => True

theorem registersOwned_iff {s : SSESession}
    (hrange : ∀ r ∈ s.held, r.store < NSSEStores ∧ r.register < NXmmRegisters) :
    s.RegistersOwned ↔ s.held.Nodup := by
  refine ⟨RegistersOwned.distinct, fun hdistinct => ⟨hdistinct, hrange, ?_, ?_⟩⟩
  · intro hnone cc henabled
    rw [SSEStores.allocateSSERegister_result, Option.map_eq_none_iff] at hnone
    exact absurd henabled (List.find?_eq_none.mp hnone cc (List.mem_finRange cc))
  · intro r hr
    obtain ⟨hstore, hregister⟩ := hrange r hr
    exact SSEStores.unmarked_freeSSERegister _ hstore hregister

theorem RegistersOwned.withStores {s : SSESession} (h : s.RegistersOwned)
    (stores : SSEStores) : RegistersOwned ⟨stores, s.held⟩ :=
  (registersOwned_iff (s := ⟨stores, s.held⟩) h.inRange).mpr h.distinct

theorem call_exact {s s' : SSESession} {c : SSECall} (howned : s.RegistersOwned)
    (hcall : s.call c = .ok s') : s'.RegistersOwned ↔ s.RegisterClear c := by
  cases c with
  | allocateSSERegister =>
      cases hcall
      rw [SSEStores.allocateSSERegister_result, RegisterClear]
      cases hfirst : s.stores.firstEnabled with
      | none =>
          exact iff_of_true (howned.withStores _) fun _ hcc => by cases hcc
      | some cc =>
          rw [registersOwned_iff]
          · change (s.stores.nextRegister cc :: s.held).Nodup ↔ _
            rw [List.nodup_cons, and_iff_left howned.distinct, SSEStores.nextRegister]
            constructor
            · rintro hfree _ ⟨⟩
              split at hfree
              case isTrue hmarked => rwa [if_pos hmarked]
              case isFalse hmarked => rwa [if_neg hmarked]
            · intro hclear
              have hfree := hclear cc rfl
              split at hfree
              case isTrue hmarked => rwa [if_pos hmarked]
              case isFalse hmarked => rwa [if_neg hmarked]
          · intro r hr
            rcases List.mem_cons.mp hr with rfl | hr
            · exact s.stores.nextRegister_lt cc
            · exact howned.inRange r hr
  | freeSSERegister r =>
      cases hcall
      refine iff_of_true ?_ trivial
      have hsub : (if (s.stores.freeSSERegister r).2 then s.held.filter fun r' => r' ≠ r
          else s.held).Sublist s.held := by
        split
        · exact List.filter_sublist
        · exact .refl _
      exact (registersOwned_iff fun r' hr' => howned.inRange r' (hsub.subset hr')).mpr
        (howned.distinct.sublist hsub)
  | pushStore saved =>
      cases hcall
      exact iff_of_true (howned.withStores _) trivial
  | popStore n restored =>
      cases hcall
      exact iff_of_true (howned.withStores _) trivial
  | switchCurrentStore n previous saved restored =>
      cases hcall
      exact iff_of_true (howned.withStores _) trivial

theorem registersOwned_initial : initial.RegistersOwned :=
  (registersOwned_iff fun _ hr => absurd hr List.not_mem_nil).mpr List.nodup_nil

end SSESession

/-! ## Runs -/

/--
In a run the registers held stay distinct, and are refused and reused as they
should be, if and only if every allocation finds register 0 of the first enabled
store not held while it is unmarked and register 1 not held while register 0 is
marked.
-/
theorem registersOwned_always_iff (calls : List SSECall) :
    Always SSESession.call SSESession.RegistersOwned .initial calls ↔
      Meets SSESession.call SSESession.RegisterClear .initial calls :=
  always_iff_meets (fun _ _ _ => SSESession.call_exact) SSESession.registersOwned_initial

/-- The third allocation from a store returns the register of the second. -/
theorem not_registersOwned_third :
    ¬ Always SSESession.call SSESession.RegistersOwned .initial
      [.pushStore true, .allocateSSERegister, .allocateSSERegister, .allocateSSERegister] := by
  intro halways
  have hrun : (run SSESession.call .initial
      [.pushStore true, .allocateSSERegister, .allocateSSERegister, .allocateSSERegister]).map
        SSESession.held = .ok [⟨0, 1⟩, ⟨0, 1⟩, ⟨0, 0⟩] := by
    decide +kernel
  cases hs : run SSESession.call .initial
      [.pushStore true, .allocateSSERegister, .allocateSSERegister, .allocateSSERegister] with
  | error e =>
      rw [hs] at hrun
      cases hrun
  | ok s =>
      rw [hs] at hrun
      have hdistinct := (halways.of_run hs).distinct
      rw [Except.ok.inj hrun] at hdistinct
      exact absurd hdistinct (by decide)

end BlockyOS.Kernel
