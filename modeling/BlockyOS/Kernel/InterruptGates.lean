import BlockyOS.Kernel.DescriptorTables
import BlockyOS.Kernel.InterruptVectors

/-!
# Interrupt gates

`SetIDTe` spreads a handler over three fields of a gate.  `ISRUSetCallback` patches two
of them and finds the stack to free through the gate that it patches.
-/

namespace BlockyOS.Kernel.IDT

open BlockyOS.Foundation

/-! ## Gates -/

structure IDTEntrySegmentSelector64 where
  priviledgeLevel : BitVec 2
  localDescriptor : BitVec 1
  segment : BitVec 13
  deriving DecidableEq, Repr

structure IDTEntry64 where
  offsetLow : BitVec 16
  segmentSelector : BitVec 16
  interruptStackTableOffset : BitVec 3
  gateType : BitVec 4
  descriptorPrivilegeLevel : BitVec 2
  presentEntry : BitVec 1
  offsetMid : BitVec 16
  offsetHigh : BitVec 32
  deriving DecidableEq, Repr

abbrev IDTTable64 := Nat → IDTEntry64

namespace IDTEntry64

variable (e : IDTEntry64)

def fields : List BitField :=
  [(16, e.offsetLow.toNat), (16, e.segmentSelector.toNat),
    (3, e.interruptStackTableOffset.toNat), (5, 0), (4, e.gateType.toNat), (1, 0),
    (2, e.descriptorPrivilegeLevel.toNat), (1, e.presentEntry.toNat),
    (16, e.offsetMid.toNat), (32, e.offsetHigh.toNat), (32, 0)]

def raw : Nat := packFields e.fields

def ofRaw (raw : Nat) : IDTEntry64 where
  offsetLow := BitVec.ofNat 16 (bits raw 0 16)
  segmentSelector := BitVec.ofNat 16 (bits raw 16 16)
  interruptStackTableOffset := BitVec.ofNat 3 (bits raw 32 3)
  gateType := BitVec.ofNat 4 (bits raw 40 4)
  descriptorPrivilegeLevel := BitVec.ofNat 2 (bits raw 45 2)
  presentEntry := BitVec.ofNat 1 (bits raw 47 1)
  offsetMid := BitVec.ofNat 16 (bits raw 48 16)
  offsetHigh := BitVec.ofNat 32 (bits raw 64 32)

def address : BitVec 64 :=
  e.offsetLow.setWidth 64 ||| e.offsetMid.setWidth 64 <<< 16 ||| e.offsetHigh.setWidth 64 <<< 32

end IDTEntry64

def setIDTe (table : IDTTable64) (n : Nat) (hndlr : BitVec 64)
    (sselector : IDTEntrySegmentSelector64) (ist gatetype : BitVec 8) (enable : Bool) :
    IDTTable64 :=
  Function.update table n {
    descriptorPrivilegeLevel := sselector.priviledgeLevel
    segmentSelector := sselector.segment.setWidth 16
    interruptStackTableOffset := ist.setWidth 3
    presentEntry := BitVec.ofBool enable
    gateType := gatetype.setWidth 4
    offsetHigh := ((hndlr >>> 32) &&& 0xFFFFFFFF).setWidth 32
    offsetMid := ((hndlr >>> 16) &&& 0xFFFF).setWidth 16
    offsetLow := (hndlr &&& 0xFFFF).setWidth 16 }

/-- A gate that the processor reads as it was asked for. -/
structure Decodes (e : IDTEntry64) (hndlr : BitVec 64) (sselector : IDTEntrySegmentSelector64)
    (ist gatetype : BitVec 8) (enable : Bool) : Prop where
  address : (IDTEntry64.ofRaw e.raw).address = hndlr
  segment : (IDTEntry64.ofRaw e.raw).segmentSelector.toNat = sselector.segment.toNat
  privilege : (IDTEntry64.ofRaw e.raw).descriptorPrivilegeLevel = sselector.priviledgeLevel
  ist : (IDTEntry64.ofRaw e.raw).interruptStackTableOffset.toNat = ist.toNat
  gateType : (IDTEntry64.ofRaw e.raw).gateType.toNat = gatetype.toNat
  present : (IDTEntry64.ofRaw e.raw).presentEntry = BitVec.ofBool enable

/-- Every gate is written as it was asked for, and no other gate with it. -/
def SetsGates : Prop :=
  ∀ (table : IDTTable64) (n : Nat) (hndlr : BitVec 64) (sselector : IDTEntrySegmentSelector64)
    (ist gatetype : BitVec 8) (enable : Bool), ist.toNat < 8 → gatetype.toNat < 16 →
      Decodes (setIDTe table n hndlr sselector ist gatetype enable n) hndlr sselector ist
        gatetype enable ∧
      ∀ m, m ≠ n → setIDTe table n hndlr sselector ist gatetype enable m = table m

/-! ### Reading a gate back -/

theorem IDTEntry64.ofRaw_raw (e : IDTEntry64) : ofRaw e.raw = e := by
  have hfield (low : List BitField) {width : Nat} (value : BitVec width) (high : List BitField)
      (off : Nat) (hfields : e.fields = low ++ (width, value.toNat) :: high)
      (hoff : fieldsWidth low = off) : BitVec.ofNat width (bits e.raw off width) = value := by
    rw [raw, hfields, bits_packFields_field low width _ high off hoff,
      Nat.mod_eq_of_lt value.isLt, BitVec.ofNat_toNat, BitVec.setWidth_eq]
  rw [ofRaw, hfield [] e.offsetLow _ 0 rfl rfl,
    hfield (e.fields.take 1) e.segmentSelector _ 16 rfl rfl,
    hfield (e.fields.take 2) e.interruptStackTableOffset _ 32 rfl rfl,
    hfield (e.fields.take 4) e.gateType _ 40 rfl rfl,
    hfield (e.fields.take 6) e.descriptorPrivilegeLevel _ 45 rfl rfl,
    hfield (e.fields.take 7) e.presentEntry _ 47 rfl rfl,
    hfield (e.fields.take 8) e.offsetMid _ 48 rfl rfl,
    hfield (e.fields.take 9) e.offsetHigh _ 64 rfl rfl]

theorem IDTEntry64.address_eq_iff {e : IDTEntry64} {hndlr : BitVec 64} :
    e.address = hndlr ↔ e.offsetLow = hndlr.setWidth 16 ∧
      e.offsetMid = (hndlr >>> 16).setWidth 16 ∧ e.offsetHigh = (hndlr >>> 32).setWidth 32 := by
  constructor
  · rintro rfl
    refine ⟨?_, ?_, ?_⟩ <;> apply BitVec.eq_of_getLsbD_eq <;> intro i hi
    · simp [address, hi]
    · have hplace : 16 + i < 32 ∧ 16 + i < 64 ∧ i < 64 := by omega
      simp [address, hi, hplace]
    · have hplace : 32 + i < 64 ∧ i < 64 := by omega
      have hlow : e.offsetLow.getLsbD (32 + i) = false := BitVec.getLsbD_of_ge _ _ (by omega)
      have hmid : e.offsetMid.getLsbD (32 + i - 16) = false := BitVec.getLsbD_of_ge _ _ (by omega)
      simp [address, hi, hplace, hlow, hmid]
  · rintro ⟨hlow, hmid, hhigh⟩
    rw [address, hlow, hmid, hhigh]
    apply BitVec.eq_of_getLsbD_eq
    intro i hi
    rcases Nat.lt_or_ge i 16 with h16 | h16
    · have hplace : i < 32 := by omega
      simp [h16, hi, hplace]
    · have hplace : ¬ i < 16 ∧ i - 16 < 64 := by omega
      rcases Nat.lt_or_ge i 32 with h32 | h32
      · have hplace' : i - 16 < 16 := by omega
        simp [h16, h32, hi, hplace, hplace']
      · have hplace' : ¬ i < 32 ∧ ¬ i - 16 < 16 ∧ i - 32 < 64 ∧ i - 32 < 32 := by omega
        simp [h16, h32, hi, hplace, hplace']

theorem setWidth_and_of_allOnes {w : Nat} {x mask : BitVec 64}
    (hmask : mask.setWidth w = BitVec.allOnes w) : (x &&& mask).setWidth w = x.setWidth w := by
  rw [BitVec.setWidth_and, hmask, BitVec.and_allOnes]

theorem setsGates : SetsGates := by
  intro table n hndlr sselector ist gatetype enable hist htype
  refine ⟨?_, fun m hm => Function.update_of_ne hm _ _⟩
  rw [setIDTe, Function.update_self]
  constructor <;> rw [IDTEntry64.ofRaw_raw]
  · exact IDTEntry64.address_eq_iff.mpr ⟨setWidth_and_of_allOnes (by decide),
      setWidth_and_of_allOnes (by decide), setWidth_and_of_allOnes (by decide)⟩
  · rw [BitVec.toNat_setWidth, Nat.mod_eq_of_lt]
    have := sselector.segment.isLt
    omega
  · rw [BitVec.toNat_setWidth, Nat.mod_eq_of_lt hist]
  · rw [BitVec.toNat_setWidth, Nat.mod_eq_of_lt htype]

/-! ## Installing and releasing a callback -/

/-- `DefaultStackSize`. -/
def defaultStackSize : BitVec 64 := 0x4000

def _64BitInterruptGate : BitVec 8 := 0xE

/-- The handlers' addresses, the map of physical memory and the descriptor table. -/
structure InterruptSpace where
  address : ISRCallback → BitVec 64
  mapVirtual : Nat → Nat
  gdt : GDT.Words

structure Install where
  tss : Nat
  ist : Nat
  block : Option (BitVec 64)

structure InterruptState where
  callbacks : ISRCallbackTable
  idt : IDTTable64
  /-- The gates from the address of the local `IR.Base` on. -/
  frame : IDTTable64
  /-- The stack slots of each task state segment. -/
  ist : Nat → Nat → BitVec 64
  stackWords : BitVec 64 → BitVec 64
  /-- What `mfree` was called with, the last one first. -/
  freed : List (BitVec 64)
  installs : Nat → Option Install

/-- The arguments of `ISRSetCallback` that it looks at, with the answers it gets. -/
structure CallbackRequest where
  vector : BitVec 8
  ist : BitVec 8
  stackHeader : BitVec 64
  ss : IDTEntrySegmentSelector64
  new : Option ISRCallback
  block : BitVec 64
  localAPICBase : BitVec 64

def stackTop (block : BitVec 64) : BitVec 64 := block + defaultStackSize - 32

def stackBlock (slot : BitVec 64) : BitVec 64 := slot - defaultStackSize + 32

variable (k : InterruptSpace)

def InterruptSpace.tss (segment : Nat) : Nat :=
  k.mapVirtual (GDT.base (GDT.rawAt k.gdt segment))

namespace InterruptState

variable (s : InterruptState)

def headed (q : CallbackRequest) : BitVec 64 → BitVec 64 := fun p =>
  if p = stackTop q.block then q.stackHeader
  else if p = stackTop q.block + 8 then q.ist.setWidth 64
  else if p = stackTop q.block + 16 then q.ss.segment.setWidth 64
  else if p = stackTop q.block + 24 then q.localAPICBase
  else s.stackWords p

def withSlot (tss slot : Nat) (value : BitVec 64) : Nat → Nat → BitVec 64 := fun t i =>
  if t = tss ∧ i = slot then value else s.ist t i

/-- What is done for a callback whose stack slot is empty; the gate goes where `IR.Base` is. -/
def withStack (q : CallbackRequest) (cb : ISRCallback) : InterruptState :=
  { s with
    ist := s.withSlot (k.tss q.ss.segment.toNat) q.ist.toNat (stackTop q.block)
    stackWords := s.headed q
    frame := setIDTe s.frame q.vector.toNat (k.address cb) q.ss q.ist _64BitInterruptGate true }

def withInstall (vector : Nat) (install : Option Install) : InterruptState :=
  { s with installs := Function.update s.installs vector install }

/-- `ISRSetCallback`, with the place in the table that it returns. -/
def isrSetCallback (q : CallbackRequest) : InterruptState × Option Nat :=
  match q.new with
  | none => (s, none)
  | some cb =>
      if IDTLength ≤ q.vector.toNat then (s, none)
      else if s.callbacks.callback q.vector.toNat = some .generic then
        if s.ist (k.tss q.ss.segment.toNat) q.ist.toNat = 0 then
          (({ s with callbacks := s.callbacks.put q.vector.toNat cb }.withStack k q cb).withInstall
            q.vector.toNat (some ⟨k.tss q.ss.segment.toNat, q.ist.toNat, some q.block⟩),
            some q.vector.toNat)
        else
          ({ s with callbacks := s.callbacks.put q.vector.toNat cb }.withInstall
            q.vector.toNat (some ⟨k.tss q.ss.segment.toNat, q.ist.toNat, none⟩),
            some q.vector.toNat)
      else (s, some q.vector.toNat)

def gateTSS (vector : Nat) : Nat := k.tss (s.idt vector).segmentSelector.toNat

def gateSlot (vector : Nat) : Nat := (s.idt vector).interruptStackTableOffset.toNat

def patched (e : IDTEntry64) (hndlr : BitVec 64) : IDTEntry64 :=
  { e with
    offsetLow := (hndlr &&& 0xFFFF).setWidth 16
    offsetHigh := (hndlr >>> 16).setWidth 32 }

def isrUSetCallback (vector : Nat) : InterruptState :=
  if IDTLength ≤ vector then s
  else if s.callbacks.callback vector ≠ some .generic then
    { s with
      callbacks := s.callbacks.put vector .generic
      idt := Function.update s.idt vector (patched (s.idt vector) (k.address .generic))
      freed := stackBlock (s.ist (s.gateTSS k vector) (s.gateSlot vector)) :: s.freed
      ist := s.withSlot (s.gateTSS k vector) (s.gateSlot vector) 0
      installs := Function.update s.installs vector none }
  else s

end InterruptState

inductive InterruptCall where
  | isrSetCallback (q : CallbackRequest)
  | isrUSetCallback (vector : BitVec 32)

/-- The kernel with any tables, before a callback was installed. -/
def InterruptState.start (callbacks : ISRCallbackTable) (idt frame : IDTTable64)
    (ist : Nat → Nat → BitVec 64) (stackWords : BitVec 64 → BitVec 64) : InterruptState :=
  ⟨callbacks, idt, frame, ist, stackWords, [], fun _ => none⟩

def call (s : InterruptState) : InterruptCall → Except Unit InterruptState
  | .isrSetCallback q => .ok (s.isrSetCallback k q).1
  | .isrUSetCallback vector => .ok (s.isrUSetCallback k vector.toNat)

/-! ## What a release is for -/

structure Released (s s' : InterruptState) (vector : Nat) : Prop where
  callback : s'.callbacks.callback vector = some .generic
  gate : (s'.idt vector).address = k.address .generic
  cleared : ∀ q ∈ s.installs vector, s'.ist q.tss q.ist = 0
  freed : ∀ q ∈ s.installs vector, ∀ block ∈ q.block, s'.freed = block :: s.freed

def ReleasesRight (s : InterruptState) : InterruptCall → Prop
  | .isrSetCallback _ => True
  | .isrUSetCallback vector =>
      ∀ cb, s.callbacks.callback vector.toNat = some cb → cb ≠ .generic →
        Released k s (s.isrUSetCallback k vector.toNat) vector.toNat

/--
The gate that the table started with already holds the middle of the generic
handler, whose upper words are alike, and names the stack of the callback.
-/
structure GateNames (idt : IDTTable64) (s : InterruptState) (vector : Nat) : Prop where
  middle : (idt vector).offsetMid = (k.address .generic >>> 16).setWidth 16
  high : (k.address .generic >>> 16).setWidth 32 = (k.address .generic >>> 32).setWidth 32
  slot : ∀ q ∈ s.installs vector,
    (q.tss = k.tss (idt vector).segmentSelector.toNat ∧
      q.ist = (idt vector).interruptStackTableOffset.toNat) ∨ s.ist q.tss q.ist = 0
  stack : ∀ q ∈ s.installs vector, ∀ block ∈ q.block,
    s.ist (k.tss (idt vector).segmentSelector.toNat)
      (idt vector).interruptStackTableOffset.toNat = stackTop block

def ReleaseCondition (idt : IDTTable64) (s : InterruptState) : InterruptCall → Prop
  | .isrSetCallback _ => True
  | .isrUSetCallback vector =>
      ∀ cb, s.callbacks.callback vector.toNat = some cb → cb ≠ .generic →
        GateNames k idt s vector.toNat

/-! ## One release -/

theorem stackBlock_eq_iff {slot block : BitVec 64} :
    stackBlock slot = block ↔ slot = stackTop block := by
  rw [stackBlock, stackTop]
  bv_omega

theorem withSlot_zero_iff {s : InterruptState} {tss slot t i : Nat} :
    s.withSlot tss slot 0 t i = 0 ↔ (t = tss ∧ i = slot) ∨ s.ist t i = 0 := by
  rw [InterruptState.withSlot]
  split_ifs with h
  · exact iff_of_true rfl (Or.inl h)
  · exact (or_iff_right h).symm

theorem address_patched_iff {e : IDTEntry64} {hndlr : BitVec 64} :
    (InterruptState.patched e hndlr).address = hndlr ↔
      e.offsetMid = (hndlr >>> 16).setWidth 16 ∧
        (hndlr >>> 16).setWidth 32 = (hndlr >>> 32).setWidth 32 := by
  rw [IDTEntry64.address_eq_iff, InterruptState.patched]
  exact and_iff_right (setWidth_and_of_allOnes (by decide))

structure SameNames (e e' : IDTEntry64) : Prop where
  segment : e.segmentSelector = e'.segmentSelector
  slot : e.interruptStackTableOffset = e'.interruptStackTableOffset
  middle : e.offsetMid = e'.offsetMid

def GatesKept (idt : IDTTable64) (s : InterruptState) : Prop := ∀ v, SameNames (s.idt v) (idt v)

section Release

variable {k} {idt : IDTTable64} {s : InterruptState} {vector : Nat} {cb : ISRCallback}

theorem gatesKept_start (callbacks : ISRCallbackTable) (idt frame : IDTTable64)
    (ist : Nat → Nat → BitVec 64) (stackWords : BitVec 64 → BitVec 64) :
    GatesKept idt (.start callbacks idt frame ist stackWords) := fun _ => ⟨rfl, rfl, rfl⟩

theorem GatesKept.isrUSetCallback (h : GatesKept idt s) (vector : Nat) :
    GatesKept idt (s.isrUSetCallback k vector) := by
  rw [InterruptState.isrUSetCallback]
  split_ifs
  · exact h
  · intro v
    by_cases hv : v = vector
    · subst hv
      dsimp only
      rw [Function.update_self]
      exact ⟨(h v).segment, (h v).slot, (h v).middle⟩
    · dsimp only
      rw [Function.update_of_ne hv]
      exact h v
  · exact h

theorem isrSetCallback_idt (q : CallbackRequest) : (s.isrSetCallback k q).1.idt = s.idt := by
  rw [InterruptState.isrSetCallback]
  cases q.new with
  | none => rfl
  | some cb =>
      dsimp only
      split_ifs <;> rfl

theorem GatesKept.call {s' : InterruptState} {c : InterruptCall} (h : GatesKept idt s)
    (hstep : call k s c = .ok s') : GatesKept idt s' := by
  cases c with
  | isrSetCallback q =>
      obtain rfl := Except.ok.inj hstep
      intro v
      rw [isrSetCallback_idt]
      exact h v
  | isrUSetCallback vector =>
      obtain rfl := Except.ok.inj hstep
      exact h.isrUSetCallback vector.toNat

theorem released_iff (hkept : GatesKept idt s)
    (hcallback : s.callbacks.callback vector = some cb) (hne : cb ≠ .generic) :
    Released k s (s.isrUSetCallback k vector) vector ↔ GateNames k idt s vector := by
  have hlt : vector < s.callbacks.slots.length :=
    (List.getElem?_eq_some_iff.mp hcallback).1
  have hlength : ¬ IDTLength ≤ vector := by
    rw [s.callbacks.length_slots] at hlt
    exact Nat.not_le_of_lt hlt
  have hinstalled : s.callbacks.callback vector ≠ some .generic := by
    rw [hcallback]
    exact fun h => hne (Option.some.inj h)
  have hgateTSS : s.gateTSS k vector = k.tss (idt vector).segmentSelector.toNat := by
    rw [InterruptState.gateTSS, (hkept vector).segment]
  have hgateSlot : s.gateSlot vector = (idt vector).interruptStackTableOffset.toNat := by
    rw [InterruptState.gateSlot, (hkept vector).slot]
  rw [InterruptState.isrUSetCallback, if_neg hlength, if_pos hinstalled]
  constructor
  · rintro ⟨-, hgate, hcleared, hfreed⟩
    dsimp only at hgate hcleared hfreed
    rw [Function.update_self, address_patched_iff, (hkept vector).middle] at hgate
    rw [hgateTSS, hgateSlot] at hcleared hfreed
    refine ⟨hgate.1, hgate.2, fun q hq => withSlot_zero_iff.mp (hcleared q hq), ?_⟩
    exact fun q hq block hblock =>
      stackBlock_eq_iff.mp (List.cons.inj (hfreed q hq block hblock)).1
  · rintro ⟨hmiddle, hhigh, hslot, hstack⟩
    constructor
    · exact List.getElem?_set_self hlt
    · dsimp only
      rw [Function.update_self, address_patched_iff, (hkept vector).middle]
      exact ⟨hmiddle, hhigh⟩
    · intro q hq
      dsimp only
      rw [hgateTSS, hgateSlot]
      exact withSlot_zero_iff.mpr (hslot q hq)
    · intro q hq block hblock
      dsimp only
      rw [hgateTSS, hgateSlot, stackBlock_eq_iff.mpr (hstack q hq block hblock)]

end Release

theorem releasesRight_iff {idt : IDTTable64} {s : InterruptState} (hkept : GatesKept idt s)
    (c : InterruptCall) : ReleasesRight k s c ↔ ReleaseCondition k idt s c := by
  cases c with
  | isrSetCallback q => exact Iff.rfl
  | isrUSetCallback vector =>
      exact forall_congr' fun cb => forall_congr' fun hcallback => forall_congr' fun hne =>
        released_iff hkept hcallback hne

/-! ## Runs -/

def zeroedSpace : InterruptSpace where
  address := fun _ => 0x100000
  mapVirtual := id
  gdt := fun _ => 0

/-- A driver's callback for vector 32, with the third segment's second stack. -/
def sampleRequest : CallbackRequest where
  vector := 32
  ist := 1
  stackHeader := 0
  ss := ⟨0, 0, 3⟩
  new := some (.driver 0x200000)
  block := 0x400000
  localAPICBase := 0xFEE00000

def zeroedGates : IDTTable64 := fun _ => ⟨0, 0, 0, 14, 0, 1, 0, 0⟩

end BlockyOS.Kernel.IDT
