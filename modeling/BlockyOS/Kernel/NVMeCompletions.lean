import BlockyOS.Kernel.NVMeQueues
import Mathlib.Logic.Relation

/-!
# The completion records of an NVMe controller

A command that is submitted leaves a record on the stack of the interrupt's
vector, in a list that starts with an empty header; the interrupt takes the last
record and completes it.  The header never gets memory of its own, so that
every record is put right behind it, and the interrupt frees the record before
it reads it.
-/

namespace BlockyOS.Kernel

open Foundation HostTool

/-! ## Records -/

/-- `NVMeInterruptStackHeader`; an address that is zero is NULL. -/
structure NVMeInterruptStackHeader where
  memory : Nat
  bytes : Nat
  qid : Nat
  newHead : Nat
  hnd : Nat
  mutex : Nat
  next : Option Nat
  deriving DecidableEq, Repr

/-- What `mcalloc` returns. -/
def NVMeInterruptStackHeader.zero : NVMeInterruptStackHeader := ⟨0, 0, 0, 0, 0, 0, none⟩

/-- What each address holds, whether it is allocated or not. -/
abbrev StackRecords := Nat → NVMeInterruptStackHeader

def StackRecords.set (records : StackRecords) (a : Nat) (r : NVMeInterruptStackHeader) :
    StackRecords := fun b => if b = a then r else records b

@[simp] theorem StackRecords.set_self {records : StackRecords} {a : Nat}
    {r : NVMeInterruptStackHeader} : records.set a r a = r :=
  if_pos rfl

theorem StackRecords.set_of_ne {records : StackRecords} {a b : Nat}
    {r : NVMeInterruptStackHeader} (h : b ≠ a) : records.set a r b = records b :=
  if_neg h

/-! ## A command leaves a record -/

/-- The arguments of `UpdateNVMeInterruptStackFrame`; none where its flag is false. -/
structure StackFrameUpdate where
  memory : Option (BitVec 64)
  bytes : Option (BitVec 64)
  qid : Option (BitVec 16)
  newHead : Option (BitVec 16)
  mutex : BitVec 64
  hnd : BitVec 64

/-- The record with the arguments that were given written into it. -/
def StackFrameUpdate.write (u : StackFrameUpdate) (r : NVMeInterruptStackHeader) :
    NVMeInterruptStackHeader where
  memory := (u.memory.map BitVec.toNat).getD r.memory
  bytes := (u.bytes.map BitVec.toNat).getD r.bytes
  qid := (u.qid.map BitVec.toNat).getD r.qid
  newHead := (u.newHead.map BitVec.toNat).getD r.newHead
  hnd := if u.hnd ≠ 0 then u.hnd.toNat else r.hnd
  mutex := u.mutex.toNat
  next := r.next

/-- The first record that has none behind it or no memory. -/
def walkToFree (records : StackRecords) : Nat → Nat → Except Fault Nat
  | 0, _ => .error .hang
  | fuel + 1, sh =>
      match (records sh).next with
      | none => .ok sh
      | some next => if (records sh).memory ≠ 0 then walkToFree records fuel next else .ok sh

/-- `UpdateNVMeInterruptStackFrame`, with the address `mcalloc` returns: the record written. -/
def updateNVMeInterruptStackFrame (records : StackRecords) (fuel header fresh : Nat)
    (u : StackFrameUpdate) : Except Fault (StackRecords × Nat) :=
  match walkToFree records fuel header with
  | .error e => .error e
  | .ok sh =>
      if (records sh).memory = 0 then
        let records := (records.set sh { records sh with next := some fresh }).set fresh .zero
        .ok (records.set fresh (u.write (records fresh)), fresh)
      else .ok (records.set sh (u.write (records sh)), sh)

/-! ## The interrupt -/

/-- What the handler reads beside the records: the handles, and the levels of pages. -/
structure NVMeEnvironment where
  handle : Nat → Option NVMeHandle
  level : Nat → Nat

def walkToLast (records : StackRecords) : Nat → Nat → Nat → Except Fault (Nat × Nat)
  | 0, _, _ => .error .hang
  | fuel + 1, previous, sh =>
      match (records sh).next with
      | none => .ok (previous, sh)
      | some next => walkToLast records fuel sh next

structure Completion where
  mutex : Nat
  register : Nat
  doorbell : Nat
  /-- The head that is stored in the record. -/
  head : Nat
  /-- The pages that were made writable, none at any other level. -/
  writable : Option (Nat × Nat)

def NVMeEnvironment.complete (E : NVMeEnvironment) (r : NVMeInterruptStackHeader) :
    Except Fault Completion :=
  match E.handle r.hnd with
  | none => .error .nullDeref
  | some h =>
      match loadAt h.nPerSQueue r.qid with
      | .error e => .error e
      | .ok n =>
          let (doorbell, head) := h.cntrl.ring n r.newHead
          .ok ⟨r.mutex, h.cntrl.doorbellOffset r.qid + 4, doorbell, head,
            if E.level r.memory ∈ [1, 2, 3] then some (r.memory, r.bytes) else none⟩

structure Handling where
  address : Nat
  /-- Whether the record was submitted and not processed before. -/
  pending : Bool
  allocated : Bool
  outcome : Except Fault Completion

def Handling.completed (h : Handling) : Prop :=
  ∃ c, h.outcome = .ok c ∧ c.writable.isSome

/-! ## Commands and interrupts -/

structure CompletionSession where
  records : StackRecords
  allocated : List Nat
  submits : Nat
  /-- The records that were submitted and not processed, as they were submitted. -/
  pending : List (Nat × NVMeInterruptStackHeader)
  handled : List Handling

inductive CompletionCall where
  /-- The address that is allocated, the memory, and the other arguments. -/
  | submit (fresh : Nat) (memory bytes : BitVec 64) (qid newHead : BitVec 16)
      (mutex hnd : BitVec 64)
  | interrupt

def stackHeader : Nat := 0

/-- `NVMeMarkCompletionQueueISR`. -/
def nvmeMarkCompletionQueueISR (E : NVMeEnvironment) (s : CompletionSession) :
    Except Fault CompletionSession :=
  match walkToLast s.records (s.allocated.length + 1) stackHeader stackHeader with
  | .error e => .error e
  | .ok (previous, sh) =>
      let allocated := s.allocated.filter fun a => some a ≠ (s.records previous).next
      let records := s.records.set previous { s.records previous with next := none }
      let outcome := E.complete (records sh)
      .ok { s with
        records :=
          match outcome with
          | .error _ => records
          | .ok c => records.set sh { records sh with newHead := c.head }
        allocated := allocated
        pending := s.pending.filter fun p => p.1 ≠ sh
        handled := ⟨sh, sh ∈ s.pending.map Prod.fst, sh ∈ allocated, outcome⟩ :: s.handled }

namespace CompletionSession

/-- The zeroed header alone. -/
def initial : CompletionSession := ⟨fun _ => .zero, [stackHeader], 0, [], []⟩

/-- A command has memory and gets a record; there are no more interrupts than commands. -/
def step (E : NVMeEnvironment) (s : CompletionSession) :
    CompletionCall → Except Fault CompletionSession
  | .submit fresh memory bytes qid newHead mutex hnd =>
      if memory = 0 ∨ fresh ∈ s.allocated then .error .nullDeref
      else
        match updateNVMeInterruptStackFrame s.records (s.allocated.length + 1) stackHeader fresh
          ⟨some memory, some bytes, some qid, some newHead, mutex, hnd⟩ with
        | .error e => .error e
        | .ok (records, sh) =>
            .ok { s with
              records := records
              allocated := fresh :: s.allocated
              submits := s.submits + 1
              pending := (sh, records sh) :: s.pending }
  | .interrupt =>
      if s.handled.length < s.submits then nvmeMarkCompletionQueueISR E s
      else .error .outOfBounds

/-! ## Records are neither lost nor used after they were freed -/

def Reaches (s : CompletionSession) (a : Nat) : Prop :=
  Relation.ReflTransGen (fun b c => (s.records b).next = some c) stackHeader a

/--
Every record that was submitted and not processed is linked and as it was
submitted, and every interrupt processed one of them while it was allocated.
-/
structure CompletionsKept (s : CompletionSession) : Prop where
  counted : s.pending.length + s.handled.length = s.submits
  linked : ∀ p ∈ s.pending, p.1 ∈ s.allocated ∧ s.Reaches p.1 ∧
    { s.records p.1 with next := none } = { p.2 with next := none }
  processed : ∀ h ∈ s.handled, h.pending ∧ h.allocated ∧ h.completed

/-! ## At most one record -/

structure OneBehind (s : CompletionSession) : Prop where
  header : stackHeader ∈ s.allocated
  memory : (s.records stackHeader).memory = 0
  behind : ∀ a, (s.records stackHeader).next = some a →
    a ≠ stackHeader ∧ (s.records a).next = none
  notHeader : ∀ p ∈ s.pending, p.1 ≠ stackHeader
  /-- An interrupt takes a record that is not allocated any more, or none at all. -/
  handled : ∀ h ∈ s.handled, ¬ (h.pending ∧ h.allocated)

theorem oneBehind_initial : initial.OneBehind where
  header := List.mem_singleton_self _
  memory := rfl
  behind := fun _ ha => by cases ha
  notHeader := fun _ hp => absurd hp List.not_mem_nil
  handled := fun _ hh => absurd hh List.not_mem_nil

theorem OneBehind.reaches {s : CompletionSession} (hs : s.OneBehind) {a : Nat}
    (h : s.Reaches a) : a = stackHeader ∨ (s.records stackHeader).next = some a := by
  induction h with
  | refl => exact .inl rfl
  | tail _ hlink ih =>
      rcases ih with rfl | hnext
      · exact .inr hlink
      · rw [(hs.behind _ hnext).2] at hlink
        cases hlink

theorem walkToFree_header {records : StackRecords} {fuel sh : Nat}
    (h : (records sh).memory = 0) : walkToFree records (fuel + 1) sh = .ok sh := by
  rw [walkToFree]
  cases (records sh).next with
  | none => rfl
  | some next => exact if_neg fun hne => hne h

def appended (records : StackRecords) (fresh : Nat) (u : StackFrameUpdate) : StackRecords :=
  ((records.set stackHeader { records stackHeader with next := some fresh }).set fresh .zero).set
    fresh (u.write .zero)

theorem appended_fresh {records : StackRecords} {fresh : Nat} {u : StackFrameUpdate} :
    appended records fresh u fresh = u.write .zero :=
  StackRecords.set_self

theorem appended_header {records : StackRecords} {fresh : Nat} {u : StackFrameUpdate}
    (h : fresh ≠ stackHeader) :
    appended records fresh u stackHeader = { records stackHeader with next := some fresh } := by
  rw [appended, StackRecords.set_of_ne h.symm, StackRecords.set_of_ne h.symm,
    StackRecords.set_self]

theorem OneBehind.update {s : CompletionSession} (hs : s.OneBehind) {fuel fresh : Nat}
    {u : StackFrameUpdate} :
    updateNVMeInterruptStackFrame s.records (fuel + 1) stackHeader fresh u =
      .ok (appended s.records fresh u, fresh) := by
  rw [updateNVMeInterruptStackFrame, walkToFree_header hs.memory]
  simp only [if_pos hs.memory, StackRecords.set_self]
  rfl

theorem OneBehind.submit {E : NVMeEnvironment} {s s' : CompletionSession} {fresh : Nat}
    {memory bytes : BitVec 64} {qid newHead : BitVec 16} {mutex hnd : BitVec 64}
    (hs : s.OneBehind)
    (hstep : s.step E (.submit fresh memory bytes qid newHead mutex hnd) = .ok s') :
    fresh ∉ s.allocated ∧ s' = { s with
      records := appended s.records fresh
        ⟨some memory, some bytes, some qid, some newHead, mutex, hnd⟩
      allocated := fresh :: s.allocated
      submits := s.submits + 1
      pending := (fresh, appended s.records fresh
        ⟨some memory, some bytes, some qid, some newHead, mutex, hnd⟩ fresh) :: s.pending } := by
  rw [step] at hstep
  split at hstep
  case isTrue => cases hstep
  case isFalse hvalid =>
    rw [hs.update] at hstep
    exact ⟨fun hfresh => hvalid (.inr hfresh), (Except.ok.inj hstep).symm⟩

theorem OneBehind.submitted {s : CompletionSession} {fresh : Nat} {u : StackFrameUpdate}
    {r : NVMeInterruptStackHeader} (hs : s.OneBehind) (hfresh : fresh ∉ s.allocated) :
    OneBehind { s with
      records := appended s.records fresh u
      allocated := fresh :: s.allocated
      submits := s.submits + 1
      pending := (fresh, r) :: s.pending } := by
  have hne : fresh ≠ stackHeader := fun heq => hfresh (heq ▸ hs.header)
  have hheader := @appended_header s.records fresh u hne
  refine ⟨List.mem_cons_of_mem _ hs.header, ?_, fun a ha => ?_, fun p hp => ?_, hs.handled⟩
  · exact (congrArg NVMeInterruptStackHeader.memory hheader).trans hs.memory
  · have hlink := (congrArg NVMeInterruptStackHeader.next hheader).symm.trans ha
    obtain rfl := Option.some.inj hlink
    exact ⟨hne, congrArg NVMeInterruptStackHeader.next appended_fresh⟩
  · rcases List.mem_cons.mp hp with rfl | hp
    · exact hne
    · exact hs.notHeader p hp

theorem OneBehind.walkToLast {s : CompletionSession} (hs : s.OneBehind) :
    walkToLast s.records (s.allocated.length + 1) stackHeader stackHeader =
      .ok (stackHeader, ((s.records stackHeader).next).getD stackHeader) := by
  obtain ⟨fuel, hfuel⟩ : ∃ fuel, s.allocated.length = fuel + 1 :=
    ⟨_, (Nat.succ_pred (List.length_pos_of_mem hs.header).ne').symm⟩
  rw [hfuel, Kernel.walkToLast]
  cases hnext : (s.records stackHeader).next with
  | none => rfl
  | some a =>
      simp only
      rw [Kernel.walkToLast, (hs.behind a hnext).2]
      rfl

theorem OneBehind.handler {E : NVMeEnvironment} {s s' : CompletionSession} (hs : s.OneBehind)
    (hstep : s.step E .interrupt = .ok s') :
    ∃ sh head outcome, sh = ((s.records stackHeader).next).getD stackHeader ∧
      s'.records = ((s.records.set stackHeader { s.records stackHeader with next := none }).set
        sh { s.records.set stackHeader { s.records stackHeader with next := none } sh with
          newHead := head }) ∧
      s'.allocated = s.allocated.filter (fun a => some a ≠ (s.records stackHeader).next) ∧
      s'.pending = s.pending.filter (fun p => p.1 ≠ sh) ∧
      s'.handled = ⟨sh, sh ∈ s.pending.map Prod.fst, sh ∈ s'.allocated, outcome⟩ ::
        s.handled := by
  rw [step] at hstep
  split at hstep
  case isFalse => cases hstep
  case isTrue =>
    rw [nvmeMarkCompletionQueueISR, hs.walkToLast] at hstep
    obtain rfl := Except.ok.inj hstep
    generalize ((s.records stackHeader).next).getD stackHeader = sh
    generalize s.records.set stackHeader { s.records stackHeader with next := none } = records
    cases houtcome : E.complete (records sh) with
    | error e =>
        refine ⟨sh, (records sh).newHead, .error e, rfl, ?_, rfl, rfl, rfl⟩
        funext a
        by_cases ha : a = sh
        · rw [ha, StackRecords.set_self]
        · rw [StackRecords.set_of_ne ha]
    | ok c => exact ⟨sh, c.head, .ok c, rfl, rfl, rfl, rfl, rfl⟩

theorem OneBehind.handled_step {E : NVMeEnvironment} {s s' : CompletionSession}
    (hs : s.OneBehind) (hstep : s.step E .interrupt = .ok s') :
    s'.OneBehind ∧ s'.handled ≠ [] := by
  obtain ⟨sh, head, outcome, hsh, hrecords, hallocated, hpending, hhandled⟩ := hs.handler hstep
  have hheader : (s'.records stackHeader).memory = 0 ∧
      (s'.records stackHeader).next = none := by
    rw [hrecords]
    by_cases heq : stackHeader = sh
    · rw [← heq, StackRecords.set_self, StackRecords.set_self]
      exact ⟨hs.memory, rfl⟩
    · rw [StackRecords.set_of_ne heq, StackRecords.set_self]
      exact ⟨hs.memory, rfl⟩
  refine ⟨⟨?_, hheader.1, fun a ha => ?_, fun p hp => ?_, fun h hh => ?_⟩, ?_⟩
  · rw [hallocated]
    refine List.mem_filter.mpr ⟨hs.header, decide_eq_true fun hself => ?_⟩
    exact (hs.behind _ hself.symm).1 rfl
  · rw [hheader.2] at ha
    cases ha
  · rw [hpending] at hp
    exact hs.notHeader p (List.mem_filter.mp hp).1
  · rw [hhandled] at hh
    rcases List.mem_cons.mp hh with rfl | hh
    · rintro ⟨hpend, halloc⟩
      obtain ⟨p, hp, rfl⟩ := List.mem_map.mp (of_decide_eq_true hpend)
      rw [hallocated] at halloc
      have hfree := (List.mem_filter.mp (of_decide_eq_true halloc)).2
      cases hnext : (s.records stackHeader).next with
      | none =>
          rw [hnext] at hsh
          exact hs.notHeader p hp hsh
      | some a =>
          rw [hnext] at hsh hfree
          exact of_decide_eq_true hfree (congrArg some hsh)
    · exact hs.handled h hh
  · rw [hhandled]
    exact List.cons_ne_nil _ _

theorem OneBehind.step {E : NVMeEnvironment} {s s' : CompletionSession} {c : CompletionCall}
    (hs : s.OneBehind) (hstep : s.step E c = .ok s') : s'.OneBehind := by
  cases c with
  | submit fresh memory bytes qid newHead mutex hnd =>
      obtain ⟨hfresh, rfl⟩ := hs.submit hstep
      exact hs.submitted hfresh
  | interrupt => exact (hs.handled_step hstep).1

/-! ## What keeps the records -/

/-- The first command of all; every later one unlinks a record, every interrupt uses a free one. -/
def FirstSubmit (s : CompletionSession) : CompletionCall → Prop
  | .submit .. => s.submits = 0
  | .interrupt => False

theorem CompletionsKept.handled_eq {s : CompletionSession} (hs : s.OneBehind)
    (hkept : s.CompletionsKept) : s.handled = [] := by
  refine List.eq_nil_iff_forall_not_mem.mpr fun h hh => ?_
  obtain ⟨hpending, hallocated, -⟩ := hkept.processed h hh
  exact hs.handled h hh ⟨hpending, hallocated⟩

theorem step_exact {E : NVMeEnvironment} {s s' : CompletionSession} {c : CompletionCall}
    (hs : s.OneBehind) (hkept : s.CompletionsKept) (hstep : s.step E c = .ok s') :
    s'.CompletionsKept ↔ s.FirstSubmit c := by
  have hhandled := CompletionsKept.handled_eq hs hkept
  have hcounted := hkept.counted
  rw [hhandled, List.length_nil, Nat.add_zero] at hcounted
  cases c with
  | interrupt =>
      obtain ⟨hs', hne⟩ := hs.handled_step hstep
      exact iff_of_false (fun hkept' => hne (hkept'.handled_eq hs')) id
  | submit fresh memory bytes qid newHead mutex hnd =>
      obtain ⟨hfresh, heq⟩ := hs.submit hstep
      have hne : fresh ≠ stackHeader := fun h => hfresh (h ▸ hs.header)
      have hs' := hs.step hstep
      have hnext : (s'.records stackHeader).next = some fresh := by
        rw [heq]
        exact congrArg NVMeInterruptStackHeader.next (appended_header hne)
      constructor
      · intro hkept'
        change s.submits = 0
        rw [← hcounted, List.length_eq_zero_iff, List.eq_nil_iff_forall_not_mem]
        -- A record that was pending is behind the header no more.
        intro p hp
        have hp' : p ∈ s'.pending := by
          rw [heq]
          exact List.mem_cons_of_mem _ hp
        rcases hs'.reaches (hkept'.linked p hp').2.1 with hheader | hlink
        · exact hs.notHeader p hp hheader
        · obtain rfl := Option.some.inj (hnext.symm.trans hlink)
          exact hfresh (hkept.linked p hp).1
      · intro hfirst
        change s.submits = 0 at hfirst
        rw [hfirst, List.length_eq_zero_iff] at hcounted
        have hreaches : s'.Reaches fresh := .single hnext
        rw [heq] at hreaches ⊢
        refine ⟨?_, fun p hp => ?_, fun h hh => ?_⟩
        · simp only [hcounted, hhandled, hfirst, List.length_cons, List.length_nil]
        · simp only [hcounted, List.mem_singleton] at hp
          obtain rfl := hp
          exact ⟨List.mem_cons_self, hreaches, rfl⟩
        · rw [show s.handled = [] from hhandled] at hh
          cases hh

theorem completionsKept_initial : initial.CompletionsKept where
  counted := rfl
  linked := fun _ hp => absurd hp List.not_mem_nil
  processed := fun _ hh => absurd hh List.not_mem_nil

end CompletionSession

/-! ## Runs -/

/--
In a run of commands and interrupts no record is lost, and none used after it
was freed, if and only if the run has at most one command and no interrupt: a
second command unlinks the record of the first, and an interrupt frees the
record that it goes on to use.
-/
theorem completionsKept_always_iff (E : NVMeEnvironment) (calls : List CompletionCall) :
    Always (CompletionSession.step E) CompletionSession.CompletionsKept .initial calls ↔
      Meets (CompletionSession.step E) CompletionSession.FirstSubmit .initial calls :=
  always_iff_meets_under (fun _ _ _ => CompletionSession.step_exact)
    (fun _ _ _ hs _ hstep _ => hs.step hstep) CompletionSession.oneBehind_initial
    CompletionSession.completionsKept_initial

/-- A handle with one admin slot at every address, and every page a table's. -/
def sampleEnvironment : NVMeEnvironment := ⟨fun _ => some (.configured ⟨1, 0⟩), fun _ => 1⟩

def sampleCommand (fresh : Nat) : CompletionCall := .submit fresh 0x1000 512 0 0 0 8

/--
An interrupt after a command uses the record after it was freed, and a second
command leaves the record of the first without a link to it.
-/
theorem not_completionsKept_sample :
    ¬ Always (CompletionSession.step sampleEnvironment) CompletionSession.CompletionsKept
        .initial [sampleCommand 1, .interrupt] ∧
      ¬ Always (CompletionSession.step sampleEnvironment) CompletionSession.CompletionsKept
        .initial [sampleCommand 1, sampleCommand 2] := by
  constructor
  · intro halways
    obtain ⟨s, hs, hfreed⟩ := @ok_of_eval _ _ _
      (run (CompletionSession.step sampleEnvironment) .initial [sampleCommand 1, .interrupt])
      (fun s => s.handled.map Handling.allocated) [false] rfl
    obtain ⟨h, rest, hhandled, hfree, -⟩ := List.map_eq_cons_iff.mp hfreed
    have hh : h ∈ s.handled := by
      rw [hhandled]
      exact List.mem_cons_self
    have hused := ((halways.of_run hs).processed h hh).2.1
    rw [hfree] at hused
    cases hused
  · intro halways
    obtain ⟨s, hs, hlist⟩ := @ok_of_eval _ _ _
      (run (CompletionSession.step sampleEnvironment) .initial
        [sampleCommand 1, sampleCommand 2])
      (fun s => (s.pending.map Prod.fst, (s.records stackHeader).next)) ([2, 1], some 2) rfl
    obtain ⟨hpending, hnext⟩ := Prod.mk.inj hlist
    have hone : 1 ∈ s.pending.map Prod.fst := by
      rw [hpending]
      decide
    obtain ⟨p, hp, haddress⟩ := List.mem_map.mp hone
    have hbehind : s.OneBehind :=
      run_invariant (fun _ _ _ hs hstep => hs.step hstep) CompletionSession.oneBehind_initial hs
    rcases hbehind.reaches ((halways.of_run hs).linked p hp).2.1 with hheader | hlink
    · exact hbehind.notHeader p hp hheader
    · rw [hnext, haddress] at hlink
      cases hlink

end BlockyOS.Kernel
