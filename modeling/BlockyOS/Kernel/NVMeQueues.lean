import BlockyOS.Foundation.Runs
import BlockyOS.HostTool.Raw

/-!
# The submission queues of an NVMe controller

A command is written to the slot at the tail of its queue, and ringing the
doorbell moves the tail on.  The macro that rings it divides by the size of the
admin queue for every queue, and resets the stored tail after the register was
written.
-/

namespace BlockyOS.Kernel

open Foundation HostTool

/-! ## Controller and handle -/

/-- The registers of a controller that its driver computes with. -/
structure NVMeController where
  maximumQueueEntries : BitVec 16
  doorbellStride : BitVec 4

namespace NVMeController

def adminSubmissionQueueSize (c : NVMeController) : Nat :=
  (c.maximumQueueEntries.toNat + 2 ^ 12 - 1) % 2 ^ 12

def adminDepth (c : NVMeController) : Nat := c.adminSubmissionQueueSize + 1

def doorbellOffset (c : NVMeController) (qid : Nat) : Nat :=
  0x1000 + 2 * qid * 2 ^ (2 + c.doorbellStride.toNat)

/-- The zero-based size of a queue that is created; none at all wraps. -/
def queueSize (c : NVMeController) (nQueues : Nat) : Nat :=
  if nQueues = 0 then 2 ^ 16 - 1 else min c.maximumQueueEntries.toNat (nQueues - 1)

def ring (c : NVMeController) (nPerQueue index : Nat) : Nat × Nat :=
  let index := (index + 1) % c.adminDepth
  (index, if nPerQueue ≤ index then 0 else index)

end NVMeController

inductive NVMeOperation where
  | identify
  | createIOSubmissionQueue (queueID queueSize : Nat)
  | createIOCompletionQueue (queueID queueSize : Nat)
  | deleteIOSubmissionQueue (queueID : Nat)
  | deleteIOCompletionQueue (queueID : Nat)
  | flush
  | read
  deriving DecidableEq, Repr

inductive QueueName where
  | admin
  | io (index : Nat)
  deriving DecidableEq, Repr

structure Submission where
  queue : QueueName
  operation : NVMeOperation
  commandID : Nat
  /-- The slot it was written to, and the number of slots of its queue. -/
  slot : Nat
  depth : Nat
  register : Nat
  /-- The value written to the doorbell, and the tail that is stored. -/
  doorbell : Nat
  tail : Nat

/-- `NVMeHandle`; a queue's memory is its address, none where it is NULL. -/
structure NVMeHandle where
  cntrl : NVMeController
  globalQueueCounter : Nat
  adminSQ : Nat
  adminCQ : Nat
  sq : List Nat
  cq : List Nat
  commandCounter : Nat
  submissions : List (Option Nat)
  nPerSQueue : List Nat
  nSubmissions : Nat
  completions : List (Option Nat)
  nPerCQueue : List Nat
  nCompletions : Nat
  /-- The commands submitted so far, the last one first. -/
  log : List Submission

def sizeofSubmissionQueueSlot : Nat := 64

def sizeofCompletionQueueSlot : Nat := 16

def sizeofPointer : Nat := 8

/-- `mrealloc` of an array; what lies behind its old end is whatever the memory held. -/
def reallocArray {α : Type} (fresh : Nat → α) (old : List α) (n : Nat) : List α :=
  (List.range n).map fun i => old[i]?.getD (fresh i)

/-- What memory from `mrealloc` holds. -/
structure StaleMemory where
  pointer : Nat → Option Nat
  depth : Nat → BitVec 32
  index : Nat → BitVec 16

/-- `memset` to zero of `n` elements from `start` on. -/
def zeroRange (l : List Nat) (start n : Nat) : Except Fault (List Nat) :=
  if start + n ≤ l.length then
    .ok (l.take start ++ List.replicate n 0 ++ l.drop (start + n))
  else .error .outOfBounds

/-- `memcpy(l + queue, l + queue + 1, bytes)` within an array of pointers. -/
def closeGap (l : List (Option Nat)) (queue bytes : Nat) : Except Fault (List (Option Nat)) :=
  let n := bytes / sizeofPointer
  if queue + 1 + n ≤ l.length then
    .ok (l.take queue ++ (l.drop (queue + 1)).take n ++ l.drop (queue + n))
  else .error .outOfBounds

def storeAt {α : Type} (l : List α) (i : Nat) (a : α) : Except Fault (List α) :=
  if i < l.length then .ok (l.set i a) else .error .outOfBounds

def loadAt {α : Type} (l : List α) (i : Nat) : Except Fault α :=
  match l[i]? with
  | none => .error .outOfBounds
  | some a => .ok a

namespace NVMeHandle

/-- The handle that `ConfigureNVMeController` builds, before it polls the controller. -/
def configured (cntrl : NVMeController) : NVMeHandle where
  cntrl := cntrl
  globalQueueCounter := 0
  adminSQ := 0
  adminCQ := 0
  sq := List.replicate 32 0
  cq := List.replicate 32 0
  commandCounter := 0
  submissions := List.replicate (32 * sizeofSubmissionQueueSlot / sizeofPointer) none
  nPerSQueue := List.replicate 32 0
  nSubmissions := 31
  completions := List.replicate (32 * sizeofSubmissionQueueSlot / sizeofPointer) none
  nPerCQueue := List.replicate 32 0
  nCompletions := 31
  log := []

def submitAdmin (h : NVMeHandle) (operation : NVMeOperation) : Except Fault NVMeHandle :=
  match loadAt h.nPerSQueue 0 with
  | .error e => .error e
  | .ok n =>
      let (doorbell, tail) := h.cntrl.ring n h.adminSQ
      .ok { h with
        adminSQ := tail
        commandCounter := (h.commandCounter + 1) % 2 ^ 16
        log := ⟨.admin, operation, h.commandCounter, h.adminSQ, h.cntrl.adminDepth,
          h.cntrl.doorbellOffset 0, doorbell, tail⟩ :: h.log }

def submitIO (h : NVMeHandle) (operation : NVMeOperation) (queue commandID : Nat) :
    Except Fault NVMeHandle :=
  match loadAt h.submissions queue, loadAt h.sq queue, loadAt h.nPerSQueue queue with
  | .ok (some _), .ok slot, .ok n =>
      let (doorbell, tail) := h.cntrl.ring n slot
      .ok { h with
        sq := h.sq.set queue tail
        log := ⟨.io queue, operation, commandID, slot, n, h.cntrl.doorbellOffset queue,
          doorbell, tail⟩ :: h.log }
  | .ok none, _, _ => .error .nullDeref
  | _, _, _ => .error .outOfBounds

/-- `NVMePollController` and `NVMePollNamespace` submit the same kind of command. -/
def poll (h : NVMeHandle) : Except Fault NVMeHandle := h.submitAdmin .identify

/-- The arrays are grown on every 32nd queue; the tails are zeroed from `NCompletions` on. -/
def growSubmissions (h : NVMeHandle) (stale : StaleMemory) : Except Fault NVMeHandle :=
  if h.nSubmissions % 32 = 0 then
    let n := h.nSubmissions + 32
    match zeroRange (reallocArray (fun i => (stale.index i).toNat) h.sq n) h.nCompletions 32 with
    | .error e => .error e
    | .ok sq =>
        .ok { h with
          submissions := reallocArray stale.pointer h.submissions n
          nPerSQueue := reallocArray (fun i => (stale.depth i).toNat) h.nPerSQueue n
          sq := sq }
  else .ok h

def growCompletions (h : NVMeHandle) (stale : StaleMemory) : Except Fault NVMeHandle :=
  if h.nCompletions % 32 = 0 then
    let n := h.nCompletions + 32
    match zeroRange (reallocArray (fun i => (stale.index i).toNat) h.cq n) h.nCompletions 32 with
    | .error e => .error e
    | .ok cq =>
        .ok { h with
          completions := reallocArray stale.pointer h.completions n
          nPerCQueue := reallocArray (fun i => (stale.depth i).toNat) h.nPerCQueue n
          cq := cq }
  else .ok h

/-- `NVMeAllocateIOSubmissionQueues`, with the memory that is allocated for the queue. -/
def allocateIOSubmissionQueues (h : NVMeHandle) (stale : StaleMemory) (nQueues : Nat)
    (memory : Option Nat) : Except Fault NVMeHandle :=
  match h.growSubmissions stale with
  | .error e => .error e
  | .ok h =>
      match storeAt h.submissions h.nSubmissions memory,
        storeAt h.nPerSQueue h.nSubmissions
          (min (h.cntrl.maximumQueueEntries.toNat + 1) nQueues) with
      | .ok submissions, .ok nPerSQueue =>
          submitAdmin
            { h with
              submissions := submissions
              nPerSQueue := nPerSQueue
              nSubmissions := h.nSubmissions + 1
              globalQueueCounter := (h.globalQueueCounter + 1) % 2 ^ 16 }
            (.createIOSubmissionQueue h.globalQueueCounter (h.cntrl.queueSize nQueues))
      | _, _ => .error .outOfBounds

/-- `NVMeAllocateIOCompletionQueue`. -/
def allocateIOCompletionQueue (h : NVMeHandle) (stale : StaleMemory) (nQueues : Nat)
    (memory : Option Nat) : Except Fault NVMeHandle :=
  match h.growCompletions stale with
  | .error e => .error e
  | .ok h =>
      match storeAt h.completions h.nCompletions memory,
        storeAt h.nPerCQueue h.nCompletions
          (min (h.cntrl.maximumQueueEntries.toNat + 1) nQueues) with
      | .ok completions, .ok nPerCQueue =>
          submitAdmin
            { h with
              completions := completions
              nPerCQueue := nPerCQueue
              nCompletions := h.nCompletions + 1
              globalQueueCounter := (h.globalQueueCounter + 1) % 2 ^ 16 }
            (.createIOCompletionQueue h.globalQueueCounter (h.cntrl.queueSize nQueues))
      | _, _ => .error .outOfBounds

/--
The gap among the submission queues is closed, by a count that is read behind
the last of them, and one queue more is counted.
-/
def closeQueue (h : NVMeHandle) (sizeofSlot queue : Nat) : Except Fault NVMeHandle := do
  let _ ← loadAt h.submissions queue
  let n ← loadAt h.nPerSQueue h.nSubmissions
  let submissions ← closeGap h.submissions queue (sizeofSlot * u32sub n (u32 (queue + 1)))
  let _ ← loadAt submissions h.nSubmissions
  return { h with
    submissions := submissions
    nPerSQueue := h.nPerSQueue.set h.nSubmissions (u32sub n 1)
    nSubmissions := h.nSubmissions + 1 }

def freeIOQueue (h : NVMeHandle) (sizeofSlot queue : Nat) (operation : NVMeOperation) :
    Except Fault NVMeHandle :=
  match h.closeQueue sizeofSlot queue with
  | .error e => .error e
  | .ok h => h.submitAdmin operation

def freeIOSubmissionQueue (h : NVMeHandle) (queue : Nat) : Except Fault NVMeHandle :=
  h.freeIOQueue sizeofSubmissionQueueSlot queue (.deleteIOSubmissionQueue queue)

def freeIOCompletionQueue (h : NVMeHandle) (queue : Nat) : Except Fault NVMeHandle :=
  h.freeIOQueue sizeofCompletionQueueSlot queue (.deleteIOCompletionQueue queue)

def flushVolatileData (h : NVMeHandle) (queue : Nat) : Except Fault NVMeHandle :=
  submitIO { h with commandCounter := (h.commandCounter + 1) % 2 ^ 16 } .flush queue
    h.commandCounter

/--
`NVMeIOReadBytes` and `NVMeIOWriteBytes`, which submit the same command: whether
the buffer is large enough, the level its page is found at, and the command
identifier that the slot held before.
-/
def ioBytes (h : NVMeHandle) (queue buffer : Nat) (fits : Bool) (level commandID : Nat) :
    Except Fault NVMeHandle :=
  if queue = 0 ∨ buffer = 0 ∨ !fits ∨ h.nSubmissions ≤ queue then .ok h
  else
    match h.poll with
    | .error e => .error e
    | .ok h =>
        match loadAt h.submissions queue, loadAt h.sq queue with
        | .ok (some _), .ok _ =>
            if level ∈ [1, 2, 3] then
              match loadAt h.cq queue with
              | .error e => .error e
              | .ok _ => h.submitIO .read queue commandID
            else .ok h
        | .ok none, _ => .error .nullDeref
        | _, _ => .error .outOfBounds

end NVMeHandle

/-! ## The protocol of the rings -/

/--
The command was written inside its queue, the doorbell is the tail that is
stored, and that is the slot behind.
-/
structure Submission.Advances (e : Submission) : Prop where
  inQueue : e.slot < e.depth
  rung : e.doorbell = e.tail
  next : e.tail = (e.slot + 1) % e.depth

def lastOn (log : List Submission) (queue : QueueName) : Option Submission :=
  log.find? fun e => e.queue = queue

def Consecutive : List Submission → Prop
  | [] => True
  | e :: log =>
      (∀ prev, lastOn log e.queue = some prev → e.slot = (prev.slot + 1) % prev.depth) ∧
        Consecutive log

structure RingProtocol (log : List Submission) : Prop where
  advances : ∀ e ∈ log, e.Advances
  consecutive : Consecutive log

theorem ringProtocol_nil : RingProtocol [] :=
  ⟨fun _ he => absurd he List.not_mem_nil, trivial⟩

theorem ringProtocol_cons {e : Submission} {log : List Submission} :
    RingProtocol (e :: log) ↔ RingProtocol log ∧ e.Advances ∧
      ∀ prev, lastOn log e.queue = some prev → e.slot = prev.tail := by
  constructor
  · rintro ⟨hadvances, hslot, hlog⟩
    have hrest : ∀ e ∈ log, e.Advances := fun e he => hadvances e (List.mem_cons_of_mem _ he)
    refine ⟨⟨hrest, hlog⟩, hadvances e List.mem_cons_self, fun prev hprev => ?_⟩
    rw [hslot prev hprev, (hrest prev (List.mem_of_find?_eq_some hprev)).next]
  · rintro ⟨⟨hadvances, hlog⟩, he, hslot⟩
    refine ⟨fun e' he' => ?_, fun prev hprev => ?_, hlog⟩
    · rcases List.mem_cons.mp he' with rfl | he'
      · exact he
      · exact hadvances e' he'
    · rw [hslot prev hprev, (hadvances prev (List.mem_of_find?_eq_some hprev)).next]

theorem lastOn_cons_of_ne {e : Submission} {log : List Submission} {queue : QueueName}
    (h : e.queue ≠ queue) : lastOn (e :: log) queue = lastOn log queue :=
  List.find?_cons_of_neg (by simpa using h)

/-! ## What the calls keep -/

theorem loadAt_ok {α : Type} {l : List α} {i : Nat} {a : α} (h : loadAt l i = .ok a) :
    l[i]? = some a := by
  rw [loadAt] at h
  split at h
  case h_1 => cases h
  case h_2 a' hget =>
    rw [hget]
    exact congrArg some (Except.ok.inj h)

theorem storeAt_ok {α : Type} {l l' : List α} {i : Nat} {a : α} (h : storeAt l i a = .ok l') :
    l' = l.set i a := by
  rw [storeAt] at h
  split at h
  · exact (Except.ok.inj h).symm
  · cases h

theorem getElem?_reallocArray {α : Type} {fresh : Nat → α} {old : List α} {n i : Nat} {a : α}
    (hi : i < n) (h : old[i]? = some a) : (reallocArray fresh old n)[i]? = some a := by
  rw [reallocArray, List.getElem?_map, List.getElem?_range hi, Option.map_some, h]
  rfl

namespace NVMeHandle

/--
The admin queue's tail never leaves slot 0, as the driver's size for it stays
zero: the arrays of the I/O queues start at index 31.
-/
structure Sound (h : NVMeHandle) : Prop where
  adminSQ : h.adminSQ = 0
  adminBound : h.nPerSQueue[0]? = some 0
  base : 31 ≤ h.nSubmissions
  tails : ∀ e ∈ h.log, e.queue = .admin → e.tail = 0

theorem sound_configured (cntrl : NVMeController) : (configured cntrl).Sound :=
  ⟨rfl, rfl, Nat.le_refl _, fun _ he => absurd he List.not_mem_nil⟩

theorem submitAdmin_eq {h : NVMeHandle} (hsound : h.Sound) (operation : NVMeOperation) :
    h.submitAdmin operation = .ok { h with
      adminSQ := 0
      commandCounter := (h.commandCounter + 1) % 2 ^ 16
      log := ⟨.admin, operation, h.commandCounter, 0, h.cntrl.adminDepth,
        h.cntrl.doorbellOffset 0, 1 % h.cntrl.adminDepth, 0⟩ :: h.log } := by
  have hload : loadAt h.nPerSQueue 0 = .ok 0 := by
    rw [loadAt, hsound.adminBound]
  have hring : h.cntrl.ring 0 0 = (1 % h.cntrl.adminDepth, 0) := by
    rw [NVMeController.ring, if_pos (Nat.zero_le _)]
  rw [submitAdmin, hload]
  simp only [hring, hsound.adminSQ]

theorem submitAdmin_exact {h h' : NVMeHandle} {operation : NVMeOperation} (hsound : h.Sound)
    (hsubmit : h.submitAdmin operation = .ok h') :
    (RingProtocol h'.log ↔ RingProtocol h.log ∧ h.cntrl.adminDepth = 1) ∧ h'.Sound := by
  rw [submitAdmin_eq hsound] at hsubmit
  cases hsubmit
  have hdepth : 0 < h.cntrl.adminDepth := Nat.succ_pos _
  refine ⟨?_, rfl, hsound.adminBound, hsound.base, fun e he hqueue => ?_⟩
  · rw [ringProtocol_cons]
    refine and_congr_right fun hlog => ⟨fun ⟨hadvances, _⟩ => ?_, fun hone => ?_⟩
    · have hnext : 1 % h.cntrl.adminDepth = 0 := hadvances.rung
      by_contra hne
      rw [Nat.mod_eq_of_lt (by omega)] at hnext
      cases hnext
    · have hzero : 1 % h.cntrl.adminDepth = 0 := by rw [hone]
      refine ⟨⟨hdepth, hzero, hzero.symm⟩, fun prev hprev => ?_⟩
      have hqueue := List.find?_some (show List.find? _ h.log = some prev from hprev)
      exact (hsound.tails prev (List.mem_of_find?_eq_some hprev)
        (of_decide_eq_true hqueue)).symm
  · rcases List.mem_cons.mp he with rfl | he
    · rfl
    · exact hsound.tails e he hqueue

/--
The tail of the queue lies inside it, moves alike modulo the size of the admin
queue and modulo its own depth, and is the one that its last command left.
-/
def SubmitsInStep (h : NVMeHandle) (queue : Nat) : Prop :=
  ∀ slot n, h.sq[queue]? = some slot → h.nPerSQueue[queue]? = some n →
    slot < n ∧ (slot + 1) % h.cntrl.adminDepth = (slot + 1) % n ∧
      ∀ prev, lastOn h.log (.io queue) = some prev → slot = prev.tail

theorem submitIO_exact {h h' : NVMeHandle} {operation : NVMeOperation} {queue commandID : Nat}
    (hsound : h.Sound) (hsubmit : h.submitIO operation queue commandID = .ok h') :
    (RingProtocol h'.log ↔ RingProtocol h.log ∧ h.SubmitsInStep queue) ∧ h'.Sound := by
  rw [ submitIO] at hsubmit
  split at hsubmit
  case h_1 memory slot n _ hslot hn =>
    cases hsubmit
    have hslot := loadAt_ok hslot
    have hn := loadAt_ok hn
    refine ⟨?_, hsound.adminSQ, hsound.adminBound, hsound.base, fun e he hqueue => ?_⟩
    · rw [ringProtocol_cons]
      refine and_congr_right fun _ => ⟨fun ⟨hadvances, hprev⟩ => ?_, fun hstep => ?_⟩
      · intro slot' n' hslot' hn'
        obtain rfl := Option.some.inj (hslot.symm.trans hslot')
        obtain rfl := Option.some.inj (hn.symm.trans hn')
        exact ⟨hadvances.inQueue, hadvances.rung.trans hadvances.next, hprev⟩
      · obtain ⟨hlt, hmoves, hprev⟩ := hstep slot n hslot hn
        have hin : ¬ n ≤ (slot + 1) % h.cntrl.adminDepth := by
          rw [hmoves]
          exact Nat.not_le.mpr (Nat.mod_lt _ (by omega))
        exact ⟨⟨hlt, (if_neg hin).symm, (if_neg hin).trans hmoves⟩, hprev⟩
    · rcases List.mem_cons.mp he with rfl | he
      · cases hqueue
      · exact hsound.tails e he hqueue
  case h_2 => cases hsubmit
  case h_3 => cases hsubmit

theorem growSubmissions_ok {h h' : NVMeHandle} {stale : StaleMemory} (hsound : h.Sound)
    (hgrow : h.growSubmissions stale = .ok h') :
    h'.Sound ∧ h'.log = h.log ∧ h'.cntrl = h.cntrl := by
  rw [growSubmissions] at hgrow
  split at hgrow
  case isFalse =>
    cases hgrow
    exact ⟨hsound, rfl, rfl⟩
  case isTrue =>
    simp only at hgrow
    split at hgrow
    case h_1 => cases hgrow
    case h_2 =>
      cases hgrow
      exact ⟨⟨hsound.adminSQ, getElem?_reallocArray (by omega) hsound.adminBound, hsound.base,
        hsound.tails⟩, rfl, rfl⟩

theorem growCompletions_ok {h h' : NVMeHandle} {stale : StaleMemory} (hsound : h.Sound)
    (hgrow : h.growCompletions stale = .ok h') :
    h'.Sound ∧ h'.log = h.log ∧ h'.cntrl = h.cntrl := by
  rw [growCompletions] at hgrow
  split at hgrow
  case isFalse =>
    cases hgrow
    exact ⟨hsound, rfl, rfl⟩
  case isTrue =>
    simp only at hgrow
    split at hgrow
    case h_1 => cases hgrow
    case h_2 =>
      cases hgrow
      exact ⟨⟨hsound.adminSQ, hsound.adminBound, hsound.base, hsound.tails⟩, rfl, rfl⟩

theorem thenSubmitAdmin_exact {h mid h' : NVMeHandle} {operation : NVMeOperation}
    (hsubmit : mid.submitAdmin operation = .ok h') (hlog : mid.log = h.log)
    (hcntrl : mid.cntrl = h.cntrl) (hmid : mid.Sound) :
    (RingProtocol h'.log ↔ RingProtocol h.log ∧ h.cntrl.adminDepth = 1) ∧ h'.Sound := by
  rw [← hlog, ← hcntrl]
  exact submitAdmin_exact hmid hsubmit

theorem allocateIOSubmissionQueues_exact {h h' : NVMeHandle} {stale : StaleMemory}
    {nQueues : Nat} {memory : Option Nat} (hsound : h.Sound)
    (hcall : h.allocateIOSubmissionQueues stale nQueues memory = .ok h') :
    (RingProtocol h'.log ↔ RingProtocol h.log ∧ h.cntrl.adminDepth = 1) ∧ h'.Sound := by
  rw [allocateIOSubmissionQueues] at hcall
  cases hgrow : h.growSubmissions stale with
  | error e =>
      rw [hgrow] at hcall
      cases hcall
  | ok mid =>
      rw [hgrow] at hcall
      obtain ⟨hmid, hlog, hcntrl⟩ := growSubmissions_ok hsound hgrow
      simp only at hcall
      split at hcall
      case h_1 submissions nPerSQueue _ hstore =>
        refine thenSubmitAdmin_exact hcall hlog hcntrl
          ⟨hmid.adminSQ, ?_, Nat.le_succ_of_le hmid.base, hmid.tails⟩
        have hbase := hmid.base
        simp only [storeAt_ok hstore]
        rw [List.getElem?_set_ne (by omega)]
        exact hmid.adminBound
      case h_2 => cases hcall

theorem allocateIOCompletionQueue_exact {h h' : NVMeHandle} {stale : StaleMemory}
    {nQueues : Nat} {memory : Option Nat} (hsound : h.Sound)
    (hcall : h.allocateIOCompletionQueue stale nQueues memory = .ok h') :
    (RingProtocol h'.log ↔ RingProtocol h.log ∧ h.cntrl.adminDepth = 1) ∧ h'.Sound := by
  rw [allocateIOCompletionQueue] at hcall
  cases hgrow : h.growCompletions stale with
  | error e =>
      rw [hgrow] at hcall
      cases hcall
  | ok mid =>
      rw [hgrow] at hcall
      obtain ⟨hmid, hlog, hcntrl⟩ := growCompletions_ok hsound hgrow
      simp only at hcall
      split at hcall
      case h_1 =>
        exact thenSubmitAdmin_exact hcall hlog hcntrl
          ⟨hmid.adminSQ, hmid.adminBound, hmid.base, hmid.tails⟩
      case h_2 => cases hcall

theorem closeQueue_ok {h h' : NVMeHandle} {sizeofSlot queue : Nat} (hsound : h.Sound)
    (hclose : h.closeQueue sizeofSlot queue = .ok h') :
    h'.Sound ∧ h'.log = h.log ∧ h'.cntrl = h.cntrl := by
  obtain ⟨_, -, hclose⟩ := bind_ok hclose
  obtain ⟨n, -, hclose⟩ := bind_ok hclose
  obtain ⟨submissions, -, hclose⟩ := bind_ok hclose
  obtain ⟨_, -, hclose⟩ := bind_ok hclose
  obtain rfl := Except.ok.inj hclose
  have hbase := hsound.base
  refine ⟨⟨hsound.adminSQ, ?_, Nat.le_succ_of_le hbase, hsound.tails⟩, rfl, rfl⟩
  rw [List.getElem?_set_ne (by omega)]
  exact hsound.adminBound

theorem freeIOQueue_exact {h h' : NVMeHandle} {sizeofSlot queue : Nat}
    {operation : NVMeOperation} (hsound : h.Sound)
    (hcall : h.freeIOQueue sizeofSlot queue operation = .ok h') :
    (RingProtocol h'.log ↔ RingProtocol h.log ∧ h.cntrl.adminDepth = 1) ∧ h'.Sound := by
  rw [freeIOQueue] at hcall
  cases hclose : h.closeQueue sizeofSlot queue with
  | error e =>
      rw [hclose] at hcall
      cases hcall
  | ok mid =>
      rw [hclose] at hcall
      obtain ⟨hmid, hlog, hcntrl⟩ := closeQueue_ok hsound hclose
      exact thenSubmitAdmin_exact hcall hlog hcntrl hmid

theorem submitsInStep_poll {h h' : NVMeHandle} {queue : Nat} (hsound : h.Sound)
    (hpoll : h.poll = .ok h') : h'.SubmitsInStep queue ↔ h.SubmitsInStep queue := by
  rw [poll, submitAdmin_eq hsound] at hpoll
  obtain rfl := (Except.ok.inj hpoll).symm
  have hlast := @lastOn_cons_of_ne ⟨.admin, .identify, h.commandCounter, 0, h.cntrl.adminDepth,
    h.cntrl.doorbellOffset 0, 1 % h.cntrl.adminDepth, 0⟩ h.log (.io queue) (by simp)
  rw [SubmitsInStep, SubmitsInStep, hlast]

theorem ioBytes_exact {h h' : NVMeHandle} {queue buffer level commandID : Nat} {fits : Bool}
    (hsound : h.Sound) (hcall : h.ioBytes queue buffer fits level commandID = .ok h') :
    (RingProtocol h'.log ↔ RingProtocol h.log ∧
      (¬ (queue = 0 ∨ buffer = 0 ∨ !fits ∨ h.nSubmissions ≤ queue) →
        h.cntrl.adminDepth = 1 ∧ (level ∈ [1, 2, 3] → h.SubmitsInStep queue))) ∧ h'.Sound := by
  rw [ioBytes] at hcall
  split at hcall
  case isTrue hrejected =>
    cases hcall
    exact ⟨(and_iff_left fun haccepted => absurd hrejected haccepted).symm, hsound⟩
  case isFalse haccepted =>
    rw [imp_iff_right haccepted]
    cases hpoll : h.poll with
    | error e =>
        rw [hpoll] at hcall
        cases hcall
    | ok mid =>
        rw [hpoll] at hcall
        obtain ⟨hexact, hmid⟩ := submitAdmin_exact hsound hpoll
        rw [← and_assoc, ← hexact, ← submitsInStep_poll hsound hpoll]
        simp only at hcall
        split at hcall
        case h_1 =>
          split at hcall
          case isTrue hlevel =>
            rw [imp_iff_right hlevel]
            split at hcall
            case h_1 => cases hcall
            case h_2 => exact submitIO_exact hmid hcall
          case isFalse hlevel =>
            cases hcall
            exact ⟨(and_iff_left fun h => absurd h hlevel).symm, hmid⟩
        case h_2 => cases hcall
        case h_3 => cases hcall

end NVMeHandle

/-! ## What stays inside the arrays -/

theorem loadAt_ok_iff {α : Type} {l : List α} {i : Nat} :
    (∃ a, loadAt l i = .ok a) ↔ i < l.length := by
  rw [loadAt]
  cases hget : l[i]? with
  | none =>
      have hlen := List.getElem?_eq_none_iff.mp hget
      exact iff_of_false (fun ⟨a, h⟩ => by cases h) (by omega)
  | some a => exact iff_of_true ⟨a, rfl⟩ (List.getElem?_eq_some_iff.mp hget).1

theorem storeAt_ok_iff {α : Type} {l : List α} {i : Nat} {a : α} :
    (∃ l', storeAt l i a = .ok l') ↔ i < l.length := by
  rw [storeAt]
  split
  case isTrue hlt => exact iff_of_true ⟨_, rfl⟩ hlt
  case isFalse hge => exact iff_of_false (fun ⟨l', h⟩ => by cases h) hge

theorem length_reallocArray {α : Type} (fresh : Nat → α) (old : List α) (n : Nat) :
    (reallocArray fresh old n).length = n := by
  rw [reallocArray, List.length_map, List.length_range]

theorem length_closeGap {l l' : List (Option Nat)} {queue bytes : Nat}
    (h : closeGap l queue bytes = .ok l') : l'.length = l.length := by
  rw [closeGap] at h
  split at h
  case isFalse => cases h
  case isTrue hfits =>
    cases h
    have hroom : queue + 1 + bytes / sizeofPointer ≤ l.length := hfits
    simp only [List.length_append, List.length_take, List.length_drop]
    generalize bytes / sizeofPointer = n at hroom ⊢
    omega

namespace NVMeHandle

def HasQueue (h : NVMeHandle) (queue : Nat) : Prop :=
  (∃ memory, h.submissions[queue]? = some (some memory)) ∧ queue < h.sq.length ∧
    queue < h.nPerSQueue.length

def RoomForSubmissions (h : NVMeHandle) : Prop :=
  if h.nSubmissions % 32 = 0 then h.nCompletions ≤ h.nSubmissions
  else h.nSubmissions < h.submissions.length ∧ h.nSubmissions < h.nPerSQueue.length

def RoomForCompletion (h : NVMeHandle) : Prop :=
  h.nCompletions % 32 = 0 ∨
    h.nCompletions < h.completions.length ∧ h.nCompletions < h.nPerCQueue.length

/-- The elements that `closeQueue` loads and moves are inside the arrays. -/
def Closable (h : NVMeHandle) (sizeofSlot queue : Nat) : Prop :=
  queue < h.submissions.length ∧ h.nSubmissions < h.submissions.length ∧
    ∃ n, h.nPerSQueue[h.nSubmissions]? = some n ∧
      queue + 1 + sizeofSlot * u32sub n (u32 (queue + 1)) / sizeofPointer ≤
        h.submissions.length

theorem submitIO_returns_iff {h : NVMeHandle} {operation : NVMeOperation}
    {queue commandID : Nat} :
    (∃ h', h.submitIO operation queue commandID = .ok h') ↔ h.HasQueue queue := by
  rw [ submitIO, HasQueue, ← loadAt_ok_iff, ← loadAt_ok_iff]
  cases hmemory : h.submissions[queue]? with
  | none => simp [loadAt, hmemory]
  | some memory =>
      have hload : loadAt h.submissions queue = .ok memory := by
        rw [loadAt, hmemory]
      rw [hload]
      cases memory with
      | none => simp
      | some memory =>
          cases loadAt h.sq queue with
          | error e => simp
          | ok slot =>
              cases loadAt h.nPerSQueue queue with
              | error e => simp
              | ok n => exact iff_of_true ⟨_, rfl⟩ ⟨⟨memory, rfl⟩, ⟨slot, rfl⟩, n, rfl⟩

theorem growSubmissions_returns_iff {h : NVMeHandle} {stale : StaleMemory} :
    (∃ h', h.growSubmissions stale = .ok h' ∧ h'.nSubmissions < h'.submissions.length ∧
      h'.nSubmissions < h'.nPerSQueue.length) ↔ h.RoomForSubmissions := by
  rw [growSubmissions, RoomForSubmissions]
  by_cases hgrows : h.nSubmissions % 32 = 0
  · rw [if_pos hgrows, if_pos hgrows]
    simp only [zeroRange, length_reallocArray]
    by_cases hfits : h.nCompletions + 32 ≤ h.nSubmissions + 32
    · rw [if_pos hfits]
      refine iff_of_true ⟨_, rfl, ?_, ?_⟩ (by omega)
      · simp only [length_reallocArray]
        omega
      · simp only [length_reallocArray]
        omega
    · rw [if_neg hfits]
      exact iff_of_false (by simp) (by omega)
  · rw [if_neg hgrows, if_neg hgrows]
    constructor
    · rintro ⟨h', heq, hroom⟩
      obtain rfl := Except.ok.inj heq
      exact hroom
    · exact fun hroom => ⟨h, rfl, hroom⟩

theorem growCompletions_returns_iff {h : NVMeHandle} {stale : StaleMemory} :
    (∃ h', h.growCompletions stale = .ok h' ∧ h'.nCompletions < h'.completions.length ∧
      h'.nCompletions < h'.nPerCQueue.length) ↔ h.RoomForCompletion := by
  rw [growCompletions, RoomForCompletion]
  by_cases hgrows : h.nCompletions % 32 = 0
  · rw [if_pos hgrows]
    simp only [zeroRange, length_reallocArray, Nat.le_refl, if_true]
    refine iff_of_true ⟨_, rfl, ?_, ?_⟩ (.inl hgrows)
    · simp only [length_reallocArray]
      omega
    · simp only [length_reallocArray]
      omega
  · rw [if_neg hgrows, or_iff_right hgrows]
    constructor
    · rintro ⟨h', heq, hroom⟩
      obtain rfl := Except.ok.inj heq
      exact hroom
    · exact fun hroom => ⟨h, rfl, hroom⟩

theorem allocateIOSubmissionQueues_returns_iff {h : NVMeHandle} (hsound : h.Sound)
    {stale : StaleMemory} {nQueues : Nat} {memory : Option Nat} :
    (∃ h', h.allocateIOSubmissionQueues stale nQueues memory = .ok h') ↔
      h.RoomForSubmissions := by
  rw [← @growSubmissions_returns_iff h stale, allocateIOSubmissionQueues]
  cases hgrow : h.growSubmissions stale with
  | error e => simp
  | ok mid =>
      constructor
      · rintro ⟨h', heq⟩
        simp only at heq
        split at heq
        case h_1 submissions nPerSQueue hmemory hdepth =>
          exact ⟨mid, rfl, storeAt_ok_iff.mp ⟨_, hmemory⟩, storeAt_ok_iff.mp ⟨_, hdepth⟩⟩
        case h_2 => cases heq
      · rintro ⟨mid', heq, hroom, hroom'⟩
        obtain rfl := Except.ok.inj heq
        obtain ⟨submissions, hmemory⟩ := (storeAt_ok_iff (a := memory)).mpr hroom
        obtain ⟨nPerSQueue, hdepth⟩ := (storeAt_ok_iff
          (a := min (mid.cntrl.maximumQueueEntries.toNat + 1) nQueues)).mpr hroom'
        simp only [hmemory, hdepth]
        obtain ⟨hmid, -, -⟩ := growSubmissions_ok hsound hgrow
        have hbase := hmid.base
        have hbound : nPerSQueue[0]? = some 0 := by
          rw [storeAt_ok hdepth, List.getElem?_set_ne (by omega)]
          exact hmid.adminBound
        refine ⟨_, submitAdmin_eq ?_ _⟩
        exact ⟨hmid.adminSQ, hbound, Nat.le_succ_of_le hbase, hmid.tails⟩

theorem allocateIOCompletionQueue_returns_iff {h : NVMeHandle} (hsound : h.Sound)
    {stale : StaleMemory} {nQueues : Nat} {memory : Option Nat} :
    (∃ h', h.allocateIOCompletionQueue stale nQueues memory = .ok h') ↔
      h.RoomForCompletion := by
  rw [← @growCompletions_returns_iff h stale, allocateIOCompletionQueue]
  cases hgrow : h.growCompletions stale with
  | error e => simp
  | ok mid =>
      constructor
      · rintro ⟨h', heq⟩
        simp only at heq
        split at heq
        case h_1 completions nPerCQueue hmemory hdepth =>
          exact ⟨mid, rfl, storeAt_ok_iff.mp ⟨_, hmemory⟩, storeAt_ok_iff.mp ⟨_, hdepth⟩⟩
        case h_2 => cases heq
      · rintro ⟨mid', heq, hroom, hroom'⟩
        obtain rfl := Except.ok.inj heq
        obtain ⟨completions, hmemory⟩ := (storeAt_ok_iff (a := memory)).mpr hroom
        obtain ⟨nPerCQueue, hdepth⟩ := (storeAt_ok_iff
          (a := min (mid.cntrl.maximumQueueEntries.toNat + 1) nQueues)).mpr hroom'
        simp only [hmemory, hdepth]
        obtain ⟨hmid, -, -⟩ := growCompletions_ok hsound hgrow
        refine ⟨_, submitAdmin_eq ?_ _⟩
        exact ⟨hmid.adminSQ, hmid.adminBound, hmid.base, hmid.tails⟩

theorem closeQueue_returns_iff {h : NVMeHandle} {sizeofSlot queue : Nat} :
    (∃ h', h.closeQueue sizeofSlot queue = .ok h') ↔ h.Closable sizeofSlot queue := by
  constructor
  · rintro ⟨h', hclose⟩
    obtain ⟨_, hqueue, hclose⟩ := bind_ok hclose
    obtain ⟨n, hn, hclose⟩ := bind_ok hclose
    obtain ⟨submissions, hgap, hclose⟩ := bind_ok hclose
    obtain ⟨_, hlast, -⟩ := bind_ok hclose
    have hlt := loadAt_ok_iff.mp ⟨_, hlast⟩
    rw [length_closeGap hgap] at hlt
    refine ⟨loadAt_ok_iff.mp ⟨_, hqueue⟩, hlt, n, loadAt_ok hn, ?_⟩
    rw [closeGap] at hgap
    split at hgap
    case isTrue hfits => exact hfits
    case isFalse => cases hgap
  · rintro ⟨hqueue, hlast, n, hn, hfits⟩
    obtain ⟨_, hload⟩ := loadAt_ok_iff.mpr hqueue
    have hdepth : loadAt h.nPerSQueue h.nSubmissions = .ok n := by rw [loadAt, hn]
    obtain ⟨submissions, hgap⟩ : ∃ l', closeGap h.submissions queue
        (sizeofSlot * u32sub n (u32 (queue + 1))) = .ok l' := ⟨_, if_pos hfits⟩
    rw [← length_closeGap hgap] at hlast
    obtain ⟨_, hload'⟩ := loadAt_ok_iff.mpr hlast
    rw [closeQueue, hload, ok_bind, hdepth, ok_bind, hgap, ok_bind, hload', ok_bind]
    exact ⟨_, rfl⟩

theorem freeIOQueue_returns_iff {h : NVMeHandle} (hsound : h.Sound) {sizeofSlot queue : Nat}
    {operation : NVMeOperation} :
    (∃ h', h.freeIOQueue sizeofSlot queue operation = .ok h') ↔ h.Closable sizeofSlot queue := by
  rw [← closeQueue_returns_iff, freeIOQueue]
  cases hclose : h.closeQueue sizeofSlot queue with
  | error e => simp
  | ok mid =>
      exact iff_of_true ⟨_, submitAdmin_eq (closeQueue_ok hsound hclose).1 operation⟩ ⟨mid, rfl⟩

def ReachesQueue (h : NVMeHandle) (queue level : Nat) : Prop :=
  (∃ memory, h.submissions[queue]? = some (some memory)) ∧ queue < h.sq.length ∧
    (level ∈ [1, 2, 3] → queue < h.cq.length ∧ queue < h.nPerSQueue.length)

theorem ioBytes_returns_iff {h : NVMeHandle} (hsound : h.Sound) {queue buffer level : Nat}
    {commandID : Nat} {fits : Bool} :
    (∃ h', h.ioBytes queue buffer fits level commandID = .ok h') ↔
      (¬ (queue = 0 ∨ buffer = 0 ∨ !fits ∨ h.nSubmissions ≤ queue) →
        h.ReachesQueue queue level) := by
  rw [ioBytes]
  split
  case isTrue hrejected => exact iff_of_true ⟨h, rfl⟩ fun haccepted => absurd hrejected haccepted
  case isFalse haccepted =>
    rw [imp_iff_right haccepted, poll, submitAdmin_eq hsound]
    simp only
    rw [ReachesQueue, ← loadAt_ok_iff, ← loadAt_ok_iff]
    cases hmemory : h.submissions[queue]? with
    | none => simp [loadAt, hmemory]
    | some memory =>
        have hload : loadAt h.submissions queue = .ok memory := by
          rw [loadAt, hmemory]
        rw [hload]
        cases memory with
        | none => simp
        | some memory =>
            cases hsq : loadAt h.sq queue with
            | error e => simp
            | ok slot =>
                have hslot : queue < h.sq.length := loadAt_ok_iff.mp ⟨slot, hsq⟩
                by_cases hlevel : level ∈ [1, 2, 3]
                · simp only [if_pos hlevel, imp_iff_right hlevel]
                  cases loadAt h.cq queue with
                  | error e => simp
                  | ok head =>
                      have hqueue : (∃ memory, h.submissions[queue]? = some (some memory)) ∧
                          queue < h.sq.length := ⟨⟨memory, hmemory⟩, hslot⟩
                      refine submitIO_returns_iff.trans ⟨fun hhas => ?_, fun hreach => ?_⟩
                      · exact ⟨⟨memory, rfl⟩, ⟨slot, rfl⟩, ⟨head, rfl⟩, hhas.2.2⟩
                      · exact ⟨hqueue.1, hqueue.2, hreach.2.2.2⟩
                · simp [hlevel]

end NVMeHandle

/-! ## Calls -/

/-- The calls on a handle, each with what its environment decides. -/
inductive NVMeCall where
  | pollController
  | pollNamespace
  | allocateIOSubmissionQueues (stale : StaleMemory) (nQueues : BitVec 16)
      (memory : Option Nat)
  | allocateIOCompletionQueue (stale : StaleMemory) (nQueues : BitVec 16)
      (memory : Option Nat)
  | freeIOSubmissionQueue (queue : BitVec 32)
  | freeIOCompletionQueue (queue : BitVec 32)
  | flushVolatileData (queue : BitVec 32)
  | readBytes (queue : BitVec 32) (buffer : Nat) (fits : Bool) (level commandID : Nat)
  | writeBytes (queue : BitVec 32) (buffer : Nat) (fits : Bool) (level commandID : Nat)

namespace NVMeHandle

def call (h : NVMeHandle) : NVMeCall → Except Fault NVMeHandle
  | .pollController => h.poll
  | .pollNamespace => h.poll
  | .allocateIOSubmissionQueues stale nQueues memory =>
      h.allocateIOSubmissionQueues stale nQueues.toNat memory
  | .allocateIOCompletionQueue stale nQueues memory =>
      h.allocateIOCompletionQueue stale nQueues.toNat memory
  | .freeIOSubmissionQueue queue => h.freeIOSubmissionQueue queue.toNat
  | .freeIOCompletionQueue queue => h.freeIOCompletionQueue queue.toNat
  | .flushVolatileData queue => h.flushVolatileData queue.toNat
  | .readBytes queue buffer fits level commandID =>
      h.ioBytes queue.toNat buffer fits level commandID
  | .writeBytes queue buffer fits level commandID =>
      h.ioBytes queue.toNat buffer fits level commandID

/-- What the call loads and moves is inside the handle's arrays. -/
def InArrays (h : NVMeHandle) : NVMeCall → Prop
  | .pollController => True
  | .pollNamespace => True
  | .allocateIOSubmissionQueues .. => h.RoomForSubmissions
  | .allocateIOCompletionQueue .. => h.RoomForCompletion
  | .freeIOSubmissionQueue queue => h.Closable sizeofSubmissionQueueSlot queue.toNat
  | .freeIOCompletionQueue queue => h.Closable sizeofCompletionQueueSlot queue.toNat
  | .flushVolatileData queue => h.HasQueue queue.toNat
  | .readBytes queue buffer fits level _ =>
      ¬ (queue.toNat = 0 ∨ buffer = 0 ∨ !fits ∨ h.nSubmissions ≤ queue.toNat) →
        h.ReachesQueue queue.toNat level
  | .writeBytes queue buffer fits level _ =>
      ¬ (queue.toNat = 0 ∨ buffer = 0 ∨ !fits ∨ h.nSubmissions ≤ queue.toNat) →
        h.ReachesQueue queue.toNat level

def IOClear (h : NVMeHandle) (queue buffer : Nat) (fits : Bool) (level : Nat) : Prop :=
  ¬ (queue = 0 ∨ buffer = 0 ∨ !fits ∨ h.nSubmissions ≤ queue) →
    h.cntrl.adminDepth = 1 ∧ (level ∈ [1, 2, 3] → h.SubmitsInStep queue)

/--
An admin command needs an admin queue of one slot; an I/O command needs one too,
for its poll, and a queue that it submits to in step.
-/
def RingClear (h : NVMeHandle) : NVMeCall → Prop
  | .flushVolatileData queue => h.SubmitsInStep queue.toNat
  | .readBytes queue buffer fits level _ => h.IOClear queue.toNat buffer fits level
  | .writeBytes queue buffer fits level _ => h.IOClear queue.toNat buffer fits level
  | _ => h.cntrl.adminDepth = 1

theorem call_exact {h h' : NVMeHandle} {c : NVMeCall} (hsound : h.Sound)
    (hcall : h.call c = .ok h') :
    (RingProtocol h'.log ↔ RingProtocol h.log ∧ h.RingClear c) ∧ h'.Sound := by
  cases c with
  | pollController => exact submitAdmin_exact hsound hcall
  | pollNamespace => exact submitAdmin_exact hsound hcall
  | allocateIOSubmissionQueues stale nQueues memory =>
      exact allocateIOSubmissionQueues_exact hsound hcall
  | allocateIOCompletionQueue stale nQueues memory =>
      exact allocateIOCompletionQueue_exact hsound hcall
  | freeIOSubmissionQueue queue => exact freeIOQueue_exact hsound hcall
  | freeIOCompletionQueue queue => exact freeIOQueue_exact hsound hcall
  | flushVolatileData queue =>
      have hcounted : Sound { h with commandCounter := (h.commandCounter + 1) % 2 ^ 16 } :=
        ⟨hsound.adminSQ, hsound.adminBound, hsound.base, hsound.tails⟩
      have hexact := submitIO_exact hcounted hcall
      exact hexact
  | readBytes queue buffer fits level commandID => exact ioBytes_exact hsound hcall
  | writeBytes queue buffer fits level commandID => exact ioBytes_exact hsound hcall

theorem call_returns_iff {h : NVMeHandle} {c : NVMeCall} (hsound : h.Sound) :
    (∃ h', h.call c = .ok h') ↔ h.InArrays c := by
  cases c with
  | pollController => exact iff_of_true ⟨_, submitAdmin_eq hsound _⟩ trivial
  | pollNamespace => exact iff_of_true ⟨_, submitAdmin_eq hsound _⟩ trivial
  | allocateIOSubmissionQueues stale nQueues memory =>
      exact allocateIOSubmissionQueues_returns_iff hsound
  | allocateIOCompletionQueue stale nQueues memory =>
      exact allocateIOCompletionQueue_returns_iff hsound
  | freeIOSubmissionQueue queue => exact freeIOQueue_returns_iff hsound
  | freeIOCompletionQueue queue => exact freeIOQueue_returns_iff hsound
  | flushVolatileData queue => exact submitIO_returns_iff
  | readBytes queue buffer fits level commandID => exact ioBytes_returns_iff hsound
  | writeBytes queue buffer fits level commandID => exact ioBytes_returns_iff hsound

end NVMeHandle

/-! ## Runs -/

/-- What stale memory held is nothing, and every index and depth in it zero. -/
def zeroedMemory : StaleMemory := ⟨fun _ => none, fun _ => 0, fun _ => 0⟩

end BlockyOS.Kernel
