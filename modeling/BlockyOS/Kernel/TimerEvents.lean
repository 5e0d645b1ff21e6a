import BlockyOS.Foundation.Chains
import BlockyOS.Foundation.Runs
import BlockyOS.HostTool.Raw
import Mathlib.Data.List.Perm.Subperm
import Mathlib.Logic.Relation

/-!
# Timer events

The table of timer events is a linked list that ends in an empty placeholder.
Adding an event fills the placeholder and puts a new one behind it.  The timer
interrupt is to pick one event, call it with a zeroed scratch copy and write the
copy over the event; but it takes the address of the table from a field of one
byte, in which the low byte of the local APIC's address stands.
-/

namespace BlockyOS.Kernel

open Foundation HostTool

/-! ## The event table -/

structure LocalAPICTimerEvent where
  tick : Nat
  erasureCountdown : Nat
  startupCooldown : Nat
  callback : Option Nat
  persistent : Nat
  call : Nat
  signal : Nat
  next : Option Nat
  deriving DecidableEq, Repr

/-- What `mcalloc` returns. -/
def LocalAPICTimerEvent.zero : LocalAPICTimerEvent := ⟨0, 0, 0, none, 0, 0, 0, none⟩

abbrev TimerNodes := List LocalAPICTimerEvent

abbrev TimerCallbacks :=
  (callback current persistent call : Nat) → LocalAPICTimerEvent × Nat

/-- What the timer interrupt finds in the machine. -/
structure TimerMachine where
  callbacks : TimerCallbacks
  /-- The node that stands at an address. -/
  nodeAt : Nat → Option Nat
  /-- What `GetLocalAPICBase` returned when the callback was set. -/
  localAPICBase : BitVec 64
  /-- The registers of a local APIC fill a page of their own. -/
  aligned : localAPICBase.toNat % 4096 = 0

/-! ## Adding an event -/

def walkToEnd (nodes : TimerNodes) : Nat → Nat → Except Fault (Nat × LocalAPICTimerEvent)
  | 0, _ => .error .hang
  | fuel + 1, a =>
      match nodes[a]? with
      | none => .error .outOfBounds
      | some node =>
          match node.next, node.callback with
          | some next, some _ => walkToEnd nodes fuel next
          | _, _ => .ok (a, node)

/-- The arguments of `AddTimerEvent`. -/
structure TimerRequest where
  tick : BitVec 16
  countdown : BitVec 16
  startupCooldown : BitVec 16
  event : Option Nat
  persistent : Nat
  signal : Nat
  /-- Whether the word in front of the table, read as the local APIC, is set. -/
  localAPIC : Bool

def TimerRequest.accepted (r : TimerRequest) : Bool :=
  r.event.isSome && r.tick != 0 && r.localAPIC

def TimerRequest.node (r : TimerRequest) (next : Option Nat) : LocalAPICTimerEvent where
  tick := r.tick.toNat
  erasureCountdown := r.countdown.toNat
  startupCooldown := r.startupCooldown.toNat
  callback := r.event
  persistent := r.persistent
  call := 0
  signal := r.signal
  next := next

/-- `AddTimerEvent`; the address is that of the node written, none where it returns false. -/
def addTimerEvent (nodes : TimerNodes) (r : TimerRequest) :
    Except Fault (TimerNodes × Option Nat) :=
  if !r.accepted then .ok (nodes, none)
  else
    match walkToEnd nodes (nodes.length + 1) 0 with
    | .error e => .error e
    | .ok (a, node) =>
        let (nodes, ptr) :=
          match node.next with
          | none => (nodes ++ [LocalAPICTimerEvent.zero], nodes.length)
          | some next => (nodes, next)
        match (if node.callback.isSome then node.next else some a) with
        | none => .error .nullDeref
        | some target => .ok (nodes.set target (r.node (some ptr)), some target)

/-! ## The timer interrupt -/

def scanEvents (current : Nat) :
    Nat → TimerNodes → Option Nat → Nat → List Nat →
      Except Fault (TimerNodes × Option Nat × List Nat)
  | 0, _, _, _, _ => .error .hang
  | fuel + 1, nodes, selected, eTable, respaced =>
      match nodes[eTable]? with
      | none => .error .outOfBounds
      | some entry =>
          match entry.next with
          | none => .ok (nodes, selected, respaced)
          | some next =>
              match selected with
              | none => scanEvents current fuel nodes (some eTable) next respaced
              | some s =>
                  match nodes[s]? with
                  | none => .error .outOfBounds
                  | some sel =>
                      if sel.tick = 0 ∨ entry.tick = 0 then
                        scanEvents current fuel nodes (some s) next respaced
                      else if current % sel.tick = 0 then .ok (nodes, some s, respaced)
                      else if current % entry.tick < current % sel.tick then
                        scanEvents current fuel nodes (some eTable) next respaced
                      else if current % sel.tick = current % entry.tick then
                        scanEvents current fuel
                          (nodes.set s { sel with tick := (entry.tick + 16) % 2 ^ 16 })
                          (some s) next (s :: respaced)
                      else scanEvents current fuel nodes (some s) next respaced

def selectEvent (nodes : TimerNodes) (table current : Nat) :
    Except Fault (TimerNodes × Option (Nat × Nat × LocalAPICTimerEvent) × List Nat) :=
  match nodes[table]? with
  | none => .error .outOfBounds
  | some header =>
      match scanEvents current (nodes.length + 1) nodes header.next table [] with
      | .error e => .error e
      | .ok (nodes, none, respaced) => .ok (nodes, none, respaced)
      | .ok (nodes, some s, respaced) =>
          match nodes[s]? with
          | none => .error .outOfBounds
          | some sel => .ok (nodes, sel.callback.map fun cb => (s, cb, sel), respaced)

/--
`Frame->StackHeader`: behind the three words over the interrupt's stack that the
frame calls `LocalAPIC`, `_GDT` and `_IST`, so the low byte of the fourth, in
which `ISRSetCallback` stored the local APIC's address.
-/
def TimerMachine.stackHeader (M : TimerMachine) : BitVec 8 := M.localAPICBase.truncate 8

/-- `(LocalAPICTimerEvent *)Frame->StackHeader`, as a node; none where it is null. -/
def TimerMachine.eTable (M : TimerMachine) : Except Fault (Option Nat) :=
  if M.stackHeader = 0 then .ok none
  else
    match M.nodeAt M.stackHeader.toNat with
    | none => .error .outOfBounds
    | some table => .ok (some table)

/-- What `APICTimerEventHandlerISR` selects. -/
def selectedByISR (M : TimerMachine) (nodes : TimerNodes) (current : Nat) :
    Except Fault (TimerNodes × Option (Nat × Nat × LocalAPICTimerEvent) × List Nat) :=
  match M.eTable with
  | .error e => .error e
  | .ok none => .ok (nodes, none, [])
  | .ok (some table) => selectEvent nodes table current

/-- `APICTimerEventHandlerISR`; the scratch copy is never freed. -/
def apicTimerEventHandlerISR (M : TimerMachine) (nodes : TimerNodes) (current : Nat) :
    Except Fault (TimerNodes × List Nat) :=
  match selectedByISR M nodes current with
  | .error e => .error e
  | .ok (nodes, none, respaced) => .ok (nodes, respaced)
  | .ok (nodes, some (s, cb, sel), respaced) =>
      let (temp, call) := M.callbacks cb current sel.persistent sel.call
      .ok ((nodes ++ [temp]).set s { temp with call := call }, respaced)

theorem TimerMachine.eTable_eq (M : TimerMachine) : M.eTable = .ok none := by
  have hzero : M.stackHeader = 0 := by
    have haligned := M.aligned
    apply BitVec.eq_of_toNat_eq
    rw [stackHeader, BitVec.truncate_eq_setWidth, BitVec.toNat_setWidth]
    change M.localAPICBase.toNat % 2 ^ 8 = 0
    omega
  rw [eTable, if_pos hzero]

theorem selectedByISR_eq (M : TimerMachine) (nodes : TimerNodes) (current : Nat) :
    selectedByISR M nodes current = .ok (nodes, none, []) := by
  rw [selectedByISR, M.eTable_eq]

theorem apicTimerEventHandlerISR_eq (M : TimerMachine) (nodes : TimerNodes) (current : Nat) :
    apicTimerEventHandlerISR M nodes current = .ok (nodes, []) := by
  rw [apicTimerEventHandlerISR, selectedByISR_eq]

/-! ## Calls and interrupts -/

inductive TimerCall where
  | addTimerEvent (r : TimerRequest)
  | interrupt (current : BitVec 32)

structure AddedEvent where
  address : Nat
  request : TimerRequest

structure TimerSession where
  nodes : TimerNodes
  added : List AddedEvent
  /-- The nodes whose ticks a collision has moved. -/
  respaced : List Nat

namespace TimerSession

def initial : TimerSession := ⟨[.zero], [], []⟩

def step (M : TimerMachine) (s : TimerSession) : TimerCall → Except Fault TimerSession
  | .addTimerEvent r =>
      match addTimerEvent s.nodes r with
      | .error e => .error e
      | .ok (nodes, none) => .ok { s with nodes := nodes }
      | .ok (nodes, some a) => .ok { s with nodes := nodes, added := ⟨a, r⟩ :: s.added }
  | .interrupt current =>
      match apicTimerEventHandlerISR M s.nodes current.toNat with
      | .error e => .error e
      | .ok (nodes, respaced) =>
          .ok { s with nodes := nodes, respaced := respaced ++ s.respaced }

end TimerSession

def nextOf (nodes : TimerNodes) (a : Nat) : Option Nat := nodes[a]?.bind fun n => n.next

def InTable (nodes : TimerNodes) : Nat → Prop :=
  Relation.ReflTransGen (fun a b => nextOf nodes a = some b) 0

namespace TimerSession

/-- Every event added is in the table as it was added, but for ticks moved by collisions. -/
def EventsKept (s : TimerSession) : Prop :=
  ∀ e ∈ s.added, InTable s.nodes e.address ∧
    ∃ node, s.nodes[e.address]? = some node ∧ node.callback = e.request.event ∧
      node.persistent = e.request.persistent ∧
      (node.tick = e.request.tick.toNat ∨ e.address ∈ s.respaced)

def EventsEligible (M : TimerMachine) (s : TimerSession) : Prop :=
  ∀ e ∈ s.added, ∃ (current : BitVec 32) (nodes : TimerNodes) (cb : Nat)
    (sel : LocalAPICTimerEvent) (respaced : List Nat),
      selectedByISR M s.nodes current.toNat = .ok (nodes, some (e.address, cb, sel), respaced)

def EventsLive (M : TimerMachine) (s : TimerSession) : Prop :=
  s.EventsKept ∧ s.EventsEligible M

/-- The call adds no event. -/
def AddsNone (_ : TimerSession) : TimerCall → Prop
  | .addTimerEvent r => r.accepted = false
  | .interrupt _ => True

theorem eventsEligible_iff {M : TimerMachine} {s : TimerSession} :
    s.EventsEligible M ↔ s.added = [] := by
  constructor
  · intro heligible
    rw [List.eq_nil_iff_forall_not_mem]
    intro e he
    obtain ⟨current, nodes, cb, sel, respaced, hselect⟩ := heligible e he
    rw [selectedByISR_eq] at hselect
    cases hselect
  · intro hnone e he
    rw [hnone] at he
    cases he

theorem step_interrupt (M : TimerMachine) (s : TimerSession) (current : BitVec 32) :
    s.step M (.interrupt current) = .ok s := by
  rw [step, apicTimerEventHandlerISR_eq]
  rfl

end TimerSession

/-! ## The shape of the table -/

structure TableShape (nodes : TimerNodes) (events : List Nat) (last : Nat) : Prop where
  linked : Linked (nextOf nodes) (events ++ [last])
  head : (events ++ [last]).head? = some 0
  nodup : (events ++ [last]).Nodup
  inNodes : ∀ a ∈ events ++ [last], a < nodes.length
  event : ∀ a ∈ events, ∃ node, nodes[a]? = some node ∧ node.callback.isSome
  placeholder : ∃ node, nodes[last]? = some node ∧ node.callback = none

namespace TableShape

variable {nodes : TimerNodes} {events : List Nat} {last : Nat}

theorem reached {l : List Nat} {a b : Nat} (hlinked : Linked (nextOf nodes) (a :: l))
    (hb : b ∈ a :: l) : Relation.ReflTransGen (fun a b => nextOf nodes a = some b) a b := by
  induction l generalizing a with
  | nil =>
      obtain rfl := List.mem_singleton.mp hb
      exact .refl
  | cons c l ih =>
      rcases List.mem_cons.mp hb with rfl | hb
      · exact .refl
      · exact .head hlinked.1 (ih hlinked.2 hb)

theorem inTable (h : TableShape nodes events last) {a : Nat} (ha : a ∈ events) :
    InTable nodes a := by
  have hmem : a ∈ events ++ [last] := List.mem_append_left _ ha
  obtain ⟨l, hl⟩ : ∃ l, events ++ [last] = 0 :: l := by
    obtain ⟨l, hl⟩ := List.head?_eq_some_iff.mp h.head
    exact ⟨l, hl⟩
  have hlinked := h.linked
  rw [hl] at hlinked hmem
  exact reached hlinked hmem

theorem walkToEnd_suffix {node : LocalAPICTimerEvent} {fuel a : Nat}
    (hlinked : Linked (nextOf nodes) (events ++ [last]))
    (hhead : (events ++ [last]).head? = some a)
    (hevent : ∀ a ∈ events, ∃ node, nodes[a]? = some node ∧ node.callback.isSome)
    (hlast : nodes[last]? = some node) (hcb : node.callback = none)
    (hfuel : events.length < fuel) : walkToEnd nodes fuel a = .ok (last, node) := by
  induction events generalizing a fuel with
  | nil =>
      obtain rfl : last = a := Option.some.inj hhead
      cases fuel with
      | zero => omega
      | succ fuel =>
          have hnext := hlinked.1
          rw [nextOf, hlast] at hnext
          have hnone : node.next = none := hnext
          rw [walkToEnd, hlast]
          simp only [hcb, hnone]
  | cons b events ih =>
      obtain rfl : b = a := Option.some.inj hhead
      cases fuel with
      | zero => omega
      | succ fuel =>
          obtain ⟨nodeb, hnodeb, hcbb⟩ := hevent b List.mem_cons_self
          obtain ⟨cb, hcbb⟩ := Option.isSome_iff_exists.mp hcbb
          have hnext := hlinked.1
          rw [nextOf, hnodeb] at hnext
          obtain ⟨c, hc⟩ : ∃ c, (events ++ [last]).head? = some c := by
            cases events with
            | nil => exact ⟨last, rfl⟩
            | cons c events => exact ⟨c, rfl⟩
          have hnextb : nodeb.next = some c := hnext.trans hc
          rw [walkToEnd, hnodeb]
          simp only [hnextb, hcbb]
          rw [List.length_cons] at hfuel
          exact ih hlinked.2 hc (fun a ha => hevent a (List.mem_cons_of_mem b ha)) (by omega)

theorem length_lt (h : TableShape nodes events last) : events.length < nodes.length := by
  have hsub : (events ++ [last]) ⊆ List.range nodes.length := fun a ha =>
    List.mem_range.mpr (h.inNodes a ha)
  have hle := (List.subperm_of_subset h.nodup hsub).length_le
  rw [List.length_append, List.length_singleton, List.length_range] at hle
  exact hle

theorem last_next (h : TableShape nodes events last) : nextOf nodes last = none := by
  have := linked_iff.mp h.linked events last [] rfl
  exact this

end TableShape

def appended (nodes : TimerNodes) (last : Nat) (r : TimerRequest) : TimerNodes :=
  (nodes ++ [LocalAPICTimerEvent.zero]).set last (r.node (some nodes.length))

theorem appended_old {nodes : TimerNodes} {last a : Nat} {r : TimerRequest} (hne : last ≠ a)
    (ha : a < nodes.length) : (appended nodes last r)[a]? = nodes[a]? := by
  rw [appended, List.getElem?_set_ne hne, List.getElem?_append_left ha]

theorem appended_last {nodes : TimerNodes} {last : Nat} {r : TimerRequest}
    (hlast : last < nodes.length) :
    (appended nodes last r)[last]? = some (r.node (some nodes.length)) := by
  rw [appended, List.getElem?_set_self]
  rw [List.length_append]
  omega

theorem appended_new {nodes : TimerNodes} {last : Nat} {r : TimerRequest}
    (hlast : last < nodes.length) :
    (appended nodes last r)[nodes.length]? = some .zero := by
  rw [appended, List.getElem?_set_ne (Nat.ne_of_lt hlast), List.getElem?_concat_length]

namespace TableShape

variable {nodes nodes' : TimerNodes} {events : List Nat} {last : Nat}

theorem addTimerEvent (h : TableShape nodes events last) {r : TimerRequest}
    (haccepted : r.accepted = true) :
    Kernel.addTimerEvent nodes r = .ok (appended nodes last r, some last) := by
  obtain ⟨node, hnode, hcb⟩ := h.placeholder
  have hfuel : events.length < nodes.length + 1 := Nat.lt_succ_of_lt h.length_lt
  have hwalk := walkToEnd_suffix h.linked h.head h.event hnode hcb hfuel
  have hnext := h.last_next
  rw [nextOf, hnode] at hnext
  have hnone : node.next = none := hnext
  rw [Kernel.addTimerEvent, haccepted, hwalk]
  simp [hcb, hnone, appended]

theorem appended (h : TableShape nodes events last) {r : TimerRequest}
    (haccepted : r.accepted = true) :
    TableShape (Kernel.appended nodes last r) (events ++ [last]) nodes.length := by
  have hlast : last < nodes.length := h.inNodes last (by simp)
  have hne : ∀ a ∈ events, last ≠ a := by
    rintro a ha rfl
    exact (List.nodup_append.mp h.nodup).2.2 _ ha _ List.mem_cons_self rfl
  have hold : ∀ a ∈ events, (Kernel.appended nodes last r)[a]? = nodes[a]? := fun a ha =>
    appended_old (hne a ha) (h.inNodes a (List.mem_append_left _ ha))
  have hnew : ∀ a ∈ events ++ [last], a ≠ nodes.length := fun a ha =>
    Nat.ne_of_lt (h.inNodes a ha)
  have hlinked : Linked (nextOf (Kernel.appended nodes last r))
      (events ++ [last] ++ [nodes.length]) := by
    refine h.linked.snoc (fun a ha => ?_) ?_
    · rcases List.mem_append.mp ha with hevent | hsingle
      · have hnext : nextOf nodes a ≠ none := by
          intro hnone
          obtain ⟨pre, hpre⟩ := h.linked.last_of_none ha hnone
          exact hne a hevent (List.cons.inj (List.append_inj' hpre rfl).2).1
        rw [if_neg hnext, nextOf, hold a hevent, nextOf]
      · obtain rfl := List.mem_singleton.mp hsingle
        rw [if_pos h.last_next, nextOf, appended_last hlast]
        rfl
    · rw [nextOf, appended_new hlast]
      rfl
  refine ⟨hlinked, ?_, ?_, fun a ha => ?_, fun a ha => ?_, .zero, appended_new hlast, rfl⟩
  · rw [List.head?_append, h.head]
    rfl
  · rw [List.nodup_append]
    refine ⟨h.nodup, List.nodup_singleton _, fun a ha b hb => ?_⟩
    obtain rfl := List.mem_singleton.mp hb
    exact Nat.ne_of_lt (h.inNodes a ha)
  · rw [Kernel.appended, List.length_set, List.length_append, List.length_singleton]
    rcases List.mem_append.mp ha with ha | ha
    · exact Nat.lt_succ_of_lt (h.inNodes a ha)
    · obtain rfl := List.mem_singleton.mp ha
      exact Nat.lt_succ_self _
  · rcases List.mem_append.mp ha with hevent | hsingle
    · obtain ⟨node, hnode, hcb⟩ := h.event a hevent
      exact ⟨node, (hold a hevent).trans hnode, hcb⟩
    · obtain rfl := List.mem_singleton.mp hsingle
      rw [TimerRequest.accepted, Bool.and_eq_true, Bool.and_eq_true] at haccepted
      exact ⟨_, appended_last hlast, haccepted.1.1⟩

end TableShape

/-! ## What every run keeps -/

namespace TimerSession

/-- The table is in shape, and every event added is one of its events, as it was added. -/
def Sound (s : TimerSession) : Prop :=
  ∃ events last, TableShape s.nodes events last ∧
    ∀ e ∈ s.added, e.address ∈ events ∧
      ∃ node, s.nodes[e.address]? = some node ∧ node.callback = e.request.event ∧
        node.persistent = e.request.persistent ∧
        (node.tick = e.request.tick.toNat ∨ e.address ∈ s.respaced)

theorem Sound.kept {s : TimerSession} (h : s.Sound) : s.EventsKept := by
  obtain ⟨events, last, hshape, hadded⟩ := h
  intro e he
  obtain ⟨hmem, hnode⟩ := hadded e he
  exact ⟨hshape.inTable hmem, hnode⟩

theorem sound_initial : initial.Sound := by
  refine ⟨[], 0, ⟨⟨rfl, trivial⟩, rfl, List.nodup_singleton 0, fun a ha => ?_, ?_, ?_⟩, ?_⟩
  · obtain rfl := List.mem_singleton.mp ha
    exact Nat.one_pos
  · exact fun a ha => absurd ha List.not_mem_nil
  · exact ⟨.zero, rfl, rfl⟩
  · exact fun e he => absurd he List.not_mem_nil

theorem Sound.addTimerEvent {M : TimerMachine} {s : TimerSession} (h : s.Sound)
    (r : TimerRequest) : ∃ s', s.step M (.addTimerEvent r) = .ok s' ∧ s'.Sound ∧
      (r.accepted = false → s'.added = s.added) ∧ (r.accepted = true → s'.added ≠ []) := by
  obtain ⟨events, last, hshape, hadded⟩ := h
  rw [step]
  cases haccepted : r.accepted with
  | false =>
      have hadd : Kernel.addTimerEvent s.nodes r = .ok (s.nodes, none) := by
        rw [Kernel.addTimerEvent, haccepted]
        rfl
      rw [hadd]
      exact ⟨s, rfl, ⟨events, last, hshape, hadded⟩, fun _ => rfl, fun h => by cases h⟩
  | true =>
      rw [hshape.addTimerEvent haccepted]
      have hlast : last < s.nodes.length := hshape.inNodes last (by simp)
      refine ⟨_, rfl, ⟨events ++ [last], s.nodes.length, hshape.appended haccepted, ?_⟩,
        fun h => Bool.noConfusion h, fun _ => List.cons_ne_nil _ _⟩
      intro e he
      rcases List.mem_cons.mp he with rfl | he
      · exact ⟨by simp, r.node (some s.nodes.length), appended_last hlast, rfl, rfl, .inl rfl⟩
      · obtain ⟨hmem, node, hnode, hfields⟩ := hadded e he
        have hne : last ≠ e.address := by
          intro heq
          exact (List.nodup_append.mp hshape.nodup).2.2 _ hmem _ List.mem_cons_self heq.symm
        refine ⟨List.mem_append_left _ hmem, node, ?_, hfields⟩
        exact (appended_old hne (hshape.inNodes _ (List.mem_append_left _ hmem))).trans hnode

theorem step_sound {M : TimerMachine} {s : TimerSession} {c : TimerCall} (h : s.Sound) :
    ∃ s', s.step M c = .ok s' ∧ s'.Sound ∧
      (s.EventsEligible M → (s'.EventsLive M ↔ s.AddsNone c)) := by
  cases c with
  | addTimerEvent r =>
      obtain ⟨s', hstep, hsound, hkept, hgrown⟩ := h.addTimerEvent r
      refine ⟨s', hstep, hsound, fun heligible => ⟨fun hlive' => ?_, fun hnot => ?_⟩⟩
      · by_contra hadds
        exact hgrown (eq_true_of_ne_false hadds) (eventsEligible_iff.mp hlive'.2)
      · have hnone : s.added = [] := eventsEligible_iff.mp heligible
        exact ⟨hsound.kept, eventsEligible_iff.mpr ((hkept hnot).trans hnone)⟩
  | interrupt current =>
      exact ⟨s, step_interrupt M s current, h, fun heligible =>
        iff_of_true ⟨h.kept, heligible⟩ trivial⟩

end TimerSession

/-! ## Runs -/

/-- A machine with its local APIC at the address it has from reset on. -/
def sampleTimerMachine : TimerMachine where
  callbacks _ _ _ _ := (.zero, 0)
  nodeAt _ := none
  localAPICBase := 0xFEE00000
  aligned := rfl

def sampleEvent (tick : BitVec 16) : TimerRequest := ⟨tick, 0, 0, some 1, 0, 0, true⟩

end BlockyOS.Kernel
