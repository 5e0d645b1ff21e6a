import BlockyOS.Foundation.Bytes
import BlockyOS.Foundation.Strides
import BlockyOS.Foundation.Trails

/-!
# Walks over the MADT

The records of the table have different lengths, and the kernel addresses them by an
index into an array of two-byte headers.  A count of the bytes left ends the walk.
-/

namespace BlockyOS.Kernel.MADT

open BlockyOS.Foundation

def xsdpRevision : Nat := 2

/-- `sizeof(XSDT_MADT_t)` and `sizeof(RSDT_MADT_t)`, whose local APIC addresses differ in size. -/
def headSize (revision : Nat) : Nat := if xsdpRevision ≤ revision then 48 else 44

structure Table where
  revision : Nat
  length : Nat
  byte : Nat → UInt8
  head_le : headSize revision ≤ length
  length_lt : length < 2 ^ 32

namespace Table

variable (t : Table)

/-- The bytes of the records, the value of `RemBytes` at the head of the loop. -/
def size : Nat := t.length - headSize t.revision

def bodyAt (o : Nat) : Nat := (t.byte (headSize t.revision + o)).toNat

def typeAt (o : Nat) : Nat := t.bodyAt o

def recordTypeLength (o : Nat) : Nat := t.bodyAt (o + 1)

/-- How far behind a record the next one is; none is behind a record without length. -/
def stride (o : Nat) : Nat :=
  if t.recordTypeLength o = 0 then t.size + 1 else t.recordTypeLength o

def offsetsFrom (o : Nat) : List Nat := strides t.stride (t.size - 1) o

def offsets : List Nat := t.offsetsFrom 0

/-- Every record has room for its header, and together they make up the table. -/
structure WellFormed : Prop where
  header : ∀ o ∈ t.offsets, 2 ≤ t.recordTypeLength o
  whole : (t.offsets.map t.recordTypeLength).sum = t.size

end Table

/-! ## The loop -/

inductive Answer where
  | nothing
  | record (o : Nat)
  | unspecified
  | fault
  deriving DecidableEq, Repr

inductive Act where
  | pass (reads : List Nat)
  | stop (answer : Answer) (reads : List Nat)

structure Walk where
  cc : Nat
  remBytes : Nat
  visited : List Nat
  reads : List Nat

structure Result where
  answer : Answer
  visited : List Nat
  reads : List Nat

variable (t : Table) (act : Nat → Act) (ended : Answer)

/-- One turn of the loop that the walks share; `ended` is what stands behind the loop. -/
def turn (w : Walk) : Walk ⊕ Result :=
  if w.remBytes = 0 then .inr ⟨ended, w.visited, w.reads⟩
  else
    match act (2 * w.cc) with
    | .stop answer rs => .inr ⟨answer, w.visited ++ [2 * w.cc], w.reads ++ 2 * w.cc :: rs⟩
    | .pass rs =>
        .inl ⟨(w.cc + 1) % 2 ^ 32,
          (w.remBytes + 2 ^ 32 - t.recordTypeLength (2 * w.cc)) % 2 ^ 32,
          w.visited ++ [2 * w.cc], w.reads ++ 2 * w.cc :: rs ++ [2 * w.cc + 1]⟩

def walk (fuel : Nat) : Option Result := follow (turn t act ended) fuel ⟨0, t.size, [], []⟩

/--
The walk reads inside the table and visits the records at their places, all of them or up
to the one it answers.
-/
structure Visits (r : Result) : Prop where
  inside : ∀ b ∈ r.reads, b < t.size
  all : r.answer = .nothing ∨ r.answer = .unspecified → r.visited = t.offsets
  upTo : ∀ o, r.answer = .record o → r.visited.getLast? = some o ∧ r.visited <+: t.offsets
  sound : r.answer ≠ .fault

/-! ## Where the walk is right -/

def Passes (o : Nat) : Prop := ∃ rs, act o = .pass rs ∧ ∀ b ∈ rs, b < t.size

/-- No record follows the one at `o`. -/
def Last (o : Nat) : Prop := t.recordTypeLength o = 0 ∨ t.size ≤ o + t.recordTypeLength o + 1

/-- The walk ends at record `k` with an answer, as records of two bytes alone let it. -/
inductive EndsAt (k : Nat) (answer : Answer) : Prop where
  | empty (whole : 2 * k = t.size) (eq : answer = ended)
  | stop (rs : List Nat) (header : 2 * k + 2 ≤ t.size) (act_eq : act (2 * k) = .stop answer rs)
      (inside : ∀ b ∈ rs, b < t.size)
      (right : answer = .record (2 * k) ∨ (answer = .nothing ∧ Last t (2 * k)))
  | pass (header : 2 * k + 2 ≤ t.size) (passes : Passes t act (2 * k))
      (whole : 2 * k + t.recordTypeLength (2 * k) = t.size) (eq : answer = ended)

/-- The records before the one at `2 * k` are passed over and have two bytes each. -/
def Even (k : Nat) : Prop := ∀ j < k, Passes t act (2 * j) ∧ t.recordTypeLength (2 * j) = 2

structure Proper : Prop where
  ended : ended = .nothing ∨ ended = .unspecified
  stop : ∀ o answer rs, act o = .stop answer rs →
    answer = .record o ∨ answer = .nothing ∨ answer = .fault

variable {t act ended}

def evens (k : Nat) : List Nat := (List.range k).map (2 * ·)

theorem evens_succ (k : Nat) : evens (k + 1) = evens k ++ [2 * k] := by
  rw [evens, evens, List.range_succ, List.map_append, List.map_singleton]

theorem stride_pos (o : Nat) : 0 < t.stride o := by
  rw [Table.stride]
  split <;> omega

theorem offsetsFrom_of_le {o : Nat} (h : t.size ≤ o + 1) : t.offsetsFrom o = [] :=
  strides_of_le (by omega)

theorem offsetsFrom_of_lt {o : Nat} (h : o + 2 ≤ t.size) :
    t.offsetsFrom o = o :: t.offsetsFrom (o + t.stride o) :=
  strides_of_lt stride_pos (by omega)

theorem last_iff {o : Nat} : Last t o ↔ t.offsetsFrom (o + t.stride o) = [] := by
  have hlt : t.recordTypeLength o < 2 ^ 8 := UInt8.toNat_lt _
  rw [Last, Table.stride]
  constructor
  · intro h
    refine offsetsFrom_of_le ?_
    split <;> omega
  · intro h
    by_contra hnot
    push Not at hnot
    rw [if_neg hnot.1, offsetsFrom_of_lt (by omega)] at h
    cases h

theorem offsets_of_two {k : Nat} (h : ∀ j < k, t.recordTypeLength (2 * j) = 2)
    (hk : 2 * k ≤ t.size) : t.offsets = evens k ++ t.offsetsFrom (2 * k) := by
  induction k with
  | zero => rfl
  | succ k ih =>
      rw [ih (fun j hj => h j (Nat.lt_succ_of_lt hj)) (by omega), offsetsFrom_of_lt (by omega),
        Table.stride, h k (Nat.lt_succ_self k), evens_succ, List.append_assoc]
      rfl

theorem follow_grows {fuel : Nat} {w : Walk} {r : Result}
    (h : follow (turn t act ended) fuel w = some r) :
    w.visited <+: r.visited ∧ w.reads <+: r.reads := by
  refine @answer_of_invariant _ _ (turn t act ended)
    (fun a => w.visited <+: a.visited ∧ w.reads <+: a.reads)
    (fun r => w.visited <+: r.visited ∧ w.reads <+: r.reads) ?_ w
    ⟨List.prefix_refl _, List.prefix_refl _⟩ fuel r h
  rintro a ⟨hvisited, hreads⟩
  rw [turn]
  split
  · exact Or.inr ⟨_, rfl, hvisited, hreads⟩
  · cases act (2 * a.cc) with
    | stop answer rs =>
        exact Or.inr ⟨_, rfl, hvisited.trans (List.prefix_append _ _),
          hreads.trans (List.prefix_append _ _)⟩
    | pass rs =>
        refine Or.inl ⟨_, rfl, hvisited.trans (List.prefix_append _ _), ?_⟩
        dsimp only
        rw [List.append_assoc]
        exact hreads.trans (List.prefix_append _ _)

theorem visited_of_follow {fuel : Nat} {w : Walk} {r : Result} (hrem : w.remBytes ≠ 0)
    (h : follow (turn t act ended) fuel w = some r) : w.visited ++ [2 * w.cc] <+: r.visited := by
  cases fuel with
  | zero => cases h
  | succ fuel =>
      cases hact : act (2 * w.cc) with
      | stop answer rs =>
          have hturn : turn t act ended w =
              .inr ⟨answer, w.visited ++ [2 * w.cc], w.reads ++ 2 * w.cc :: rs⟩ := by
            rw [turn, if_neg hrem, hact]
          rw [follow_of_answer hturn] at h
          obtain rfl := Option.some.inj h
          exact List.prefix_refl _
      | pass rs =>
          have hturn : turn t act ended w = .inl ⟨(w.cc + 1) % 2 ^ 32,
              (w.remBytes + 2 ^ 32 - t.recordTypeLength (2 * w.cc)) % 2 ^ 32,
              w.visited ++ [2 * w.cc], w.reads ++ 2 * w.cc :: rs ++ [2 * w.cc + 1]⟩ := by
            rw [turn, if_neg hrem, hact]
          rw [follow_of_moves hturn] at h
          exact (follow_grows h).1

theorem answer_of_follow {fuel : Nat} {w : Walk} {r : Result}
    (h : follow (turn t act ended) fuel w = some r) :
    r.answer = ended ∨ ∃ o rs, act o = .stop r.answer rs := by
  refine @answer_of_invariant _ _ (turn t act ended) (fun _ => True)
    (fun r => r.answer = ended ∨ ∃ o rs, act o = .stop r.answer rs) ?_ w trivial fuel r h
  intro a _
  rw [turn]
  split
  · exact Or.inr ⟨_, rfl, Or.inl rfl⟩
  · cases hact : act (2 * a.cc) with
    | stop answer rs => exact Or.inr ⟨_, rfl, Or.inr ⟨_, rs, hact⟩⟩
    | pass rs => exact Or.inl ⟨_, rfl, trivial⟩

theorem visited_start (hproper : Proper act ended) {fuel : Nat} {w : Walk} {r : Result}
    (hfollow : follow (turn t act ended) fuel w = some r) (h : Visits t r) :
    r.visited <+: t.offsets := by
  have hall : r.answer = .nothing ∨ r.answer = .unspecified → r.visited <+: t.offsets :=
    fun hnone => by rw [h.all hnone]
  rcases answer_of_follow hfollow with heq | ⟨o, rs, hact⟩
  · exact hall (by rw [heq]; exact hproper.ended)
  · rcases hproper.stop o _ rs hact with hrecord | hnothing | hfault
    · exact (h.upTo o hrecord).2
    · exact hall (Or.inl hnothing)
    · exact absurd hfault h.sound

/-- The state of an even walk at the head of turn `k`. -/
structure At (t : Table) (k : Nat) (w : Walk) : Prop where
  cc : w.cc = k
  remBytes : w.remBytes = t.size - 2 * k
  visited : w.visited = evens k
  inside : ∀ b ∈ w.reads, b < t.size
  offsets : t.offsets = evens k ++ t.offsetsFrom (2 * k)
  le : 2 * k ≤ t.size

theorem size_lt : t.size < 2 ^ 32 := by
  have := t.length_lt
  rw [Table.size]
  omega

section Turns

variable {k : Nat} {w : Walk}

theorem offsets_behind (hw : At t k w) (hheader : 2 * k + 2 ≤ t.size) :
    t.offsets = evens (k + 1) ++ t.offsetsFrom (2 * k + t.stride (2 * k)) := by
  rw [hw.offsets, offsetsFrom_of_lt hheader, evens_succ, List.append_assoc]
  rfl

theorem visits_ended (hproper : Proper act ended) {visited reads : List Nat}
    (hinside : ∀ b ∈ reads, b < t.size) (hall : visited = t.offsets) :
    Visits t ⟨ended, visited, reads⟩ := by
  refine ⟨hinside, fun _ => hall, fun o ho => ?_, ?_⟩
  · rcases hproper.ended with heq | heq <;> rw [heq] at ho <;> cases ho
  · rcases hproper.ended with heq | heq <;> rw [heq] <;> exact Answer.noConfusion

theorem visits_at_end (hproper : Proper act ended) (hw : At t k w) (hend : 2 * k = t.size)
    {answer : Answer} :
    (∃ fuel r, follow (turn t act ended) fuel w = some r ∧ Visits t r ∧ r.answer = answer) ↔
      answer = ended := by
  have hturn : turn t act ended w = .inr ⟨ended, w.visited, w.reads⟩ := by
    rw [turn, if_pos (by rw [hw.remBytes]; omega)]
  have hvisited : w.visited = t.offsets := by
    rw [hw.offsets, offsetsFrom_of_le (by omega), List.append_nil, hw.visited]
  constructor
  · rintro ⟨fuel, r, hfollow, -, rfl⟩
    rw [follow_unique hfollow (follow_of_answer hturn 0)]
  · rintro rfl
    exact ⟨1, _, follow_of_answer hturn 0, visits_ended hproper hw.inside hvisited, rfl⟩

theorem visits_at_stop (hw : At t k w) (hheader : 2 * k + 2 ≤ t.size) {stopped answer : Answer}
    {rs : List Nat} (hact : act (2 * k) = .stop stopped rs)
    (hstopped : stopped = .record (2 * k) ∨ stopped = .nothing ∨ stopped = .fault) :
    (∃ fuel r, follow (turn t act ended) fuel w = some r ∧ Visits t r ∧ r.answer = answer) ↔
      answer = stopped ∧ (∀ b ∈ rs, b < t.size) ∧
        (stopped = .record (2 * k) ∨ (stopped = .nothing ∧ Last t (2 * k))) := by
  have hturn : turn t act ended w =
      .inr ⟨stopped, evens (k + 1), w.reads ++ 2 * k :: rs⟩ := by
    rw [turn, if_neg (by rw [hw.remBytes]; omega), hw.cc, hact, hw.visited, evens_succ]
  have hoffsets := offsets_behind hw hheader
  constructor
  · rintro ⟨fuel, r, hfollow, hvisits, rfl⟩
    obtain rfl := follow_unique hfollow (follow_of_answer hturn 0)
    refine ⟨rfl, fun b hb => ?_, ?_⟩
    · exact hvisits.inside b (List.mem_append_right _ (List.mem_cons_of_mem _ hb))
    · rcases hstopped with hrecord | hnothing | hfault
      · exact Or.inl hrecord
      · have hall := hvisits.all (Or.inl hnothing)
        rw [hoffsets] at hall
        exact Or.inr ⟨hnothing, last_iff.mpr (List.self_eq_append_right.mp hall)⟩
      · exact absurd hfault hvisits.sound
  · rintro ⟨rfl, hinside, hright⟩
    refine ⟨1, _, follow_of_answer hturn 0, ⟨?_, ?_, ?_, ?_⟩, rfl⟩
    · intro b hb
      rcases List.mem_append.mp hb with hold | hnew
      · exact hw.inside b hold
      · rcases List.mem_cons.mp hnew with rfl | hread
        · omega
        · exact hinside b hread
    · intro hnone
      rcases hright with hrecord | ⟨-, hlast⟩
      · rw [hrecord] at hnone
        rcases hnone with hnone | hnone <;> cases hnone
      · rw [hoffsets, last_iff.mp hlast, List.append_nil]
    · intro o ho
      rcases hright with hrecord | ⟨hnothing, -⟩
      · obtain rfl := Answer.record.inj (hrecord.symm.trans ho)
        refine ⟨?_, ?_⟩
        · dsimp only
          rw [evens_succ, List.getLast?_concat]
        · rw [hoffsets]
          exact List.prefix_append _ _
      · exact absurd (hnothing.symm.trans ho) Answer.noConfusion
    · rcases hright with hrecord | ⟨hnothing, -⟩
      · rw [hrecord]
        exact Answer.noConfusion
      · rw [hnothing]
        exact Answer.noConfusion

theorem head_of_visits (hproper : Proper act ended) {places rest : List Nat}
    (hoffsets : t.offsets = places ++ rest) (hrem : w.remBytes ≠ 0) (hplaces : w.visited = places)
    {fuel : Nat} {r : Result} (hfollow : follow (turn t act ended) fuel w = some r)
    (hvisits : Visits t r) : rest.head? = some (2 * w.cc) := by
  have hstart := (visited_of_follow hrem hfollow).trans (visited_start hproper hfollow hvisits)
  rw [hoffsets, hplaces, List.prefix_append_right_inj] at hstart
  obtain ⟨behind, hbehind⟩ := hstart
  rw [← hbehind]
  rfl

/-- The state behind record `k` when that is passed over. -/
def behind (t : Table) (k : Nat) (w : Walk) (rs : List Nat) : Walk :=
  ⟨k + 1, (t.size - 2 * k + 2 ^ 32 - t.recordTypeLength (2 * k)) % 2 ^ 32, evens (k + 1),
    w.reads ++ 2 * k :: rs ++ [2 * k + 1]⟩

theorem turn_pass (hw : At t k w) (hheader : 2 * k + 2 ≤ t.size) {rs : List Nat}
    (hact : act (2 * k) = .pass rs) : turn t act ended w = .inl (behind t k w rs) := by
  have hlt := size_lt (t := t)
  have hcc : (k + 1) % 2 ^ 32 = k + 1 := Nat.mod_eq_of_lt (by omega)
  rw [turn, if_neg (by rw [hw.remBytes]; omega), hw.cc, hact, hw.visited, hw.remBytes, hcc,
    behind, evens_succ]

theorem reads_behind (hw : At t k w) (hheader : 2 * k + 2 ≤ t.size) {rs : List Nat} :
    (∀ b ∈ (behind t k w rs).reads, b < t.size) ↔ ∀ b ∈ rs, b < t.size := by
  rw [behind]
  constructor
  · intro hall b hb
    exact hall b (List.mem_append_left _ (List.mem_append_right _ (List.mem_cons_of_mem _ hb)))
  · intro hrs b hb
    rcases List.mem_append.mp hb with hb | hb
    · rcases List.mem_append.mp hb with hold | hnew
      · exact hw.inside b hold
      · rcases List.mem_cons.mp hnew with rfl | hread
        · omega
        · exact hrs b hread
    · obtain rfl := List.mem_singleton.mp hb
      omega

theorem remBytes_behind {rs : List Nat} (hheader : 2 * k + 2 ≤ t.size) :
    (behind t k w rs).remBytes = 0 ↔ 2 * k + t.recordTypeLength (2 * k) = t.size := by
  have hlt := size_lt (t := t)
  have hlength : t.recordTypeLength (2 * k) < 2 ^ 8 := UInt8.toNat_lt _
  rw [behind]
  dsimp only
  omega

theorem visits_behind_last (hproper : Proper act ended) (hw : At t k w)
    (hheader : 2 * k + 2 ≤ t.size) {rs : List Nat} {answer : Answer}
    (hwhole : 2 * k + t.recordTypeLength (2 * k) = t.size) :
    (∃ fuel r, follow (turn t act ended) fuel (behind t k w rs) = some r ∧ Visits t r ∧
      r.answer = answer) ↔ (∀ b ∈ rs, b < t.size) ∧ answer = ended := by
  have hend : turn t act ended (behind t k w rs) =
      .inr ⟨ended, evens (k + 1), (behind t k w rs).reads⟩ := by
    rw [turn, if_pos ((remBytes_behind hheader).mpr hwhole)]
    rfl
  have hall : t.offsets = evens (k + 1) := by
    rw [offsets_behind hw hheader, last_iff.mp (Or.inr (by omega)), List.append_nil]
  constructor
  · rintro ⟨fuel, r, hfollow, hvisits, rfl⟩
    obtain rfl := follow_unique hfollow (follow_of_answer hend 0)
    exact ⟨(reads_behind hw hheader).mp hvisits.inside, rfl⟩
  · rintro ⟨hrs, rfl⟩
    exact ⟨1, _, follow_of_answer hend 0,
      visits_ended hproper ((reads_behind hw hheader).mpr hrs) hall.symm, rfl⟩

theorem two_of_visits_behind (hproper : Proper act ended) (hw : At t k w)
    (hheader : 2 * k + 2 ≤ t.size) {rs : List Nat}
    (hwhole : 2 * k + t.recordTypeLength (2 * k) ≠ t.size) {fuel : Nat} {r : Result}
    (hfollow : follow (turn t act ended) fuel (behind t k w rs) = some r)
    (hvisits : Visits t r) :
    t.recordTypeLength (2 * k) = 2 ∧ 2 * (k + 1) + 2 ≤ t.size ∧ ∀ b ∈ rs, b < t.size := by
  have hhead := head_of_visits hproper (offsets_behind hw hheader)
    (fun hzero => hwhole ((remBytes_behind hheader).mp hzero)) rfl hfollow hvisits
  have hnonempty : 2 * k + t.stride (2 * k) + 2 ≤ t.size := by
    by_contra hle
    rw [offsetsFrom_of_le (by omega)] at hhead
    cases hhead
  rw [offsetsFrom_of_lt hnonempty] at hhead
  have hstride : 2 * k + t.stride (2 * k) = 2 * (k + 1) := Option.some.inj hhead
  refine ⟨?_, by omega, (reads_behind hw hheader).mp fun b hb =>
    hvisits.inside b ((follow_grows hfollow).2.subset hb)⟩
  rw [Table.stride] at hstride
  split at hstride <;> omega

theorem at_behind (hw : At t k w) (hheader : 2 * (k + 1) ≤ t.size) {rs : List Nat}
    (htwo : t.recordTypeLength (2 * k) = 2) (hrs : ∀ b ∈ rs, b < t.size) :
    At t (k + 1) (behind t k w rs) where
  cc := rfl
  remBytes := by
    have hlt := size_lt (t := t)
    rw [behind, htwo]
    dsimp only
    omega
  visited := rfl
  inside := (reads_behind hw (by omega)).mpr hrs
  offsets := by
    have hstride : t.stride (2 * k) = 2 := by
      rw [Table.stride, htwo]
      rfl
    rw [offsets_behind hw (by omega), hstride]
    rfl
  le := hheader

end Turns

/-- The walk from record `k` on ends behind records of two bytes that are passed over. -/
def EndsFrom (t : Table) (act : Nat → Act) (ended : Answer) (k : Nat) (answer : Answer) : Prop :=
  ∃ n, k ≤ n ∧ (∀ j, k ≤ j → j < n → Passes t act (2 * j) ∧ t.recordTypeLength (2 * j) = 2) ∧
    EndsAt t act ended n answer

section Ends

variable {k : Nat} {answer : Answer}

theorem EndsAt.le (h : EndsAt t act ended k answer) : 2 * k ≤ t.size := by
  cases h with
  | empty whole eq => omega
  | stop rs header act_eq inside right => omega
  | pass header passes whole eq => omega

theorem EndsFrom.le (h : EndsFrom t act ended k answer) : 2 * k ≤ t.size := by
  obtain ⟨n, hle, -, hends⟩ := h
  have := hends.le
  omega

theorem endsFrom_iff :
    EndsFrom t act ended k answer ↔ EndsAt t act ended k answer ∨
      (Passes t act (2 * k) ∧ t.recordTypeLength (2 * k) = 2 ∧
        EndsFrom t act ended (k + 1) answer) := by
  constructor
  · rintro ⟨n, hle, heven, hends⟩
    rcases Nat.eq_or_lt_of_le hle with rfl | hlt
    · exact Or.inl hends
    · obtain ⟨hpasses, htwo⟩ := heven k (Nat.le_refl k) hlt
      exact Or.inr ⟨hpasses, htwo, n, hlt, fun j hj => heven j (Nat.le_of_succ_le hj), hends⟩
  · rintro (hends | ⟨hpasses, htwo, n, hle, heven, hends⟩)
    · exact ⟨k, Nat.le_refl k, fun j hj hlt => by omega, hends⟩
    · refine ⟨n, Nat.le_of_succ_le hle, fun j hj hlt => ?_, hends⟩
      rcases Nat.eq_or_lt_of_le hj with rfl | hnext
      · exact ⟨hpasses, htwo⟩
      · exact heven j hnext hlt

theorem Passes.act_ne_stop (h : Passes t act (2 * k)) {a : Answer} {rs : List Nat} :
    act (2 * k) ≠ .stop a rs := by
  obtain ⟨rs', hact, -⟩ := h
  rw [hact]
  exact Act.noConfusion

/-! ### Where a walk ends, by what it finds -/

theorem passes_iff {rs : List Nat} (hact : act (2 * k) = .pass rs) :
    Passes t act (2 * k) ↔ ∀ b ∈ rs, b < t.size := by
  constructor
  · rintro ⟨rs', hact', hrs⟩
    obtain rfl := Act.pass.inj (hact.symm.trans hact')
    exact hrs
  · exact fun hrs => ⟨rs, hact, hrs⟩

theorem endsFrom_of_end (hend : 2 * k = t.size) :
    EndsFrom t act ended k answer ↔ answer = ended := by
  rw [endsFrom_iff]
  constructor
  · rintro (hends | ⟨-, -, hends⟩)
    · cases hends with
      | empty whole eq => exact eq
      | stop rs header act_eq inside right => omega
      | pass header passes whole eq => omega
    · have := hends.le
      omega
  · exact fun heq => Or.inl (.empty hend heq)

theorem not_endsFrom_of_odd (hodd : t.size = 2 * k + 1) : ¬ EndsFrom t act ended k answer := by
  rintro ⟨n, hle, -, hends⟩
  have hn := hends.le
  cases hends with
  | empty whole eq => omega
  | stop rs header act_eq inside right => omega
  | pass header passes whole eq => omega

theorem endsFrom_stop (hheader : 2 * k + 2 ≤ t.size) {stopped : Answer} {rs : List Nat}
    (hact : act (2 * k) = .stop stopped rs) :
    EndsFrom t act ended k answer ↔ answer = stopped ∧ (∀ b ∈ rs, b < t.size) ∧
      (stopped = .record (2 * k) ∨ (stopped = .nothing ∧ Last t (2 * k))) := by
  rw [endsFrom_iff]
  constructor
  · rintro (hends | ⟨hpasses, -⟩)
    · cases hends with
      | empty whole eq => omega
      | stop rs' header act_eq inside right =>
          obtain ⟨rfl, rfl⟩ := Act.stop.inj (hact.symm.trans act_eq)
          exact ⟨rfl, inside, right⟩
      | pass header passes whole eq => exact absurd hact passes.act_ne_stop
    · exact absurd hact hpasses.act_ne_stop
  · rintro ⟨rfl, hinside, hright⟩
    exact Or.inl (.stop rs hheader hact hinside hright)

theorem endsFrom_pass_last (hheader : 2 * k + 2 ≤ t.size) {rs : List Nat}
    (hact : act (2 * k) = .pass rs) (hwhole : 2 * k + t.recordTypeLength (2 * k) = t.size) :
    EndsFrom t act ended k answer ↔ Passes t act (2 * k) ∧ answer = ended := by
  rw [endsFrom_iff]
  constructor
  · rintro (hends | ⟨hpass, htwo, hends⟩)
    · cases hends with
      | empty whole eq => omega
      | stop rs' header act_eq inside right =>
          exact absurd (hact.symm.trans act_eq) Act.noConfusion
      | pass header passes whole eq => exact ⟨passes, eq⟩
    · exact ⟨hpass, (endsFrom_of_end (by omega)).mp hends⟩
  · rintro ⟨hpass, heq⟩
    exact Or.inl (.pass hheader hpass hwhole heq)

theorem endsFrom_pass (hheader : 2 * k + 2 ≤ t.size) {rs : List Nat}
    (hact : act (2 * k) = .pass rs) (hwhole : 2 * k + t.recordTypeLength (2 * k) ≠ t.size) :
    EndsFrom t act ended k answer ↔ Passes t act (2 * k) ∧ t.recordTypeLength (2 * k) = 2 ∧
      EndsFrom t act ended (k + 1) answer := by
  rw [endsFrom_iff, or_iff_right]
  intro hends
  cases hends with
  | empty whole eq => omega
  | stop rs' header act_eq inside right =>
      exact absurd (hact.symm.trans act_eq) Act.noConfusion
  | pass header passes whole eq => exact hwhole whole

end Ends

theorem visits_iff_from (hproper : Proper act ended) {k : Nat} {w : Walk} (hw : At t k w)
    {answer : Answer} :
    (∃ fuel r, follow (turn t act ended) fuel w = some r ∧ Visits t r ∧ r.answer = answer) ↔
      EndsFrom t act ended k answer := by
  induction hn : t.size - 2 * k using Nat.strong_induction_on generalizing k w with
  | h n ih =>
      rcases Nat.lt_or_ge t.size (2 * k + 2) with hshort | hheader
      · rcases Nat.eq_or_lt_of_le hw.le with hend | hodd
        · rw [visits_at_end hproper hw hend, endsFrom_of_end hend]
        · refine iff_of_false ?_ (not_endsFrom_of_odd (by omega))
          rintro ⟨fuel, r, hfollow, hvisits, -⟩
          have hhead := head_of_visits hproper hw.offsets (by rw [hw.remBytes]; omega)
            hw.visited hfollow hvisits
          rw [offsetsFrom_of_le (by omega)] at hhead
          cases hhead
      · cases hact : act (2 * k) with
        | stop stopped rs =>
            rw [visits_at_stop hw hheader hact (hproper.stop _ _ _ hact),
              endsFrom_stop hheader hact]
        | pass rs =>
            rw [exists_follow_of_moves (turn_pass hw hheader hact)]
            by_cases hwhole : 2 * k + t.recordTypeLength (2 * k) = t.size
            · rw [visits_behind_last hproper hw hheader hwhole,
                endsFrom_pass_last hheader hact hwhole, passes_iff hact]
            · rw [endsFrom_pass hheader hact hwhole, passes_iff hact]
              constructor
              · rintro ⟨fuel, r, hfollow, hvisits, hanswer⟩
                obtain ⟨htwo, hnext, hrs⟩ :=
                  two_of_visits_behind hproper hw hheader hwhole hfollow hvisits
                have hrest := ih (t.size - 2 * (k + 1)) (by omega)
                  (at_behind hw (by omega) htwo hrs) rfl
                exact ⟨hrs, htwo, hrest.mp ⟨fuel, r, hfollow, hvisits, hanswer⟩⟩
              · rintro ⟨hrs, htwo, hends⟩
                exact (ih (t.size - 2 * (k + 1)) (by omega)
                  (at_behind hw hends.le htwo hrs) rfl).mpr hends

theorem visits_iff (hproper : Proper act ended) {answer : Answer} :
    (∃ fuel r, walk t act ended fuel = some r ∧ Visits t r ∧ r.answer = answer) ↔
      ∃ k, Even t act k ∧ EndsAt t act ended k answer := by
  have hstart : At t 0 ⟨0, t.size, [], []⟩ :=
    ⟨rfl, rfl, rfl, fun b hb => absurd hb List.not_mem_nil, rfl, Nat.zero_le _⟩
  have hiff : (∃ fuel r, walk t act ended fuel = some r ∧ Visits t r ∧ r.answer = answer) ↔
      EndsFrom t act ended 0 answer := visits_iff_from hproper hstart
  constructor
  · intro h
    obtain ⟨k, -, heven, hends⟩ := hiff.mp h
    exact ⟨k, fun j hj => heven j (Nat.zero_le j) hj, hends⟩
  · rintro ⟨k, heven, hends⟩
    exact hiff.mpr ⟨k, Nat.zero_le k, fun j _ hj => heven j hj, hends⟩

end BlockyOS.Kernel.MADT
