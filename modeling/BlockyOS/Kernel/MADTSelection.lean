import BlockyOS.Kernel.MADTWalks

/-!
# The APICs of the MADT

`ReadIoApicRegister` and `WriteIoApicRegister` walk over the table for an I/O APIC, and
`GetLocalAPICBase` for the local APIC of the processor it runs on, each in one way for
either revision.
-/

namespace BlockyOS.Kernel.MADT

open BlockyOS.Foundation

/-! ## The records -/

def processorLocalAPIC : Nat := 0x0

def ioApic : Nat := 0x1

namespace Table

variable (t : Table)

def apicID (o : Nat) : Nat := t.bodyAt (o + 3)

/-- `Flags` of a local APIC. -/
def flags (o : Nat) : Nat :=
  t.bodyAt (o + 4) + 2 ^ 8 * t.bodyAt (o + 5) + 2 ^ 16 * t.bodyAt (o + 6) +
    2 ^ 24 * t.bodyAt (o + 7)

def IsOf (cpu o : Nat) : Prop := t.typeAt o = processorLocalAPIC ∧ t.apicID o = cpu

instance (cpu o : Nat) : Decidable (t.IsOf cpu o) := inferInstanceAs (Decidable (_ ∧ _))

def Enabled (o : Nat) : Prop := t.flags o % 2 = 1

instance (o : Nat) : Decidable (t.Enabled o) := inferInstanceAs (Decidable (_ = _))

end Table

/-! ## The walks -/

variable (t : Table)

/-- The body of the loop in `ReadIoApicRegister` and `WriteIoApicRegister` for `XSDT`. -/
def ioApicXSDT (n o : Nat) : Act :=
  if t.typeAt o = ioApic then
    if n ≠ 0 then .stop .nothing [] else .stop (.record o) (List.range' (o + 4) 8)
  else .pass []

/--
The same for `RSDT`, where the record of a local APIC is taken for that of an I/O APIC and
the first turn is the last one.  The read returns from it, the write leaves by the `break`.
-/
def ioApicRSDT (returns : Bool) (n o : Nat) : Act :=
  if t.typeAt o = processorLocalAPIC then
    if n ≠ 0 then .stop .nothing []
    else .stop (.record o) (List.range' (o + 4) 4 ++ if returns then [] else [o + 1])
  else .stop .nothing [o + 1]

def readIoApicRegister (fuel n : Nat) : Option Result :=
  walk t (if xsdpRevision ≤ t.revision then ioApicXSDT t n else ioApicRSDT t true n) .nothing fuel

def writeIoApicRegister (fuel n : Nat) : Option Result :=
  walk t (if xsdpRevision ≤ t.revision then ioApicXSDT t n else ioApicRSDT t false n) .nothing fuel

/-- The places of `ApicID` and `Flags`. -/
def localReads (o : Nat) : List Nat := (o + 3) :: List.range' (o + 4) 4

/-- `XSDT_ProcessorEnabled` and `RSDT_ProcessorEnabled`. -/
def processorEnabled (revision : Nat) : Nat := if xsdpRevision ≤ revision then 0x1 else 0x0

def localXSDT (cpu o : Nat) : Act :=
  if t.typeAt o = processorLocalAPIC then
    if t.apicID o = cpu then
      if t.flags o &&& processorEnabled xsdpRevision = processorEnabled xsdpRevision then
        .stop (.record o) (localReads o)
      else .pass (localReads o)
    else .pass [o + 3]
  else .pass []

/-- `hasRDST` says whether the pointer to `_RDST` is one, which is written to in any case. -/
def localRSDT (hasRDST : Bool) (cpu o : Nat) : Act :=
  if t.typeAt o = processorLocalAPIC then
    if !hasRDST then .stop .fault []
    else if t.apicID o = cpu then
      if t.flags o &&& processorEnabled 0 = processorEnabled 0 then
        .stop (.record o) (localReads o)
      else .pass (localReads o)
    else .pass [o + 3]
  else .pass []

/-- `GetLocalAPICBase`, which has no `return` behind its loops. -/
def getLocalAPICBase (fuel : Nat) (hasRDST : Bool) (cpu : Nat) : Option Result :=
  walk t (if xsdpRevision ≤ t.revision then localXSDT t cpu else localRSDT t hasRDST cpu)
    .unspecified fuel

/-! ## What the walks are for -/

def wantedIoApic (n : Nat) : Option Nat := (t.offsets.filter fun o => t.typeAt o = ioApic)[n]?

def wantedLocal (cpu : Nat) : Option Nat :=
  (t.offsets.filter fun o => t.IsOf cpu o ∧ t.Enabled o)[0]?

/-- The record wanted is the answer, or that there is none. -/
structure Selects (wanted : Option Nat) (answer : Answer) : Prop where
  found : ∀ o, wanted = some o → answer = .record o
  missing : wanted = none → answer = .nothing

structure WalksRight (n cpu : Nat) (read write own : Result) : Prop where
  readVisits : Visits t read
  writeVisits : Visits t write
  ownVisits : Visits t own
  readSelects : t.WellFormed → Selects (wantedIoApic t n) read.answer
  writeSelects : t.WellFormed → Selects (wantedIoApic t n) write.answer
  ownSelects : t.WellFormed → Selects (wantedLocal t cpu) own.answer
  same : read.answer = write.answer

/-! ## Where each walk is right -/

/-- Records of two bytes, none of an I/O APIC, up to one, to a last record, or to the end. -/
def IoApicXSDTRight (n : Nat) : Prop :=
  ∃ k, (∀ j < k, t.typeAt (2 * j) ≠ ioApic ∧ t.recordTypeLength (2 * j) = 2) ∧
    (2 * k = t.size ∨
      (2 * k + 2 ≤ t.size ∧ t.typeAt (2 * k) = ioApic ∧
        ((n = 0 ∧ 2 * k + 12 ≤ t.size) ∨ (n ≠ 0 ∧ Last t (2 * k)))) ∨
      (2 * k + 2 ≤ t.size ∧ t.typeAt (2 * k) ≠ ioApic ∧
        2 * k + t.recordTypeLength (2 * k) = t.size))

/-- No record, a single one that is not wanted, or one of a local APIC in a malformed table. -/
def IoApicRSDTRight (n : Nat) : Prop :=
  t.size = 0 ∨ (2 ≤ t.size ∧
    ((t.typeAt 0 = processorLocalAPIC ∧ n = 0 ∧ 8 ≤ t.size ∧ ¬ t.WellFormed) ∨
      (Last t 0 ∧ ¬ (t.typeAt 0 = processorLocalAPIC ∧ n = 0) ∧
        ¬ (t.typeAt 0 = ioApic ∧ n = 0 ∧ t.WellFormed))))

/-- Records of two bytes up to that of the enabled local APIC of the processor. -/
def LocalXSDTRight (cpu : Nat) : Prop :=
  ∃ k, (∀ j < k, ¬ (t.IsOf cpu (2 * j) ∧ t.Enabled (2 * j)) ∧ t.recordTypeLength (2 * j) = 2) ∧
    t.IsOf cpu (2 * k) ∧ t.Enabled (2 * k) ∧ 2 * k + 8 ≤ t.size

/-- The same with a pointer to write to, where the processor is enabled if that matters. -/
def LocalRSDTRight (hasRDST : Bool) (cpu : Nat) : Prop :=
  hasRDST = true ∧
    ∃ k, (∀ j < k, ¬ t.IsOf cpu (2 * j) ∧ t.recordTypeLength (2 * j) = 2) ∧
      t.IsOf cpu (2 * k) ∧ (t.WellFormed → t.Enabled (2 * k)) ∧ 2 * k + 8 ≤ t.size

variable {t}

/-! ## What is found at even places -/

theorem sum_evens {k : Nat} (h : ∀ j < k, t.recordTypeLength (2 * j) = 2) :
    ((evens k).map t.recordTypeLength).sum = 2 * k := by
  induction k with
  | zero => rfl
  | succ k ih =>
      rw [evens_succ, List.map_append, List.sum_append, ih fun j hj => h j (Nat.lt_succ_of_lt hj),
        List.map_singleton, List.sum_singleton, h k (Nat.lt_succ_self k)]
      omega

theorem mem_evens {k o : Nat} : o ∈ evens k ↔ ∃ j < k, o = 2 * j := by
  rw [evens, List.mem_map]
  constructor
  · rintro ⟨j, hj, rfl⟩
    exact ⟨j, List.mem_range.mp hj, rfl⟩
  · rintro ⟨j, hj, rfl⟩
    exact ⟨j, List.mem_range.mpr hj, rfl⟩

theorem filter_offsets {k : Nat} {p : Nat → Prop} [DecidablePred p]
    (h : ∀ j < k, ¬ p (2 * j) ∧ t.recordTypeLength (2 * j) = 2) (hk : 2 * k ≤ t.size) :
    (t.offsets.filter fun o => p o) = (t.offsetsFrom (2 * k)).filter fun o => p o := by
  rw [offsets_of_two (fun j hj => (h j hj).2) hk, List.filter_append,
    List.filter_eq_nil_iff.mpr, List.nil_append]
  intro o ho
  obtain ⟨j, hj, rfl⟩ := mem_evens.mp ho
  exact fun htrue => (h j hj).1 (of_decide_eq_true htrue)

theorem wellFormed_of_even {k : Nat} (h : ∀ j < k, t.recordTypeLength (2 * j) = 2)
    (hend : 2 * k = t.size ∨
      (2 * k + 2 ≤ t.size ∧ 2 * k + t.recordTypeLength (2 * k) = t.size)) : t.WellFormed := by
  have hoffsets := offsets_of_two h (by omega)
  rcases hend with hend | ⟨hheader, hend⟩
  · rw [offsetsFrom_of_le (by omega), List.append_nil] at hoffsets
    refine ⟨fun o ho => ?_, by rw [hoffsets, sum_evens h, hend]⟩
    rw [hoffsets] at ho
    obtain ⟨j, hj, rfl⟩ := mem_evens.mp ho
    exact Nat.le_of_eq (h j hj).symm
  · rw [offsetsFrom_of_lt hheader, last_iff.mp (Or.inr (by omega))] at hoffsets
    refine ⟨fun o ho => ?_, ?_⟩
    · rw [hoffsets] at ho
      rcases List.mem_append.mp ho with ho | ho
      · obtain ⟨j, hj, rfl⟩ := mem_evens.mp ho
        exact Nat.le_of_eq (h j hj).symm
      · obtain rfl := List.mem_singleton.mp ho
        omega
    · rw [hoffsets, List.map_append, List.sum_append, sum_evens h, List.map_singleton,
        List.sum_singleton, hend]

/-! ## The I/O APIC of an `XSDT` -/

variable {n cpu : Nat} {hasRDST returns : Bool} {answer : Answer}

theorem mem_range'_lt {o m b size : Nat} (h : o + m ≤ size) (hb : b ∈ List.range' o m) :
    b < size := by
  have := List.mem_range'_1.mp hb
  omega

theorem le_of_range'_lt {o m size : Nat} (hm : 0 < m) (h : ∀ b ∈ List.range' o m, b < size) :
    o + m ≤ size := by
  have := h (o + m - 1) (List.mem_range'_1.mpr (by omega))
  omega

theorem proper_ioApicXSDT : Proper (ioApicXSDT t n) .nothing where
  ended := Or.inl rfl
  stop o answer rs h := by
    rw [ioApicXSDT] at h
    split at h
    · split at h
      · obtain ⟨rfl, -⟩ := Act.stop.inj h
        exact Or.inr (Or.inl rfl)
      · obtain ⟨rfl, -⟩ := Act.stop.inj h
        exact Or.inl rfl
    · cases h

theorem passes_ioApicXSDT {o : Nat} : Passes t (ioApicXSDT t n) o ↔ t.typeAt o ≠ ioApic := by
  constructor
  · rintro ⟨rs, hact, -⟩ htype
    rw [ioApicXSDT, if_pos htype] at hact
    split at hact <;> cases hact
  · intro htype
    exact ⟨[], if_neg htype, fun b hb => absurd hb List.not_mem_nil⟩

theorem even_ioApicXSDT {k : Nat} :
    Even t (ioApicXSDT t n) k ↔
      ∀ j < k, t.typeAt (2 * j) ≠ ioApic ∧ t.recordTypeLength (2 * j) = 2 :=
  forall_congr' fun _ => imp_congr_right fun _ => and_congr_left' passes_ioApicXSDT

theorem selects_ioApicXSDT {k : Nat} (heven : Even t (ioApicXSDT t n) k)
    (hends : EndsAt t (ioApicXSDT t n) .nothing k answer) :
    Selects (wantedIoApic t n) answer := by
  have hbefore := even_ioApicXSDT.mp heven
  have hfilter := filter_offsets (p := fun o => t.typeAt o = ioApic) hbefore hends.le
  rw [wantedIoApic, hfilter]
  have hmissing : ∀ {l : List Nat}, l[n]? = none → Selects l[n]? .nothing := fun hnone =>
    ⟨fun o ho => absurd (hnone.symm.trans ho) (Option.some_ne_none o).symm, fun _ => rfl⟩
  cases hends with
  | empty whole eq =>
      rw [eq, offsetsFrom_of_le (by omega)]
      exact hmissing rfl
  | pass header passes whole eq =>
      rw [eq, offsetsFrom_of_lt header, last_iff.mp (Or.inr (by omega)),
        List.filter_cons, if_neg fun htrue =>
          passes_ioApicXSDT.mp passes (of_decide_eq_true htrue)]
      exact hmissing rfl
  | stop rs header act_eq inside right =>
      rw [ioApicXSDT] at act_eq
      split at act_eq
      · next htype =>
          rw [offsetsFrom_of_lt header, List.filter_cons, if_pos (decide_eq_true htype)]
          split at act_eq
          · next hn =>
              obtain ⟨rfl, -⟩ := Act.stop.inj act_eq
              have hlast := (right.resolve_left Answer.noConfusion).2
              rw [last_iff.mp hlast]
              exact hmissing (List.getElem?_eq_none (by
                rw [List.filter_nil, List.length_singleton]
                omega))
          · next hn =>
              obtain ⟨rfl, -⟩ := Act.stop.inj act_eq
              rw [Decidable.not_not.mp hn]
              refine ⟨fun o ho => ?_, fun hnone => ?_⟩
              · rw [Option.some.inj ho]
              · cases hnone
      · cases act_eq

theorem ioApicXSDT_right_iff :
    (∃ answer k, Even t (ioApicXSDT t n) k ∧ EndsAt t (ioApicXSDT t n) .nothing k answer) ↔
      IoApicXSDTRight t n := by
  constructor
  · rintro ⟨answer, k, heven, hends⟩
    refine ⟨k, even_ioApicXSDT.mp heven, ?_⟩
    cases hends with
    | empty whole eq => exact Or.inl whole
    | pass header passes whole eq =>
        exact Or.inr (Or.inr ⟨header, passes_ioApicXSDT.mp passes, whole⟩)
    | stop rs header act_eq inside right =>
        rw [ioApicXSDT] at act_eq
        split at act_eq
        · next htype =>
            refine Or.inr (Or.inl ⟨header, htype, ?_⟩)
            split at act_eq
            · next hn =>
                obtain ⟨rfl, -⟩ := Act.stop.inj act_eq
                exact Or.inr ⟨hn, (right.resolve_left Answer.noConfusion).2⟩
            · next hn =>
                obtain ⟨-, rfl⟩ := Act.stop.inj act_eq
                have := le_of_range'_lt (by decide) inside
                exact Or.inl ⟨Decidable.not_not.mp hn, by omega⟩
        · cases act_eq
  · rintro ⟨k, hbefore, hend | ⟨header, htype, ⟨rfl, hroom⟩ | ⟨hn, hlast⟩⟩ |
      ⟨header, htype, whole⟩⟩
    · exact ⟨_, k, even_ioApicXSDT.mpr hbefore, .empty hend rfl⟩
    · refine ⟨_, k, even_ioApicXSDT.mpr hbefore, .stop (List.range' (2 * k + 4) 8) header ?_
        (fun b hb => mem_range'_lt (by omega) hb) (Or.inl rfl)⟩
      rw [ioApicXSDT, if_pos htype, if_neg (fun h => h rfl)]
    · refine ⟨_, k, even_ioApicXSDT.mpr hbefore, .stop [] header ?_
        (fun b hb => absurd hb List.not_mem_nil) (Or.inr ⟨rfl, hlast⟩)⟩
      rw [ioApicXSDT, if_pos htype, if_pos hn]
    · exact ⟨_, k, even_ioApicXSDT.mpr hbefore,
        .pass header (passes_ioApicXSDT.mpr htype) whole rfl⟩

/-! ## The I/O APIC of an `RSDT` -/

theorem proper_ioApicRSDT : Proper (ioApicRSDT t returns n) .nothing where
  ended := Or.inl rfl
  stop o answer rs h := by
    rw [ioApicRSDT] at h
    split at h
    · split at h
      · obtain ⟨rfl, -⟩ := Act.stop.inj h
        exact Or.inr (Or.inl rfl)
      · obtain ⟨rfl, -⟩ := Act.stop.inj h
        exact Or.inl rfl
    · obtain ⟨rfl, -⟩ := Act.stop.inj h
      exact Or.inr (Or.inl rfl)

theorem ioApicRSDT_ends_iff :
    (∃ k, Even t (ioApicRSDT t returns n) k ∧
        EndsAt t (ioApicRSDT t returns n) .nothing k answer) ↔
      (t.size = 0 ∧ answer = .nothing) ∨ (2 ≤ t.size ∧
        ((t.typeAt 0 = processorLocalAPIC ∧ n = 0 ∧ 8 ≤ t.size ∧ answer = .record 0) ∨
          (Last t 0 ∧ ¬ (t.typeAt 0 = processorLocalAPIC ∧ n = 0) ∧ answer = .nothing))) := by
  have hnot : ∀ o, ¬ Passes t (ioApicRSDT t returns n) o := by
    rintro o ⟨rs, hact, -⟩
    rw [ioApicRSDT] at hact
    split at hact
    · split at hact <;> cases hact
    · cases hact
  constructor
  · rintro ⟨k, heven, hends⟩
    have hk : k = 0 := by
      by_contra hne
      exact hnot _ (heven 0 (Nat.pos_of_ne_zero hne)).1
    subst hk
    cases hends with
    | empty whole eq => exact Or.inl ⟨whole.symm, eq⟩
    | pass header passes whole eq => exact absurd passes (hnot _)
    | stop rs header act_eq inside right =>
        refine Or.inr ⟨header, ?_⟩
        rw [Nat.mul_zero, ioApicRSDT] at act_eq
        split at act_eq
        · next htype =>
            split at act_eq
            · next hn =>
                obtain ⟨rfl, -⟩ := Act.stop.inj act_eq
                exact Or.inr ⟨(right.resolve_left Answer.noConfusion).2, fun h => hn h.2, rfl⟩
            · next hn =>
                obtain ⟨rfl, rfl⟩ := Act.stop.inj act_eq
                have := le_of_range'_lt (by decide) fun b hb =>
                  inside b (List.mem_append_left _ hb)
                exact Or.inl ⟨htype, Decidable.not_not.mp hn, this, rfl⟩
        · next htype =>
            obtain ⟨rfl, -⟩ := Act.stop.inj act_eq
            exact Or.inr ⟨(right.resolve_left Answer.noConfusion).2, fun h => htype h.1, rfl⟩
  · rintro (⟨hsize, rfl⟩ | ⟨header, ⟨htype, rfl, hroom, rfl⟩ | ⟨hlast, hother, rfl⟩⟩)
    · exact ⟨0, fun j hj => absurd hj (Nat.not_lt_zero j), .empty hsize.symm rfl⟩
    · refine ⟨0, fun j hj => absurd hj (Nat.not_lt_zero j), .stop
        (List.range' (0 + 4) 4 ++ if returns then [] else [0 + 1]) header ?_ ?_ (Or.inl rfl)⟩
      · rw [Nat.mul_zero, ioApicRSDT, if_pos htype, if_neg fun h => h rfl]
      · intro b hb
        rcases List.mem_append.mp hb with hb | hb
        · exact mem_range'_lt hroom hb
        · split at hb
          · cases hb
          · obtain rfl := List.mem_singleton.mp hb
            omega
    · by_cases htype : t.typeAt 0 = processorLocalAPIC
      · refine ⟨0, fun j hj => absurd hj (Nat.not_lt_zero j), .stop [] header ?_
          (fun b hb => absurd hb List.not_mem_nil) (Or.inr ⟨rfl, hlast⟩)⟩
        rw [Nat.mul_zero, ioApicRSDT, if_pos htype, if_pos fun hn => hother ⟨htype, hn⟩]
      · refine ⟨0, fun j hj => absurd hj (Nat.not_lt_zero j), .stop [0 + 1] header ?_ ?_
          (Or.inr ⟨rfl, hlast⟩)⟩
        · rw [Nat.mul_zero, ioApicRSDT, if_neg htype]
        · intro b hb
          obtain rfl := List.mem_singleton.mp hb
          omega

theorem Selects.mem {l : List Nat} {i : Nat} (h : Selects l[i]? answer) :
    answer = .nothing ∨ ∃ o ∈ l, answer = .record o := by
  cases hget : l[i]? with
  | none => exact Or.inl (h.missing hget)
  | some o => exact Or.inr ⟨o, List.mem_of_getElem? hget, h.found o hget⟩

theorem not_selects_other {o : Nat} (htype : t.typeAt o ≠ ioApic) :
    ¬ Selects (wantedIoApic t n) (.record o) := by
  intro hselects
  rcases hselects.mem with heq | ⟨o', hmem, heq⟩
  · cases heq
  · obtain rfl := Answer.record.inj heq
    exact htype (of_decide_eq_true (List.mem_filter.mp hmem).2)

theorem selects_single_iff (h : t.offsets = [0]) :
    Selects (wantedIoApic t n) .nothing ↔ ¬ (t.typeAt 0 = ioApic ∧ n = 0) := by
  rw [wantedIoApic, h]
  constructor
  · rintro hselects ⟨htype, rfl⟩
    rw [List.filter_cons, if_pos (decide_eq_true htype)] at hselects
    exact Answer.noConfusion (hselects.found 0 rfl)
  · intro hnot
    refine ⟨fun o ho => ?_, fun _ => rfl⟩
    obtain ⟨hzero, htype⟩ := List.mem_filter.mp (List.mem_of_getElem? ho)
    obtain rfl := List.mem_singleton.mp hzero
    rw [List.filter_cons, if_pos htype, List.filter_nil] at ho
    have hn : n < 1 := (List.getElem?_eq_some_iff.mp ho).1
    exact absurd ⟨of_decide_eq_true htype, Nat.lt_one_iff.mp hn⟩ hnot

theorem ioApicRSDT_right_iff :
    (∃ answer, (∃ k, Even t (ioApicRSDT t true n) k ∧
        EndsAt t (ioApicRSDT t true n) .nothing k answer) ∧
      (∃ k, Even t (ioApicRSDT t false n) k ∧
        EndsAt t (ioApicRSDT t false n) .nothing k answer) ∧
      (t.WellFormed → Selects (wantedIoApic t n) answer)) ↔ IoApicRSDTRight t n := by
  have hsingle : 2 ≤ t.size → Last t 0 → t.offsets = [0] := fun hheader hlast => by
    rw [Table.offsets, offsetsFrom_of_lt hheader, last_iff.mp hlast]
  simp only [ioApicRSDT_ends_iff]
  constructor
  · rintro ⟨answer, hends, -, hselects⟩
    rcases hends with ⟨hsize, -⟩ | ⟨hheader, ⟨htype, hn, hroom, rfl⟩ | ⟨hlast, hother, rfl⟩⟩
    · exact Or.inl hsize
    · refine Or.inr ⟨hheader, Or.inl ⟨htype, hn, hroom, fun hwell => ?_⟩⟩
      exact not_selects_other (by rw [htype]; decide) (hselects hwell)
    · refine Or.inr ⟨hheader, Or.inr ⟨hlast, hother, fun h => ?_⟩⟩
      exact (selects_single_iff (hsingle hheader hlast)).mp (hselects h.2.2) ⟨h.1, h.2.1⟩
  · rintro (hsize | ⟨hheader, ⟨htype, hn, hroom, hwell⟩ | ⟨hlast, hother, hnot⟩⟩)
    · refine ⟨.nothing, Or.inl ⟨hsize, rfl⟩, Or.inl ⟨hsize, rfl⟩, fun _ => ?_⟩
      rw [wantedIoApic, Table.offsets, offsetsFrom_of_le (by omega)]
      exact ⟨fun o ho => absurd ho (by rw [List.filter_nil]; exact (Option.some_ne_none o).symm),
        fun _ => rfl⟩
    · exact ⟨.record 0, Or.inr ⟨hheader, Or.inl ⟨htype, hn, hroom, rfl⟩⟩,
        Or.inr ⟨hheader, Or.inl ⟨htype, hn, hroom, rfl⟩⟩, fun h => absurd h hwell⟩
    · refine ⟨.nothing, Or.inr ⟨hheader, Or.inr ⟨hlast, hother, rfl⟩⟩,
        Or.inr ⟨hheader, Or.inr ⟨hlast, hother, rfl⟩⟩, fun hwell => ?_⟩
      exact (selects_single_iff (hsingle hheader hlast)).mpr fun h => hnot ⟨h.1, h.2, hwell⟩

/-! ## The local APIC -/

theorem not_selects_unspecified {wanted : Option Nat} : ¬ Selects wanted .unspecified := by
  intro hselects
  cases hwanted : wanted with
  | none => cases hselects.missing hwanted
  | some o => cases hselects.found o hwanted

theorem stops_of_selects {act : Nat → Act} {k : Nat} (heven : Even t act k)
    (hends : EndsAt t act .unspecified k answer)
    (hselects : t.WellFormed → Selects (wantedLocal t cpu) answer) :
    ∃ rs, act (2 * k) = .stop answer rs ∧ (∀ b ∈ rs, b < t.size) ∧
      (answer = .record (2 * k) ∨ (answer = .nothing ∧ Last t (2 * k))) := by
  have htwo : ∀ j < k, t.recordTypeLength (2 * j) = 2 := fun j hj => (heven j hj).2
  cases hends with
  | empty whole eq =>
      rw [eq] at hselects
      exact absurd (hselects (wellFormed_of_even htwo (Or.inl whole))) not_selects_unspecified
  | pass header passes whole eq =>
      rw [eq] at hselects
      exact absurd (hselects (wellFormed_of_even htwo (Or.inr ⟨header, whole⟩)))
        not_selects_unspecified
  | stop rs header act_eq inside right => exact ⟨rs, act_eq, inside, right⟩

theorem localReads_lt {o size : Nat} : (∀ b ∈ localReads o, b < size) ↔ o + 8 ≤ size := by
  constructor
  · intro h
    have := le_of_range'_lt (by decide) fun b hb => h b (List.mem_cons_of_mem _ hb)
    omega
  · intro hroom b hb
    rcases List.mem_cons.mp hb with rfl | hb
    · omega
    · exact mem_range'_lt (by omega) hb

theorem selects_local {k : Nat}
    (h : ∀ j < k, ¬ (t.IsOf cpu (2 * j) ∧ t.Enabled (2 * j)) ∧ t.recordTypeLength (2 * j) = 2)
    (hheader : 2 * k + 2 ≤ t.size) (hof : t.IsOf cpu (2 * k)) (henabled : t.Enabled (2 * k)) :
    Selects (wantedLocal t cpu) (.record (2 * k)) := by
  rw [wantedLocal, filter_offsets (p := fun o => t.IsOf cpu o ∧ t.Enabled o) h (by omega),
    offsetsFrom_of_lt hheader, List.filter_cons, if_pos (decide_eq_true ⟨hof, henabled⟩)]
  refine ⟨fun o ho => ?_, fun hnone => ?_⟩
  · rw [Option.some.inj ho]
  · cases hnone

theorem proper_localXSDT : Proper (localXSDT t cpu) .unspecified where
  ended := Or.inr rfl
  stop o answer rs h := by
    rw [localXSDT] at h
    split at h
    · split at h
      · split at h
        · obtain ⟨rfl, -⟩ := Act.stop.inj h
          exact Or.inl rfl
        · cases h
      · cases h
    · cases h

theorem enabled_iff {o : Nat} :
    t.flags o &&& processorEnabled xsdpRevision = processorEnabled xsdpRevision ↔ t.Enabled o := by
  rw [show processorEnabled xsdpRevision = 1 from rfl, Nat.and_one_is_mod]
  rfl

theorem localXSDT_stop_iff {o : Nat} {rs : List Nat} :
    localXSDT t cpu o = .stop answer rs ↔
      (t.IsOf cpu o ∧ t.Enabled o) ∧ answer = .record o ∧ rs = localReads o := by
  rw [localXSDT]
  constructor
  · intro h
    split at h
    · next htype =>
        split at h
        · next hid =>
            split at h
            · next hflags =>
                obtain ⟨rfl, rfl⟩ := Act.stop.inj h
                exact ⟨⟨⟨htype, hid⟩, enabled_iff.mp hflags⟩, rfl, rfl⟩
            · cases h
        · cases h
    · cases h
  · rintro ⟨⟨⟨htype, hid⟩, henabled⟩, rfl, rfl⟩
    rw [if_pos htype, if_pos hid, if_pos (enabled_iff.mpr henabled)]

theorem passes_localXSDT {o : Nat} (hroom : o + 8 ≤ t.size)
    (h : ¬ (t.IsOf cpu o ∧ t.Enabled o)) : Passes t (localXSDT t cpu) o := by
  by_cases htype : t.typeAt o = processorLocalAPIC
  · by_cases hid : t.apicID o = cpu
    · refine ⟨localReads o, ?_, localReads_lt.mpr hroom⟩
      rw [localXSDT, if_pos htype, if_pos hid, if_neg fun hflags =>
        h ⟨⟨htype, hid⟩, enabled_iff.mp hflags⟩]
    · refine ⟨[o + 3], ?_, fun b hb => ?_⟩
      · rw [localXSDT, if_pos htype, if_neg hid]
      · obtain rfl := List.mem_singleton.mp hb
        omega
  · exact ⟨[], if_neg htype, fun b hb => absurd hb List.not_mem_nil⟩

theorem localXSDT_right_iff :
    (∃ answer, (∃ k, Even t (localXSDT t cpu) k ∧
        EndsAt t (localXSDT t cpu) .unspecified k answer) ∧
      (t.WellFormed → Selects (wantedLocal t cpu) answer)) ↔ LocalXSDTRight t cpu := by
  constructor
  · rintro ⟨answer, ⟨k, heven, hends⟩, hselects⟩
    obtain ⟨rs, hact, inside, -⟩ := stops_of_selects heven hends hselects
    obtain ⟨⟨hof, henabled⟩, -, rfl⟩ := localXSDT_stop_iff.mp hact
    refine ⟨k, fun j hj => ⟨fun hown => ?_, (heven j hj).2⟩, hof, henabled,
      localReads_lt.mp inside⟩
    exact (heven j hj).1.act_ne_stop (localXSDT_stop_iff.mpr ⟨hown, rfl, rfl⟩)
  · rintro ⟨k, hbefore, hof, henabled, hroom⟩
    have heven : Even t (localXSDT t cpu) k := fun j hj =>
      ⟨passes_localXSDT (by omega) (hbefore j hj).1, (hbefore j hj).2⟩
    exact ⟨.record (2 * k), ⟨k, heven, .stop _ (by omega)
      (localXSDT_stop_iff.mpr ⟨⟨hof, henabled⟩, rfl, rfl⟩) (localReads_lt.mpr hroom)
      (Or.inl rfl)⟩, fun _ => selects_local hbefore (by omega) hof henabled⟩

theorem proper_localRSDT : Proper (localRSDT t hasRDST cpu) .unspecified where
  ended := Or.inr rfl
  stop o answer rs h := by
    rw [localRSDT] at h
    split at h
    · split at h
      · obtain ⟨rfl, -⟩ := Act.stop.inj h
        exact Or.inr (Or.inr rfl)
      · split at h
        · split at h
          · obtain ⟨rfl, -⟩ := Act.stop.inj h
            exact Or.inl rfl
          · cases h
        · cases h
    · cases h

theorem localRSDT_stop_iff {o : Nat} {rs : List Nat} :
    localRSDT t hasRDST cpu o = .stop answer rs ↔
      (hasRDST = false ∧ t.typeAt o = processorLocalAPIC ∧ answer = .fault ∧ rs = []) ∨
        (hasRDST = true ∧ t.IsOf cpu o ∧ answer = .record o ∧ rs = localReads o) := by
  have hflags : t.flags o &&& processorEnabled 0 = processorEnabled 0 := Nat.and_zero _
  rw [localRSDT]
  constructor
  · intro h
    split at h
    · next htype =>
        cases hasRDST with
        | false =>
            obtain ⟨rfl, rfl⟩ := Act.stop.inj h
            exact Or.inl ⟨rfl, htype, rfl, rfl⟩
        | true =>
            rw [if_neg (by decide)] at h
            split at h
            · next hid =>
                obtain ⟨rfl, rfl⟩ := Act.stop.inj h
                exact Or.inr ⟨rfl, ⟨htype, hid⟩, rfl, rfl⟩
            · cases h
    · cases h
  · rintro (⟨rfl, htype, rfl, rfl⟩ | ⟨rfl, ⟨htype, hid⟩, rfl, rfl⟩)
    · rw [if_pos htype]
      rfl
    · rw [if_pos htype, if_neg (by decide), if_pos hid, if_pos hflags]

theorem passes_localRSDT {o : Nat} (hroom : o + 8 ≤ t.size) (h : ¬ t.IsOf cpu o) :
    Passes t (localRSDT t true cpu) o := by
  by_cases htype : t.typeAt o = processorLocalAPIC
  · refine ⟨[o + 3], ?_, fun b hb => ?_⟩
    · rw [localRSDT, if_pos htype, if_neg (by decide), if_neg fun hid => h ⟨htype, hid⟩]
    · obtain rfl := List.mem_singleton.mp hb
      omega
  · exact ⟨[], if_neg htype, fun b hb => absurd hb List.not_mem_nil⟩

theorem localRSDT_right_iff :
    (∃ answer, (∃ k, Even t (localRSDT t hasRDST cpu) k ∧
        EndsAt t (localRSDT t hasRDST cpu) .unspecified k answer) ∧
      (t.WellFormed → Selects (wantedLocal t cpu) answer)) ↔ LocalRSDTRight t hasRDST cpu := by
  constructor
  · rintro ⟨answer, ⟨k, heven, hends⟩, hselects⟩
    obtain ⟨rs, hact, inside, right⟩ := stops_of_selects heven hends hselects
    rcases localRSDT_stop_iff.mp hact with ⟨-, -, rfl, -⟩ | ⟨rfl, hof, rfl, rfl⟩
    · rcases right with hrecord | ⟨hnothing, -⟩
      · cases hrecord
      · cases hnothing
    · refine ⟨rfl, k, fun j hj => ⟨fun hof' => ?_, (heven j hj).2⟩, hof, fun hwell => ?_,
        localReads_lt.mp inside⟩
      · exact (heven j hj).1.act_ne_stop
          (localRSDT_stop_iff.mpr (Or.inr ⟨rfl, hof', rfl, rfl⟩))
      · rcases (hselects hwell).mem with heq | ⟨o, hmem, heq⟩
        · cases heq
        · obtain rfl := Answer.record.inj heq
          exact (of_decide_eq_true (List.mem_filter.mp hmem).2).2
  · rintro ⟨rfl, k, hbefore, hof, henabled, hroom⟩
    have heven : Even t (localRSDT t true cpu) k := fun j hj =>
      ⟨passes_localRSDT (by omega) (hbefore j hj).1, (hbefore j hj).2⟩
    refine ⟨.record (2 * k), ⟨k, heven, .stop _ (by omega)
      (localRSDT_stop_iff.mpr (Or.inr ⟨rfl, hof, rfl, rfl⟩)) (localReads_lt.mpr hroom)
      (Or.inl rfl)⟩, fun hwell => ?_⟩
    exact selects_local (fun j hj => ⟨fun hown => (hbefore j hj).1 hown.1, (hbefore j hj).2⟩)
      (by omega) hof (henabled hwell)

/-! ## When the walks are right -/

theorem walksRight_iff {read write own : Nat → Act} (hread : Proper read .nothing)
    (hwrite : Proper write .nothing) (hown : Proper own .unspecified) :
    (∃ r w o, (∃ fuel, walk t read .nothing fuel = some r) ∧
        (∃ fuel, walk t write .nothing fuel = some w) ∧
        (∃ fuel, walk t own .unspecified fuel = some o) ∧ WalksRight t n cpu r w o) ↔
      (∃ answer, (∃ k, Even t read k ∧ EndsAt t read .nothing k answer) ∧
        (∃ k, Even t write k ∧ EndsAt t write .nothing k answer) ∧
        (t.WellFormed → Selects (wantedIoApic t n) answer)) ∧
      ∃ answer, (∃ k, Even t own k ∧ EndsAt t own .unspecified k answer) ∧
        (t.WellFormed → Selects (wantedLocal t cpu) answer) := by
  constructor
  · rintro ⟨r, w, o, ⟨fr, hr⟩, ⟨fw, hw⟩, ⟨fo, ho⟩, hright⟩
    exact ⟨⟨r.answer, (visits_iff hread).mp ⟨fr, r, hr, hright.readVisits, rfl⟩,
        (visits_iff hwrite).mp ⟨fw, w, hw, hright.writeVisits, hright.same.symm⟩,
        hright.readSelects⟩,
      o.answer, (visits_iff hown).mp ⟨fo, o, ho, hright.ownVisits, rfl⟩, hright.ownSelects⟩
  · rintro ⟨⟨answer, hr, hw, hselects⟩, answer', ho, hselects'⟩
    obtain ⟨fr, r, hrun, hrVisits, rfl⟩ := (visits_iff hread).mpr hr
    obtain ⟨fw, w, hwrun, hwVisits, hsame⟩ := (visits_iff hwrite).mpr hw
    obtain ⟨fo, o, horun, hoVisits, rfl⟩ := (visits_iff hown).mpr ho
    exact ⟨r, w, o, ⟨fr, hrun⟩, ⟨fw, hwrun⟩, ⟨fo, horun⟩, hrVisits, hwVisits, hoVisits, hselects,
      fun hwell => by
        rw [hsame]
        exact hselects hwell,
      hselects', hsame.symm⟩

/--
The three walks are right exactly where all records before the one they end at have two
bytes, the size of a header, and where that record is one they end at rightly.
-/
theorem madt_walks_right_iff (t : Table) (n cpu : Nat) (hasRDST : Bool) :
    (∃ read write own, (∃ fuel, readIoApicRegister t fuel n = some read) ∧
        (∃ fuel, writeIoApicRegister t fuel n = some write) ∧
        (∃ fuel, getLocalAPICBase t fuel hasRDST cpu = some own) ∧
        WalksRight t n cpu read write own) ↔
      if xsdpRevision ≤ t.revision then IoApicXSDTRight t n ∧ LocalXSDTRight t cpu
      else IoApicRSDTRight t n ∧ LocalRSDTRight t hasRDST cpu := by
  unfold readIoApicRegister writeIoApicRegister getLocalAPICBase
  split
  · rw [walksRight_iff proper_ioApicXSDT proper_ioApicXSDT proper_localXSDT, localXSDT_right_iff,
      ← ioApicXSDT_right_iff]
    refine and_congr_left' ?_
    constructor
    · rintro ⟨answer, ⟨k, hk⟩, -⟩
      exact ⟨answer, k, hk⟩
    · rintro ⟨answer, k, hk⟩
      exact ⟨answer, ⟨k, hk⟩, ⟨k, hk⟩, fun _ => selects_ioApicXSDT hk.1 hk.2⟩
  · rw [walksRight_iff proper_ioApicRSDT proper_ioApicRSDT proper_localRSDT, ioApicRSDT_right_iff,
      localRSDT_right_iff]

/-! ### One processor and one I/O APIC -/

/-- A record of eight bytes for local APIC 0 and one of twelve for an I/O APIC. -/
def smallTable : Table where
  revision := 2
  length := 68
  byte := fun a =>
    if a = 49 then 8 else if a = 52 then 1 else if a = 56 then 1 else if a = 57 then 12 else 0
  head_le := by decide
  length_lt := by decide

/-- The I/O APIC is looked for two bytes behind the first record, inside that. -/
theorem not_madt_walks_right_small :
    ¬ ∃ read write own, (∃ fuel, readIoApicRegister smallTable fuel 0 = some read) ∧
      (∃ fuel, writeIoApicRegister smallTable fuel 0 = some write) ∧
      (∃ fuel, getLocalAPICBase smallTable fuel true 0 = some own) ∧
      WalksRight smallTable 0 0 read write own := by
  have hnot : ¬ IoApicXSDTRight smallTable 0 := by
    rintro ⟨k, hbefore, hends⟩
    cases k with
    | zero =>
        rcases hends with hend | ⟨-, htype, -⟩ | ⟨-, -, hwhole⟩
        · exact absurd hend (by decide)
        · exact absurd htype (by decide)
        · exact absurd hwhole (by decide)
    | succ k => exact absurd (hbefore 0 (Nat.succ_pos k)).2 (by decide)
  intro h
  obtain ⟨⟨answer, ⟨k, hk⟩, -⟩, -⟩ := (walksRight_iff proper_ioApicXSDT proper_ioApicXSDT
    proper_localXSDT).mp h
  exact hnot (ioApicXSDT_right_iff.mp ⟨answer, k, hk⟩)

end BlockyOS.Kernel.MADT
