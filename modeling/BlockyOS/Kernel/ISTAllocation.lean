import BlockyOS.Foundation.Trails
import BlockyOS.Kernel.DescriptorTables

/-!
# The allocation of an interrupt stack

`AllocateIST` walks over the descriptor table in search of a task state segment with
an unused stack slot.  It tells that it has found one by a nonzero segment number.
-/

namespace BlockyOS.Kernel.GDT

open BlockyOS.Foundation

structure TSSSpace where
  /-- `SafeAllocatePages`, which answers where a segment is mapped. -/
  safeAllocatePages : Nat → Nat
  /-- `AllocatePages`, for the descriptor at a place. -/
  allocatePages : Nat → Nat
  /-- The stack slots of a segment. -/
  ist : Nat → Nat → Nat

def istSlots : Nat := 8

def isTSS (m : Words) (i : Nat) : Prop :=
  systemSegmentBit (m i) = 0 ∧ type (m i) = tss64BitAvailable

instance (m : Words) : DecidablePred (isTSS m) := fun _ => inferInstanceAs (Decidable (_ ∧ _))

variable (s : TSSSpace)

def tssAt (m : Words) (i : Nat) : Nat :=
  if base (rawAt m i) ≠ 0 then s.safeAllocatePages (base (rawAt m i)) else s.allocatePages i

def withBase (raw address : Nat) : Nat :=
  packFields [(16, bits raw 0 16), (24, address), (24, bits raw 40 24), (40, address >>> 24),
    (24, bits raw 104 24)]

/-! ## The function -/

def slotLoop (ist : Nat → Nat) : Nat → Nat × Bool
  | 0 => (255, false)
  | k + 1 => if ist k = 0 then (k, true) else slotLoop ist k

structure ISTState where
  gdt : Nat
  ist : Nat
  segment : Nat
  words : Words
  looked : List Nat

structure ISTResult where
  returned : Bool
  ist : Nat
  segment : Nat
  words : Words
  looked : List Nat

def slotOf (m : Words) (i : Nat) : Nat × Bool := slotLoop (s.ist (tssAt s m i)) istSlots

def visitTSS (w : ISTState) : ISTState :=
  { w with
    ist := (slotOf s w.words w.gdt).1
    segment := if (slotOf s w.words w.gdt).2 then w.gdt % 2 ^ 13 else w.segment
    words := if base (rawAt w.words w.gdt) ≠ 0 then w.words
      else storeAt w.words w.gdt (withBase (rawAt w.words w.gdt) (s.allocatePages w.gdt)) }

def visitSystem (w : ISTState) : ISTState := if isTSS w.words w.gdt then visitTSS s w else w

def istTurn (limit : Nat) (w : ISTState) : ISTState ⊕ ISTResult :=
  if limit / descriptorSize ≤ w.gdt then .inr ⟨true, w.ist, w.segment, w.words, w.looked⟩
  else if systemSegmentBit (w.words w.gdt) ≠ 0 then
    .inl { w with gdt := w.gdt + 1, looked := w.looked ++ [w.gdt] }
  else if (visitSystem s w).segment ≠ 0 then
    .inr ⟨true, (visitSystem s w).ist, (visitSystem s w).segment, (visitSystem s w).words,
      w.looked ++ [w.gdt]⟩
  else .inl { visitSystem s w with gdt := w.gdt + 2, looked := w.looked ++ [w.gdt] }

/-- `AllocateIST`; the table register is always readable. -/
def allocateIST (fuel : Nat) (m : Words) (limit : Nat) : Option ISTResult :=
  follow (istTurn s limit) fuel ⟨0, 0, 0, m, []⟩

/-! ## What the function is for -/

/-- The segment that a descriptor names; one without a base gets a page. -/
def segmentAt (m : Words) (i : Nat) : Nat :=
  if segmentBase (rawAt m i) ≠ 0 then s.safeAllocatePages (segmentBase (rawAt m i))
  else s.allocatePages i

structure HasUnused (m : Words) (img : Image) (i : Nat) : Prop where
  listed : ∃ raw lt bit reserved, (i, Descriptor.system raw lt bit reserved) ∈ img.places ∧
    type raw = tss64BitAvailable
  unused : ∃ slot < istSlots, s.ist (segmentAt s m i) slot = 0

structure AllocatesIST (m : Words) (img : Image) (r : ISTResult) : Prop where
  inside : ∀ i ∈ r.looked, i + 2 ≤ img.length
  returned_iff : r.returned = true ↔ ∃ i, HasUnused s m img i
  named : r.returned = true → HasUnused s m img r.segment ∧ r.ist < istSlots ∧
    s.ist (segmentAt s m r.segment) r.ist = 0

/-- The last unused slot of the segment that the kernel looks at for a descriptor. -/
structure LastUnused (m : Words) (i slot : Nat) : Prop where
  lt : slot < istSlots
  unused : s.ist (tssAt s m i) slot = 0
  last : ∀ k, slot < k → k < istSlots → s.ist (tssAt s m i) k ≠ 0

def SeesUnused (m : Words) (i : Nat) : Prop := isTSS m i ∧ ∃ slot, LastUnused s m i slot

def strideAt (m : Words) (i : Nat) : Nat := if systemSegmentBit (m i) ≠ 0 then 1 else 2

/-- The places that the walk over a table comes to. -/
def walk (m : Words) (limit : Nat) : List Nat := strides (strideAt m) (limit / descriptorSize) 0

variable {s} {m : Words} {img : Image}

theorem strideAt_pos (m : Words) (i : Nat) : 0 < strideAt m i := by
  rw [strideAt]
  split <;> decide

/-! ## The slots of a segment -/

theorem slotLoop_found {ist : Nat → Nat} {n : Nat} (h : (slotLoop ist n).2 = true) :
    (slotLoop ist n).1 < n ∧ ist (slotLoop ist n).1 = 0 ∧
      ∀ k, (slotLoop ist n).1 < k → k < n → ist k ≠ 0 := by
  induction n with
  | zero => cases h
  | succ n ih =>
      rw [slotLoop] at h ⊢
      split
      · next hzero => exact ⟨Nat.lt_succ_self n, hzero, fun k hlow hhigh => absurd hhigh (by omega)⟩
      · next hzero =>
          rw [if_neg hzero] at h
          obtain ⟨hlt, hunused, hlast⟩ := ih h
          refine ⟨Nat.lt_succ_of_lt hlt, hunused, fun k hlow hhigh => ?_⟩
          rcases Nat.lt_succ_iff_lt_or_eq.mp hhigh with hbelow | rfl
          · exact hlast k hlow hbelow
          · exact hzero

theorem slotLoop_exhausted {ist : Nat → Nat} {n : Nat} (h : (slotLoop ist n).2 = false) :
    (slotLoop ist n).1 = 255 ∧ ∀ k < n, ist k ≠ 0 := by
  induction n with
  | zero => exact ⟨rfl, fun k hk => absurd hk (Nat.not_lt_zero k)⟩
  | succ n ih =>
      rw [slotLoop] at h ⊢
      split
      · next hzero =>
          rw [if_pos hzero] at h
          cases h
      · next hzero =>
          rw [if_neg hzero] at h
          obtain ⟨hlast, hbefore⟩ := ih h
          refine ⟨hlast, fun k hk => ?_⟩
          rcases Nat.lt_succ_iff_lt_or_eq.mp hk with hlt | rfl
          · exact hbefore k hlt
          · exact hzero

theorem lastUnused_of_slotOf {i : Nat} (h : (slotOf s m i).2 = true) :
    LastUnused s m i (slotOf s m i).1 :=
  ⟨(slotLoop_found h).1, (slotLoop_found h).2.1, (slotLoop_found h).2.2⟩

theorem LastUnused.slotOf_eq {i slot : Nat} (h : LastUnused s m i slot) :
    slotOf s m i = (slot, true) := by
  have hfound : (slotOf s m i).2 = true := by
    cases hcase : (slotOf s m i).2 with
    | true => rfl
    | false => exact absurd h.unused ((slotLoop_exhausted hcase).2 slot h.lt)
  obtain ⟨hlt, hunused, hlast⟩ := lastUnused_of_slotOf hfound
  refine Prod.ext ?_ hfound
  rcases Nat.lt_trichotomy (slotOf s m i).1 slot with hless | heq | hmore
  · exact absurd h.unused (hlast slot hless h.lt)
  · exact heq
  · exact absurd hunused (h.last _ hmore hlt)

theorem seesUnused_iff {i : Nat} : SeesUnused s m i ↔ isTSS m i ∧ (slotOf s m i).2 = true :=
  and_congr_right fun _ =>
    ⟨fun ⟨_, h⟩ => congrArg Prod.snd h.slotOf_eq, fun h => ⟨_, lastUnused_of_slotOf h⟩⟩

/-! ## The walk -/

def pick (s : TSSSpace) (m : Words) : List Nat → Nat → Nat × Nat
  | [], ist => (ist, 0)
  | i :: rest, ist =>
      if isTSS m i then
        if (slotOf s m i).2 ∧ i ≠ 0 then ((slotOf s m i).1, i) else pick s m rest (slotOf s m i).1
      else pick s m rest ist

theorem rawAt_congr {m m' : Words} {i : Nat} (h : ∀ j, i ≤ j → m' j = m j) :
    rawAt m' i = rawAt m i := by
  rw [rawAt, rawAt, h i (Nat.le_refl i), h (i + 1) (Nat.le_succ i)]

theorem isTSS_congr {m m' : Words} {i : Nat} (h : m' i = m i) : isTSS m' i ↔ isTSS m i := by
  rw [isTSS, isTSS, h]

theorem slotOf_congr {m m' : Words} {i : Nat} (h : ∀ j, i ≤ j → m' j = m j) :
    slotOf s m' i = slotOf s m i := by
  rw [slotOf, slotOf, tssAt, tssAt, rawAt_congr h]

theorem visitSystem_words {w : ISTState} {j : Nat} (hj : w.gdt + 2 ≤ j) :
    (visitSystem s w).words j = w.words j := by
  rw [visitSystem]
  split
  · rw [visitTSS]
    dsimp only
    split
    · rfl
    · rw [storeAt, if_neg (by omega), if_neg (by omega)]
  · rfl

theorem visitSystem_outputs {w : ISTState} (hsegment : w.segment = 0) (hlt : w.gdt < 2 ^ 13)
    (hwords : ∀ j, w.gdt ≤ j → w.words j = m j) :
    (visitSystem s w).ist = (if isTSS m w.gdt then (slotOf s m w.gdt).1 else w.ist) ∧
      (visitSystem s w).segment =
        if isTSS m w.gdt ∧ (slotOf s m w.gdt).2 = true then w.gdt else 0 := by
  rw [visitSystem]
  by_cases htss : isTSS m w.gdt
  · rw [if_pos ((isTSS_congr (hwords w.gdt (Nat.le_refl _))).mpr htss), if_pos htss, visitTSS,
      slotOf_congr hwords]
    refine ⟨rfl, ?_⟩
    dsimp only
    rw [hsegment, Nat.mod_eq_of_lt hlt]
    by_cases hfound : (slotOf s m w.gdt).2 = true
    · rw [if_pos hfound, if_pos ⟨htss, hfound⟩]
    · rw [if_neg hfound, if_neg fun h => hfound h.2]
  · rw [if_neg fun h => htss ((isTSS_congr (hwords w.gdt (Nat.le_refl _))).mp h), if_neg htss,
      if_neg fun h => htss h.1]
    exact ⟨rfl, hsegment⟩

/-- The walk from a state ends with what `pick` says of the places left. -/
def Picks (s : TSSSpace) (m : Words) (limit : Nat) (w : ISTState) : Prop :=
  ∃ fuel r, follow (istTurn s limit) fuel w = some r ∧ r.returned = true ∧
    (r.ist, r.segment) = pick s m (strides (strideAt m) (limit / descriptorSize) w.gdt) w.ist ∧
    ∀ i ∈ r.looked, i ∈ w.looked ∨ i < limit / descriptorSize

variable {limit : Nat} {w w' : ISTState}

theorem Picks.of_move (h : Picks s m limit w') (hlt : w.gdt < limit / descriptorSize)
    (hturn : istTurn s limit w = .inl w') (hlooked : w'.looked = w.looked ++ [w.gdt])
    (hpick : pick s m (strides (strideAt m) (limit / descriptorSize) w'.gdt) w'.ist =
      pick s m (strides (strideAt m) (limit / descriptorSize) w.gdt) w.ist) :
    Picks s m limit w := by
  obtain ⟨fuel, r, hfollow, hret, hrest, hall⟩ := h
  refine ⟨fuel + 1, r, (follow_of_moves hturn fuel).trans hfollow, hret, hrest.trans hpick, ?_⟩
  intro i hi
  rcases hall i hi with hold | hin
  · rw [hlooked, List.mem_append, List.mem_singleton] at hold
    rcases hold with hold | rfl
    · exact Or.inl hold
    · exact Or.inr hlt
  · exact Or.inr hin

theorem istTurn_of_le (hle : limit / descriptorSize ≤ w.gdt) :
    istTurn s limit w = .inr ⟨true, w.ist, w.segment, w.words, w.looked⟩ := if_pos hle

theorem istTurn_segment (hlt : w.gdt < limit / descriptorSize)
    (hbit : systemSegmentBit (w.words w.gdt) ≠ 0) :
    istTurn s limit w = .inl { w with gdt := w.gdt + 1, looked := w.looked ++ [w.gdt] } := by
  rw [istTurn, if_neg (Nat.not_le.mpr hlt), if_pos hbit]

theorem istTurn_system (hlt : w.gdt < limit / descriptorSize)
    (hbit : ¬ systemSegmentBit (w.words w.gdt) ≠ 0) :
    istTurn s limit w =
      if (visitSystem s w).segment ≠ 0 then
        .inr ⟨true, (visitSystem s w).ist, (visitSystem s w).segment, (visitSystem s w).words,
          w.looked ++ [w.gdt]⟩
      else .inl { visitSystem s w with gdt := w.gdt + 2, looked := w.looked ++ [w.gdt] } := by
  rw [istTurn, if_neg (Nat.not_le.mpr hlt), if_neg hbit]

theorem picks_system (hlt : w.gdt < limit / descriptorSize)
    (hlimit : limit / descriptorSize ≤ 2 ^ 13) (hsegment : w.segment = 0)
    (hwords : ∀ j, w.gdt ≤ j → w.words j = m j) (hbit : ¬ systemSegmentBit (m w.gdt) ≠ 0)
    (ih : ∀ w' : ISTState, w'.gdt = w.gdt + 2 → w'.segment = 0 →
      (∀ j, w'.gdt ≤ j → w'.words j = m j) → Picks s m limit w') :
    Picks s m limit w := by
  have hword := hwords w.gdt (Nat.le_refl _)
  have hstride : strideAt m w.gdt = 2 := if_neg hbit
  have hplaces := strides_of_lt (strideAt_pos m) hlt
  obtain ⟨hist, hseg⟩ := @visitSystem_outputs s m w hsegment (by omega) hwords
  have hturn := @istTurn_system s limit w hlt (by rwa [hword])
  by_cases hfound : isTSS m w.gdt ∧ (slotOf s m w.gdt).2 = true ∧ w.gdt ≠ 0
  · obtain ⟨htss, hslot, hne⟩ := hfound
    rw [if_pos ⟨htss, hslot⟩] at hseg
    rw [if_pos (by rwa [hseg])] at hturn
    refine ⟨1, _, follow_of_answer hturn 0, rfl, ?_, fun i hi => ?_⟩
    · rw [hplaces, pick, if_pos htss, if_pos ⟨hslot, hne⟩, hist, hseg, if_pos htss]
    · rw [List.mem_append, List.mem_singleton] at hi
      exact hi.imp_right fun heq => lt_of_eq_of_lt heq hlt
  · have hzero : (visitSystem s w).segment = 0 := by
      rw [hseg]
      split
      · next hboth => exact Decidable.not_not.mp fun hne => hfound ⟨hboth.1, hboth.2, hne⟩
      · rfl
    rw [if_neg fun h => h hzero] at hturn
    have hrest := ih { visitSystem s w with gdt := w.gdt + 2, looked := w.looked ++ [w.gdt] } rfl
      hzero fun j hj => (visitSystem_words hj).trans (hwords j (Nat.le_of_add_right_le hj))
    refine hrest.of_move hlt hturn rfl ?_
    rw [hplaces, pick, hstride]
    dsimp only
    rw [hist]
    by_cases htss : isTSS m w.gdt
    · rw [if_pos htss, if_pos htss, if_neg fun h => hfound ⟨htss, h⟩]
    · rw [if_neg htss, if_neg htss]

theorem picks_of_none (hlimit : limit / descriptorSize ≤ 2 ^ 13) (hsegment : w.segment = 0)
    (hwords : ∀ j, w.gdt ≤ j → w.words j = m j) : Picks s m limit w := by
  induction hn : limit / descriptorSize - w.gdt using Nat.strong_induction_on generalizing w with
  | h n ih =>
      rcases Nat.lt_or_ge w.gdt (limit / descriptorSize) with hlt | hle
      · by_cases hbit : systemSegmentBit (m w.gdt) ≠ 0
        · have hstride : strideAt m w.gdt = 1 := if_pos hbit
          have hturn := @istTurn_segment s limit w hlt (by rwa [hwords w.gdt (Nat.le_refl _)])
          have hrest := ih (limit / descriptorSize - (w.gdt + 1)) (by omega)
            (w := { w with gdt := w.gdt + 1, looked := w.looked ++ [w.gdt] }) hsegment
            (fun j hj => hwords j (Nat.le_of_succ_le hj)) rfl
          refine hrest.of_move hlt hturn rfl ?_
          rw [strides_of_lt (strideAt_pos m) hlt, pick, if_neg fun htss => hbit htss.1, hstride]
        · refine picks_system hlt hlimit hsegment hwords hbit fun w' hgdt hsegment' hwords' => ?_
          exact ih (limit / descriptorSize - w'.gdt) (by omega) hsegment' hwords' rfl
      · refine ⟨1, _, follow_of_answer (istTurn_of_le hle) 0, rfl, ?_, fun i hi => Or.inl hi⟩
        rw [strides_of_le hle, pick, hsegment]

/-! ## What is picked -/

section Pick

variable {l : List Nat} {ist slot i : Nat}

theorem pick_found (h : pick s m l ist = (slot, i)) (hi : i ≠ 0) :
    i ∈ l ∧ isTSS m i ∧ slotOf s m i = (slot, true) := by
  induction l generalizing ist with
  | nil => exact absurd (congrArg Prod.snd h).symm hi
  | cons j rest ih =>
      rw [pick] at h
      split at h
      · next htss =>
          split at h
          · next hfound =>
              cases h
              exact ⟨List.mem_cons_self, htss, Prod.ext rfl hfound.1⟩
          · exact ⟨List.mem_cons_of_mem _ (ih h).1, (ih h).2⟩
      · exact ⟨List.mem_cons_of_mem _ (ih h).1, (ih h).2⟩

theorem pick_ne_zero (hmem : i ∈ l) (hi : i ≠ 0) (htss : isTSS m i)
    (hfound : (slotOf s m i).2 = true) : (pick s m l ist).2 ≠ 0 := by
  induction l generalizing ist with
  | nil => cases hmem
  | cons j rest ih =>
      rw [pick]
      rcases List.mem_cons.mp hmem with rfl | hrest
      · rw [if_pos htss, if_pos ⟨hfound, hi⟩]
        exact hi
      · split
        · split
          · next hj => exact hj.2
          · exact ih hrest
        · exact ih hrest

theorem pick_first (hsorted : l.Pairwise (· < ·)) (h : pick s m l ist = (slot, i)) (hi : i ≠ 0) :
    ∀ j ∈ l, j ≠ 0 → j < i → ¬ SeesUnused s m j := by
  induction l generalizing ist with
  | nil => exact fun j hj => absurd hj List.not_mem_nil
  | cons a rest ih =>
      obtain ⟨hbehind, hrest⟩ := List.pairwise_cons.mp hsorted
      intro j hj hne hlt hseen
      obtain ⟨htss, hfound⟩ := seesUnused_iff.mp hseen
      rw [pick] at h
      by_cases hhead : isTSS m a ∧ (slotOf s m a).2 = true ∧ a ≠ 0
      · rw [if_pos hhead.1, if_pos hhead.2] at h
        cases h
        rcases List.mem_cons.mp hj with rfl | hmem
        · exact Nat.lt_irrefl _ hlt
        · exact Nat.lt_asymm hlt (hbehind j hmem)
      · have hpicked : ∃ ist', pick s m rest ist' = (slot, i) := by
          split at h
          · next htssa => exact ⟨_, by rwa [if_neg fun hboth => hhead ⟨htssa, hboth⟩] at h⟩
          · exact ⟨_, h⟩
        obtain ⟨ist', h'⟩ := hpicked
        rcases List.mem_cons.mp hj with rfl | hmem
        · exact hhead ⟨htss, hfound, hne⟩
        · exact ih hrest h' j hmem hne hlt hseen

theorem pick_of_none (h : ∀ j ∈ l, ¬ isTSS m j) : pick s m l ist = (ist, 0) := by
  induction l with
  | nil => rfl
  | cons j rest ih =>
      rw [pick, if_neg (h j List.mem_cons_self)]
      exact ih fun k hk => h k (List.mem_cons_of_mem j hk)

theorem pick_exhausted (hpos : ∀ j ∈ l, j ≠ 0) (h : (pick s m l ist).2 = 0)
    (hex : ∃ j ∈ l, isTSS m j) : (pick s m l ist).1 = 255 := by
  induction l generalizing ist with
  | nil => cases hex.choose_spec.1
  | cons j rest ih =>
      have hposRest := fun k hk => hpos k (List.mem_cons_of_mem j hk)
      rw [pick] at h ⊢
      by_cases htss : isTSS m j
      · have hslot : (slotOf s m j).2 = false := by
          rw [← Bool.not_eq_true]
          intro htrue
          rw [if_pos htss, if_pos ⟨htrue, hpos j List.mem_cons_self⟩] at h
          exact hpos j List.mem_cons_self h
        rw [if_pos htss, hslot, if_neg fun hfound => Bool.noConfusion hfound.1] at h ⊢
        by_cases hrest : ∃ k ∈ rest, isTSS m k
        · exact ih hposRest h hrest
        · rw [pick_of_none fun k hk hk' => hrest ⟨k, hk, hk'⟩]
          exact (slotLoop_exhausted hslot).1
      · rw [if_neg htss] at h ⊢
        obtain ⟨k, hk, hk'⟩ := hex
        rcases List.mem_cons.mp hk with rfl | hrest
        · exact absurd hk' htss
        · exact ih hposRest h ⟨k, hrest, hk'⟩

end Pick

/-! ## When the allocation is right -/

theorem limit_div (img : Image) : img.limit / descriptorSize = img.length - 1 := by
  rw [Image.limit, descriptorSize]
  omega

theorem isTSS_of_hasUnused (h : img.Holds m) {i : Nat} (hi : HasUnused s m img i) :
    isTSS m i ∧ i + 2 ≤ img.length := by
  obtain ⟨raw, lt, bit, reserved, hmem, htype⟩ := hi.listed
  have hword : m i = raw % 2 ^ 64 := (h _ hmem).1
  have hin := (le_of_mem_placesFrom hmem).2
  rw [Nat.zero_add] at hin
  refine ⟨⟨?_, ?_⟩, hin⟩
  · rw [hword, systemSegmentBit, bits_mod (by decide)]
    exact bit
  · rw [hword, type, bits_mod (by decide)]
    exact htype

theorem hasUnused_of_isTSS (h : img.Holds m) {i slot : Nat} (hlt : i < img.length)
    (htss : isTSS m i) (hslot : slot < istSlots) (hunused : s.ist (segmentAt s m i) slot = 0) :
    HasUnused s m img i := by
  obtain ⟨raw, lt, bit, reserved, hmem, htype⟩ :=
    exists_system h hlt htss.1 (by rw [htss.2]; decide)
  exact ⟨⟨raw, lt, bit, reserved, hmem, htype.trans htss.2⟩, slot, hslot, hunused⟩

theorem allocateIST_eq (s : TSSSpace) (m : Words) (img : Image) :
    ∃ fuel r, allocateIST s fuel m img.limit = some r ∧ r.returned = true ∧
      (r.ist, r.segment) = pick s m (walk m img.limit) 0 ∧ ∀ i ∈ r.looked, i + 2 ≤ img.length := by
  have hlength : img.length ≤ 2 ^ 13 := img.length_le
  obtain ⟨fuel, r, hfollow, hret, hpick, hlooked⟩ :=
    @picks_of_none s m img.limit ⟨0, 0, 0, m, []⟩ (by rw [limit_div]; omega) rfl fun _ _ => rfl
  refine ⟨fuel, r, hfollow, hret, hpick, fun i hi => ?_⟩
  rcases hlooked i hi with hnil | hlt
  · cases hnil
  · rw [limit_div] at hlt
    omega

theorem walk_eq (m : Words) (img : Image) (h : 2 ≤ img.length) :
    ∃ rest, walk m img.limit = 0 :: rest ∧ ∀ j ∈ rest, j ≠ 0 := by
  refine ⟨_, strides_of_lt (strideAt_pos m) (by rw [limit_div]; omega), fun j hj => ?_⟩
  have hle := (mem_strides hj).1
  have hpos := strideAt_pos m 0
  omega

theorem lt_of_mem_walk {i : Nat} (hi : i ∈ walk m img.limit) : i < img.length := by
  have hlt := (mem_strides hi).2
  rw [limit_div] at hlt
  omega

theorem walk_sorted (m : Words) (limit : Nat) : (walk m limit).Pairwise (· < ·) :=
  pairwise_strides (strideAt_pos m) 0

variable (s m img) in
/-- The first place behind the null descriptor where the kernel sees an unused slot. -/
structure FirstSeen (i : Nat) : Prop where
  mem : i ∈ walk m img.limit
  ne_zero : i ≠ 0
  seen : SeesUnused s m i
  first : ∀ j ∈ walk m img.limit, j ≠ 0 → j < i → ¬ SeesUnused s m j

theorem firstSeen_of_pick {ist slot i : Nat} (h : pick s m (walk m img.limit) ist = (slot, i))
    (hi : i ≠ 0) : FirstSeen s m img i ∧ LastUnused s m i slot := by
  obtain ⟨hmem, htss, hslot⟩ := pick_found h hi
  have hfound : (slotOf s m i).2 = true := congrArg Prod.snd hslot
  refine ⟨⟨hmem, hi, seesUnused_iff.mpr ⟨htss, hfound⟩, pick_first (walk_sorted m _) h hi⟩, ?_⟩
  have hlast := lastUnused_of_slotOf hfound
  rwa [hslot] at hlast

theorem FirstSeen.unique {i j : Nat} (hi : FirstSeen s m img i) (hj : FirstSeen s m img j) :
    i = j :=
  Nat.le_antisymm (Nat.not_lt.mp fun hlt => hi.first j hj.mem hj.ne_zero hlt hj.seen)
    (Nat.not_lt.mp fun hlt => hj.first i hi.mem hi.ne_zero hlt hi.seen)

theorem only_of_segment_zero (h : img.Holds m) {ist slot : Nat}
    (hzero : HasUnused s m img 0) (hpick : pick s m (walk m img.limit) ist = (slot, 0))
    (hslot : slot < istSlots) :
    0 ∈ walk m img.limit ∧ isTSS m 0 ∧ (∀ i ∈ walk m img.limit, isTSS m i → i = 0) ∧
      LastUnused s m 0 slot := by
  obtain ⟨htss, hlength⟩ := isTSS_of_hasUnused h hzero
  obtain ⟨rest, hwalk, hpos⟩ := walk_eq m img hlength
  rw [hwalk, pick, if_pos htss, if_neg fun h => h.2 rfl] at hpick
  have honly : ∀ i ∈ walk m img.limit, isTSS m i → i = 0 := by
    intro i hi htss
    by_contra hne
    rw [hwalk] at hi
    have hlast := pick_exhausted hpos (congrArg Prod.snd hpick)
      ⟨i, (List.mem_cons.mp hi).resolve_left hne, htss⟩
    rw [hpick] at hlast
    rw [show slot = 255 from hlast] at hslot
    exact absurd hslot (by decide)
  refine ⟨by rw [hwalk]; exact List.mem_cons_self, htss, honly, ?_⟩
  have hnone : ∀ j ∈ rest, ¬ isTSS m j := fun j hj hj' =>
    hpos j hj (honly j (by rw [hwalk]; exact List.mem_cons_of_mem _ hj) hj')
  rw [pick_of_none hnone] at hpick
  have hfirst : (slotOf s m 0).1 = slot := congrArg Prod.fst hpick
  cases hfound : (slotOf s m 0).2 with
  | true => exact hfirst ▸ lastUnused_of_slotOf hfound
  | false =>
      have hlast := (slotLoop_exhausted hfound).1
      rw [show (slotLoop (s.ist (tssAt s m 0)) istSlots).1 = slot from hfirst] at hlast
      rw [hlast] at hslot
      exact absurd hslot (by decide)

/-- The null descriptor, those of code and data, and one of a task state segment at 1 MiB. -/
def kernelTable : Image where
  descriptors := [.null, .segment 0x00AF9A000000FFFF (by decide) (by decide),
    .segment 0x00AF92000000FFFF (by decide) (by decide),
    .system 0x0000891000000067 (by decide) (by decide) (by decide)]
  length_le := by decide

def kernelWords : Words
  | 1 => 0x00AF9A000000FFFF
  | 2 => 0x00AF92000000FFFF
  | 3 => 0x0000891000000067
  | _ => 0

/-- A machine on which every stack slot holds the same value. -/
def slotsOf (value : Nat) : TSSSpace where
  safeAllocatePages := id
  allocatePages := fun _ => 0
  ist := fun _ _ => value

end BlockyOS.Kernel.GDT
