import BlockyOS.HostTool.MapHistory
import BlockyOS.HostTool.MapInvariant

/-!
# Next fit and freed slots

The scan of `allocatecluster` starts at the slot it found last and stops at the
end of the map, and a removal does not move that start back.  The scan is
complete while a free slot lies in its reach.
-/

namespace BlockyOS.HostTool

open BlockyOS.Foundation

/-! ## Complete allocation -/

def Full (fr : ConfFsroot) : Prop :=
  ∀ slot, slot < fr.clusterMap.length → (fr.block slot).fcode ≠ Fcode.zero

def InReach (fr : ConfFsroot) (slot : Nat) : Prop :=
  fr.lastClusterAlloc ≤ slot ∧ slot < fr.clusterMap.length ∧
    (fr.block slot).fcode = Fcode.zero

/-- Allocation, growth of a file and creation fail on a full map only. -/
structure AllocatesCompletely (fr : ConfFsroot) : Prop where
  none_iff : (allocatecluster fr).2 = none ↔ Full fr
  free : ∀ fb, (allocatecluster fr).2 = some fb →
    fb < fr.clusterMap.length ∧ (fr.block fb).fcode = Fcode.zero
  extend : ∀ (v : Volume) (family : Nat), v.root = fr → (faddr v family).2 = none → Full fr
  create : ∀ (E : Host) (v v' : Volume) (path : Path) (flags : List Char), v.root = fr →
    ffind E fr path = none → getfcode E path ≠ Fcode.zero →
    fcreate E v path flags = .ok v' → ffind E v'.root path = none → Full fr

section Allocation

variable {fr : ConfFsroot}

theorem Reachable.not_full (h : Reachable fr) : ¬ Full fr := by
  obtain ⟨slot, -, hlt, hfree⟩ := h
  exact fun hfull => hfull slot hlt hfree

theorem allocatecluster_eq_none_iff : (allocatecluster fr).2 = none ↔ ¬ Reachable fr := by
  rcases halloc : allocatecluster fr with ⟨fr', result⟩
  cases result with
  | none =>
      obtain ⟨-, hbusy⟩ := allocatecluster_none halloc
      refine iff_of_true rfl ?_
      rintro ⟨slot, hlow, hhigh, hfree⟩
      exact hbusy slot hlow hhigh hfree
  | some fb =>
      obtain ⟨-, hlt, hlow, hfree, -⟩ := allocatecluster_some halloc
      exact iff_of_false (by simp) (not_not.mpr ⟨fb, hlow, hlt, hfree⟩)

theorem faddr_eq_none_iff (v : Volume) (family : Nat) :
    (faddr v family).2 = none ↔ (allocatecluster v.root).2 = none := by
  unfold faddr
  split
  case h_1 halloc => simp [halloc]
  case h_2 halloc => simp [halloc]

theorem Created.found {E : Host} {fr' : ConfFsroot} {path : Path} {flags : List Char}
    (h : Created E fr path flags fr') (hcode : getfcode E path ≠ Fcode.zero)
    (hreach : Reachable fr) : ffind E fr' path ≠ none := by
  cases h with
  | full _ halloc =>
      have hfull := @allocatecluster_eq_none_iff fr
      rw [halloc] at hfull
      exact absurd hreach (hfull.mp rfl)
  | entered fr₁ _ fb halloc hedits =>
      obtain ⟨rfl, hlt, -⟩ := allocatecluster_some halloc
      have hentry : HasEntry ((fr.setCursor fb).setBlock fb
          (createdEntry E (fr.setCursor fb) fb path flags)) fb (getfcode E path) 0 :=
        (hasEntry_setBlock_iff hlt).mpr (.inl ⟨rfl, rfl, rfl⟩)
      intro hgone
      exact ffind_none hgone fb (hedits.hasEntry_mono hcode hentry)

theorem fcreate_found {E : Host} {v v' : Volume} {path : Path} {flags : List Char}
    (hnone : ffind E v.root path = none) (hcode : getfcode E path ≠ Fcode.zero)
    (hreach : Reachable v.root) (h : fcreate E v path flags = .ok v') :
    ffind E v'.root path ≠ none :=
  ((fcreate_spec h).created hnone).found hcode hreach

theorem allocatesCompletely_iff : AllocatesCompletely fr ↔ Full fr ∨ Reachable fr := by
  constructor
  · intro h
    by_cases hreach : Reachable fr
    · exact .inr hreach
    · exact .inl (h.none_iff.mp (allocatecluster_eq_none_iff.mpr hreach))
  · intro h
    have hnone : (allocatecluster fr).2 = none ↔ Full fr := by
      rw [allocatecluster_eq_none_iff]
      exact ⟨h.resolve_right, fun hfull hreach => hreach.not_full hfull⟩
    refine ⟨hnone, fun fb hsome => ?_, fun v family hroot hadd => ?_,
      fun E v v' path flags hroot hfind hcode hcreate hgone => ?_⟩
    · rcases halloc : allocatecluster fr with ⟨fr', result⟩
      rw [halloc] at hsome
      obtain rfl : result = some fb := hsome
      obtain ⟨-, hlt, -, hfree, -⟩ := allocatecluster_some halloc
      exact ⟨hlt, hfree⟩
    · subst hroot
      exact hnone.mp ((faddr_eq_none_iff v family).mp hadd)
    · subst hroot
      exact h.resolve_right fun hreach => fcreate_found hfind hcode hreach hcreate hgone

end Allocation

/-! ## What one event does to the reach -/

/--
An allocation leaves a free slot in reach unless it takes the last one while
others lie before the scan; a removal does when it frees a slot in reach or one
was there already.
-/
def KeepsReach (E : Host) (fr : ConfFsroot) : MapEvent → Prop
  | .alloc entry =>
      entry.fcode = Fcode.zero ∨
        (∀ slot, slot < fr.lastClusterAlloc → slot < fr.clusterMap.length →
          (fr.block slot).fcode ≠ Fcode.zero) ∨
        ∃ s t, s ≠ t ∧ InReach fr s ∧ InReach fr t
  | .remove path =>
      Reachable fr ∨ ∃ fb, ffind E fr path = some fb ∧ fr.lastClusterAlloc ≤ fb
  | .removel path =>
      Reachable fr ∨
        (∃ slot, fr.lastClusterAlloc ≤ slot ∧ slot < fr.clusterMap.length ∧
          (fr.block slot).fcode = getfcode E path) ∨
        ∀ slot, slot < fr.clusterMap.length → (fr.block slot).fcode ≠ getfcode E path

section Events

variable {E : Host} {fr : ConfFsroot} (hcomplete : Full fr ∨ Reachable fr)

include hcomplete

theorem allocated_complete_iff (entry : FsBlock) :
    Full (allocated fr entry) ∨ Reachable (allocated fr entry) ↔
      KeepsReach E fr (.alloc entry) := by
  rcases halloc : allocatecluster fr with ⟨fr', result⟩
  cases result with
  | none =>
      obtain ⟨rfl, hbusy⟩ := allocatecluster_none halloc
      have hfull : Full fr := hcomplete.resolve_right fun ⟨slot, hlow, hhigh, hfree⟩ =>
        hbusy slot hlow hhigh hfree
      rw [allocated_none halloc]
      exact iff_of_true (.inl hfull) (.inr (.inl fun slot _ hlt => hfull slot hlt))
  | some fb =>
      obtain ⟨rfl, hlt, hlow, hfree, hbusy⟩ := allocatecluster_some halloc
      rw [allocated_some halloc]
      have hsame : ((fr.setCursor fb).setBlock fb entry).block fb = entry :=
        ConfFsroot.block_setBlock_same hlt
      have hother : ∀ {slot}, slot ≠ fb →
          ((fr.setCursor fb).setBlock fb entry).block slot = fr.block slot :=
        fun hne => ConfFsroot.block_setBlock_other hne
      have hlength : ((fr.setCursor fb).setBlock fb entry).clusterMap.length =
          fr.clusterMap.length := List.length_set
      -- another free slot in reach of the old scan lies behind the one that was found
      have hbehind : ∀ {slot}, slot ≠ fb → InReach fr slot →
          Reachable ((fr.setCursor fb).setBlock fb entry) := by
        rintro slot hne ⟨hslow, hslt, hsfree⟩
        have hle : fb ≤ slot := by
          by_contra hlt'
          exact hbusy slot hslow (by omega) hsfree
        exact ⟨slot, hle, by rwa [hlength], by rw [hother hne]; exact hsfree⟩
      constructor
      · rintro (hfull | ⟨slot, hslow, hslt, hsfree⟩)
        · refine .inr (.inl fun slot hbefore hslt => ?_)
          have hlive := hfull slot (by rwa [hlength])
          rwa [hother (by omega)] at hlive
        · by_cases hslot : slot = fb
          · subst hslot
            rw [hsame] at hsfree
            exact .inl hsfree
          · rw [hlength] at hslt
            rw [hother hslot] at hsfree
            have hslow' : fb ≤ slot := hslow
            exact .inr (.inr ⟨fb, slot, Ne.symm hslot, ⟨hlow, hlt, hfree⟩,
              ⟨by omega, hslt, hsfree⟩⟩)
      · intro hkeeps
        by_cases hentry : entry.fcode = Fcode.zero
        · exact .inr ⟨fb, Nat.le_refl _, by rwa [hlength], by rw [hsame]; exact hentry⟩
        rcases hkeeps with hzero | hbefore | ⟨s, t, hne, hs, ht⟩
        · exact absurd hzero hentry
        · by_cases hexists : ∃ slot, slot ≠ fb ∧ InReach fr slot
          · obtain ⟨slot, hne, hin⟩ := hexists
            exact .inr (hbehind hne hin)
          · refine .inl fun slot hslt => ?_
            rw [hlength] at hslt
            by_cases hslot : slot = fb
            · subst hslot
              rw [hsame]
              exact hentry
            · rw [hother hslot]
              intro hsfree
              rcases Nat.lt_or_ge slot fr.lastClusterAlloc with hlow' | hhigh'
              · exact hbefore slot hlow' hslt hsfree
              · exact hexists ⟨slot, hslot, hhigh', hslt, hsfree⟩
        · by_cases hsfb : s = fb
          · exact .inr (hbehind (fun h => hne (hsfb.trans h.symm)) ht)
          · exact .inr (hbehind hsfb hs)

omit hcomplete in
theorem clearBlock_complete_iff {path : Path} {fb : Nat} (hfind : ffind E fr path = some fb) :
    Full (clearBlock fr fb) ∨ Reachable (clearBlock fr fb) ↔
      KeepsReach E fr (.remove path) := by
  have hlt : fb < fr.clusterMap.length := (ffind_some hfind).1
  have hlength : (clearBlock fr fb).clusterMap.length = fr.clusterMap.length := List.length_set
  have hfreed : ((clearBlock fr fb).block fb).fcode = Fcode.zero := by
    rw [clearBlock_fcode fr fb hlt, if_pos rfl]
  constructor
  · rintro (hfull | ⟨slot, hlow, hslt, hfree⟩)
    · exact absurd hfreed (hfull fb (by rwa [hlength]))
    · rw [hlength] at hslt
      rw [clearBlock_fcode fr fb hslt] at hfree
      split at hfree
      case isTrue hslot =>
        subst hslot
        exact .inr ⟨slot, hfind, hlow⟩
      case isFalse => exact .inl ⟨slot, hlow, hslt, hfree⟩
  · rintro (⟨slot, hlow, hslt, hfree⟩ | ⟨fb', hfind', hlow⟩)
    · refine .inr ⟨slot, hlow, by rwa [hlength], ?_⟩
      rw [clearBlock_fcode fr fb hslt]
      split
      case isTrue => rfl
      case isFalse => exact hfree
    · obtain rfl := Option.some.inj (hfind.symm.trans hfind')
      exact .inr ⟨fb, hlow, by rwa [hlength], hfreed⟩

omit hcomplete in
theorem ffremovelh_fcode (hash : Fcode) {slot : Nat} (hlt : slot < fr.clusterMap.length) :
    ((ffremovelh fr hash).block slot).fcode =
      if (fr.block slot).fcode = hash then Fcode.zero else (fr.block slot).fcode := by
  have hlt' : slot < (ffremovelh fr hash).clusterMap.length := by
    rwa [ffremovelh, List.length_map]
  rw [ConfFsroot.block_eq_getElem hlt', ConfFsroot.block_eq_getElem hlt]
  simp only [ffremovelh, List.getElem_map]
  split <;> rfl

theorem ffremovel_complete_iff (path : Path) :
    Full (ffremovel E fr path) ∨ Reachable (ffremovel E fr path) ↔
      KeepsReach E fr (.removel path) := by
  have hlength : (ffremovel E fr path).clusterMap.length = fr.clusterMap.length :=
    List.length_map _
  have hcode : ∀ {slot}, slot < fr.clusterMap.length →
      (((ffremovel E fr path).block slot).fcode = Fcode.zero ↔
        (fr.block slot).fcode = getfcode E path ∨ (fr.block slot).fcode = Fcode.zero) := by
    intro slot hlt
    rw [ffremovel, ffremovelh_fcode _ hlt]
    split
    case isTrue h => exact iff_of_true rfl (.inl h)
    case isFalse h => rw [or_iff_right h]
  constructor
  · rintro (hfull | ⟨slot, hlow, hlt, hfree⟩)
    · refine .inr (.inr fun slot hlt hfile => ?_)
      exact hfull slot (by rwa [hlength]) ((hcode hlt).mpr (.inl hfile))
    · rw [hlength] at hlt
      rcases (hcode hlt).mp hfree with hfile | hzero
      · exact .inr (.inl ⟨slot, hlow, hlt, hfile⟩)
      · exact .inl ⟨slot, hlow, hlt, hzero⟩
  · rintro (⟨slot, hlow, hlt, hfree⟩ | ⟨slot, hlow, hlt, hfile⟩ | hnone)
    · exact .inr ⟨slot, hlow, by rwa [hlength], (hcode hlt).mpr (.inr hfree)⟩
    · exact .inr ⟨slot, hlow, by rwa [hlength], (hcode hlt).mpr (.inl hfile)⟩
    · rcases hcomplete with hfull | ⟨slot, hlow, hlt, hfree⟩
      · refine .inl fun slot hlt hfree => ?_
        rw [hlength] at hlt
        rcases (hcode hlt).mp hfree with hfile | hzero
        · exact hnone slot hlt hfile
        · exact hfull slot hlt hzero
      · exact .inr ⟨slot, hlow, by rwa [hlength], (hcode hlt).mpr (.inr hfree)⟩

theorem mapStep_complete_iff {event : MapEvent} {fr' : ConfFsroot}
    (hstep : mapStep E fr event = .ok fr') :
    Full fr' ∨ Reachable fr' ↔ KeepsReach E fr event := by
  cases event with
  | alloc entry =>
      obtain rfl := Except.ok.inj hstep
      exact allocated_complete_iff hcomplete entry
  | remove path =>
      obtain ⟨fb, hfind, -, rfl⟩ := ffremove_ok hstep
      exact clearBlock_complete_iff hfind
  | removel path =>
      obtain rfl := Except.ok.inj hstep
      exact ffremovel_complete_iff hcomplete path

end Events

/-! ## Every history -/

/--
Over a history of allocations and removals from a fresh mount, allocation is
complete at every point if and only if each event leaves a free slot in reach of
the scan or the map full.
-/
theorem allocatesCompletely_run_iff {E : Host} {fr : ConfFsroot}
    (hmounted : fr.lastClusterAlloc = 0) (events : List MapEvent) :
    Always (mapStep E) AllocatesCompletely fr events ↔
      Meets (mapStep E) (KeepsReach E) fr events := by
  have hstart : Full fr ∨ Reachable fr := by
    by_cases hfull : Full fr
    · exact .inl hfull
    · simp only [Full, not_forall, not_not] at hfull
      obtain ⟨slot, hlt, hfree⟩ := hfull
      exact .inr ⟨slot, by omega, hlt, hfree⟩
  rw [← always_iff_meets (P := fun fr => Full fr ∨ Reachable fr)
    (fun fr event fr' hcomplete hstep => mapStep_complete_iff hcomplete hstep) hstart]
  exact ⟨Always.mono fun _ => allocatesCompletely_iff.mp,
    Always.mono fun _ => allocatesCompletely_iff.mpr⟩

/-- Two items are created, and the first is removed again. -/
def sampleTurnover : List Op :=
  [.create samplePath ['f'], .create sampleOther ['f'], .remove samplePath]

theorem allocatesCompletely_run_sample :
    ∃ s events, run (Session.step sampleHost) (.initial (sampleVolume 2 (by decide)))
        sampleTurnover = .ok s ∧
      run (mapStep sampleHost) (sampleVolume 2 (by decide)).root events = .ok s.vol.root ∧
      (Always (mapStep sampleHost) AllocatesCompletely (sampleVolume 2 (by decide)).root events ↔
        Meets (mapStep sampleHost) (KeepsReach sampleHost)
          (sampleVolume 2 (by decide)).root events) := by
  obtain ⟨s, hrun, -⟩ := @ok_of_eval _ _ _
    (run (Session.step sampleHost) (.initial (sampleVolume 2 (by decide))) sampleTurnover)
    (fun s => s.vol.root.clusterMap.length) 2 (by decide +kernel)
  obtain ⟨events, hevents⟩ := run_history hrun
  exact ⟨s, events, hrun, hevents, allocatesCompletely_run_iff rfl events⟩

/-- The slot of the removed item is free, and the next allocation fails. -/
theorem not_allocatesCompletely_turnover :
    ∃ s, run (Session.step sampleHost) (.initial (sampleVolume 2 (by decide)))
        sampleTurnover = .ok s ∧
      ¬ AllocatesCompletely s.vol.root := by
  obtain ⟨s, hrun, heval⟩ := @ok_of_eval _ _ _
    (run (Session.step sampleHost) (.initial (sampleVolume 2 (by decide))) sampleTurnover)
    (fun s => ((allocatecluster s.vol.root).2, s.vol.root.clusterMap.length,
      (s.vol.root.block 0).fcode)) (none, 2, Fcode.zero) (by decide +kernel)
  obtain ⟨halloc, hrest⟩ := Prod.mk.inj heval
  obtain ⟨hlength, hfree⟩ := Prod.mk.inj hrest
  have hlt : 0 < s.vol.root.clusterMap.length := by
    rw [show s.vol.root.clusterMap.length = 2 from hlength]
    decide
  exact ⟨s, hrun, fun hcomplete => hcomplete.none_iff.mp halloc 0 hlt hfree⟩

end BlockyOS.HostTool
