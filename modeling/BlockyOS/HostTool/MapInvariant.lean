import BlockyOS.Foundation.Table
import BlockyOS.HostTool.Edits

/-!
# The cluster-map invariant

The entries of a file are numbered from 0 without gaps, and the first of them
describes the file.  Entering and extending keep it so.  Removal clears the
first entry only, which is enough for an item of one cluster and breaks the
numbering of a longer one.
-/

namespace BlockyOS.HostTool

open BlockyOS.Foundation

structure MapInvariant (fr : ConfFsroot) : Prop where
  distinct : ∀ {s t i : Nat} {c : Fcode}, c ≠ Fcode.zero →
    HasEntry fr s c i → HasEntry fr t c i → s = t
  dense : ∀ {s i : Nat} {c : Fcode}, c ≠ Fcode.zero → HasEntry fr s c i →
    ∃ k, 1 ≤ k ∧ ∀ j, (∃ t, HasEntry fr t c j) ↔ j < k
  metadata : ∀ {s i : Nat} {c : Fcode}, c ≠ Fcode.zero → HasEntry fr s c i →
    (flagcheck (fr.block s).attributes fsMetadataCluster ↔ i = 0)

/-! ## The map as a table of numbered slots -/

def FsBlock.number (fb : FsBlock) : Nat := fb.index.toNat

abbrev DenseCode (fr : ConfFsroot) (c : Fcode) : Prop :=
  Dense FsBlock.fcode FsBlock.number fr.clusterMap c

theorem hasEntry_iff {fr : ConfFsroot} {s i : Nat} {c : Fcode} :
    HasEntry fr s c i ↔
      ∃ hs : s < fr.clusterMap.length,
        fr.clusterMap[s].fcode = c ∧ fr.clusterMap[s].number = i := by
  constructor
  · rintro ⟨hs, hcode, hindex⟩
    rw [ConfFsroot.block_eq_getElem hs] at hcode hindex
    exact ⟨hs, hcode, hindex⟩
  · rintro ⟨hs, hcode, hindex⟩
    rw [HasEntry, ConfFsroot.block_eq_getElem hs]
    exact ⟨hs, hcode, hindex⟩

theorem mem_numbers_iff {fr : ConfFsroot} {i : Nat} {c : Fcode} :
    i ∈ numbers FsBlock.fcode FsBlock.number fr.clusterMap c ↔ ∃ s, HasEntry fr s c i := by
  rw [mem_numbers]
  exact exists_congr fun s => hasEntry_iff.symm

theorem DenseCode.exists_iff {fr : ConfFsroot} {c : Fcode} (h : DenseCode fr c) (i : Nat) :
    (∃ s, HasEntry fr s c i) ↔ i < countFcode fr c := by
  rw [← mem_numbers_iff]
  exact h.mem_iff i

theorem countFcode_le (fr : ConfFsroot) (c : Fcode) :
    countFcode fr c ≤ fr.nClusterItems := by
  rw [← fr.length_clusterMap]
  exact List.countP_le_length

theorem countFcode_pos {fr : ConfFsroot} {s i : Nat} {c : Fcode} (h : HasEntry fr s c i) :
    0 < countFcode fr c := by
  obtain ⟨hs, hcode, -⟩ := hasEntry_iff.mp h
  exact List.countP_pos_iff.mpr ⟨_, List.getElem_mem hs, by simpa using hcode⟩

/-! ## The two readings of the invariant -/

def MetadataFirst (fr : ConfFsroot) : Prop :=
  ∀ s, (fr.block s).fcode ≠ Fcode.zero →
    (flagcheck (fr.block s).attributes fsMetadataCluster ↔ (fr.block s).index = 0)

theorem MapInvariant.denseCode {fr : ConfFsroot} (h : MapInvariant fr) {c : Fcode}
    (hc : c ≠ Fcode.zero) : DenseCode fr c := by
  by_cases hnone : ∃ s i, HasEntry fr s c i
  · obtain ⟨s, i, hentry⟩ := hnone
    obtain ⟨k, -, hk⟩ := h.dense hc hentry
    apply dense_of_segment (n := k)
    · rw [nodup_numbers_iff]
      intro s t hs ht hks hkt hnum
      exact h.distinct hc (hasEntry_iff.mpr ⟨hs, hks, rfl⟩)
        (hasEntry_iff.mpr ⟨ht, hkt, hnum.symm⟩)
    · intro i
      rw [mem_numbers_iff]
      exact hk i
  · apply dense_of_nil
    intro x hx hkey
    obtain ⟨s, hs, rfl⟩ := List.mem_iff_getElem.mp hx
    exact hnone ⟨s, _, hasEntry_iff.mpr ⟨hs, hkey, rfl⟩⟩

theorem mapInvariant_iff {fr : ConfFsroot} :
    MapInvariant fr ↔ (∀ c, c ≠ Fcode.zero → DenseCode fr c) ∧ MetadataFirst fr := by
  constructor
  · intro h
    refine ⟨fun c hc => h.denseCode hc, fun s hs => ?_⟩
    rw [h.metadata hs (hasEntry_of_code hs)]
    constructor
    · exact fun hzero => BitVec.eq_of_toNat_eq hzero
    · exact fun hzero => by rw [hzero]; rfl
  · rintro ⟨hdense, hmeta⟩
    refine ⟨?_, ?_, ?_⟩
    · intro s t i c hc hs ht
      obtain ⟨hs, hks, hns⟩ := hasEntry_iff.mp hs
      obtain ⟨ht, hkt, hnt⟩ := hasEntry_iff.mp ht
      exact nodup_numbers_iff.mp (hdense c hc).nodup s t hs ht hks hkt (hns.trans hnt.symm)
    · intro s i c hc hentry
      exact ⟨countFcode fr c, countFcode_pos hentry, (hdense c hc).exists_iff⟩
    · rintro s i c hc ⟨-, rfl, rfl⟩
      rw [hmeta s hc]
      exact ⟨fun hzero => by rw [hzero]; rfl, fun hzero => BitVec.eq_of_toNat_eq hzero⟩

theorem MapInvariant.setCursor {fr : ConfFsroot} (h : MapInvariant fr) (slot : Nat) :
    MapInvariant (fr.setCursor slot) := by
  rw [mapInvariant_iff] at h ⊢
  exact h

/-! ## Edits keep the invariant -/

theorem extensionEntry_index {fr : ConfFsroot} (family : Nat) :
    (extensionEntry fr family).index.toNat = countFcode fr (fr.block family).fcode := by
  have hle := countFcode_le fr (fr.block family).fcode
  have hlt := fr.nClusterItems_lt
  change (BitVec.ofNat 32 _).toNat = _
  rw [BitVec.toNat_ofNat, Nat.mod_eq_of_lt (by omega)]

theorem denseCode_setBlock {fr : ConfFsroot} {fb : Nat} {entry : FsBlock}
    (hlt : fb < fr.clusterMap.length) (hfree : (fr.block fb).fcode = Fcode.zero)
    (hnext : entry.fcode ≠ Fcode.zero →
      entry.index.toNat = countFcode fr entry.fcode)
    {c : Fcode} (hc : c ≠ Fcode.zero) (h : DenseCode fr c) :
    DenseCode (fr.setBlock fb entry) c := by
  have hold : fr.clusterMap[fb].fcode ≠ c := by
    rw [← ConfFsroot.block_eq_getElem hlt, hfree]
    exact hc.symm
  by_cases hnew : entry.fcode = c
  · subst hnew
    exact h.set_next hlt hold rfl (hnext hc)
  · exact h.set_other hlt hold hnew

theorem metadataFirst_setBlock {fr : ConfFsroot} {fb : Nat} {entry : FsBlock}
    (hlt : fb < fr.clusterMap.length) (h : MetadataFirst fr)
    (hentry : entry.fcode ≠ Fcode.zero →
      (flagcheck entry.attributes fsMetadataCluster ↔ entry.index = 0)) :
    MetadataFirst (fr.setBlock fb entry) := by
  intro s hs
  by_cases hslot : s = fb
  · subst hslot
    rw [ConfFsroot.block_setBlock_same hlt] at hs ⊢
    exact hentry hs
  · rw [ConfFsroot.block_setBlock_other hslot] at hs ⊢
    exact h s hs

theorem MapInvariant.edit {fr fr' : ConfFsroot} {codes : Set Fcode} (h : MapInvariant fr)
    (hedit : Edit codes fr fr') : MapInvariant fr' := by
  cases hedit with
  | cursor slot => exact h.setCursor slot
  | extend family fb hlt hfree =>
      rw [mapInvariant_iff] at h ⊢
      refine ⟨fun c hc => denseCode_setBlock hlt hfree
        (fun _ => extensionEntry_index family) hc (h.1 c hc), ?_⟩
      refine metadataFirst_setBlock hlt h.2 fun hlive => ?_
      -- the file has an entry already, so the new one is not its first
      have hcount := countFcode_pos (hasEntry_of_code (s := family) hlive)
      rw [← extensionEntry_index] at hcount
      have hflag : flagcheck (extensionEntry fr family).attributes fsMetadataCluster = false :=
        flagcheck_flagunset (by decide)
      constructor
      · intro hset
        rw [hflag] at hset
        cases hset
      · intro hzero
        rw [hzero] at hcount
        exact absurd hcount (by decide)
  | create c attributes fb hlt hfree hmeta hplain hnew =>
      rw [mapInvariant_iff] at h ⊢
      refine ⟨fun c' hc' => denseCode_setBlock hlt hfree (fun hc => ?_) hc' (h.1 c' hc'),
        metadataFirst_setBlock hlt h.2 fun _ => by simp [hmeta]⟩
      have hnone : ¬ 0 < countFcode fr c := by
        rw [← (h.1 c hc).exists_iff 0]
        rintro ⟨slot, hslot⟩
        exact hnew slot hslot
      change 0 = countFcode fr c
      omega

theorem MapInvariant.edits {fr fr' : ConfFsroot} {codes : Set Fcode} (h : MapInvariant fr)
    (hedits : Edits codes fr fr') : MapInvariant fr' := by
  induction hedits with
  | refl => exact h
  | tail _ hedit ih => exact ih.edit hedit

/-! ## Removal -/

theorem clearBlock_fcode (fr : ConfFsroot) (fb : Nat) {s : Nat} (hs : s < fr.clusterMap.length) :
    ((clearBlock fr fb).block s).fcode =
      if s = fb then Fcode.zero else (fr.block s).fcode := by
  unfold clearBlock
  by_cases hslot : s = fb
  · subst hslot
    rw [ConfFsroot.block_setBlock_same hs, if_pos rfl]
  · rw [ConfFsroot.block_setBlock_other hslot, if_neg hslot]

theorem metadataFirst_clearBlock {fr : ConfFsroot} {fb : Nat}
    (hlt : fb < fr.clusterMap.length) (h : MetadataFirst fr) :
    MetadataFirst (clearBlock fr fb) :=
  metadataFirst_setBlock hlt h fun hlive => absurd rfl hlive

theorem mapInvariant_clearBlock_iff {fr : ConfFsroot} {fb : Nat} {c : Fcode}
    (h : MapInvariant fr) (hentry : HasEntry fr fb c 0) :
    MapInvariant (clearBlock fr fb) ↔ c = Fcode.zero ∨ countFcode fr c ≤ 1 := by
  obtain ⟨hlt, hcode, hnum⟩ := hasEntry_iff.mp hentry
  rw [mapInvariant_iff] at h
  rw [mapInvariant_iff, and_iff_left (metadataFirst_clearBlock hlt h.2)]
  by_cases hzero : c = Fcode.zero
  · refine iff_of_true (fun c' hc' => ?_) (.inl hzero)
    exact (h.1 c' hc').set_other hlt (by rw [hcode, hzero]; exact hc'.symm) hc'.symm
  have hself : DenseCode (clearBlock fr fb) c ↔ countFcode fr c ≤ 1 :=
    dense_set_remove_zero_iff hlt (h.1 c hzero) hcode hnum (Ne.symm hzero)
  rw [or_iff_right hzero, ← hself]
  constructor
  · exact fun hall => hall c hzero
  · intro hc c' hc'
    by_cases hsame : c' = c
    · rw [hsame]
      exact hc
    · exact (h.1 c' hc').set_other hlt (by rw [hcode]; exact Ne.symm hsame) hc'.symm

theorem ffremove_ok {E : Host} {fr fr' : ConfFsroot} {path : Path}
    (h : ffremove E fr path = .ok fr') :
    ∃ fb, ffind E fr path = some fb ∧ HasEntry fr fb (getfcode E path) 0 ∧
      fr' = clearBlock fr fb := by
  unfold ffremove at h
  split at h
  case h_1 fb hfind =>
    cases h
    exact ⟨fb, hfind, ffind_some hfind, rfl⟩
  case h_2 => cases h

/-! ## Replacing an item -/

theorem MapInvariant.replace {fr : ConfFsroot} {fb slot : Nat} {c : Fcode}
    {entry : FsBlock} (h : MapInvariant fr) (hentry : HasEntry fr fb c 0)
    (hlt : slot < fr.clusterMap.length)
    (hfree : ((clearBlock fr fb).block slot).fcode = Fcode.zero)
    (hcode : entry.fcode = c) (hindex : entry.index = 0)
    (hmeta : flagcheck entry.attributes fsMetadataCluster) :
    MapInvariant ((clearBlock fr fb).setBlock slot entry) := by
  obtain ⟨hfb, hkey, hnum⟩ := hasEntry_iff.mp hentry
  have hlt' : slot < (clearBlock fr fb).clusterMap.length := by
    simpa [clearBlock] using hlt
  rw [mapInvariant_iff] at h ⊢
  refine ⟨fun c' hc' => ?_, metadataFirst_setBlock hlt'
    (metadataFirst_clearBlock hfb h.2) fun _ => by simp [hmeta, hindex]⟩
  have hold : (clearBlock fr fb).clusterMap[slot].fcode ≠ c' := by
    rw [← ConfFsroot.block_eq_getElem hlt', hfree]
    exact hc'.symm
  by_cases hsame : c = c'
  · subst hsame
    exact (h.1 c hc').set_move hfb hkey hc'.symm hlt' hold hcode
      (by rw [hnum, FsBlock.number, hindex]; rfl)
  · have hclear : DenseCode (clearBlock fr fb) c' :=
      (h.1 c' hc').set_other hfb (by rw [hkey]; exact hsame) hc'.symm
    exact hclear.set_other hlt' hold (by rw [hcode]; exact hsame)

/-- A free slot is in reach of the scan of `allocatecluster`. -/
def Reachable (fr : ConfFsroot) : Prop :=
  ∃ slot, fr.lastClusterAlloc ≤ slot ∧ slot < fr.clusterMap.length ∧
    (fr.block slot).fcode = Fcode.zero

/--
What a create must find for the map to stay in order: an item that `F` makes it
replace owns one entry, or the new item finds a slot.
-/
def ReplaceFits (E : Host) (fr : ConfFsroot) (path : Path) (flags : List Char) : Prop :=
  ∀ fb, ffind E fr path = some fb → strcheck flags 'F' →
    getfcode E path = Fcode.zero ∨ countFcode fr (getfcode E path) ≤ 1 ∨
      Reachable (clearBlock fr fb)

theorem mapInvariant_fcreate_iff {E : Host} {v v' : Volume} {path : Path}
    {flags : List Char} (hinv : MapInvariant v.root)
    (h : fcreate E v path flags = .ok v') :
    MapInvariant v'.root ↔ ReplaceFits E v.root path flags := by
  cases fcreate_spec h with
  | new _ hfind hcreated =>
      refine iff_of_true (hinv.edits (hcreated.edits (ffind_none hfind))) ?_
      intro fb hfb
      rw [hfind] at hfb
      cases hfb
  | kept fb hfind hkeep =>
      exact iff_of_true hinv fun _ _ hF => absurd hF hkeep
  | replaced _ fb hfind hF hspec =>
      have hentry := ffind_some hfind
      have hfits : ReplaceFits E v.root path flags ↔
          getfcode E path = Fcode.zero ∨ countFcode v.root (getfcode E path) ≤ 1 ∨
            Reachable (clearBlock v.root fb) := by
        constructor
        · exact fun hall => hall fb hfind hF
        · intro hcond fb' hfb' _
          rw [hfind] at hfb'
          obtain rfl := Option.some.inj hfb'
          exact hcond
      rw [hfits]
      cases hspec with
      | full _ halloc =>
          obtain ⟨hroot, hbusy⟩ := allocatecluster_none halloc
          have hunreachable : ¬ Reachable (clearBlock v.root fb) := by
            rintro ⟨slot, hlow, hhigh, hfree⟩
            exact hbusy slot hlow hhigh hfree
          have hcursor : MapInvariant v'.root ↔ MapInvariant (clearBlock v.root fb) := by
            rw [hroot, mapInvariant_iff, mapInvariant_iff]
            rfl
          rw [hcursor, mapInvariant_clearBlock_iff hinv hentry]
          simp [hunreachable]
      | entered fr₁ _ slot halloc hedits =>
          obtain ⟨rfl, hlt, hlow, hfree, -⟩ := allocatecluster_some halloc
          refine iff_of_true (MapInvariant.edits ?_ hedits)
            (.inr (.inr ⟨slot, hlow, hlt, hfree⟩))
          have hreplace := @MapInvariant.replace _ _ _ _
            (createdEntry E (clearBlock v.root fb) slot path flags) hinv hentry
            (by simpa [clearBlock] using hlt) hfree rfl rfl
            (flagcheck_createAttributes _ _)
          rw [mapInvariant_iff] at hreplace ⊢
          exact hreplace

/-! ## Runs -/

/-- The condition on one call. -/
def KeepsNumbering (E : Host) (s : Session) : Op → Prop
  | .remove path =>
      getfcode E path = Fcode.zero ∨ countFcode s.vol.root (getfcode E path) ≤ 1
  | .create path flags => ReplaceFits E s.vol.root path flags
  | .loadh path args => strcheck args 'c' → ReplaceFits E s.vol.root path args
  | _ => True

theorem mapInvariant_step_iff {E : Host} {s s' : Session} {op : Op}
    (hinv : MapInvariant s.vol.root) (h : s.step E op = .ok s') :
    MapInvariant s'.vol.root ↔ KeepsNumbering E s op := by
  have hroot := step_root h
  cases op with
  | remove path =>
      obtain ⟨fb, -, hentry, heq⟩ := ffremove_ok hroot
      rw [heq]
      exact mapInvariant_clearBlock_iff hinv hentry
  | create path flags => exact mapInvariant_fcreate_iff hinv hroot
  | loadh path args =>
      rw [StepRoot] at hroot
      rw [KeepsNumbering]
      split at hroot
      case isTrue hc =>
        rw [imp_iff_right hc]
        exact mapInvariant_fcreate_iff hinv hroot
      case isFalse hc =>
        rw [hroot]
        exact iff_of_true hinv fun hc' => absurd hc' hc
  | _ => exact iff_of_true (hinv.edits hroot) trivial

theorem mapInvariant_fresh {fr : ConfFsroot}
    (hfresh : ∀ fb ∈ fr.clusterMap, fb = FsBlock.zero) : MapInvariant fr := by
  have hzero : ∀ s, (fr.block s).fcode = Fcode.zero := by
    intro s
    by_contra hlive
    have hmem := List.getElem_mem (slot_lt hlive)
    rw [← ConfFsroot.block_eq_getElem (slot_lt hlive)] at hmem
    exact hlive (by rw [hfresh _ hmem]; rfl)
  rw [mapInvariant_iff]
  refine ⟨fun c hc => dense_of_nil fun x hx => ?_, fun s hs => absurd (hzero s) hs⟩
  rw [hfresh x hx]
  exact hc.symm

/--
From a fresh format, the map is in order after every call of a run if and only
if no call removes, or replaces without finding room, an item of several
clusters.
-/
theorem mapInvariant_always_iff (E : Host) (vol : Volume) (ops : List Op)
    (hfresh : ∀ fb ∈ vol.root.clusterMap, fb = FsBlock.zero) :
    Always (Session.step E) (fun s => MapInvariant s.vol.root) (.initial vol) ops ↔
      Meets (Session.step E) (KeepsNumbering E) (.initial vol) ops :=
  always_iff_meets (fun _ _ _ hinv hstep => mapInvariant_step_iff hinv hstep)
    (mapInvariant_fresh hfresh)

/-- A file of one data cluster is created and removed in a map of four slots. -/
theorem mapInvariant_always_iff_sample :
    Always (Session.step sampleHost) (fun s => MapInvariant s.vol.root)
        (.initial (sampleVolume 4 (by decide)))
        [.loadh samplePath ['c', 'f'], .write 0 [0x78], .remove samplePath] ↔
      Meets (Session.step sampleHost) (KeepsNumbering sampleHost)
        (.initial (sampleVolume 4 (by decide)))
        [.loadh samplePath ['c', 'f'], .write 0 [0x78], .remove samplePath] :=
  mapInvariant_always_iff sampleHost _ _ fun _ hfb => List.eq_of_mem_replicate hfb

/-- The removed file leaves its data cluster behind, with index 1 and no index 0. -/
theorem mapInvariant_lost :
    (∀ fb ∈ (sampleVolume 4 (by decide)).root.clusterMap, fb = FsBlock.zero) ∧
      ¬ Always (Session.step sampleHost) (fun s => MapInvariant s.vol.root)
        (.initial (sampleVolume 4 (by decide)))
        [.loadh samplePath ['c', 'f'], .write 0 [0x78], .remove samplePath] := by
  refine ⟨fun _ hfb => List.eq_of_mem_replicate hfb, fun halways => ?_⟩
  have heval : ((run (Session.step sampleHost) (.initial (sampleVolume 4 (by decide)))
      [.loadh samplePath ['c', 'f'], .write 0 [0x78], .remove samplePath]).map
        fun s => s.vol.root.clusterMap).toOption =
      some [⟨Fcode.zero, 4, 0⟩, ⟨getfcode sampleHost samplePath, 0, 1⟩, FsBlock.zero,
        FsBlock.zero] := by
    decide +kernel
  obtain ⟨s, hrun, hmap⟩ := ok_of_eval heval
  have hinv := halways.of_run hrun
  have hentry : HasEntry s.vol.root 1 (getfcode sampleHost samplePath) 1 :=
    hasEntry_iff.mpr (by simp [hmap, FsBlock.number])
  have hlive : getfcode sampleHost samplePath ≠ Fcode.zero := by decide
  have hnone : countFcode s.vol.root (getfcode sampleHost samplePath) = 1 := by
    rw [countFcode, hmap]
    decide
  -- one entry would have to be numbered 0
  have hone := ((hinv.denseCode hlive).exists_iff 1).mp ⟨1, hentry⟩
  omega

end BlockyOS.HostTool
