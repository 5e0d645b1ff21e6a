import BlockyOS.HostTool.RoundTrip

/-!
# The metadata block under writes

`__fpush1` refuses to write the block of the entry a handle was opened on.  It
compares the index of 64 bits, while the search for any other block cuts the
index to 32 bits, so that a far position leads to the metadata block again.
-/

namespace BlockyOS.HostTool

open BlockyOS.Foundation

/-! ## Maps that the tool makes -/

/-- No entry is an extension cluster, and only first entries carry the metadata flag. -/
def Marked (fr : ConfFsroot) : Prop :=
  ∀ s, flagcheck (fr.block s).attributes fsExtensionAllocatedCluster = false ∧
    (flagcheck (fr.block s).attributes fsMetadataCluster = true → (fr.block s).index = 0)

theorem Marked.setBlock {fr : ConfFsroot} {fb : Nat} {entry : FsBlock} (h : Marked fr)
    (hplain : flagcheck entry.attributes fsExtensionAllocatedCluster = false)
    (hfirst : flagcheck entry.attributes fsMetadataCluster = true → entry.index = 0) :
    Marked (fr.setBlock fb entry) := by
  intro s
  by_cases hs : s = fb
  · subst hs
    by_cases hlt : s < fr.clusterMap.length
    · rw [ConfFsroot.block_setBlock_same hlt]
      exact ⟨hplain, hfirst⟩
    · have hsame : (fr.setBlock s entry).block s = fr.block s := by
        rw [ConfFsroot.block, ConfFsroot.setBlock_clusterMap, ConfFsroot.block,
          List.set_eq_of_length_le (by omega)]
      rw [hsame]
      exact h s
  · rw [ConfFsroot.block_setBlock_other hs]
    exact h s

theorem Marked.edit {codes : Set Fcode} {fr fr' : ConfFsroot} (h : Marked fr)
    (hedit : Edit codes fr fr') : Marked fr' := by
  cases hedit with
  | cursor slot => exact h
  | extend family fb hlt hfree hcode =>
      refine h.setBlock ?_ fun hflag => ?_
      · exact (flagcheck_flagunset_of_disjoint (by decide)).trans (h family).1
      · have hunset : flagcheck (extensionEntry fr family).attributes fsMetadataCluster = false :=
          flagcheck_flagunset (by decide)
        rw [hunset] at hflag
        cases hflag
  | create c attributes fb hlt hfree hmeta hplain hnew hcode =>
      exact h.setBlock (hplain.trans (h fb).1) fun _ => rfl

theorem Marked.edits {codes : Set Fcode} {fr fr' : ConfFsroot} (h : Marked fr)
    (hedits : Edits codes fr fr') : Marked fr' := by
  induction hedits with
  | refl => exact h
  | tail _ hedit ih => exact ih.edit hedit

theorem Marked.clearBlock {fr : ConfFsroot} (h : Marked fr) (fb : Nat) :
    Marked (clearBlock fr fb) :=
  h.setBlock (h fb).1 (h fb).2

theorem Marked.fcreate {E : Host} {v v' : Volume} {path : Path} {flags : List Char}
    (h : Marked v.root) (hcreate : fcreate E v path flags = .ok v') : Marked v'.root := by
  have hcreated : ∀ {fr : ConfFsroot}, Marked fr → Created E fr path flags v'.root →
      Marked v'.root := by
    intro fr hfr hcreated
    cases hcreated with
    | full _ halloc =>
        rw [(allocatecluster_none halloc).1]
        exact hfr
    | entered fr₁ _ fb halloc hedits =>
        obtain ⟨rfl, -⟩ := allocatecluster_some halloc
        refine Marked.edits ?_ hedits
        exact hfr.setBlock
          ((flagcheck_createAttributes_extension _ _).trans (hfr fb).1) fun _ => rfl
  cases fcreate_spec hcreate with
  | new _ _ hspec => exact hcreated h hspec
  | replaced _ fb _ _ hspec => exact hcreated (h.clearBlock fb) hspec
  | kept => exact h

theorem Marked.step {E : Host} {s s' : Session} {op : Op} (h : Marked s.vol.root)
    (hstep : s.step E op = .ok s') : Marked s'.vol.root := by
  have hroot := step_root hstep
  cases op with
  | create path flags => exact h.fcreate hroot
  | loadh path args =>
      rw [StepRoot] at hroot
      split at hroot
      case isTrue => exact h.fcreate hroot
      case isFalse =>
        rw [hroot]
        exact h
  | remove path =>
      obtain ⟨fb, -, -, hclear⟩ := ffremove_ok hroot
      rw [hclear]
      exact h.clearBlock fb
  | loadhdir path args => exact h.edits hroot
  | write handle data => exact h.edits hroot
  | read handle nbytes => exact h.edits hroot
  | seek handle progress => exact h.edits hroot
  | list handle index => exact h.edits hroot
  | unloaddir handle => exact h.edits hroot
  | unloadh handle => exact h.edits hroot

theorem marked_run {E : Host} {vol : Volume} {ops : List Op} {s : Session}
    (hfresh : ∀ fb ∈ vol.root.clusterMap, fb = FsBlock.zero)
    (hrun : run (Session.step E) (.initial vol) ops = .ok s) : Marked s.vol.root := by
  have hinitial : Marked vol.root := by
    intro slot
    have hzero : vol.root.block slot = FsBlock.zero := by
      by_cases hlt : slot < vol.root.clusterMap.length
      · rw [ConfFsroot.block_eq_getElem hlt]
        exact hfresh _ (List.getElem_mem hlt)
      · exact block_of_le (by omega)
    rw [hzero]
    exact ⟨by decide, fun _ => rfl⟩
  exact @run_invariant _ _ _ _ (fun s : Session => Marked s.vol.root)
    (fun _ _ _ h hstep => h.step hstep) _ _ _ hinitial hrun

/-! ## One pass of the write loop -/

/-- The slot that `__fpush1` writes its buffer to. -/
def pushSlot (v : Volume) (fb i : Nat) : Option Nat :=
  if i ≠ (v.root.block fb).index.toNat then
    match (skipExtension v.root (v.root.block fb).fcode (v.root.nClusterItems + 2)
        (ffindhi v.root (v.root.block fb).fcode i) i).1 with
    | some fb' => some fb'
    | none => (faddr v fb).2
  else if flagcheck (v.root.block fb).attributes fsMetadataCluster then none else some fb

/-- What `__fpush1` does for a handle on a metadata entry: the slot it writes, and the volume. -/
inductive Pushes (v : Volume) (file : Nat) (c : Fcode) (i : Nat) (buffer : Bytes) :
    Option Nat → Volume → Prop
  | rejected (hi : i = 0) : Pushes v file c i buffer none v
  | found (t : Nat) (hi : i ≠ 0) (hfind : ffindhi v.root c i = some t) :
      Pushes v file c i buffer (some t) (v.writeAt t buffer v.root.blkSize)
  | fresh (fb : Nat) (hi : i ≠ 0) (hnone : ffindhi v.root c i = none)
      (halloc : allocatecluster v.root = (v.root.setCursor fb, some fb)) :
      Pushes v file c i buffer (some fb)
        (((v.extended file fb).writeAt fb (zeros v.root.blkSize) v.root.blkSize).writeAt fb
          buffer v.root.blkSize)
  | full (hi : i ≠ 0) (hnone : ffindhi v.root c i = none) :
      Pushes v file c i buffer none { v with root := v.root.setCursor 0 }

section OnePass

variable {v : Volume} {file : Nat} {c : Fcode} (hmarked : Marked v.root)
  (hfile : HasEntry v.root file c 0)

include hmarked

theorem Marked.plain (i : Nat) : Plain v.root c i := fun s _ => (hmarked s).1

theorem fread1_index (i : Nat) : (fread1 v file i).2 = i := by
  unfold fread1
  rw [skipExtension_plain (hmarked.plain i)]
  split
  case isTrue => cases ffindhi v.root (v.root.block file).fcode i <;> rfl
  case isFalse => rfl

include hfile

theorem fpush1_pushes (hflag : flagcheck (v.root.block file).attributes fsMetadataCluster = true)
    (i : Nat) (buffer : Bytes) :
    Pushes v file c i buffer (pushSlot v file i) (fpush1 v file i buffer).1 := by
  obtain ⟨-, hcode, hindex⟩ := hfile
  unfold pushSlot fpush1
  rw [hindex, hcode, skipExtension_plain (hmarked.plain i)]
  by_cases hi : i = 0
  · subst hi
    have hsame : ¬ (0 : Nat) ≠ 0 := not_not_intro rfl
    rw [if_neg hsame, if_neg hsame, if_pos hflag, if_pos hflag]
    exact .rejected rfl
  · rw [if_pos hi, if_pos hi]
    cases hfind : ffindhi v.root c i with
    | some t => exact .found t hi hfind
    | none =>
        cases hadd : faddr v file with
        | mk v' slot =>
            cases slot with
            | none =>
                obtain ⟨-, rfl⟩ := faddr_none hadd
                exact .full hi hfind
            | some fb =>
                obtain ⟨halloc, rfl⟩ := faddr_some hadd
                exact .fresh fb hi hfind halloc

theorem fwriteBlock_pushes
    (hflag : flagcheck (v.root.block file).attributes fsMetadataCluster = true)
    (i blkOffset : Nat) (src : Bytes) :
    ∃ buffer, Pushes v file c i buffer (pushSlot v file i)
      (fwriteBlock v file i blkOffset src) := by
  unfold fwriteBlock
  split
  case isTrue =>
    have hindex := @fread1_index v file hmarked i
    cases hread : fread1 v file i with
    | mk blk i' =>
        rw [hread] at hindex
        obtain rfl : i' = i := hindex
        exact ⟨_, fpush1_pushes hmarked hfile hflag i' _⟩
  case isFalse => exact ⟨_, fpush1_pushes hmarked hfile hflag i _⟩

end OnePass

/-! ## What the passes keep -/

structure Guarded (v₀ : Volume) (file : Nat) (c : Fcode) (v : Volume) : Prop where
  marked : Marked v.root
  geometry : ConfFsroot.SameGeometry v₀.root v.root
  entry : HasEntry v.root file c 0
  flag : flagcheck (v.root.block file).attributes fsMetadataCluster = true
  first : ∀ t, HasEntry v.root t c 0 ↔ HasEntry v₀.root t c 0

def Aliases (i : Nat) : Prop := i ≠ 0 ∧ u32 i = 0

theorem hasEntry_extended_iff {v : Volume} {file fb t : Nat} {c : Fcode} (hc : c ≠ Fcode.zero)
    (hfile : HasEntry v.root file c 0)
    (halloc : allocatecluster v.root = (v.root.setCursor fb, some fb)) :
    HasEntry (v.extended file fb).root t c 0 ↔ HasEntry v.root t c 0 := by
  obtain ⟨-, hlt, -, hfree, -⟩ := allocatecluster_some halloc
  refine (@hasEntry_setBlock_iff (v.root.setCursor fb) fb (extensionEntry v.root file) hlt t 0
    c).trans ?_
  constructor
  · rintro (⟨-, -, hindex⟩ | ⟨-, hentry⟩)
    · rw [extensionEntry_index, hfile.2.1] at hindex
      have hcount := countFcode_pos hfile
      omega
    · exact hentry
  · intro hentry
    refine .inr ⟨?_, hentry⟩
    rintro rfl
    rw [hentry.2.1] at hfree
    exact hc hfree

section Pass

variable {v₀ v v' : Volume} {file i : Nat} {c : Fcode} {buffer : Bytes} {slot : Option Nat}
  (hc : c ≠ Fcode.zero) (h : Guarded v₀ file c v) (hpush : Pushes v file c i buffer slot v')

include hc h hpush

theorem Guarded.pass : Guarded v₀ file c v' := by
  cases hpush with
  | rejected => exact h
  | found t => exact ⟨h.marked, h.geometry, h.entry, h.flag, h.first⟩
  | full => exact ⟨h.marked, h.geometry.trans (.setCursor _ _), h.entry, h.flag, h.first⟩
  | fresh fb hi hnone halloc =>
      have hedits := @extended_edits v file fb halloc
      refine ⟨h.marked.edits hedits, h.geometry.trans hedits.sameGeometry,
        extended_entry h.entry hc halloc, ?_, fun t => ?_⟩
      · exact (congrArg (fun b => flagcheck b.attributes fsMetadataCluster)
          (extended_block hc halloc h.entry.2.1)).trans h.flag
      · exact (hasEntry_extended_iff hc h.entry halloc).trans (h.first t)

theorem Guarded.pushes_first_iff :
    (∀ t, slot = some t → ¬ HasEntry v₀.root t c 0) ↔ ¬ Aliases i := by
  cases hpush with
  | rejected hi => exact iff_of_true (fun t ht => by cases ht) fun halias => halias.1 hi
  | found t hi hfind =>
      have hentry := ffindhi_some hfind
      constructor
      · rintro hnot ⟨-, hzero⟩
        rw [hzero] at hentry
        exact hnot t rfl ((h.first t).mp hentry)
      · intro hnot t' ht' hfirst
        obtain rfl := Option.some.inj ht'
        have hzero := ((h.first _).mpr hfirst).2.2
        rw [hentry.2.2] at hzero
        exact hnot ⟨hi, hzero⟩
  | fresh fb hi hnone halloc =>
      obtain ⟨-, -, -, hfree, -⟩ := allocatecluster_some halloc
      refine iff_of_true (fun t ht hfirst => ?_) fun halias => ?_
      · obtain rfl := Option.some.inj ht
        rw [((h.first _).mpr hfirst).2.1] at hfree
        exact hc hfree
      · have hmiss := ffindhi_none hnone file
        rw [halias.2] at hmiss
        exact hmiss h.entry
  | full hi hnone =>
      refine iff_of_true (fun t ht => by cases ht) fun halias => ?_
      have hmiss := ffindhi_none hnone file
      rw [halias.2] at hmiss
      exact hmiss h.entry

theorem Guarded.window (haddr : v₀.root.Addressable file) (hblk : 0 < v₀.root.blkSize)
    (hnot : ¬ Aliases i) : v'.window file = v.window file := by
  have hother := (Guarded.pushes_first_iff hc h hpush).mpr hnot
  rw [← h.geometry.blkSize] at hblk
  rw [← h.geometry.addressable] at haddr
  have hfirst := (h.first file).mp h.entry
  have hspan := v.root.blkSize_le_span
  cases hpush with
  | rejected => rfl
  | full => rfl
  | found t hi hfind =>
      have hne : file ≠ t := by
        rintro rfl
        exact hother _ rfl hfirst
      exact Volume.window_writeAt_other hblk hspan (ffindhi_some hfind).1 h.entry.1 hne haddr
  | fresh fb hi hnone halloc =>
      have hne : file ≠ fb := by
        rintro rfl
        exact hother _ rfl hfirst
      have hgeometry := (@extended_edits v file fb halloc).sameGeometry
      obtain ⟨hlt, -⟩ := @extended_slot v file fb halloc
      have hfile : file < (v.extended file fb).root.clusterMap.length := by
        rw [hgeometry.length]
        exact h.entry.1
      have haddr' := (hgeometry.addressable file).mpr haddr
      rw [← hgeometry.span] at hspan
      rw [@Volume.window_writeAt_other ((v.extended file fb).writeAt fb _ _) fb _ _ hblk hspan
          file hlt hfile hne haddr',
        @Volume.window_writeAt_other (v.extended file fb) fb _ _ hblk hspan file hlt hfile hne
          haddr']
      rw [Volume.window, Volume.window, hgeometry.slotOffset, hgeometry.span]
      rfl

end Pass

/-! ## The loop -/

def fwriteSlots (file : Nat) (data : Bytes) : Nat → Volume → Nat → Nat → Nat → List Nat
  | 0, _, _, _, _ => []
  | fuel + 1, v, pos, left, written =>
      if left = 0 then []
      else
        let blkSize := v.root.blkSize
        let chunk := min (blkSize - pos % blkSize) left
        (pushSlot v file (pos / blkSize)).toList ++
          fwriteSlots file data fuel
            (fwriteBlock v file (pos / blkSize) (pos % blkSize) (slice data written chunk))
            (u64 (pos + chunk)) (left - chunk) (written + chunk)

/-- Inside one block only the block itself can be taken for block 0, also where it wraps. -/
theorem not_aliases_inside {b pos y : Nat} (hpos : pos < 2 ^ 64)
    (hy : y < b - pos % b) (hnot : ¬ Aliases (pos / b)) : ¬ Aliases (u64 (pos + y) / b) := by
  by_cases hwrap : pos + y < 2 ^ 64
  · rw [u64_of_lt hwrap, (div_add_of_inside (by omega)).1]
    exact hnot
  · have hlow : u64 (pos + y) / b = 0 := by
      rw [u64, Nat.mod_eq_sub_mod (by omega)]
      exact Nat.div_eq_of_lt (Nat.lt_of_le_of_lt (Nat.mod_le _ _) (by omega))
    rw [hlow]
    exact fun halias => halias.1 rfl

theorem forall_not_aliases_iff {b pos left : Nat} (hpos : pos < 2 ^ 64)
    (hleft : 0 < left) :
    (∀ y, y < left → ¬ Aliases (u64 (pos + y) / b)) ↔
      ¬ Aliases (pos / b) ∧ ∀ y, y < left - min (b - pos % b) left →
        ¬ Aliases (u64 (u64 (pos + min (b - pos % b) left) + y) / b) := by
  have hshift : ∀ y, u64 (u64 (pos + min (b - pos % b) left) + y) =
      u64 (pos + (min (b - pos % b) left + y)) := by
    intro y
    rw [u64, u64, Nat.mod_add_mod, Nat.add_assoc]
    rfl
  constructor
  · intro hall
    refine ⟨?_, fun y hy => ?_⟩
    · have hfirst := hall 0 hleft
      rwa [Nat.add_zero, u64_of_lt hpos] at hfirst
    · rw [hshift]
      exact hall _ (by omega)
  · rintro ⟨hfirst, hrest⟩ y hy
    by_cases hin : y < min (b - pos % b) left
    · exact not_aliases_inside hpos (by omega) hfirst
    · have hlater := hrest (y - min (b - pos % b) left) (by omega)
      rwa [hshift, show min (b - pos % b) left + (y - min (b - pos % b) left) = y by omega]
        at hlater

theorem Guarded.fwriteSlots_iff {v₀ v : Volume} {file : Nat} {c : Fcode} {data : Bytes}
    (hc : c ≠ Fcode.zero) (hblk : 0 < v₀.root.blkSize) (fuel : Nat) {pos left : Nat}
    (written : Nat) (h : Guarded v₀ file c v) (hpos : pos < 2 ^ 64) (hfuel : left ≤ fuel) :
    (∀ t ∈ fwriteSlots file data fuel v pos left written, ¬ HasEntry v₀.root t c 0) ↔
      ∀ y, y < left → ¬ Aliases (u64 (pos + y) / v₀.root.blkSize) := by
  induction fuel generalizing v pos left written with
  | zero =>
      obtain rfl : left = 0 := by omega
      exact iff_of_true (fun t ht => absurd ht List.not_mem_nil) fun y hy => by omega
  | succ fuel ih =>
      rw [fwriteSlots]
      split
      case isTrue hzero =>
        exact iff_of_true (fun t ht => absurd ht List.not_mem_nil) fun y hy => by omega
      case isFalse hleft =>
        obtain ⟨buffer, hpush⟩ := fwriteBlock_pushes h.marked h.entry h.flag
          (pos / v.root.blkSize) (pos % v.root.blkSize)
          (slice data written (min (v.root.blkSize - pos % v.root.blkSize) left))
        have hmod := Nat.mod_lt pos hblk
        have hnext : u64 (pos + min (v₀.root.blkSize - pos % v₀.root.blkSize) left) < 2 ^ 64 :=
          Nat.mod_lt _ (Nat.two_pow_pos 64)
        have hrest := ih (written + min (v₀.root.blkSize - pos % v₀.root.blkSize) left)
          (Guarded.pass hc h hpush) hnext
          (show left - min (v₀.root.blkSize - pos % v₀.root.blkSize) left ≤ fuel by omega)
        have hfirst := Guarded.pushes_first_iff hc h hpush
        rw [forall_not_aliases_iff hpos (by omega)]
        simp only [h.geometry.blkSize] at hrest hfirst ⊢
        rw [← hfirst, ← hrest]
        simp only [List.mem_append, Option.mem_toList, or_imp, forall_and]

theorem Guarded.fwriteLoop_window {v₀ v : Volume} {file : Nat} {c : Fcode} {data : Bytes}
    (hc : c ≠ Fcode.zero) (haddr : v₀.root.Addressable file) (hblk : 0 < v₀.root.blkSize)
    (fuel : Nat) {pos left : Nat} (written : Nat) (h : Guarded v₀ file c v)
    (hpos : pos < 2 ^ 64)
    (hclear : ∀ y, y < left → ¬ Aliases (u64 (pos + y) / v₀.root.blkSize)) :
    (fwriteLoop file data fuel v pos left written).1.window file = v.window file := by
  induction fuel generalizing v pos left written with
  | zero => rfl
  | succ fuel ih =>
      rw [fwriteLoop]
      split
      case isTrue => rfl
      case isFalse hleft =>
        obtain ⟨buffer, hpush⟩ := fwriteBlock_pushes h.marked h.entry h.flag
          (pos / v.root.blkSize) (pos % v.root.blkSize)
          (slice data written (min (v.root.blkSize - pos % v.root.blkSize) left))
        obtain ⟨hfirst, hrest⟩ := (forall_not_aliases_iff hpos (by omega)).mp hclear
        rw [← h.geometry.blkSize] at hfirst hrest
        have hkeep := Guarded.window hc h hpush haddr hblk hfirst
        rw [← hkeep]
        rw [h.geometry.blkSize] at hrest
        exact ih _ (Guarded.pass hc h hpush) (Nat.mod_lt _ (Nat.two_pow_pos 64)) (by
          rw [h.geometry.blkSize]
          exact hrest)

/-! ## The time stamps -/

theorem getElem?_stamped {t : Tm} {finfo : Bytes} (hlen : metaName ≤ finfo.length) {k : Nat}
    (hk : k < metaAccessTime ∨ metaName ≤ k) :
    (stampAccess t (stampWrite t finfo))[k]? = finfo[k]? := by
  have hfield : ∀ (bytes : Bytes) (off n : Nat), metaName ≤ bytes.length →
      metaAccessTime ≤ off → off + 8 ≤ metaName →
      (splice bytes off (leBytes 8 n))[k]? = bytes[k]? ∧
        metaName ≤ (splice bytes off (leBytes 8 n)).length := by
    intro bytes off n hbytes hlow hhigh
    have hpatch : (leBytes 8 n).length = 8 := length_leBytes 8 n
    constructor
    · rw [getElem?_splice _ (by omega), if_neg (by omega)]
    · rwa [length_splice _ (by omega)]
  obtain ⟨h₁, hlen₁⟩ := hfield finfo metaWriteTime t.seconds hlen (by decide) (by decide)
  obtain ⟨h₂, hlen₂⟩ := hfield _ metaWriteDate t.yday hlen₁ (by decide) (by decide)
  obtain ⟨h₃, hlen₃⟩ := hfield _ metaAccessTime t.seconds hlen₂ (by decide) (by decide)
  obtain ⟨h₄, -⟩ := hfield _ metaAccessDate t.yday hlen₃ (by decide) (by decide)
  rw [stampAccess, stampWrite, h₄, h₃, h₂, h₁]

theorem length_stamped {t : Tm} {finfo : Bytes} (hlen : metaName ≤ finfo.length) :
    (stampAccess t (stampWrite t finfo)).length = finfo.length := by
  have hfield : ∀ (bytes : Bytes) (off n : Nat), off + 8 ≤ metaName →
      bytes.length = finfo.length → (splice bytes off (leBytes 8 n)).length = finfo.length := by
    intro bytes off n hoff hbytes
    rw [length_splice _ (by rw [length_leBytes]; omega), hbytes]
  rw [stampAccess, stampWrite]
  exact hfield _ _ _ (by decide) (hfield _ _ _ (by decide) (hfield _ _ _ (by decide)
    (hfield _ _ _ (by decide) rfl)))

def RestZero (v : Volume) (file : Nat) : Prop :=
  ∀ k, sizeofMetaFsBlock ≤ k → k < v.root.span → (v.window file)[k]? = some 0

def KeptBesideTimes (before after : Bytes) : Prop :=
  ∀ k, k < metaAccessTime ∨ metaName ≤ k → after[k]? = before[k]?

theorem fupdatetstamp_kept_iff {E : Host} {v v₁ : Volume} {file : Nat}
    (hstamp : fupdatetstamp E v file true = .ok v₁) (haddr : v.root.Addressable file) :
    KeptBesideTimes (v.window file) (v₁.window file) ↔ RestZero v file := by
  have hspan := v.root.sizeofMetaFsBlock_le_span
  have hsize : metaName ≤ sizeofMetaFsBlock := by decide
  obtain ⟨finfo, hread, rfl⟩ := fupdatetstamp_ok hstamp
  rw [freadinfo, Volume.readAt_eq (by decide) hspan] at hread
  split at hread
  case isFalse => cases hread
  case isTrue hheld =>
    obtain rfl := Option.some.inj hread
    have hwindow := @Volume.window_writeAt_same v file sizeofMetaFsBlock
      (stampAccess (E.localtime v.ticks) (stampWrite (E.localtime v.ticks) (v.window file)))
      (by decide) hspan haddr
    change KeptBesideTimes _ ((v.writeAt file _ sizeofMetaFsBlock).window file) ↔ _
    rw [if_pos rfl, hwindow]
    have hlen : sizeofMetaFsBlock ≤ (stampAccess (E.localtime v.ticks)
        (stampWrite (E.localtime v.ticks) (v.window file))).length := by
      rw [length_stamped (by rw [Volume.length_window]; omega), Volume.length_window]
      exact hspan
    constructor
    · intro hkept k hlow hhigh
      have hsame := hkept k (.inr (by omega))
      rw [getElem?_padTo_take_rest hlen hlow hhigh] at hsame
      exact hsame.symm
    · intro hzero k hk
      rcases Nat.lt_or_ge k sizeofMetaFsBlock with hlow | hhigh
      · rw [getElem?_padTo_take hspan hlen hlow]
        exact getElem?_stamped (by rw [Volume.length_window]; omega) hk
      · rcases Nat.lt_or_ge k v.root.span with hin | hout
        · rw [getElem?_padTo_take_rest hlen hhigh hin]
          exact (hzero k hhigh hin).symm
        · rw [List.getElem?_eq_none (by rw [length_padTo]; exact hout),
            List.getElem?_eq_none (by rw [Volume.length_window]; exact hout)]

/-! ## What `_fwrite` does to the metadata block -/

/-- The slots that a call of `_fwrite` pushes to. -/
def fwritePushed (E : Host) (v : Volume) (handle : FHandle) (nbytes : Nat)
    (data : Option Bytes) : List Nat :=
  match data with
  | none => []
  | some data =>
      if nbytes = 0 then []
      else
        match fupdatetstamp E v handle.file true with
        | .error _ => []
        | .ok v =>
            match ffindh v.root (v.root.block handle.file).fcode with
            | none => []
            | some fb =>
                if flagcheck (v.root.block fb).attributes fsReadonly then []
                else fwriteSlots handle.file data nbytes v handle.progress nbytes 0

/--
The write keeps the metadata block beside its time fields, and pushes to no
block of index 0.
-/
def ProtectsMetadata (E : Host) (v : Volume) (handle : FHandle) (nbytes : Nat)
    (data : Option Bytes) : Prop :=
  (∀ n handle' v', fwrite E v handle nbytes data = .ok (n, handle', v') →
    KeptBesideTimes (v.window handle.file) (v'.window handle.file)) ∧
  ∀ t ∈ fwritePushed E v handle nbytes data,
    ¬ HasEntry v.root t (v.root.block handle.file).fcode 0

def Readonly (fr : ConfFsroot) (file : Nat) : Prop :=
  ∀ fb, ffindh fr (fr.block file).fcode = some fb →
    flagcheck (fr.block fb).attributes fsReadonly = true

/--
Nothing is written, or the metadata block is zero behind the metadata and no
position of the range lies in a block whose index is a multiple of `2 ^ 32`
other than 0, unless the file is readonly.
-/
def WriteClear (v : Volume) (handle : FHandle) (nbytes : Nat) (data : Option Bytes) : Prop :=
  data = none ∨ nbytes = 0 ∨ RestZero v handle.file ∧
    (Readonly v.root handle.file ∨
      ∀ y, y < nbytes → ¬ Aliases (u64 (handle.progress + y) / v.root.blkSize))

section Calls

variable {E : Host} {v v₁ : Volume} {handle : FHandle} {nbytes fb : Nat} {data : Bytes}
  (hn : nbytes ≠ 0) (hstamp : fupdatetstamp E v handle.file true = .ok v₁)
  (hfind : ffindh v₁.root (v₁.root.block handle.file).fcode = some fb)

include hn hstamp hfind

theorem fwrite_readonly (hreadonly : flagcheck (v₁.root.block fb).attributes fsReadonly = true) :
    fwrite E v handle nbytes (some data) = .ok (0, handle, v₁) ∧
      fwritePushed E v handle nbytes (some data) = [] := by
  rw [fwrite, fwritePushed]
  simp only [if_neg hn, hstamp, hfind, if_pos hreadonly, and_self]

theorem fwrite_writable (hblk : 0 < v₁.root.blkSize) (hdata : nbytes ≤ data.length)
    (hwritable : ¬ flagcheck (v₁.root.block fb).attributes fsReadonly = true) :
    (∃ n handle', fwrite E v handle nbytes (some data) = .ok (n, handle',
      (fwriteLoop handle.file data nbytes v₁ handle.progress nbytes 0).1)) ∧
      fwritePushed E v handle nbytes (some data) =
        fwriteSlots handle.file data nbytes v₁ handle.progress nbytes 0 := by
  rw [fwrite, fwritePushed]
  simp only [if_neg hn, hstamp, hfind, if_neg hwritable, if_neg hblk.ne',
    if_neg (Nat.not_lt.mpr hdata), and_true]
  exact ⟨_, _, rfl⟩

end Calls

theorem protectsMetadata_of_ok {E : Host} {v v' : Volume} {handle handle' : FHandle}
    {nbytes n : Nat} {data : Option Bytes}
    (hwrite : fwrite E v handle nbytes data = .ok (n, handle', v')) :
    ProtectsMetadata E v handle nbytes data ↔
      KeptBesideTimes (v.window handle.file) (v'.window handle.file) ∧
        ∀ t ∈ fwritePushed E v handle nbytes data,
          ¬ HasEntry v.root t (v.root.block handle.file).fcode 0 := by
  refine and_congr_left fun _ => ⟨fun hkept => hkept n handle' v' hwrite, fun hkept => ?_⟩
  intro n' handle₁ v₁ hwrite'
  cases hwrite.symm.trans hwrite'
  exact hkept

theorem Marked.protectsMetadata_iff {E : Host} {v : Volume} {handle : FHandle} {nbytes : Nat}
    {data : Option Bytes} (hmarked : Marked v.root)
    (hflag : flagcheck (v.root.block handle.file).attributes fsMetadataCluster = true)
    (hlive : (v.root.block handle.file).fcode ≠ Fcode.zero)
    (hheld : v.root.Addressable handle.file ∧ v.Holds handle.file)
    (hblk : 0 < v.root.blkSize) (hcursor : handle.progress < 2 ^ 64)
    (hdata : ∀ bytes, data = some bytes → nbytes ≤ bytes.length) :
    ProtectsMetadata E v handle nbytes data ↔ WriteClear v handle nbytes data := by
  cases data with
  | none =>
      have hwrite : fwrite E v handle nbytes none = .ok (0, handle, v) := rfl
      rw [protectsMetadata_of_ok hwrite]
      exact iff_of_true ⟨fun _ _ => rfl, fun t ht => absurd ht List.not_mem_nil⟩ (.inl rfl)
  | some bytes =>
      by_cases hn : nbytes = 0
      · subst hn
        have hwrite : fwrite E v handle 0 (some bytes) = .ok (0, handle, v) := rfl
        rw [protectsMetadata_of_ok hwrite]
        exact iff_of_true ⟨fun _ _ => rfl, fun t ht => absurd ht List.not_mem_nil⟩
          (.inr (.inl rfl))
      have hentry : HasEntry v.root handle.file (v.root.block handle.file).fcode 0 :=
        ⟨slot_lt hlive, rfl, by rw [(hmarked _).2 hflag]; rfl⟩
      obtain ⟨v₁, hstamp⟩ : ∃ v₁, fupdatetstamp E v handle.file true = .ok v₁ := by
        rw [fupdatetstamp, freadinfo,
          Volume.readAt_eq (by decide) v.root.sizeofMetaFsBlock_le_span, if_pos hheld]
        exact ⟨_, rfl⟩
      have hroot := fupdatetstamp_root hstamp
      have hkept := fupdatetstamp_kept_iff hstamp hheld.1
      obtain ⟨fb, hfb, -⟩ := ffindhi_of_present ⟨handle.file, hentry⟩
      have hfind : ffindh v₁.root (v₁.root.block handle.file).fcode = some fb := by
        rw [hroot]
        exact hfb
      have hclear : WriteClear v handle nbytes (some bytes) ↔ RestZero v handle.file ∧
          (flagcheck (v.root.block fb).attributes fsReadonly = true ∨
            ∀ y, y < nbytes → ¬ Aliases (u64 (handle.progress + y) / v.root.blkSize)) := by
        have hreadonly : Readonly v.root handle.file ↔
            flagcheck (v.root.block fb).attributes fsReadonly = true := by
          refine ⟨fun h => h fb hfb, fun h fb' hfb' => ?_⟩
          obtain rfl := Option.some.inj (hfb.symm.trans hfb')
          exact h
        rw [WriteClear, hreadonly, or_iff_right (by simp), or_iff_right hn]
      rw [hclear, ← hkept]
      by_cases hreadonly : flagcheck (v.root.block fb).attributes fsReadonly = true
      · obtain ⟨hwrite, hpushed⟩ := @fwrite_readonly E v v₁ handle nbytes fb bytes hn hstamp
          hfind (by rwa [hroot])
        rw [protectsMetadata_of_ok hwrite, hpushed]
        exact and_congr_right fun _ =>
          iff_of_true (fun t ht => absurd ht List.not_mem_nil) (.inl hreadonly)
      · have hguarded : Guarded v₁ handle.file (v.root.block handle.file).fcode v₁ := by
          refine ⟨by rwa [hroot], .refl _, by rwa [hroot], by rwa [hroot], fun _ => .rfl⟩
        obtain ⟨⟨n, handle', hwrite⟩, hpushed⟩ := @fwrite_writable E v v₁ handle nbytes fb bytes
          hn hstamp hfind (by rwa [hroot]) (hdata bytes rfl) (by rwa [hroot])
        have hslots := @Guarded.fwriteSlots_iff v₁ v₁ handle.file _ bytes hlive (by rwa [hroot])
          nbytes handle.progress nbytes 0 hguarded hcursor (Nat.le_refl nbytes)
        have hwindow := @Guarded.fwriteLoop_window v₁ v₁ handle.file _ bytes hlive
          (by rw [hroot]; exact hheld.1) (by rwa [hroot]) nbytes handle.progress nbytes 0
          hguarded hcursor
        rw [hroot] at hslots hwindow
        rw [protectsMetadata_of_ok hwrite, hpushed, hslots, or_iff_right hreadonly]
        refine and_congr_left fun hnone => ?_
        rw [hwindow hnone]

/-! ## Every reachable map -/

/--
In every map reached from a fresh format, a write through a handle on a metadata
entry keeps the metadata block and pushes to no block of index 0 if and only if
no position of its range, taken modulo `2 ^ 64`, lies in a block whose index is
a multiple of `2 ^ 32` other than 0, and the block is zero behind the metadata.
-/
theorem fwrite_protectsMetadata_iff {E : Host} {vol : Volume} {ops : List Op} {s : Session}
    {handle : FHandle} {nbytes : Nat} {data : Option Bytes}
    (hfresh : ∀ fb ∈ vol.root.clusterMap, fb = FsBlock.zero)
    (hrun : run (Session.step E) (.initial vol) ops = .ok s)
    (hflag : flagcheck (s.vol.root.block handle.file).attributes fsMetadataCluster = true)
    (hlive : (s.vol.root.block handle.file).fcode ≠ Fcode.zero)
    (hheld : s.vol.root.Addressable handle.file ∧ s.vol.Holds handle.file)
    (hblk : 0 < s.vol.root.blkSize) (hcursor : handle.progress < 2 ^ 64)
    (hdata : ∀ bytes, data = some bytes → nbytes ≤ bytes.length) :
    ProtectsMetadata E s.vol handle nbytes data ↔ WriteClear s.vol handle nbytes data :=
  (marked_run hfresh hrun).protectsMetadata_iff hflag hlive hheld hblk hcursor hdata

/-- A file that is created and given one byte. -/
def sampleCalls : List Op := [.loadh samplePath ['c', 'f'], .write 0 [0x78]]

theorem fwrite_protectsMetadata_sample :
    ∃ s, run (Session.step sampleHost) (.initial (sampleVolume 4 (by decide))) sampleCalls =
        .ok s ∧
      (ProtectsMetadata sampleHost s.vol ⟨0, 512, samplePath⟩ 1 (some [1]) ↔
        WriteClear s.vol ⟨0, 512, samplePath⟩ 1 (some [1])) := by
  obtain ⟨s, hrun, heval⟩ := @ok_of_eval _ _ _
    (run (Session.step sampleHost) (.initial (sampleVolume 4 (by decide))) sampleCalls)
    (fun s => (s.vol.root.block 0,
      decide (s.vol.root.Addressable 0 ∧ s.vol.Holds 0), s.vol.root.blkSize))
    (⟨getfcode sampleHost samplePath, fsMetadataCluster, 0⟩, true, 512) (by decide +kernel)
  obtain ⟨hblock, hrest⟩ := Prod.mk.inj heval
  obtain ⟨hheld, hblk⟩ := Prod.mk.inj hrest
  refine ⟨s, hrun, fwrite_protectsMetadata_iff (fun _ hfb => List.eq_of_mem_replicate hfb) hrun
    ?_ ?_ (of_decide_eq_true hheld) ?_ (by decide) ?_⟩
  · rw [show s.vol.root.block 0 = _ from hblock]
    decide
  · rw [show s.vol.root.block 0 = _ from hblock]
    decide
  · rw [show s.vol.root.blkSize = _ from hblk]
    decide
  · intro bytes hbytes
    obtain rfl := Option.some.inj hbytes
    exact Nat.le_refl 1

/-- The byte at position `2 ^ 41` of a file of 512-byte blocks is written to the metadata block. -/
theorem not_protectsMetadata_far :
    ∃ s, run (Session.step sampleHost) (.initial (sampleVolume 4 (by decide))) sampleCalls =
        .ok s ∧
      ¬ ProtectsMetadata sampleHost s.vol ⟨0, 2 ^ 41, samplePath⟩ 1 (some [1]) := by
  obtain ⟨s, hrun, heval⟩ := @ok_of_eval _ _ _
    (run (Session.step sampleHost) (.initial (sampleVolume 4 (by decide))) sampleCalls)
    (fun s => (s.vol.root.block 0,
      fwritePushed sampleHost s.vol ⟨0, 2 ^ 41, samplePath⟩ 1 (some [1])))
    (⟨getfcode sampleHost samplePath, fsMetadataCluster, 0⟩, [0]) (by decide +kernel)
  obtain ⟨hblock, hpushed⟩ := Prod.mk.inj heval
  refine ⟨s, hrun, fun hprotects => ?_⟩
  have hlive : (s.vol.root.block 0).fcode ≠ Fcode.zero := by
    rw [show s.vol.root.block 0 = _ from hblock]
    decide
  refine hprotects.2 0 ?_ ⟨slot_lt hlive, rfl, ?_⟩
  · rw [show fwritePushed _ _ _ _ _ = [0] from hpushed]
    exact List.mem_cons_self
  · rw [show s.vol.root.block 0 = _ from hblock]
    rfl

end BlockyOS.HostTool
