import BlockyOS.HostTool.Isolation

/-!
# The history of a map

The map changes by allocations, each of which fills the slot it found, and by
removals.  Whatever a call does to the root of a session is a run of such
events.
-/

namespace BlockyOS.HostTool

open BlockyOS.Foundation

/-! ## Events -/

def allocated (fr : ConfFsroot) (entry : FsBlock) : ConfFsroot :=
  match allocatecluster fr with
  | (fr, none) => fr
  | (fr, some fb) => fr.setBlock fb entry

/-- `__ffremovelh`: every entry with the code is freed. -/
def ffremovelh (fr : ConfFsroot) (hash : Fcode) : ConfFsroot :=
  { fr with
    clusterMap := fr.clusterMap.map fun fb =>
      if fb.fcode = hash then { fb with fcode := Fcode.zero } else fb
    length_clusterMap := by rw [List.length_map, fr.length_clusterMap] }

def ffremovel (E : Host) (fr : ConfFsroot) (path : Path) : ConfFsroot :=
  ffremovelh fr (getfcode E path)

inductive MapEvent where
  | alloc (entry : FsBlock)
  | remove (path : Path)
  | removel (path : Path)

def mapStep (E : Host) (fr : ConfFsroot) : MapEvent → Except Fault ConfFsroot
  | .alloc entry => .ok (allocated fr entry)
  | .remove path => ffremove E fr path
  | .removel path => .ok (ffremovel E fr path)

def History (E : Host) : ConfFsroot → ConfFsroot → Prop :=
  Relation.ReflTransGen fun fr fr' => ∃ event, mapStep E fr event = .ok fr'

theorem History.exists_run {E : Host} {fr fr' : ConfFsroot} (h : History E fr fr') :
    ∃ events, run (mapStep E) fr events = .ok fr' := by
  induction h using Relation.ReflTransGen.head_induction_on with
  | refl => exact ⟨[], rfl⟩
  | head hstep _ ih =>
      obtain ⟨event, hevent⟩ := hstep
      obtain ⟨events, hrun⟩ := ih
      exact ⟨event :: events, (run_cons_ok _).mpr ⟨_, hevent, hrun⟩⟩

/-! ## What a call does to the root -/

structure CallRelation (R : ConfFsroot → ConfFsroot → Prop) : Prop where
  refl : ∀ fr, R fr fr
  trans : ∀ {fr fr' fr'' : ConfFsroot}, R fr fr' → R fr' fr'' → R fr fr''
  alloc : ∀ fr entry, R fr (allocated fr entry)

theorem History.callRelation (E : Host) : CallRelation (History E) where
  refl _ := .refl
  trans h h' := Relation.ReflTransGen.trans h h'
  alloc _ entry := .single ⟨.alloc entry, rfl⟩

theorem allocated_none {fr fr' : ConfFsroot} (h : allocatecluster fr = (fr', none))
    (entry : FsBlock) : allocated fr entry = fr' := by
  rw [allocated, h]

theorem allocated_some {fr fr' : ConfFsroot} {fb : Nat}
    (h : allocatecluster fr = (fr', some fb)) (entry : FsBlock) :
    allocated fr entry = fr'.setBlock fb entry := by
  rw [allocated, h]

section Calls

variable {R : ConfFsroot → ConfFsroot → Prop} (hR : CallRelation R)

include hR

theorem CallRelation.faddr (v : Volume) (family : Nat) :
    R v.root (faddr v family).1.root := by
  unfold HostTool.faddr
  split
  case h_1 fr halloc =>
    have h := hR.alloc v.root FsBlock.zero
    rwa [allocated_none halloc] at h
  case h_2 fr fb halloc =>
    have h := hR.alloc v.root (extensionEntry fr family)
    rwa [allocated_some halloc] at h

theorem CallRelation.fpush1 (v : Volume) (fb i : Nat) (buffer : Bytes) :
    R v.root (fpush1 v fb i buffer).1.root := by
  unfold HostTool.fpush1
  split
  case isTrue =>
    split
    case h_1 => exact hR.refl _
    case h_2 =>
      have hadd := hR.faddr v fb
      split
      case h_1 v' fb' heq => simpa [heq] using hadd
      case h_2 v' heq => simpa [heq] using hadd
  case isFalse => split <;> exact hR.refl _

theorem CallRelation.fwriteBlock (v : Volume) (file blkIndex blkOffset : Nat) (src : Bytes) :
    R v.root (fwriteBlock v file blkIndex blkOffset src).root := by
  unfold HostTool.fwriteBlock
  split <;> exact hR.fpush1 _ _ _ _

theorem CallRelation.fwriteLoop (file : Nat) (data : Bytes) (fuel : Nat) (v : Volume)
    (pos left written : Nat) : R v.root (fwriteLoop file data fuel v pos left written).1.root := by
  induction fuel generalizing v pos left written with
  | zero => exact hR.refl _
  | succ fuel ih =>
      rw [HostTool.fwriteLoop]
      split
      case isTrue => exact hR.refl _
      case isFalse => exact hR.trans (hR.fwriteBlock _ _ _ _ _) (ih _ _ _ _)

theorem CallRelation.fwrite {E : Host} {v v' : Volume} {handle handle' : FHandle}
    {nbytes n : Nat} {data : Option Bytes}
    (h : fwrite E v handle nbytes data = .ok (n, handle', v')) : R v.root v'.root := by
  rcases fwrite_ok h with rfl | ⟨v₁, hstamp, rfl | ⟨bytes, -, -, rfl⟩⟩
  · exact hR.refl _
  · rw [fupdatetstamp_root hstamp]
    exact hR.refl _
  · rw [← fupdatetstamp_root hstamp]
    exact hR.fwriteLoop _ _ _ _ _ _ _

theorem CallRelation.fdiraddLoop {E : Host} {fb fuel : Nat} {v v' : Volume}
    {dir dir' : DirHandle} (h : fdiraddLoop E fb fuel v dir = .ok (v', dir')) :
    R v.root v'.root := by
  induction fuel generalizing v dir with
  | zero => cases h
  | succ fuel ih =>
      rw [HostTool.fdiraddLoop] at h
      split at h
      case h_1 => cases h
      case h_2 dir₁ hrefresh =>
        split at h
        case h_1 => exact hR.trans (hR.faddr _ _) (ih h)
        case h_2 dirarray hdirarray =>
          split at h
          case h_1 => cases h
          case h_2 =>
            cases h
            exact hR.refl _
          case h_3 => exact hR.trans (hR.faddr _ _) (ih h)

theorem CallRelation.fcreateFinish {E : Host} {v v' : Volume} {fb : Nat} {path : Path}
    {dhandle : Option DirHandle} (h : fcreateFinish E v fb path dhandle = .ok v') :
    R v.root v'.root := by
  unfold HostTool.fcreateFinish at h
  split at h
  case h_1 =>
    rw [finit_root h]
    exact hR.refl _
  case h_2 dir =>
    simp only at h
    split at h
    case isFalse =>
      rw [finit_root h]
      exact hR.refl _
    case isTrue =>
      split at h
      case h_1 => cases h
      case h_2 v₁ dir₁ hadd =>
        split at h
        case h_1 => cases h
        case h_2 v₂ hflush =>
          rw [finit_root h, fuloaddir_root hflush]
          exact hR.fdiraddLoop hadd

theorem CallRelation.createRule (E : Host) :
    CreateRule E
      (fun v path flags v' =>
        (fcreateClear E v.root path flags).elim (v' = v) fun fr => R fr v'.root)
      (fun v _ _ v' _ => R v.root v'.root) where
  kept hclear := by
    rw [hclear]
    rfl
  full {v path flags fr fr'} hclear halloc := by
    have hfull := hR.alloc fr FsBlock.zero
    rw [allocated_none halloc] at hfull
    rw [hclear]
    exact hfull
  entered {v v' path flags fr fr' fb} hclear halloc _ h := by
    have hentered := hR.alloc fr (createdEntry E fr' fb path flags)
    rw [allocated_some halloc] at hentered
    rw [hclear]
    exact hR.trans hentered (hR.fcreateFinish h)
  nested {v v₁ v' path parent flags fr fr' fb dhandle} hclear halloc _ hload h := by
    have hentered := hR.alloc fr (createdEntry E fr' fb path flags)
    rw [allocated_some halloc] at hentered
    rw [hclear]
    exact hR.trans hentered (hR.trans hload (hR.fcreateFinish h))
  found hfind h := by
    rw [(openDir_ok h).1]
    exact hR.refl _
  missing {v v' path args} hfind hcreate := by
    rwa [fcreateClear_of_missing hfind] at hcreate
  made hfind hcreate hfile h := by
    rw [fcreateClear_of_missing hfind] at hcreate
    rw [(openDir_ok h).1]
    exact hcreate

end Calls

/-! ## Sessions -/

theorem fcreate_history {E : Host} {v v' : Volume} {path : Path} {flags : List Char}
    (h : fcreate E v path flags = .ok v') : History E v.root v'.root := by
  have hspec := (((History.callRelation E).createRule E).run _).1 h
  cases hfind : ffind E v.root path with
  | none => rwa [fcreateClear_of_missing hfind] at hspec
  | some fb =>
      rw [fcreateClear_of_live hfind] at hspec
      by_cases hF : strcheck flags 'F'
      · rw [if_pos hF] at hspec
        refine .head ⟨.remove path, ?_⟩ hspec
        rw [mapStep, ffremove, hfind]
      · rw [if_neg hF] at hspec
        obtain rfl : v' = v := hspec
        exact .refl

theorem step_history {E : Host} {s s' : Session} {op : Op} (h : s.step E op = .ok s') :
    History E s.vol.root s'.vol.root := by
  have hrel := History.callRelation E
  cases op with
  | create path flags => exact fcreate_history (step_root h)
  | loadh path args =>
      have hroot := step_root h
      rw [StepRoot] at hroot
      split at hroot
      case isTrue => exact fcreate_history hroot
      case isFalse =>
        rw [hroot]
        exact .refl
  | loadhdir path args =>
      obtain ⟨⟨vol, dir⟩, hload, rfl⟩ := map_ok h
      exact ((hrel.createRule E).run _).2 hload
  | write handle data =>
      obtain ⟨fh, fh', vol, -, hcall, rfl⟩ := Session.onFile_ok h
      obtain ⟨⟨n, fh₁, vol₁⟩, hwrite, heq⟩ := map_ok hcall
      obtain ⟨rfl, rfl⟩ := Prod.mk.inj heq
      exact hrel.fwrite hwrite
  | read handle nbytes =>
      obtain ⟨fh, fh', vol, -, hcall, rfl⟩ := Session.onFile_ok h
      obtain ⟨⟨n, out, fh₁, vol₁⟩, hread, heq⟩ := map_ok hcall
      obtain ⟨rfl, rfl⟩ := Prod.mk.inj heq
      change History E s.vol.root vol₁.root
      rw [fread_root hread]
      exact .refl
  | seek handle progress =>
      rw [Session.step] at h
      obtain ⟨fh, fh', vol, -, hcall, rfl⟩ := Session.onFile_ok h
      obtain ⟨-, rfl⟩ := Prod.mk.inj (Except.ok.inj hcall)
      exact .refl
  | remove path => exact .single ⟨.remove path, step_root h⟩
  | list handle index =>
      obtain ⟨dir, dir', -, hcall, -⟩ := Session.onDir_ok h
      obtain ⟨_, -, heq⟩ := map_ok hcall
      rw [← (Prod.mk.inj heq).2]
      exact .refl
  | unloaddir handle =>
      obtain ⟨dir, dir', -, hcall, -⟩ := Session.onDir_ok h
      obtain ⟨vol, hflush, heq⟩ := map_ok hcall
      rw [← (Prod.mk.inj heq).2, fuloaddir_root hflush]
      exact .refl
  | unloadh handle =>
      simp only [Session.step] at h
      split at h
      case h_1 => cases h
      case h_2 =>
        cases h
        exact .refl

theorem run_history {E : Host} {s s' : Session} {ops : List Op}
    (h : run (Session.step E) s ops = .ok s') :
    ∃ events, run (mapStep E) s.vol.root events = .ok s'.vol.root := by
  have hkeep : ∀ (mid : Session) (op : Op) (next : Session),
      History E s.vol.root mid.vol.root → mid.step E op = .ok next →
      History E s.vol.root next.vol.root :=
    fun _ _ _ hmid hstep => hmid.trans (step_history hstep)
  have hhistory := run_invariant hkeep (Relation.ReflTransGen.refl) h
  exact hhistory.exists_run

end BlockyOS.HostTool
