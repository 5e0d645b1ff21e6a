import BlockyOS.Frat.Lookups

/-!
# Where the three drivers agree

Block by block the kernel and the loader do what the host tool does, unless an
extension loop runs off the file.  Whole requests agree exactly when that never
happens, the request lies inside both computed sizes, and the data is given.
-/

namespace BlockyOS.Frat

open BlockyOS.Foundation
open BlockyOS.HostTool (Fault Fcode FsBlock ConfFsroot FHandle HasEntry flagcheck
  fsMetadataCluster fsReadonly allocatecluster allocatecluster_some allocatecluster_none
  extensionEntry countFcode countFcode_le hasEntry_setBlock_iff sampleRoot)
open BlockyOS.Kernel (SurvivesMask)

/-! ## What a block leaves unchanged -/

/-- The file keeps its code, and none of its entries has the last index. -/
structure Steady (s : Store) (file : Nat) (c : Fcode) : Prop where
  code : s.fcode file = c
  last : BelowLast s.root c

theorem toNat_countFcode_lt (fr : ConfFsroot) (c : Fcode) :
    (BitVec.ofNat 32 (countFcode fr c)).toNat < 2 ^ 32 - 1 := by
  have hcount := countFcode_le fr c
  have hsize := fr.size_clusterMap
  have hlt := fr.size_lt
  rw [HostTool.sizeofFsBlock] at hsize
  rw [BitVec.toNat_ofNat, Nat.mod_eq_of_lt (by omega)]
  omega

theorem Steady.faddr {s : Store} {file : Nat} {c : Fcode} (h : Steady s file c) :
    Steady (faddr s file).1 file c ∧ (faddr s file).1.blkSize = s.blkSize := by
  rw [Frat.faddr]
  split
  case h_1 fr halloc =>
    obtain ⟨rfl, -⟩ := allocatecluster_none halloc
    exact ⟨⟨h.code, h.last⟩, rfl⟩
  case h_2 fr fb halloc =>
    obtain ⟨rfl, hlt, -⟩ := allocatecluster_some halloc
    refine ⟨⟨?_, fun slot hslot => ?_⟩, rfl⟩
    · by_cases hown : file = fb
      · subst hown
        have hentry := @ConfFsroot.block_setBlock_same (s.root.setCursor file) _
          (extensionEntry (s.root.setCursor file) file) hlt
        exact (congrArg FsBlock.fcode hentry).trans h.code
      · have hentry := @ConfFsroot.block_setBlock_other (s.root.setCursor fb) _ _
          (extensionEntry (s.root.setCursor fb) file) hown
        exact (congrArg FsBlock.fcode hentry).trans h.code
    · rcases (hasEntry_setBlock_iff hlt).mp hslot with ⟨-, -, hindex⟩ | ⟨-, hold⟩
      · have hcount := toNat_countFcode_lt (s.root.setCursor fb)
          ((s.root.setCursor fb).block file).fcode
        rw [extensionEntry] at hindex
        exact absurd hindex (Nat.ne_of_lt hcount)
      · exact h.last slot hold

theorem Steady.fpushNew {s : Store} {file : Nat} {c : Fcode} (h : Steady s file c)
    (buffer : Bytes) :
    Steady (fpushNew s file buffer) file c ∧
      (fpushNew s file buffer).blkSize = s.blkSize := by
  have hadd := h.faddr
  rw [Frat.fpushNew]
  cases hresult : Frat.faddr s file with
  | mk s' slot =>
      rw [hresult] at hadd
      cases slot with
      | none => exact hadd
      | some slot => exact ⟨⟨hadd.1.code, hadd.1.last⟩, hadd.2⟩

theorem Steady.fpush1 {s : Store} {file : Nat} {c : Fcode} (h : Steady s file c)
    (d : Driver) (i : Nat) (buffer : Bytes) :
    Steady (fpush1 d s file i buffer) file c ∧
      (fpush1 d s file i buffer).blkSize = s.blkSize := by
  rw [Frat.fpush1]
  split
  · split
    · exact h.fpushNew buffer
    · split
      · exact ⟨⟨h.code, h.last⟩, rfl⟩
      · exact h.fpushNew buffer
  · split
    · exact ⟨h, rfl⟩
    · exact ⟨⟨h.code, h.last⟩, rfl⟩

theorem Steady.fwriteBlock {s s' : Store} {file : Nat} {c : Fcode} (h : Steady s file c)
    {d : Driver} {index offset : Nat} {src : Bytes}
    (hwrite : fwriteBlock d s file index offset src = .ok s') :
    Steady s' file c ∧ s'.blkSize = s.blkSize := by
  rw [Frat.fwriteBlock] at hwrite
  split at hwrite
  · split at hwrite
    · cases hwrite
    · cases hwrite
      exact h.fpush1 d _ _
  · cases hwrite
    exact h.fpush1 d _ _

/-! ## One block of a write -/

section WriteBlock

variable {d : Driver} {s : Store} {file index : Nat} (hd : LooksUp d (s.fcode file))
  (hlast : BelowLast s.root (s.fcode file)) (hindex : index < 2 ^ 32)

include hd hlast hindex

theorem fwriteBlock_agrees (emptyAlloc : Bool) (offset : Nat) {src : Bytes}
    (h : src.length < s.blkSize → WalkEnds s file index) :
    fwriteBlock d s file index offset src =
      fwriteBlock (hostTool emptyAlloc) s file index offset src := by
  rw [fwriteBlock, fwriteBlock]
  by_cases hpart : src.length < s.blkSize
  · rw [if_pos hpart, if_pos hpart,
      fread1_of_walkEnds hd hlast hindex emptyAlloc (h hpart)]
    obtain ⟨⟨blk, next⟩, hread⟩ := fread1_hostTool emptyAlloc s file index
    have hnext := fread1_index_lt (hostTool_looksUp emptyAlloc _) hlast hindex (h hpart) hread
    rw [hread]
    exact congrArg Except.ok (fpush1_agrees hd hlast hnext emptyAlloc _)
  · rw [if_neg hpart, if_neg hpart]
    exact congrArg Except.ok (fpush1_agrees hd hlast hindex emptyAlloc _)

theorem fwriteBlock_fault (hguard : d.guardsWalk = false) (offset : Nat) {src : Bytes}
    (hpart : src.length < s.blkSize) (h : ¬ WalkEnds s file index) :
    fwriteBlock d s file index offset src = .error .nullDeref := by
  rw [fwriteBlock, if_pos hpart, fread1_of_not_walkEnds hd hlast hindex hguard h]

end WriteBlock

theorem fwriteBlock_hostTool (emptyAlloc : Bool) (s : Store) (file index offset : Nat)
    (src : Bytes) : ∃ s', fwriteBlock (hostTool emptyAlloc) s file index offset src = .ok s' := by
  rw [fwriteBlock]
  split
  · obtain ⟨⟨blk, next⟩, hread⟩ := fread1_hostTool emptyAlloc s file index
    rw [hread]
    exact ⟨_, rfl⟩
  · exact ⟨_, rfl⟩

/-! ## The write loop -/

/--
Whenever the loop reads a block back, on the map as it is then, the extension
loop of that read ends at an entry.
-/
def WriteWalksEnd (tool : Driver) (file : Nat) (data : Bytes) :
    Nat → Store → Nat → Nat → Nat → Prop
  | 0, _, _, _, _ => True
  | fuel + 1, s, pos, left, written =>
      left = 0 ∨
        (min (s.blkSize - pos % s.blkSize) left < s.blkSize →
          WalkEnds s file (pos / s.blkSize)) ∧
        ∀ s', fwriteBlock tool s file (pos / s.blkSize) (pos % s.blkSize)
            (slice data written (min (s.blkSize - pos % s.blkSize) left)) = .ok s' →
          WriteWalksEnd tool file data fuel s'
            (u64 (pos + min (s.blkSize - pos % s.blkSize) left))
            (left - min (s.blkSize - pos % s.blkSize) left)
            (written + min (s.blkSize - pos % s.blkSize) left)

theorem block_lt {b pos left : Nat} (hleft : left ≠ 0) (h : pos + left ≤ 2 ^ 32 * b) :
    pos / b < 2 ^ 32 :=
  Nat.div_lt_of_lt_mul (by rw [Nat.mul_comm]; omega)

theorem next_block {s : Store} {pos left : Nat} (h : pos + left ≤ 2 ^ 32 * s.blkSize) :
    u64 (pos + min (s.blkSize - pos % s.blkSize) left) +
      (left - min (s.blkSize - pos % s.blkSize) left) ≤ 2 ^ 32 * s.blkSize := by
  have hblk : s.blkSize < 2 ^ 32 := s.root.blkSize_lt
  rw [u64_of_lt (by omega)]
  omega

section WriteLoop

variable {d : Driver} {c : Fcode} (hd : LooksUp d c) {file : Nat} {data : Bytes}

include hd

theorem fwriteLoop_agrees (emptyAlloc : Bool) (fuel : Nat) :
    ∀ {s : Store} {pos left written : Nat}, Steady s file c →
      pos + left ≤ 2 ^ 32 * s.blkSize → written + left ≤ data.length →
      WriteWalksEnd (hostTool emptyAlloc) file data fuel s pos left written →
      fwriteLoop d file data fuel s pos left written =
        fwriteLoop (hostTool emptyAlloc) file data fuel s pos left written := by
  induction fuel with
  | zero => intros; rfl
  | succ fuel ih =>
      intro s pos left written hsteady hpos hdata hwalks
      rw [fwriteLoop, fwriteLoop]
      by_cases hleft : left = 0
      · rw [if_pos hleft, if_pos hleft]
      · obtain ⟨hends, hrest⟩ := hwalks.resolve_left hleft
        rw [if_neg hleft, if_neg hleft]
        have hfile : LooksUp d (s.fcode file) := by rw [hsteady.code]; exact hd
        have hlast : BelowLast s.root (s.fcode file) := by
          rw [hsteady.code]
          exact hsteady.last
        have hlength : (slice data written
            (min (s.blkSize - pos % s.blkSize) left)).length =
            min (s.blkSize - pos % s.blkSize) left := length_slice data (by omega)
        have hblock := fwriteBlock_agrees hfile hlast (block_lt hleft hpos) emptyAlloc
          (pos % s.blkSize) (by rw [hlength]; exact hends)
        obtain ⟨s', hs'⟩ := fwriteBlock_hostTool emptyAlloc s file (pos / s.blkSize)
          (pos % s.blkSize) (slice data written (min (s.blkSize - pos % s.blkSize) left))
        have hkeep := hsteady.fwriteBlock hs'
        simp only [hblock, hs']
        refine ih hkeep.1 ?_ (by omega) (hrest s' hs')
        rw [hkeep.2]
        exact next_block hpos

theorem fwriteLoop_fault (hguard : d.guardsWalk = false) (emptyAlloc : Bool) (fuel : Nat) :
    ∀ {s : Store} {pos left written : Nat}, Steady s file c →
      pos + left ≤ 2 ^ 32 * s.blkSize → written + left ≤ data.length →
      ¬ WriteWalksEnd (hostTool emptyAlloc) file data fuel s pos left written →
      fwriteLoop d file data fuel s pos left written = .error .nullDeref := by
  induction fuel with
  | zero =>
      intro s pos left written _ _ _ hwalks
      exact absurd trivial hwalks
  | succ fuel ih =>
      intro s pos left written hsteady hpos hdata hwalks
      rw [WriteWalksEnd, not_or] at hwalks
      obtain ⟨hleft, hwalks⟩ := hwalks
      rw [fwriteLoop, if_neg hleft]
      have hfile : LooksUp d (s.fcode file) := by rw [hsteady.code]; exact hd
      have hlast : BelowLast s.root (s.fcode file) := by
        rw [hsteady.code]
        exact hsteady.last
      have hlength : (slice data written
          (min (s.blkSize - pos % s.blkSize) left)).length =
          min (s.blkSize - pos % s.blkSize) left := length_slice data (by omega)
      by_cases hends : min (s.blkSize - pos % s.blkSize) left < s.blkSize →
          WalkEnds s file (pos / s.blkSize)
      · have hblock := fwriteBlock_agrees hfile hlast (block_lt hleft hpos) emptyAlloc
          (pos % s.blkSize) (by rw [hlength]; exact hends)
        obtain ⟨s', hs'⟩ := fwriteBlock_hostTool emptyAlloc s file (pos / s.blkSize)
          (pos % s.blkSize) (slice data written (min (s.blkSize - pos % s.blkSize) left))
        have hkeep := hsteady.fwriteBlock hs'
        simp only [hblock, hs']
        refine ih hkeep.1 ?_ (by omega) (fun hrest => hwalks ⟨hends, fun s'' hs'' => ?_⟩)
        · rw [hkeep.2]
          exact next_block hpos
        · cases hs'.symm.trans hs''
          exact hrest
      · obtain ⟨hpart, hnot⟩ := Classical.not_imp.mp hends
        have hblock := fwriteBlock_fault hfile hlast (block_lt hleft hpos) hguard
          (pos % s.blkSize) (by rw [hlength]; exact hpart) hnot
        simp only [hblock]

end WriteLoop

theorem fwriteLoop_hostTool (emptyAlloc : Bool) (file : Nat) (data : Bytes) (fuel : Nat) :
    ∀ (s : Store) (pos left written : Nat),
      ∃ result, fwriteLoop (hostTool emptyAlloc) file data fuel s pos left written =
        .ok result := by
  induction fuel with
  | zero => intro s pos left written; exact ⟨_, rfl⟩
  | succ fuel ih =>
      intro s pos left written
      rw [fwriteLoop]
      split
      · exact ⟨_, rfl⟩
      · obtain ⟨s', hs'⟩ := fwriteBlock_hostTool emptyAlloc s file (pos / s.blkSize)
          (pos % s.blkSize) (slice data written (min (s.blkSize - pos % s.blkSize) left))
        simp only [hs']
        exact ih _ _ _ _

/-! ## The read loop -/

def ReadWalksEnd (tool : Driver) (s : Store) (file : Nat) : Nat → Nat → Nat → Prop
  | 0, _, _ => True
  | fuel + 1, pos, left =>
      left = 0 ∨ WalkEnds s file (pos / s.blkSize) ∧
        ∀ blk next, fread1 tool s file (pos / s.blkSize) = .ok (some blk, next) →
          ReadWalksEnd tool s file fuel
            (u64 (pos + min (s.blkSize - pos % s.blkSize) left))
            (left - min (s.blkSize - pos % s.blkSize) left)

section ReadLoop

variable {d : Driver} {s : Store} {file : Nat} (hd : LooksUp d (s.fcode file))
  (hlast : BelowLast s.root (s.fcode file))

include hd hlast

theorem freadLoop_agrees (emptyAlloc : Bool) (fuel : Nat) :
    ∀ {pos left : Nat} {out : Bytes}, pos + left ≤ 2 ^ 32 * s.blkSize →
      ReadWalksEnd (hostTool emptyAlloc) s file fuel pos left →
      freadLoop d s file fuel pos left out =
        freadLoop (hostTool emptyAlloc) s file fuel pos left out := by
  induction fuel with
  | zero => intros; rfl
  | succ fuel ih =>
      intro pos left out hpos hwalks
      rw [freadLoop, freadLoop]
      by_cases hleft : left = 0
      · rw [if_pos hleft, if_pos hleft]
      · obtain ⟨hends, hrest⟩ := hwalks.resolve_left hleft
        rw [if_neg hleft, if_neg hleft,
          fread1_of_walkEnds hd hlast (block_lt hleft hpos) emptyAlloc hends]
        obtain ⟨⟨blk, next⟩, hread⟩ := fread1_hostTool emptyAlloc s file (pos / s.blkSize)
        rw [hread]
        cases blk with
        | none => rfl
        | some blk => exact ih (next_block hpos) (hrest blk next hread)

theorem freadLoop_fault (hguard : d.guardsWalk = false) (emptyAlloc : Bool) (fuel : Nat) :
    ∀ {pos left : Nat} {out : Bytes}, pos + left ≤ 2 ^ 32 * s.blkSize →
      ¬ ReadWalksEnd (hostTool emptyAlloc) s file fuel pos left →
      freadLoop d s file fuel pos left out = .error .nullDeref := by
  induction fuel with
  | zero =>
      intro pos left out _ hwalks
      exact absurd trivial hwalks
  | succ fuel ih =>
      intro pos left out hpos hwalks
      rw [ReadWalksEnd, not_or] at hwalks
      obtain ⟨hleft, hwalks⟩ := hwalks
      rw [freadLoop, if_neg hleft]
      by_cases hends : WalkEnds s file (pos / s.blkSize)
      · rw [fread1_of_walkEnds hd hlast (block_lt hleft hpos) emptyAlloc hends]
        obtain ⟨⟨blk, next⟩, hread⟩ := fread1_hostTool emptyAlloc s file (pos / s.blkSize)
        rw [hread]
        cases blk with
        | none =>
            refine absurd ⟨hends, fun blk' next' hread' => ?_⟩ hwalks
            cases hread.symm.trans hread'
        | some blk =>
            refine ih (next_block hpos) fun hrest => hwalks ⟨hends, fun blk' next' hread' => ?_⟩
            cases hread.symm.trans hread'
            exact hrest
      · rw [fread1_of_not_walkEnds hd hlast (block_lt hleft hpos) hguard hends]

end ReadLoop

theorem freadLoop_hostTool (emptyAlloc : Bool) (s : Store) (file : Nat) (fuel : Nat) :
    ∀ (pos left : Nat) (out : Bytes),
      ∃ result, freadLoop (hostTool emptyAlloc) s file fuel pos left out = .ok result := by
  induction fuel with
  | zero => intro pos left out; exact ⟨_, rfl⟩
  | succ fuel ih =>
      intro pos left out
      rw [freadLoop]
      split
      · exact ⟨_, rfl⟩
      · obtain ⟨⟨blk, next⟩, hread⟩ := fread1_hostTool emptyAlloc s file (pos / s.blkSize)
        rw [hread]
        cases blk with
        | none => exact ⟨_, rfl⟩
        | some blk => exact ih _ _ _

end BlockyOS.Frat
