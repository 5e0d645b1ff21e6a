import BlockyOS.Foundation.TreeWalk
import BlockyOS.HostTool.ClusterMap

/-!
# Walking a directory tree

`__dirr` walks a directory tree one match a call.  What it has still to do lies
on two stacks that grow together: the directories that are open, and the index
each of them is listed at next.
-/

namespace BlockyOS.HostTool

open BlockyOS.Foundation

/-! ## Patterns -/

def wildcard : UInt8 := 0x2A

/-- `match_rec`; the scan behind a block wildcard tries every suffix of `s`. -/
def matchRec : Bytes → Bytes → Bool
  | [], s => s.isEmpty
  | c :: p, s =>
      if c = wildcard then
        match p with
        | c₁ :: c₂ :: q =>
            if c₁ = wildcard ∧ c₂ = wildcard then
              match q with
              | [] => true
              | proceed :: q' =>
                  s.tails.any fun t => t.head? = some proceed && matchRec (proceed :: q') t
            else
              match s with
              | [] => false
              | _ :: s' => matchRec (c₁ :: c₂ :: q) s'
        | p =>
            match s with
            | [] => false
            | _ :: s' => matchRec p s'
      else
        match s with
        | [] => false
        | d :: s' => c = d && matchRec p s'

/-- The copy `__pattmatch` makes of a pattern, its escapes resolved. -/
def unescape : Bytes → Bytes
  | [] => []
  | [c] => [c]
  | c :: d :: rest =>
      if c = pathNoSep then d :: unescape rest else c :: unescape (d :: rest)

def pattmatch (pattern str : Bytes) : Bool := matchRec (unescape pattern) str

/-! ## The runner -/

/-- An `unhandle`; a file handle keeps its entry where a directory handle does. -/
structure Unhandle (H : Type) where
  dir : Bool
  handle : Option H
  deriving DecidableEq, Repr

/-- What `__dirr` calls and reads; a record that cannot be read has no name. -/
structure DirCalls (σ H : Type) where
  fdirlist : σ → H → Nat → σ × Option (Unhandle H) × Nat
  readinfo : σ → H → Option Bytes
  hasFile : H → Bool
  fuloaddir : σ → H → σ

structure DirRunner (H : Type) where
  dir : H
  pattmatcher : Path
  stackSize : Nat
  dirStack : List (Option H)
  idxStack : List Nat
  stackDepth : Nat

section Runner

variable {σ H : Type}

def dirrInit (handle : Option H) (patternmatcher : Path) : Option (DirRunner H) :=
  handle.map fun dir =>
    { dir
      pattmatcher := patternmatcher
      stackSize := 8
      dirStack := (List.replicate 8 none).set 0 (some dir)
      idxStack := (List.replicate 8 0).set 0 0
      stackDepth := 1 }

def dirrMatches (C : DirCalls σ H) (s : σ) (dr : DirRunner H) (item : H) : Bool :=
  match C.readinfo s item with
  | none => false
  | some name => pattmatch dr.pattmatcher.chars name

/-- The stacks after `realloc`; nothing is read of the new cells. -/
def DirRunner.grow (dr : DirRunner H) : DirRunner H :=
  if dr.stackDepth = dr.stackSize then
    let newSize := if dr.stackSize ≠ 0 then dr.stackSize * 2 else 8
    { dr with
      stackSize := newSize
      dirStack := dr.dirStack ++ List.replicate (newSize - dr.stackSize) none
      idxStack := dr.idxStack ++ List.replicate (newSize - dr.stackSize) 0 }
  else dr

def dirrPush (dr : DirRunner H) (handle : H) : Except Fault (DirRunner H) :=
  let dr := dr.grow
  if dr.stackDepth < dr.dirStack.length ∧ dr.stackDepth < dr.idxStack.length then
    .ok { dr with
      dirStack := dr.dirStack.set dr.stackDepth (some handle)
      idxStack := dr.idxStack.set dr.stackDepth 0
      stackDepth := dr.stackDepth + 1 }
  else .error .outOfBounds

def dirrPop (dr : DirRunner H) : DirRunner H :=
  if dr.stackDepth = 0 then dr
  else
    { dr with
      stackDepth := dr.stackDepth - 1
      dirStack := dr.dirStack.set (dr.stackDepth - 1) none }

/-- The item of a listing that `__dirr` goes on with. -/
def usable (C : DirCalls σ H) (item : Option (Unhandle H)) : Option (Bool × H) :=
  match item with
  | none => none
  | some ⟨dir, handle⟩ =>
      match handle with
      | none => none
      | some h => if C.hasFile h then some (dir, h) else none

def dirr (C : DirCalls σ H) : Nat → σ → DirRunner H →
    Except Fault (σ × DirRunner H × Option (Unhandle H))
  | 0, _, _ => .error .hang
  | fuel + 1, s, dr =>
      if dr.stackDepth = 0 then .ok (s, dr, none)
      else
        let top := dr.stackDepth - 1
        match dr.dirStack[top]?, dr.idxStack[top]? with
        | some (some current), some idx =>
            let (s, item, idx) := C.fdirlist s current idx
            let dr := { dr with idxStack := dr.idxStack.set top idx }
            match usable C item with
            | none => dirr C fuel (if 0 < top then C.fuloaddir s current else s) (dirrPop dr)
            | some (dir, h) =>
                let found := dirrMatches C s dr h
                match if dir then dirrPush dr h else .ok dr with
                | .error e => .error e
                | .ok dr =>
                    if found then .ok (s, dr, some ⟨dir, some h⟩) else dirr C fuel s dr
        | some none, some _ => .error .nullDeref
        | _, _ => .error .outOfBounds

/-- The results of `count` calls one after another. -/
def dirrCalls (C : DirCalls σ H) (fuel : Nat) : Nat → σ → DirRunner H →
    Except Fault (σ × DirRunner H × List (Option (Unhandle H)))
  | 0, s, dr => .ok (s, dr, [])
  | count + 1, s, dr =>
      match dirr C fuel s dr with
      | .error e => .error e
      | .ok (s, dr, item) =>
          match dirrCalls C fuel count s dr with
          | .error e => .error e
          | .ok (s, dr, items) => .ok (s, dr, item :: items)

/-! ## What a walk is recorded by -/

inductive DirEvent (H : Type) where
  | exhausted (dir : H)
  | unloaded (dir : H)
  deriving DecidableEq, Repr

/-- The same calls, with a log of the listings that ended and the unloads. -/
def logged (C : DirCalls σ H) : DirCalls (σ × List (DirEvent H)) H where
  fdirlist s dir index :=
    let next := C.fdirlist s.1 dir index
    ((next.1, if next.2.1.isNone then s.2 ++ [.exhausted dir] else s.2), next.2)
  readinfo s := C.readinfo s.1
  hasFile := C.hasFile
  fuloaddir s dir := (C.fuloaddir s.1 dir, s.2 ++ [.unloaded dir])

variable (C : DirCalls σ H) (I : σ → Prop) (info : H → Option Bytes)

/-- Listing `dir` at `index` gives `item` and moves on, in every state met. -/
def Yields (dir : H) (index : Nat) (item : Unhandle H) : Prop :=
  ∀ s, I s → I (C.fdirlist s dir index).1 ∧ (C.fdirlist s dir index).2 = (some item, index + 1)

/-- Listing `dir` at `index` gives NULL. -/
def Exhausted (dir : H) (index : Nat) : Prop :=
  ∀ s, I s → I (C.fdirlist s dir index).1 ∧ (C.fdirlist s dir index).2.1 = none

/-- A handle that opened, with the name its record holds throughout. -/
def Opens (h : H) : Prop := C.hasFile h = true ∧ ∀ s, I s → C.readinfo s h = info h

/-- `__fdirlist` enumerates the entries of `dir` from `index` on, and then NULL. -/
inductive ListsTree : H → Nat → Forest H → Prop
  | nil {dir index} (hend : Exhausted C I dir index) : ListsTree dir index .nil
  | leaf {dir index h rest} (hitem : Yields C I dir index ⟨false, some h⟩)
      (hopen : Opens C I info h) (hrest : ListsTree dir (index + 1) rest) :
      ListsTree dir index (.leaf h rest)
  | branch {dir index h entries rest} (hitem : Yields C I dir index ⟨true, some h⟩)
      (hopen : Opens C I info h) (hentries : ListsTree h 0 entries)
      (hrest : ListsTree dir (index + 1) rest) : ListsTree dir index (.branch h entries rest)

def nameMatches (pattern : Path) (name : Option Bytes) : Bool :=
  name.any (pattmatch pattern.chars)

/-- The entries below a directory whose names match, each before what it holds. -/
def matching (pattern : Path) (entries : Forest H) : List (Node H) :=
  entries.preorder.filter fun node => nameMatches pattern (info node.label)

def nodeHandle (node : Node H) : Unhandle H := ⟨node.isBranch, some node.label⟩

/-- Each directory below is unloaded right after its own listing has ended. -/
def closingEvents (root : H) (entries : Forest H) : List (DirEvent H) :=
  (entries.closings.flatMap fun dir => [.exhausted dir, .unloaded dir]) ++ [.exhausted root]

/-! ## The stacks hold the frames of the walk -/

def Stacked (dirs : List (Option H)) (idxs : List Nat) : List (Frame H) → Prop
  | [] => True
  | f :: fs =>
      (dirs[fs.length]? = some (some f.owner) ∧
        ∃ idx, idxs[fs.length]? = some idx ∧ ListsTree C I info f.owner idx f.rest) ∧
      Stacked dirs idxs fs

structure Carries (dr : DirRunner H) (frames : List (Frame H)) : Prop where
  depth : dr.stackDepth = frames.length
  fits : dr.stackDepth ≤ dr.stackSize
  dirs : dr.dirStack.length = dr.stackSize
  idxs : dr.idxStack.length = dr.stackSize
  stacked : Stacked C I info dr.dirStack dr.idxStack frames

variable {C I info}

theorem Stacked.congr {dirs dirs' : List (Option H)} {idxs idxs' : List Nat}
    {frames : List (Frame H)} (h : Stacked C I info dirs idxs frames)
    (hdirs : ∀ k < frames.length, dirs'[k]? = dirs[k]?)
    (hidxs : ∀ k < frames.length, idxs'[k]? = idxs[k]?) :
    Stacked C I info dirs' idxs' frames := by
  induction frames with
  | nil => trivial
  | cons f fs ih =>
      obtain ⟨⟨hdir, idx, hidx, hlists⟩, hbelow⟩ := h
      have hlt : fs.length < (f :: fs).length := Nat.lt_succ_self _
      refine ⟨⟨(hdirs _ hlt).trans hdir, idx, (hidxs _ hlt).trans hidx, hlists⟩, ?_⟩
      exact ih hbelow (fun k hk => hdirs k (hk.trans hlt)) fun k hk => hidxs k (hk.trans hlt)

theorem Carries.grow {dr : DirRunner H} {frames : List (Frame H)}
    (h : Carries C I info dr frames) :
    Carries C I info dr.grow frames ∧ dr.grow.stackDepth < dr.grow.stackSize := by
  have hfits := h.fits
  have hdirs := h.dirs
  have hidxs := h.idxs
  have hdepth := h.depth
  by_cases hfull : dr.stackDepth = dr.stackSize
  · have hlarger : dr.stackSize < if dr.stackSize ≠ 0 then dr.stackSize * 2 else 8 := by
      split_ifs <;> omega
    simp only [DirRunner.grow, if_pos hfull]
    generalize (if dr.stackSize ≠ 0 then dr.stackSize * 2 else 8) = newSize at hlarger
    refine ⟨⟨hdepth, hfull.trans_le hlarger.le, ?_, ?_, h.stacked.congr ?_ ?_⟩,
      hfull.trans_lt hlarger⟩
    · simp only [List.length_append, List.length_replicate]
      omega
    · simp only [List.length_append, List.length_replicate]
      omega
    · intro k hk
      exact List.getElem?_append_left (by omega)
    · intro k hk
      exact List.getElem?_append_left (by omega)
  · rw [DirRunner.grow, if_neg hfull]
    exact ⟨h, by omega⟩

theorem dirrPush_carries {dr : DirRunner H} {frames : List (Frame H)} {h : H}
    {entries : Forest H} (hcarries : Carries C I info dr frames)
    (hlists : ListsTree C I info h 0 entries) :
    ∃ dr', dirrPush dr h = .ok dr' ∧ dr'.pattmatcher = dr.pattmatcher ∧
      Carries C I info dr' (⟨h, entries⟩ :: frames) := by
  obtain ⟨hgrown, hroom⟩ := hcarries.grow
  have hdirs := hgrown.dirs
  have hidxs := hgrown.idxs
  have hdepth := hgrown.depth
  refine ⟨_, if_pos ⟨by omega, by omega⟩, ?_, ⟨?_, hroom, ?_, ?_, ⟨⟨?_, 0, ?_, hlists⟩, ?_⟩⟩⟩
  · simp only [DirRunner.grow]
    split <;> rfl
  · simp only [List.length_cons]
    omega
  · simp only [List.length_set]
    omega
  · simp only [List.length_set]
    omega
  · simp only [← hdepth]
    exact List.getElem?_set_self (by omega)
  · simp only [← hdepth]
    exact List.getElem?_set_self (by omega)
  · refine hgrown.stacked.congr ?_ ?_
    · intro k hk
      exact List.getElem?_set_ne (by omega)
    · intro k hk
      exact List.getElem?_set_ne (by omega)

theorem dirrPop_carries {dr : DirRunner H} {f : Frame H} {fs : List (Frame H)}
    (h : Carries C I info dr (f :: fs)) (idx : Nat) :
    Carries C I info (dirrPop { dr with idxStack := dr.idxStack.set fs.length idx }) fs := by
  have hdepth := h.depth
  have hfits := h.fits
  rw [List.length_cons] at hdepth
  rw [dirrPop, if_neg (by simp only []; omega)]
  refine ⟨?_, ?_, ?_, ?_, h.stacked.2.congr ?_ ?_⟩
  · simp only []
    omega
  · simp only []
    omega
  · simp only [List.length_set]
    exact h.dirs
  · simp only [List.length_set]
    exact h.idxs
  · intro k hk
    exact List.getElem?_set_ne (by simp only []; omega)
  · intro k hk
    exact List.getElem?_set_ne (by omega)

/-! ## One turn of the loop -/

def moveEvents : Move H → List (DirEvent H)
  | .visit _ => []
  | .leave dir => [.exhausted dir, .unloaded dir]
  | .finish dir => [.exhausted dir]

/-- The entries with a matching name among those some moves visit. -/
def found (info : H → Option Bytes) (pattern : Path) (ms : List (Move H)) : List (Node H) :=
  (ms.filterMap Move.visited).filter fun node => nameMatches pattern (info node.label)

theorem dirrMatches_logged {s : σ} {log : List (DirEvent H)} (dr : DirRunner H) {h : H}
    (hopen : Opens C I info h) (hs : I s) :
    dirrMatches (logged C) (s, log) dr h = nameMatches dr.pattmatcher (info h) := by
  change (match C.readinfo s h with
    | none => false
    | some name => pattmatch dr.pattmatcher.chars name) = _
  rw [hopen.2 s hs]
  cases info h <;> rfl

theorem Carries.top {dr : DirRunner H} {dir : H} {rest : Forest H} {fs : List (Frame H)}
    (h : Carries C I info dr (⟨dir, rest⟩ :: fs)) :
    ∃ idx, dr.stackDepth ≠ 0 ∧ dr.stackDepth - 1 = fs.length ∧
      dr.dirStack[fs.length]? = some (some dir) ∧ dr.idxStack[fs.length]? = some idx ∧
      ListsTree C I info dir idx rest := by
  obtain ⟨⟨hdir, idx, hidx, hlists⟩, -⟩ := h.stacked
  have hdepth := h.depth
  rw [List.length_cons] at hdepth
  exact ⟨idx, by omega, by omega, hdir, hidx, hlists⟩

theorem Carries.advance {dr : DirRunner H} {dir : H} {rest rest' : Forest H}
    {fs : List (Frame H)} {idx : Nat} (h : Carries C I info dr (⟨dir, rest⟩ :: fs))
    (hlists : ListsTree C I info dir idx rest') :
    Carries C I info { dr with idxStack := dr.idxStack.set fs.length idx }
      (⟨dir, rest'⟩ :: fs) := by
  obtain ⟨⟨hdir, -⟩, hbelow⟩ := h.stacked
  have hdepth := h.depth
  have hfits := h.fits
  have hidxs := h.idxs
  rw [List.length_cons] at hdepth
  refine ⟨hdepth, hfits, h.dirs, ?_, ⟨⟨hdir, idx, ?_, hlists⟩, hbelow.congr ?_ ?_⟩⟩
  · simp only [List.length_set]
    exact hidxs
  · exact List.getElem?_set_self (by omega)
  · exact fun _ _ => rfl
  · intro k hk
    exact List.getElem?_set_ne (by omega)

theorem dirr_null {fuel : Nat} {s s' : σ} {dr : DirRunner H} {current : H} {top idx idx' : Nat}
    (hopen : dr.stackDepth ≠ 0) (htop : dr.stackDepth - 1 = top)
    (hdir : dr.dirStack[top]? = some (some current)) (hidx : dr.idxStack[top]? = some idx)
    (hlist : C.fdirlist s current idx = (s', none, idx')) :
    dirr C (fuel + 1) s dr =
      dirr C fuel (if 0 < top then C.fuloaddir s' current else s')
        (dirrPop { dr with idxStack := dr.idxStack.set top idx' }) := by
  rw [dirr, if_neg hopen]
  simp only [htop, hdir, hidx, hlist, usable]

theorem dirr_item {fuel : Nat} {s s' : σ} {dr dr' : DirRunner H} {current h : H} {dir : Bool}
    {top idx idx' : Nat}
    (hopen : dr.stackDepth ≠ 0) (htop : dr.stackDepth - 1 = top)
    (hdir : dr.dirStack[top]? = some (some current)) (hidx : dr.idxStack[top]? = some idx)
    (hlist : C.fdirlist s current idx = (s', some ⟨dir, some h⟩, idx'))
    (hfile : C.hasFile h = true)
    (hpush : (if dir then dirrPush { dr with idxStack := dr.idxStack.set top idx' } h
      else .ok { dr with idxStack := dr.idxStack.set top idx' }) = .ok dr') :
    dirr C (fuel + 1) s dr =
      if dirrMatches C s' dr h then .ok (s', dr', some ⟨dir, some h⟩)
      else dirr C fuel s' dr' := by
  rw [dirr, if_neg hopen]
  simp only [htop, hdir, hidx, hlist, usable, hfile, if_true, hpush]
  rfl

theorem dirr_close {dr : DirRunner H} {dir : H} {fs : List (Frame H)} {s : σ}
    (log : List (DirEvent H)) (hcarries : Carries C I info dr (⟨dir, .nil⟩ :: fs))
    (hs : I s) (hunload : ∀ s h, I s → I (C.fuloaddir s h)) :
    ∃ s' dr', Carries C I info dr' fs ∧ dr'.pattmatcher = dr.pattmatcher ∧ I s' ∧
      ∀ fuel, dirr (logged C) (fuel + 1) (s, log) dr =
        dirr (logged C) fuel (s', log ++ moveEvents (closing dir fs)) dr' := by
  obtain ⟨idx, hopen, htop, hdir, hidx, hlists⟩ := hcarries.top
  cases hlists with
  | nil hend =>
      obtain ⟨hnext, hnull⟩ := hend s hs
      have hlist : (logged C).fdirlist (s, log) dir idx =
          (((C.fdirlist s dir idx).1, log ++ [.exhausted dir]), none,
            (C.fdirlist s dir idx).2.2) := by
        simp only [logged, hnull, Option.isNone_none, if_true, Prod.mk.injEq, true_and]
        exact Prod.ext hnull rfl
      have hpattern : ∀ dr : DirRunner H, (dirrPop dr).pattmatcher = dr.pattmatcher := by
        intro dr
        rw [dirrPop]
        split <;> rfl
      have hpop := dirrPop_carries hcarries (C.fdirlist s dir idx).2.2
      cases fs with
      | nil =>
          refine ⟨_, _, hpop, hpattern _, hnext, fun fuel => ?_⟩
          rw [dirr_null hopen htop hdir hidx hlist, if_neg (by simp)]
          rfl
      | cons f fs =>
          refine ⟨_, _, hpop, hpattern _, hunload _ dir hnext, fun fuel => ?_⟩
          rw [dirr_null hopen htop hdir hidx hlist, if_pos (by simp)]
          simp only [logged, closing, moveEvents, List.append_assoc, List.cons_append,
            List.nil_append]

theorem dirr_visit {dr : DirRunner H} {dir h : H} {isBranch : Bool} {top : Forest H}
    {fs : List (Frame H)} {s : σ} {ms : List (Move H)} (log : List (DirEvent H))
    (hcarries : Carries C I info dr (⟨dir, top⟩ :: fs)) (hs : I s)
    (hmoves : pending (⟨dir, top⟩ :: fs) = .visit ⟨isBranch, h⟩ :: ms) :
    ∃ s' dr' frames, pending frames = ms ∧ Carries C I info dr' frames ∧
      dr'.pattmatcher = dr.pattmatcher ∧ I s' ∧
      ∀ fuel, dirr (logged C) (fuel + 1) (s, log) dr =
        if nameMatches dr.pattmatcher (info h) then
          .ok ((s', log), dr', some (nodeHandle ⟨isBranch, h⟩))
        else dirr (logged C) fuel (s', log) dr' := by
  obtain ⟨idx, hopen, htop, hdir, hidx, hlists⟩ := hcarries.top
  have hlist : ∀ item, Yields C I dir idx item →
      (logged C).fdirlist (s, log) dir idx =
        (((C.fdirlist s dir idx).1, log), some item, idx + 1) := by
    intro item hitem
    simp only [logged, (hitem s hs).2, Option.isNone_some, Bool.false_eq_true, if_false]
  cases hlists with
  | nil hend =>
      rw [pending_closed] at hmoves
      cases fs <;> cases hmoves
  | leaf hitem hopens hrest =>
      rw [pending_leaf] at hmoves
      cases hmoves
      refine ⟨_, _, _, rfl, hcarries.advance hrest, rfl, (hitem s hs).1, fun fuel => ?_⟩
      rw [dirr_item hopen htop hdir hidx (hlist _ hitem) hopens.1 (if_neg (by simp)),
        dirrMatches_logged dr hopens (hitem s hs).1]
      rfl
  | branch hitem hopens hentries hrest =>
      rw [pending_branch] at hmoves
      cases hmoves
      obtain ⟨dr', hpush, hpattern, hpushed⟩ :=
        dirrPush_carries (hcarries.advance hrest) hentries
      refine ⟨_, dr', _, rfl, hpushed, hpattern, (hitem s hs).1, fun fuel => ?_⟩
      rw [dirr_item hopen htop hdir hidx (hlist _ hitem) hopens.1 ((if_pos rfl).trans hpush),
        dirrMatches_logged dr hopens (hitem s hs).1]
      rfl

theorem dirr_turn {frames : List (Frame H)} {m : Move H} {ms : List (Move H)} {s : σ}
    {dr : DirRunner H} (log : List (DirEvent H))
    (hunload : ∀ s h, I s → I (C.fuloaddir s h))
    (hmoves : pending frames = m :: ms) (hcarries : Carries C I info dr frames) (hs : I s) :
    ∃ frames' s' dr', pending frames' = ms ∧ Carries C I info dr' frames' ∧
      dr'.pattmatcher = dr.pattmatcher ∧ I s' ∧
      ((∃ node, m = .visit node ∧ nameMatches dr.pattmatcher (info node.label) = true ∧
          ∀ fuel, dirr (logged C) (fuel + 1) (s, log) dr =
            .ok ((s', log), dr', some (nodeHandle node))) ∨
        found info dr.pattmatcher [m] = [] ∧
          ∀ fuel, dirr (logged C) (fuel + 1) (s, log) dr =
            dirr (logged C) fuel (s', log ++ moveEvents m) dr') := by
  obtain ⟨dir, top, fs, rfl⟩ : ∃ dir top fs, frames = ⟨dir, top⟩ :: fs := by
    cases frames with
    | nil => cases hmoves
    | cons f fs => exact ⟨f.owner, f.rest, fs, rfl⟩
  cases hm : m.visited with
  | some node =>
      obtain rfl : m = .visit node := by
        cases m <;> cases hm
        rfl
      obtain ⟨s', dr', frames', hms, hcarries', hpattern, hs', hturn⟩ :=
        dirr_visit log hcarries hs hmoves
      refine ⟨frames', s', dr', hms, hcarries', hpattern, hs', ?_⟩
      by_cases hname : nameMatches dr.pattmatcher (info node.label) = true
      · exact .inl ⟨node, rfl, hname, fun fuel => (hturn fuel).trans (if_pos hname)⟩
      · refine .inr ⟨?_, fun fuel => (hturn fuel).trans ((if_neg hname).trans ?_)⟩
        · simp [found, Move.visited, hname]
        · rw [moveEvents, List.append_nil]
  | none =>
      -- only an exhausted frame makes a move that visits nothing
      obtain rfl : top = .nil := by
        cases top with
        | nil => rfl
        | leaf h rest =>
            rw [pending_leaf] at hmoves
            cases hmoves
            cases hm
        | branch h entries rest =>
            rw [pending_branch] at hmoves
            cases hmoves
            cases hm
      rw [pending_closed] at hmoves
      obtain ⟨rfl, rfl⟩ := List.cons.inj hmoves
      obtain ⟨s', dr', hcarries', hpattern, hs', hturn⟩ := dirr_close log hcarries hs hunload
      refine ⟨fs, s', dr', rfl, hcarries', hpattern, hs', .inr ⟨?_, hturn⟩⟩
      simp [found, hm]

/-! ## Calls and runs of calls -/

theorem found_cons (pattern : Path) (m : Move H) (ms : List (Move H)) :
    found info pattern (m :: ms) = found info pattern [m] ++ found info pattern ms := by
  rw [found, ← List.singleton_append, List.filterMap_append, List.filter_append]
  rfl

theorem dirr_pending {pattern : Path} (hunload : ∀ s h, I s → I (C.fuloaddir s h))
    {ms : List (Move H)} {frames : List (Frame H)} {s : σ} {log : List (DirEvent H)}
    {dr : DirRunner H} (hmoves : pending frames = ms) (hcarries : Carries C I info dr frames)
    (hpattern : dr.pattmatcher = pattern) (hs : I s) {fuel : Nat} (hfuel : ms.length < fuel) :
    ∃ frames' s' dr' made, dirr (logged C) fuel (s, log) dr =
        .ok ((s', log ++ made.flatMap moveEvents), dr',
          (found info pattern ms).head?.map nodeHandle) ∧
      Carries C I info dr' frames' ∧ dr'.pattmatcher = pattern ∧ I s' ∧
      ms = made ++ pending frames' ∧
      found info pattern (pending frames') = (found info pattern ms).tail ∧
      (found info pattern ms = [] → pending frames' = []) := by
  induction ms generalizing frames s log dr fuel with
  | nil =>
      obtain ⟨fuel, rfl⟩ := Nat.exists_eq_succ_of_ne_zero (Nat.ne_of_gt hfuel)
      have hdone : dr.stackDepth = 0 := by
        cases frames with
        | nil => exact hcarries.depth
        | cons f fs => simp [pending] at hmoves
      refine ⟨frames, s, dr, [], ?_, hcarries, hpattern, hs, hmoves.symm, ?_, fun _ => hmoves⟩
      · rw [dirr, if_pos hdone, List.flatMap_nil, List.append_nil]
        rfl
      · rw [hmoves]
        rfl
  | cons m ms ih =>
      obtain ⟨fuel, rfl⟩ := Nat.exists_eq_succ_of_ne_zero (Nat.ne_of_gt (Nat.zero_lt_of_lt hfuel))
      rw [List.length_cons, Nat.succ_lt_succ_iff] at hfuel
      subst hpattern
      obtain ⟨frames', s', dr', hms, hcarries', hpattern, hs', hturn⟩ :=
        dirr_turn log hunload hmoves hcarries hs
      rw [found_cons]
      rcases hturn with ⟨node, rfl, hname, hturn⟩ | ⟨hskip, hturn⟩
      · have hfound : found info dr.pattmatcher [.visit node] = [node] := by
          simp [found, Move.visited, hname]
        refine ⟨frames', s', dr', [.visit node], ?_, hcarries', hpattern, hs', ?_, ?_, ?_⟩
        · rw [Nat.succ_eq_add_one, hturn, hfound]
          simp [moveEvents]
        · rw [hms]
          rfl
        · rw [hfound, hms]
          rfl
        · simp [hfound]
      · obtain ⟨last, s'', dr'', made, hcall, hlast, hpattern', hs'', hmade, htail, hnone⟩ :=
          ih hms hcarries' hpattern hs' hfuel
        refine ⟨last, s'', dr'', m :: made, ?_, hlast, hpattern', hs'', ?_, ?_, ?_⟩
        · rw [Nat.succ_eq_add_one, hturn, hcall, hskip, List.flatMap_cons, List.append_assoc]
          rfl
        · rw [List.cons_append, ← hmade]
        · rw [hskip]
          exact htail
        · rw [hskip]
          exact hnone

theorem dirrCalls_pending {pattern : Path} (hunload : ∀ s h, I s → I (C.fuloaddir s h))
    {fuel : Nat} (count : Nat) {frames : List (Frame H)} {s : σ} {log : List (DirEvent H)}
    {dr : DirRunner H} (hcarries : Carries C I info dr frames)
    (hpattern : dr.pattmatcher = pattern) (hs : I s) (hfuel : (pending frames).length < fuel) :
    ∃ frames' s' dr' made, dirrCalls (logged C) fuel count (s, log) dr =
        .ok ((s', log ++ made.flatMap moveEvents), dr',
          (List.range count).map fun k =>
            (found info pattern (pending frames))[k]?.map nodeHandle) ∧
      Carries C I info dr' frames' ∧ pending frames = made ++ pending frames' ∧
      ((found info pattern (pending frames)).length < count → pending frames' = []) := by
  induction count generalizing frames s log dr with
  | zero =>
      refine ⟨frames, s, dr, [], ?_, hcarries, rfl, fun h => absurd h (Nat.not_lt_zero _)⟩
      rw [dirrCalls, List.flatMap_nil, List.append_nil]
      rfl
  | succ count ih =>
      obtain ⟨mid, s', dr', made, hcall, hmid, hpattern', hs', hmade, htail, hnone⟩ :=
        dirr_pending hunload rfl hcarries hpattern hs hfuel
      have hfuel' : (pending mid).length < fuel := by
        rw [hmade, List.length_append] at hfuel
        omega
      obtain ⟨last, s'', dr'', made', hcalls, hlast, hmade', hdone⟩ :=
        @ih mid s' (log ++ made.flatMap moveEvents) dr' hmid hpattern' hs' hfuel'
      refine ⟨last, s'', dr'', made ++ made', ?_, hlast, ?_, ?_⟩
      · rw [dirrCalls, hcall]
        simp only [hcalls, htail, List.flatMap_append, List.append_assoc,
          List.range_succ_eq_map, List.map_cons, List.map_map, List.head?_eq_getElem?,
          List.getElem?_tail, Function.comp_def, Nat.succ_eq_add_one]
      · rw [List.append_assoc, ← hmade', ← hmade]
      · intro hlt
        by_cases hempty : found info pattern (pending frames) = []
        · rw [hnone hempty] at hmade'
          exact (List.append_eq_nil_iff.mp hmade'.symm).2
        · refine hdone ?_
          have hpos := List.length_pos_of_ne_nil hempty
          rw [htail, List.length_tail]
          omega

theorem dirrInit_carries {root : H} {entries : Forest H} {pattern : Path} {dr : DirRunner H}
    (hinit : dirrInit (some root) pattern = some dr) (hlists : ListsTree C I info root 0 entries) :
    Carries C I info dr [⟨root, entries⟩] ∧ dr.pattmatcher = pattern := by
  obtain rfl := Option.some.inj hinit
  exact ⟨⟨rfl, Nat.le_add_left 1 7, rfl, rfl, ⟨⟨rfl, 0, rfl, hlists⟩, trivial⟩⟩, rfl⟩

theorem flatMap_moveEvents (entries : Forest H) :
    entries.moves.flatMap moveEvents =
      entries.closings.flatMap fun dir => [.exhausted dir, .unloaded dir] := by
  induction entries with
  | nil => rfl
  | leaf h rest ih =>
      rw [Forest.moves, List.flatMap_cons, ih]
      rfl
  | branch h entries rest ihe ihr =>
      rw [Forest.moves, Forest.closings, List.flatMap_cons, List.flatMap_append,
        List.flatMap_append, List.flatMap_cons, List.flatMap_cons, ihe, ihr]
      rfl

/--
The calls return the matching entries below the directory in their pre-order, each
once, and NULL from then on.  The stacks never hold more than fits, and the log of
ended listings and unloads is a first part of the post-order of the directories,
all of it once NULL has been returned: each directory below the root is unloaded
once, right after its own listing has ended.
-/
theorem dirr_preorder {root : H} {entries : Forest H} {pattern : Path} {dr : DirRunner H}
    (hlists : ListsTree C I info root 0 entries) (hunload : ∀ s h, I s → I (C.fuloaddir s h))
    (hinit : dirrInit (some root) pattern = some dr) :
    ∃ enough, ∀ fuel ≥ enough, ∀ s, I s → ∀ count, ∃ s' log dr' items,
      dirrCalls (logged C) fuel count (s, []) dr = .ok ((s', log), dr', items) ∧
      items = (List.range count).map
        (fun k => (matching info pattern entries)[k]?.map nodeHandle) ∧
      dr'.stackDepth ≤ dr'.stackSize ∧ dr'.dirStack.length = dr'.stackSize ∧
      dr'.idxStack.length = dr'.stackSize ∧
      log <+: closingEvents root entries ∧
      ((matching info pattern entries).length < count → log = closingEvents root entries) := by
  obtain ⟨hcarries, hpattern⟩ := dirrInit_carries hinit hlists
  have hfound : found info pattern (pending [⟨root, entries⟩]) = matching info pattern entries := by
    rw [pending_start, found, List.filterMap_append, Forest.visited_moves, matching]
    simp [Move.visited]
  have hevents : (pending [⟨root, entries⟩]).flatMap moveEvents = closingEvents root entries := by
    rw [pending_start, List.flatMap_append, flatMap_moveEvents, closingEvents]
    rfl
  refine ⟨(pending [⟨root, entries⟩]).length + 1, fun fuel hfuel s hs count => ?_⟩
  obtain ⟨frames', s', dr', made, hcalls, hlast, hmade, hdone⟩ :=
    dirrCalls_pending hunload count hcarries hpattern hs hfuel
  refine ⟨s', made.flatMap moveEvents, dr', _, hcalls, ?_, hlast.fits, hlast.dirs, hlast.idxs,
    ?_, ?_⟩
  · rw [hfound]
  · rw [← hevents, hmade, List.flatMap_append]
    exact List.prefix_append _ _
  · intro hlt
    rw [← hfound] at hlt
    rw [← hevents, hmade, hdone hlt, List.append_nil]

end Runner

/-! ## A tower of directories -/

/-- Directory `n + 1` holds the directory `n` and the file `100 + n`. -/
def towerItems : Nat → List (Unhandle Nat)
  | 0 => []
  | n + 1 => [⟨true, some n⟩, ⟨false, some (100 + n)⟩]

def towerInfo (h : Nat) : Option Bytes := some (if h < 100 then [0x64] else [0x66])

def towerCalls : DirCalls Unit Nat where
  fdirlist s dir index :=
    (s, (towerItems dir)[index]?, if index < (towerItems dir).length then index + 1 else index)
  readinfo _ := towerInfo
  hasFile _ := true
  fuloaddir s _ := s

def towerEntries : Nat → Forest Nat
  | 0 => .nil
  | n + 1 => .branch n (towerEntries n) (.leaf (100 + n) .nil)

theorem towerEntries_lists (n : Nat) :
    ListsTree towerCalls (fun _ => True) towerInfo n 0 (towerEntries n) := by
  have hopens : ∀ h, Opens towerCalls (fun _ => True) towerInfo h := fun h =>
    ⟨rfl, fun _ _ => rfl⟩
  induction n with
  | zero => exact .nil fun _ _ => ⟨trivial, rfl⟩
  | succ n ih =>
      refine .branch (fun _ _ => ⟨trivial, rfl⟩) (hopens n) ih ?_
      refine .leaf (fun _ _ => ⟨trivial, rfl⟩) (hopens _) ?_
      exact .nil fun _ _ => ⟨trivial, rfl⟩

/-- The single character `f`, the name of every file of the tower. -/
def fileName : Path := ⟨[0x66], by decide⟩

def towerRunner : DirRunner Nat where
  dir := 9
  pattmatcher := fileName
  stackSize := 8
  dirStack := (List.replicate 8 none).set 0 (some 9)
  idxStack := List.replicate 8 0
  stackDepth := 1

/-- The runner grows its stacks on the way down to the ninth directory. -/
theorem dirr_preorder_tower :
    ∃ enough, ∀ fuel ≥ enough, ∃ s' log dr',
      dirrCalls (logged towerCalls) fuel 10 ((), []) towerRunner =
        .ok ((s', log), dr',
          ((List.range 9).map fun k => some ⟨false, some (100 + k)⟩) ++ [none]) ∧
      log = ((List.range 9).flatMap fun k => [.exhausted k, .unloaded k]) ++ [.exhausted 9] := by
  obtain ⟨enough, hcalls⟩ :=
    @dirr_preorder Unit Nat towerCalls (fun _ => True) towerInfo 9 (towerEntries 9) fileName
      towerRunner (towerEntries_lists 9) (fun _ _ _ => trivial) rfl
  refine ⟨enough, fun fuel hfuel => ?_⟩
  obtain ⟨s', log, dr', items, hrun, hitems, -, -, -, -, hlog⟩ := hcalls fuel hfuel () trivial 10
  refine ⟨s', log, dr', ?_, (hlog (by decide)).trans (by decide)⟩
  rw [hrun, hitems]
  have heval : ((List.range 10).map fun k =>
      (matching towerInfo fileName (towerEntries 9))[k]?.map nodeHandle) =
      ((List.range 9).map fun k => some ⟨false, some (100 + k)⟩) ++ [none] := by decide
  rw [heval]

end BlockyOS.HostTool
