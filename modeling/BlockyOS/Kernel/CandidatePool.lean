import BlockyOS.Kernel.AllocInit

/-!
# The choice of a candidate pool

`QueryCandidatePool` for any types, attributes and number of pages.  Its bound of
4 GB is the product of `int`s and zero, so that the inner loop leaves at the very
descriptor that it starts from, and no run of descriptors is ever chosen.
-/

namespace BlockyOS.Kernel

open BlockyOS.Foundation
open BlockyOS.HostTool (Fault)

/-! ## The function for any request -/

/-- The inner loop of `QueryCandidatePool` with an attribute mask. -/
def extentOf (mask : Nat) : List EfiDescriptor → Nat → Extent → Extent
  | [], _, x => x
  | d :: map, address, x =>
      if d.physicalStart / pageSize ≠ address then x
      else if fourGB ≤ d.physicalStart then x
      else
        let x := { x with elapsed := u64 (x.elapsed + d.numberOfPages) }
        -- EfiLoaderCode, EfiBootServicesCode, EfiBootServicesData, EfiConventionalMemory
        if d.type ∈ [1, 3, 4, 7] ∧ mask &&& d.efiAttribute ≠ d.efiAttribute then
          if x.remaining < d.numberOfPages then { x with remaining := 0 }
          else
            extentOf mask map (u64 (d.physicalStart / pageSize + d.numberOfPages))
              { x with remaining := x.remaining - d.numberOfPages, entries := x.entries + 1 }
        else x

def poolLoop (member : MemberTest) (types : List Nat) (mask required : Nat) :
    List EfiDescriptor → Nat → Candidate → Except Fault Candidate
  | [], _, candidate => .ok candidate
  | d :: map, cc, candidate =>
      match member types types.length d.type with
      | .error e => .error e
      | .ok false => poolLoop member types mask required map (cc + 1) candidate
      | .ok true =>
          let x := extentOf mask (d :: map) (d.physicalStart / pageSize) ⟨required, 0, 0⟩
          if x.remaining ≠ 0 ∨
              u64sub candidate.elapsed required < u64sub x.elapsed required then
            poolLoop member types mask required map (cc + 1) candidate
          else poolLoop member types mask required map (cc + 1) ⟨some cc, x.entries, x.elapsed⟩

/-- `QueryCandidatePool`: the index of the descriptor returned, and `TotalPages`. -/
def queryPool (member : MemberTest) (types : List Nat) (mask : Nat) (map : List EfiDescriptor)
    (required : Nat) : Except Fault (Option (Nat × Nat)) :=
  match poolLoop member types mask required (map.take (u32 map.length)) 0
      ⟨none, noRange, noRange⟩ with
  | .error e => .error e
  | .ok candidate =>
      match candidate.index with
      | none => .ok none
      | some cc =>
          if candidate.entries ≠ noRange ∧ candidate.elapsed ≠ noRange then
            .ok (some (cc, u32 candidate.elapsed))
          else .ok none

/-! ## No candidate is ever taken -/

theorem extentOf_start (mask : Nat) (d : EfiDescriptor) (map : List EfiDescriptor)
    (x : Extent) : extentOf mask (d :: map) (d.physicalStart / pageSize) x = x := by
  have hzero : fourGB = 0 := rfl
  rw [extentOf, if_neg (fun h => h rfl), hzero, if_pos (Nat.zero_le _)]

theorem poolLoop_keeps {member : MemberTest} {types : List Nat} {mask required : Nat}
    (hrequired : required ≠ 0) {map : List EfiDescriptor} :
    ∀ {cc : Nat} {candidate candidate' : Candidate},
      poolLoop member types mask required map cc candidate = .ok candidate' →
        candidate' = candidate := by
  induction map with
  | nil =>
      intro cc candidate candidate' h
      cases h
      rfl
  | cons d map ih =>
      intro cc candidate candidate' h
      rw [poolLoop] at h
      split at h
      case h_1 => cases h
      case h_2 => exact ih h
      case h_3 =>
        rw [extentOf_start, if_pos (Or.inl hrequired)] at h
        exact ih h

theorem queryPool_eq_none {member : MemberTest} {types : List Nat} {mask required : Nat}
    {map : List EfiDescriptor} {r : Option (Nat × Nat)} (hrequired : required ≠ 0)
    (h : queryPool member types mask map required = .ok r) : r = none := by
  rw [queryPool] at h
  split at h
  case h_1 => cases h
  case h_2 candidate hloop =>
    rw [poolLoop_keeps hrequired hloop] at h
    cases h
    rfl

/-! ## When the call returns -/

/-- The one word that `memcheckl` looks at, if it looks at any, is the number of the types. -/
def Answered (types : List Nat) (type : Nat) : Prop :=
  type < 4 ∨ types[type / 4]? = some types.length

instance (types : List Nat) (type : Nat) : Decidable (Answered types type) :=
  inferInstanceAs (Decidable (_ ∨ _))

theorem memcheckl_isOk_iff (types : List Nat) (type : Nat) :
    (∃ usable, memcheckl types types.length type = .ok usable) ↔ Answered types type := by
  rw [memcheckl, Answered]
  by_cases hsmall : type < 4
  · have hsize : type / 4 = 0 := Nat.div_eq_of_lt hsmall
    simp only [hsize, if_true, hsmall, true_or, iff_true]
    exact ⟨false, rfl⟩
  · have hsize : type / 4 ≠ 0 := by omega
    simp only [hsize, if_false, hsmall, false_or]
    cases hword : types[type / 4]? with
    | none => simp
    | some w =>
        by_cases hw : w = types.length
        · simp [hw]
        · simp [hw]

theorem poolLoop_memcheckl {types : List Nat} {mask required : Nat}
    (hrequired : required ≠ 0) (map : List EfiDescriptor) :
    ∀ cc candidate, (∃ candidate', poolLoop memcheckl types mask required map cc candidate =
      .ok candidate') ↔ ∀ d ∈ map, Answered types d.type := by
  induction map with
  | nil =>
      intro cc candidate
      exact ⟨fun _ d hd => absurd hd List.not_mem_nil, fun _ => ⟨candidate, rfl⟩⟩
  | cons d map ih =>
      intro cc candidate
      rw [List.forall_mem_cons, ← memcheckl_isOk_iff, ← ih (cc + 1) candidate, poolLoop,
        extentOf_start, if_pos (Or.inl hrequired)]
      cases memcheckl types types.length d.type with
      | error e => simp
      | ok usable => cases usable <;> simp

/-! ## The pool that is asked for -/

/-- The arguments of a call, with what their types and the caller promise. -/
structure PoolQuery where
  types : List Nat
  mask : Nat
  map : List EfiDescriptor
  required : Nat
  types_lt : types.length < 2 ^ 16
  map_lt : map.length < 2 ^ 32
  required_pos : 1 ≤ required

namespace PoolQuery

def answer (q : PoolQuery) : Except Fault (Option (Nat × Nat)) :=
  queryPool memcheckl q.types q.mask q.map q.required

def pagesOf (run : List EfiDescriptor) : Nat := (run.map EfiDescriptor.numberOfPages).sum

structure CandidateRun (q : PoolQuery) (run : List EfiDescriptor) : Prop where
  types : ∀ d ∈ run, d.type ∈ q.types
  below : ∀ d ∈ run, d.physicalStart < 4 * 2 ^ 30
  unmasked : ∀ d ∈ run, q.mask &&& d.efiAttribute = 0
  contiguous : run.IsChain fun d d' =>
    d.physicalStart + d.numberOfPages * pageSize = d'.physicalStart
  enough : q.required ≤ pagesOf run

def RunAt (q : PoolQuery) (index : Nat) (run : List EfiDescriptor) : Prop :=
  run <+: q.map.drop index ∧ q.CandidateRun run

def Selects (q : PoolQuery) (index totalPages : Nat) : Prop :=
  ∃ run, q.RunAt index run ∧ totalPages = pagesOf run ∧
    ∀ index' run', q.RunAt index' run' → pagesOf run ≤ pagesOf run'

def HasRun (q : PoolQuery) : Prop := ∃ index run, q.RunAt index run

/-- The call returns, `NULL` if there is no candidate run and the best one otherwise. -/
def Right (q : PoolQuery) : Prop :=
  ∃ r, q.answer = .ok r ∧ (r = none ↔ ¬ q.HasRun) ∧
    ∀ index totalPages, r = some (index, totalPages) → q.Selects index totalPages

theorem answer_eq_none {q : PoolQuery} {r : Option (Nat × Nat)} (h : q.answer = .ok r) :
    r = none :=
  queryPool_eq_none (Nat.ne_of_gt q.required_pos) h

theorem answer_isOk_iff (q : PoolQuery) :
    (∃ r, q.answer = .ok r) ↔ ∀ d ∈ q.map, Answered q.types d.type := by
  have hall : q.map.take (u32 q.map.length) = q.map := by
    rw [u32, Nat.mod_eq_of_lt q.map_lt, List.take_length]
  rw [← @poolLoop_memcheckl q.types q.mask q.required (Nat.ne_of_gt q.required_pos) q.map 0
    ⟨none, noRange, noRange⟩, answer, queryPool, hall]
  cases hloop : poolLoop memcheckl q.types q.mask q.required q.map 0 ⟨none, noRange, noRange⟩ with
  | error e => simp
  | ok candidate =>
      rw [poolLoop_keeps (Nat.ne_of_gt q.required_pos) hloop]
      simp

/-- The call is right where it returns at all and there is no pool to be found. -/
theorem poolRight_iff (q : PoolQuery) :
    q.Right ↔ (∀ d ∈ q.map, Answered q.types d.type) ∧ ¬ q.HasRun := by
  rw [← answer_isOk_iff]
  constructor
  · rintro ⟨r, hanswer, hnone, -⟩
    exact ⟨⟨r, hanswer⟩, hnone.mp (answer_eq_none hanswer)⟩
  · rintro ⟨⟨r, hanswer⟩, hrun⟩
    have hr := answer_eq_none hanswer
    refine ⟨r, hanswer, ⟨fun _ => hrun, fun _ => hr⟩, ?_⟩
    rw [hr]
    exact fun _ _ h => nomatch h

theorem sampleTypes_lt : [7, 3, 4, 1].length < 2 ^ 16 := by decide

theorem sampleMap_lt : [(⟨3, 0x100000, 64, 0⟩ : EfiDescriptor)].length < 2 ^ 32 := by decide

theorem samplePages_pos : 1 ≤ 1 := Nat.le_refl 1

/-- One range of boot services code, of which a page is asked for with `TypeMask1`. -/
def sample : PoolQuery :=
  ⟨[7, 3, 4, 1], attributeMask, [⟨3, 0x100000, 64, 0⟩], 1, sampleTypes_lt, sampleMap_lt,
    samplePages_pos⟩

theorem hasRun_sample : sample.HasRun :=
  ⟨0, sample.map, List.prefix_rfl,
    ⟨by decide, by decide, by decide, List.IsChain.singleton _, by decide⟩⟩

/-- The only pool is not found, although the call returns. -/
theorem not_poolRight_sample : ¬ sample.Right := by
  rintro ⟨r, hanswer, hnone, -⟩
  have hnull : sample.answer = .ok none := rfl
  rw [hnull] at hanswer
  cases hanswer
  exact hnone.mp rfl hasRun_sample

end PoolQuery

end BlockyOS.Kernel
