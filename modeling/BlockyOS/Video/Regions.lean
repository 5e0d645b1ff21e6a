import BlockyOS.Foundation.Runs
import BlockyOS.HostTool.Raw
import Mathlib.Data.List.Nodup

/-!
# Video regions

The tags of `RawRegion.h` are kept in an array that grows with every region requested
and closes up behind one released.
-/

namespace BlockyOS.Video

open BlockyOS.Foundation
open BlockyOS.HostTool (Fault)

/-! ## The allocator -/

/-- `sizeof(VmaTag)`. -/
def sizeofVmaTag : Nat := 41

/-- `sizeof(Pixel)`. -/
def sizeofPixel : Nat := 4

structure VmaTag where
  mtx : Nat
  base : Nat
  backBuffer : Nat
  pixelWidth : Nat
  pixelHeight : Nat
  pixelX : Nat
  pixelY : Nat
  ready : Bool
  deriving DecidableEq, Repr

def VmaTag.buffers (tag : VmaTag) : List Nat := [tag.base, tag.backBuffer]

/--
`RawVideoMemoryAllocator`, its tags being the first `TotalAllocations` ones that
`MemoryTags` points to, with the bytes allocated there and the heap's other blocks.
-/
structure RawVideoMemoryAllocator where
  pixelWidth : Nat
  pixelHeight : Nat
  memoryTags : Nat
  room : Nat
  tags : List VmaTag
  blocks : Nat → Nat

namespace RawVideoMemoryAllocator

/-- The allocator of a screen before the first request. -/
def initial (pixelWidth pixelHeight : Nat) : RawVideoMemoryAllocator where
  pixelWidth := pixelWidth
  pixelHeight := pixelHeight
  memoryTags := 0
  room := 0
  tags := []
  blocks := fun _ => 0

structure HeapAnswers where
  memoryTags : Nat
  backBuffer : Nat
  base : Nat

/-- `__min(size - origin, wanted)`, in 64 bits and stored in 32. -/
def clamp (size origin wanted : Nat) : Nat :=
  min ((size + 2 ^ 64 - origin) % 2 ^ 64) wanted % 2 ^ 32

variable (hnd : RawVideoMemoryAllocator)

/-- The bytes that `mcalloc((*W) * (*H), sizeof(Pixel))` asks for. -/
def bufferBytes (w h : Nat) : Nat := w * h % 2 ^ 32 * sizeofPixel

def grown (x y w h : Nat) (answers : HeapAnswers) : RawVideoMemoryAllocator :=
  { hnd with
    memoryTags := answers.memoryTags
    room := hnd.tags.length * sizeofVmaTag
    tags := hnd.tags ++ [{
      mtx := 0
      base := answers.base
      backBuffer := answers.backBuffer
      pixelWidth := clamp hnd.pixelHeight y h
      pixelHeight := clamp hnd.pixelWidth x w
      pixelX := x
      pixelY := y
      ready := false }]
    blocks := fun p =>
      if p = answers.base ∨ p = answers.backBuffer then bufferBytes w h else hnd.blocks p }

/-- `RequestVideoMemory`, with the pointer it returns. -/
def requestVideoMemory (x y : Nat) (w h : Option Nat) (answers : HeapAnswers) :
    Except Fault (RawVideoMemoryAllocator × Nat) :=
  match w, h with
  | none, none => .ok (hnd, 0)
  | some w, some h =>
      if clamp hnd.pixelWidth x w = 0 ∧ clamp hnd.pixelHeight y h = 0 then .ok (hnd, 0)
      else .ok (hnd.grown x y w h answers, answers.base)
  | _, _ => .error .nullDeref

def findTag (vm : Nat) : Option Nat := hnd.tags.findIdx? fun tag => tag.base = vm

def flushVideoMemory (vm mtx : Nat) : RawVideoMemoryAllocator :=
  match hnd.findTag vm with
  | none => hnd
  | some cc =>
      { hnd with tags := hnd.tags.modify cc fun tag => { tag with ready := true, mtx := mtx } }

def freed (tag : VmaTag) : Nat → Nat := fun p => if p ∈ tag.buffers then 0 else hnd.blocks p

/-- `ReleaseVideoMemory`, which copies the tags behind the released one over it. -/
def releaseVideoMemory (vm : Nat) : RawVideoMemoryAllocator :=
  match hnd.findTag vm with
  | none => hnd
  | some cc =>
      { hnd with
        blocks := match hnd.tags[cc]? with
          | none => hnd.blocks
          | some tag => hnd.freed tag
        tags := hnd.tags.take cc ++ hnd.tags.drop (cc + 1) }

inductive VideoCall where
  | request (x y : Nat) (w h : Option Nat) (answers : HeapAnswers)
  | flush (vm mtx : Nat)
  | release (vm : Nat)

def step (hnd : RawVideoMemoryAllocator) : VideoCall → Except Fault RawVideoMemoryAllocator
  | .request x y w h answers => (hnd.requestVideoMemory x y w h answers).map Prod.fst
  | .flush vm mtx => .ok (hnd.flushVideoMemory vm mtx)
  | .release vm => .ok (hnd.releaseVideoMemory vm)

/-! ## What the table is for -/

structure Fits (tag : VmaTag) : Prop where
  width : tag.pixelX + tag.pixelWidth ≤ hnd.pixelWidth
  height : tag.pixelY + tag.pixelHeight ≤ hnd.pixelHeight
  buffers : ∀ p ∈ tag.buffers, tag.pixelWidth * tag.pixelHeight * sizeofPixel ≤ hnd.blocks p

structure Holds (hnd : RawVideoMemoryAllocator) : Prop where
  room : hnd.tags.length * sizeofVmaTag ≤ hnd.room
  fits : ∀ tag ∈ hnd.tags, hnd.Fits tag
  separate : (hnd.tags.flatMap VmaTag.buffers).Nodup

/-- The first tag of the region, if there is one, is replaced by others. -/
def Replaces (vm : Nat) (replacement : VmaTag → List VmaTag)
    (hnd hnd' : RawVideoMemoryAllocator) : Prop :=
  ((∀ tag ∈ hnd.tags, tag.base ≠ vm) ∧ hnd'.tags = hnd.tags) ∨
    ∃ before tag behind, hnd.tags = before ++ tag :: behind ∧ tag.base = vm ∧
      hnd'.tags = before ++ replacement tag ++ behind

def Effect (hnd : RawVideoMemoryAllocator) : VideoCall → RawVideoMemoryAllocator → Prop
  | .request .., hnd' => hnd.tags <+: hnd'.tags
  | .flush vm mtx, hnd' =>
      Replaces vm (fun tag => [{ tag with ready := true, mtx := mtx }]) hnd hnd'
  | .release vm, hnd' => Replaces vm (fun _ => []) hnd hnd'

def Accepted (hnd : RawVideoMemoryAllocator) : VideoCall → Prop
  | .request x y (some w) (some h) _ =>
      ¬ (clamp hnd.pixelWidth x w = 0 ∧ clamp hnd.pixelHeight y h = 0)
  | _ => False

variable {hnd}

/-! ## Flushing and releasing -/

theorem findTag_none {vm : Nat} (h : hnd.findTag vm = none) : ∀ tag ∈ hnd.tags, tag.base ≠ vm := by
  intro tag htag heq
  have := List.findIdx?_eq_none_iff.mp h tag htag
  rw [decide_eq_true heq] at this
  cases this

theorem findTag_some {vm cc : Nat} (h : hnd.findTag vm = some cc) :
    ∃ tag, hnd.tags[cc]? = some tag ∧ tag.base = vm ∧
      hnd.tags = hnd.tags.take cc ++ tag :: hnd.tags.drop (cc + 1) := by
  obtain ⟨hlt, hbase, -⟩ := List.findIdx?_eq_some_iff_getElem.mp h
  refine ⟨hnd.tags[cc], List.getElem?_eq_getElem hlt, of_decide_eq_true hbase, ?_⟩
  rw [← List.drop_eq_getElem_cons hlt, List.take_append_drop]

theorem flush_replaces (vm mtx : Nat) :
    Replaces vm (fun tag => [{ tag with ready := true, mtx := mtx }]) hnd
      (hnd.flushVideoMemory vm mtx) := by
  rw [flushVideoMemory]
  cases hfind : hnd.findTag vm with
  | none => exact Or.inl ⟨findTag_none hfind, rfl⟩
  | some cc =>
      obtain ⟨tag, hget, hbase, hsplit⟩ := findTag_some hfind
      obtain ⟨hlt, rfl⟩ := List.getElem?_eq_some_iff.mp hget
      refine Or.inr ⟨_, _, _, hsplit, hbase, ?_⟩
      simp [List.modify_eq_take_cons_drop hlt]

theorem release_replaces (vm : Nat) :
    Replaces vm (fun _ => []) hnd (hnd.releaseVideoMemory vm) := by
  rw [releaseVideoMemory]
  cases hfind : hnd.findTag vm with
  | none => exact Or.inl ⟨findTag_none hfind, rfl⟩
  | some cc =>
      obtain ⟨tag, -, hbase, hsplit⟩ := findTag_some hfind
      exact Or.inr ⟨_, tag, _, hsplit, hbase, by simp⟩

theorem Holds.flush (h : Holds hnd) (vm mtx : Nat) : Holds (hnd.flushVideoMemory vm mtx) := by
  rw [flushVideoMemory]
  cases hfind : hnd.findTag vm with
  | none => exact h
  | some cc =>
      obtain ⟨tag, hget, -, hsplit⟩ := findTag_some hfind
      obtain ⟨hlt, rfl⟩ := List.getElem?_eq_some_iff.mp hget
      dsimp only
      rw [List.modify_eq_take_cons_drop hlt]
      constructor
      · have hroom := h.room
        rw [hsplit, List.length_append, List.length_cons] at hroom
        rwa [List.length_append, List.length_cons]
      · intro tag' htag'
        rw [List.mem_append, List.mem_cons] at htag'
        rcases htag' with hbefore | rfl | hbehind
        · have := h.fits tag' (List.mem_of_mem_take hbefore)
          exact ⟨this.width, this.height, this.buffers⟩
        · have := h.fits _ (List.getElem_mem hlt)
          exact ⟨this.width, this.height, this.buffers⟩
        · have := h.fits tag' (List.mem_of_mem_drop hbehind)
          exact ⟨this.width, this.height, this.buffers⟩
      · have hseparate := h.separate
        rw [hsplit, List.flatMap_append, List.flatMap_cons] at hseparate
        rwa [List.flatMap_append, List.flatMap_cons]

theorem Holds.release (h : Holds hnd) (vm : Nat) : Holds (hnd.releaseVideoMemory vm) := by
  rw [releaseVideoMemory]
  cases hfind : hnd.findTag vm with
  | none => exact h
  | some cc =>
      obtain ⟨tag, hget, -, hsplit⟩ := findTag_some hfind
      have hseparate := h.separate
      rw [hsplit, List.flatMap_append, List.flatMap_cons] at hseparate
      obtain ⟨hbefores, hrest, hbefore⟩ := List.nodup_append'.mp hseparate
      obtain ⟨-, hbehinds, hbehind⟩ := List.nodup_append'.mp hrest
      dsimp only
      rw [hget]
      constructor
      · refine le_trans (Nat.mul_le_mul_right _ ?_) h.room
        rw [List.length_append, List.length_take, List.length_drop]
        omega
      · intro tag' htag'
        have hmem : tag' ∈ hnd.tags := by
          rcases List.mem_append.mp htag' with hin | hin
          · exact List.mem_of_mem_take hin
          · exact List.mem_of_mem_drop hin
        have hfits := h.fits tag' hmem
        refine ⟨hfits.width, hfits.height, fun p hp => ?_⟩
        have hother : p ∉ tag.buffers := by
          intro hfreed
          rcases List.mem_append.mp htag' with hin | hin
          · exact hbefore (List.mem_flatMap.mpr ⟨tag', hin, hp⟩)
              (List.mem_append_left _ hfreed)
          · exact hbehind hfreed (List.mem_flatMap.mpr ⟨tag', hin, hp⟩)
        dsimp only [freed]
        rw [if_neg hother]
        exact hfits.buffers p hp
      · rw [List.flatMap_append]
        refine List.nodup_append'.mpr ⟨hbefores, hbehinds, ?_⟩
        exact (List.disjoint_append_right.mp hbefore).2

/-! ## Requests -/

theorem request_of_not_accepted {x y : Nat} {w h : Option Nat} {answers : HeapAnswers}
    {hnd' : RawVideoMemoryAllocator} (hstep : step hnd (.request x y w h answers) = .ok hnd')
    (hrefused : ¬ Accepted hnd (.request x y w h answers)) : hnd' = hnd := by
  match w, h with
  | none, none => exact (Except.ok.inj hstep).symm
  | some w, some h =>
      have hzero := not_not.mp hrefused
      rw [step, requestVideoMemory, if_pos hzero] at hstep
      exact (Except.ok.inj hstep).symm
  | none, some h => cases hstep
  | some w, none => cases hstep

theorem request_of_accepted {x y w h : Nat} {answers : HeapAnswers}
    {hnd' : RawVideoMemoryAllocator}
    (hstep : step hnd (.request x y (some w) (some h) answers) = .ok hnd')
    (haccepted : Accepted hnd (.request x y (some w) (some h) answers)) :
    hnd' = hnd.grown x y w h answers := by
  rw [step, requestVideoMemory, if_neg haccepted] at hstep
  exact (Except.ok.inj hstep).symm

theorem not_holds_grown (x y w h : Nat) (answers : HeapAnswers) :
    ¬ Holds (hnd.grown x y w h answers) := by
  intro hholds
  have hroom := hholds.room
  dsimp only [grown] at hroom
  rw [List.length_append, List.length_singleton, sizeofVmaTag] at hroom
  omega

/-! ## Runs -/

theorem holds_and_effect_iff {call : VideoCall} {hnd' : RawVideoMemoryAllocator}
    (h : Holds hnd) (hstep : step hnd call = .ok hnd') :
    Holds hnd' ∧ Effect hnd call hnd' ↔ ¬ Accepted hnd call := by
  cases call with
  | request x y w h' answers =>
      by_cases haccepted : Accepted hnd (.request x y w h' answers)
      · refine iff_of_false (fun hboth => ?_) (not_not.mpr haccepted)
        match w, h' with
        | some w, some h' =>
            rw [request_of_accepted hstep haccepted] at hboth
            exact not_holds_grown x y w h' answers hboth.1
        | none, _ => exact haccepted
        | some _, none => exact haccepted
      · rw [request_of_not_accepted hstep haccepted]
        exact iff_of_true ⟨h, List.prefix_refl _⟩ haccepted
  | flush vm mtx =>
      rw [← Except.ok.inj hstep]
      exact iff_of_true ⟨h.flush vm mtx, flush_replaces vm mtx⟩ id
  | release vm =>
      rw [← Except.ok.inj hstep]
      exact iff_of_true ⟨h.release vm, release_replaces vm⟩ id

theorem holds_initial (pixelWidth pixelHeight : Nat) : Holds (initial pixelWidth pixelHeight) :=
  ⟨Nat.le_refl _, fun _ htag => absurd htag List.not_mem_nil, List.nodup_nil⟩

/--
Whatever calls follow, the table keeps its room, its rectangles and its buffers and
each call does its work, if and only if no request among them is accepted.
-/
theorem video_runs_right_iff (pixelWidth pixelHeight : Nat) (calls : List VideoCall) :
    Along step Holds Effect (initial pixelWidth pixelHeight) calls ↔
      Meets step (fun hnd call => ¬ Accepted hnd call) (initial pixelWidth pixelHeight) calls :=
  along_iff_meets (P := Holds) (E := Effect) (C := fun hnd call => ¬ Accepted hnd call)
    (fun _ _ _ h hstep => holds_and_effect_iff h hstep) (holds_initial pixelWidth pixelHeight)

/-- The first region of a screen has no room for its tag. -/
theorem video_run_first_request :
    ¬ ∀ (pixelWidth pixelHeight : Nat) (calls : List VideoCall),
      Along step Holds Effect (initial pixelWidth pixelHeight) calls := by
  intro h
  let answers : HeapAnswers := ⟨4096, 8192, 12288⟩
  have haccepted : Accepted (initial 640 480) (.request 0 0 (some 8) (some 8) answers) := by
    rw [Accepted, initial]
    decide
  have hstep : step (initial 640 480) (.request 0 0 (some 8) (some 8) answers) =
      .ok ((initial 640 480).grown 0 0 8 8 answers) := by
    rw [step, requestVideoMemory, if_neg haccepted]
    rfl
  obtain ⟨-, hsteps⟩ := h 640 480 [.request 0 0 (some 8) (some 8) answers]
  exact not_holds_grown 0 0 8 8 answers (hsteps _ hstep).2.start

end RawVideoMemoryAllocator

end BlockyOS.Video
