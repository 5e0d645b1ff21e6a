import BlockyOS.Foundation.Loops
import BlockyOS.Video.Regions

/-!
# Blitting video regions

`VMAMemoryPoll` of `RawRegion.h`: a timer event that copies the back buffer of one
tag a poll to the screen.
-/

namespace BlockyOS.Video

open BlockyOS.Foundation
open BlockyOS.HostTool (Fault)

abbrev Pixel := BitVec 32

namespace RawVideoMemoryAllocator

variable (hnd : RawVideoMemoryAllocator)

/-! ## The poll -/

def copyRow (row : Nat → Pixel) (target width : Nat) (screen : Nat → Pixel) : Nat → Pixel :=
  fun p => if target ≤ p ∧ p < target + width then row (p - target) else screen p

def blitRow (tag : VmaTag) (backBuffer : Nat → Pixel) (y : Nat) (screen : Nat → Pixel) :
    Nat → Pixel :=
  copyRow backBuffer (y * hnd.pixelWidth + tag.pixelX) (min hnd.pixelWidth tag.pixelWidth) screen

def blit (tag : VmaTag) (backBuffer : Nat → Pixel) (screen : Nat → Pixel) : Nat → Pixel :=
  sweep (hnd.blitRow tag backBuffer) (min hnd.pixelHeight tag.pixelHeight) 0 screen

def tagPoll (call : Nat) : Nat := if hnd.tags.length < call then 0 else call

/--
`VMAMemoryPoll` over the buffers as they are at the poll, with the value returned.
`RepointVirtualAddress` renames the buffers' pages in the allocation table alone.
-/
def vmaMemoryPoll (buffers : Nat → Nat → Pixel) (screen : Nat → Pixel) (call : Nat) :
    Except Fault ((Nat → Pixel) × Nat) :=
  match hnd.tags[hnd.tagPoll call]? with
  | none => .error .outOfBounds
  | some tag =>
      -- `TagPoll++` returns the value before the increment.
      if !tag.ready then .ok (screen, hnd.tagPoll call)
      else .ok (hnd.blit tag (buffers tag.backBuffer) screen, hnd.tagPoll call)

/-- The screen and the event's `call` between two polls, with the tags examined, last one first. -/
structure PollState where
  screen : Nat → Pixel
  call : Nat
  examined : List Nat

def PollState.start (screen : Nat → Pixel) : PollState := ⟨screen, 0, []⟩

def poll (s : PollState) (buffers : Nat → Nat → Pixel) : Except Fault PollState :=
  (hnd.vmaMemoryPoll buffers s.screen s.call).map fun result =>
    ⟨result.1, result.2, hnd.tagPoll s.call :: s.examined⟩

/-! ## What a poll is for -/

structure Blitted (tag : VmaTag) (backBuffer screen screen' : Nat → Pixel) : Prop where
  inside : ∀ x < tag.pixelWidth, ∀ y < tag.pixelHeight,
    screen' ((tag.pixelY + y) * hnd.pixelWidth + (tag.pixelX + x)) =
      backBuffer (y * tag.pixelWidth + x)
  outside : ∀ p,
    (∀ x < tag.pixelWidth, ∀ y < tag.pixelHeight,
      p ≠ (tag.pixelY + y) * hnd.pixelWidth + (tag.pixelX + x)) → screen' p = screen p

structure PollsRight (s : PollState) (buffers : Nat → Nat → Pixel) : Prop where
  inTable : hnd.tagPoll s.call < hnd.tags.length
  cycles : ∀ last ∈ s.examined.head?, hnd.tagPoll s.call = (last + 1) % hnd.tags.length
  blits : ∀ tag ∈ hnd.tags[hnd.tagPoll s.call]?, tag.ready = true →
    ∀ s', hnd.poll s buffers = .ok s' →
      hnd.Blitted tag (buffers tag.backBuffer) s.screen s'.screen

/-! ## Where it does that -/

structure Indifferent (tag : VmaTag) (backBuffer screen : Nat → Pixel) : Prop where
  repeats : ∀ x < tag.pixelWidth, ∀ y, tag.pixelY + y < tag.pixelHeight →
    backBuffer (y * tag.pixelWidth + x) = backBuffer x
  above : ∀ x < tag.pixelWidth, ∀ y < tag.pixelHeight, y < tag.pixelY →
    screen (y * hnd.pixelWidth + (tag.pixelX + x)) = backBuffer x
  below : ∀ x < tag.pixelWidth, ∀ y < tag.pixelHeight, tag.pixelHeight ≤ tag.pixelY + y →
    screen ((tag.pixelY + y) * hnd.pixelWidth + (tag.pixelX + x)) =
      backBuffer (y * tag.pixelWidth + x)

/-- There is a tag, no other one if a poll went before, and its blit makes no difference. -/
structure PollCondition (s : PollState) (buffers : Nat → Nat → Pixel) : Prop where
  nonempty : hnd.tags ≠ []
  alone : s.examined = [] ∨ hnd.tags.length = 1
  indifferent : ∀ tag ∈ hnd.tags.head?, tag.ready = true →
    hnd.Indifferent tag (buffers tag.backBuffer) s.screen

variable {hnd}

/-! ## The rows copied -/

variable {tag : VmaTag} {backBuffer screen : Nat → Pixel}

theorem pixel_lt_row {y k x width : Nat} (hy : y < k) (hx : x < width) :
    y * width + x < k * width := by
  have hrow : (y + 1) * width ≤ k * width := Nat.mul_le_mul_right width hy
  rw [Nat.succ_mul] at hrow
  omega

theorem pixel_inj {y y' x x' width : Nat} (hx : x < width) (hx' : x' < width)
    (h : y * width + x = y' * width + x') : y = y' ∧ x = x' := by
  rcases Nat.lt_trichotomy y y' with hlt | rfl | hlt
  · have := pixel_lt_row hlt hx
    omega
  · exact ⟨rfl, by omega⟩
  · have := pixel_lt_row hlt hx'
    omega

/-- The first `k` rows of the screen hold the first row of the back buffer. -/
structure RowsCopied (hnd : RawVideoMemoryAllocator) (tag : VmaTag)
    (backBuffer screen : Nat → Pixel) (k : Nat) (screen' : Nat → Pixel) : Prop where
  rows : ∀ x < tag.pixelWidth, ∀ y < k,
    screen' (y * hnd.pixelWidth + (tag.pixelX + x)) = backBuffer x
  rest : ∀ p, (∀ x < tag.pixelWidth, ∀ y < k, p ≠ y * hnd.pixelWidth + (tag.pixelX + x)) →
    screen' p = screen p

theorem RowsCopied.blitRow {k : Nat} {screen' : Nat → Pixel} (hfits : hnd.Fits tag)
    (h : RowsCopied hnd tag backBuffer screen k screen') :
    RowsCopied hnd tag backBuffer screen (k + 1) (hnd.blitRow tag backBuffer k screen') := by
  have hwidth := hfits.width
  rw [RawVideoMemoryAllocator.blitRow, Nat.min_eq_right (by omega)]
  constructor
  · intro x hx y hy
    rw [copyRow]
    rcases Nat.lt_succ_iff_lt_or_eq.mp hy with hlt | rfl
    · have hrow : y * hnd.pixelWidth + (tag.pixelX + x) < k * hnd.pixelWidth :=
        pixel_lt_row hlt (by omega)
      rw [if_neg (by omega)]
      exact h.rows x hx y hlt
    · rw [if_pos (by omega)]
      congr 1
      omega
  · intro p hp
    rw [copyRow, if_neg]
    · exact h.rest p fun x hx y hy => hp x hx y (Nat.lt_succ_of_lt hy)
    · rintro ⟨hle, hlt⟩
      refine hp (p - (k * hnd.pixelWidth + tag.pixelX)) (by omega) k (Nat.lt_succ_self k) ?_
      omega

theorem rowsCopied_blit (hfits : hnd.Fits tag) :
    RowsCopied hnd tag backBuffer screen tag.pixelHeight (hnd.blit tag backBuffer screen) := by
  have hheight := hfits.height
  have hstart : RowsCopied hnd tag backBuffer screen 0 screen :=
    ⟨fun _ _ _ h => absurd h (Nat.not_lt_zero _), fun _ _ => rfl⟩
  rw [blit, Nat.min_eq_right (by omega)]
  have hrun := sweep_invariant (n := tag.pixelHeight) hstart
    fun k s _ _ (h : RowsCopied hnd tag backBuffer screen k s) => h.blitRow hfits
  rwa [Nat.zero_add] at hrun

theorem blitted_blit_iff (hfits : hnd.Fits tag) :
    hnd.Blitted tag backBuffer screen (hnd.blit tag backBuffer screen) ↔
      hnd.Indifferent tag backBuffer screen := by
  have hspec : RowsCopied hnd tag backBuffer screen tag.pixelHeight _ := rowsCopied_blit hfits
  obtain ⟨hrows, hrest⟩ := hspec
  have hwidth := hfits.width
  constructor
  · intro h
    refine ⟨fun x hx y hy => ?_, fun x hx y hy habove => ?_, fun x hx y hy hbelow => ?_⟩
    · rw [← h.inside x hx y (by omega), hrows x hx _ hy]
    · rw [← hrows x hx y hy, h.outside]
      intro x' hx' y' hy' heq
      obtain ⟨hrow, -⟩ := pixel_inj (by omega) (by omega) heq
      omega
    · rw [← h.inside x hx y hy, hrest]
      intro x' hx' y' hy' heq
      obtain ⟨hrow, -⟩ := pixel_inj (by omega) (by omega) heq
      omega
  · intro h
    constructor
    · intro x hx y hy
      rcases Nat.lt_or_ge (tag.pixelY + y) tag.pixelHeight with hlt | hge
      · rw [hrows x hx _ hlt, h.repeats x hx y hlt]
      · rw [hrest, h.below x hx y hy hge]
        intro x' hx' y' hy' heq
        obtain ⟨hrow, -⟩ := pixel_inj (by omega) (by omega) heq
        omega
    · intro p hp
      -- A pixel of a row copied is outside the rectangle only if its row is above it.
      by_cases hcopied : ∃ x < tag.pixelWidth, ∃ y < tag.pixelHeight,
          p = y * hnd.pixelWidth + (tag.pixelX + x)
      · obtain ⟨x, hx, y, hy, rfl⟩ := hcopied
        have habove : y < tag.pixelY := by
          by_contra hin
          refine hp x hx (y - tag.pixelY) (by omega) ?_
          rw [Nat.add_sub_cancel' (Nat.le_of_not_lt hin)]
        rw [hrows x hx y hy, h.above x hx y hy habove]
      · exact hrest p fun x hx y hy heq => hcopied ⟨x, hx, y, hy, heq⟩

/-! ## One poll -/

structure AtFirst (s : PollState) : Prop where
  call : s.call = 0
  examined : ∀ place ∈ s.examined, place = 0

theorem tagPoll_zero : hnd.tagPoll 0 = 0 := if_neg (Nat.not_lt_zero _)

theorem poll_of_head {s : PollState} {buffers : Nat → Nat → Pixel} (hs : AtFirst s)
    (hhead : hnd.tags.head? = some tag) :
    hnd.poll s buffers = .ok
      ⟨if tag.ready then hnd.blit tag (buffers tag.backBuffer) s.screen else s.screen, 0,
        0 :: s.examined⟩ := by
  rw [poll, vmaMemoryPoll, hs.call, tagPoll_zero, ← List.head?_eq_getElem?, hhead]
  cases hready : tag.ready <;> simp [hready, Except.map]

theorem poll_of_nil {s : PollState} {buffers : Nat → Nat → Pixel} (hs : AtFirst s)
    (hhead : hnd.tags.head? = none) : hnd.poll s buffers = .error .outOfBounds := by
  rw [poll, vmaMemoryPoll, hs.call, tagPoll_zero, ← List.head?_eq_getElem?, hhead]
  rfl

theorem AtFirst.poll {s s' : PollState} {buffers : Nat → Nat → Pixel} (hs : AtFirst s)
    (hstep : hnd.poll s buffers = .ok s') : AtFirst s' := by
  cases hhead : hnd.tags.head? with
  | none =>
      rw [poll_of_nil hs hhead] at hstep
      cases hstep
  | some tag =>
      rw [poll_of_head hs hhead] at hstep
      cases hstep
      refine ⟨rfl, fun place hplace => ?_⟩
      rcases List.mem_cons.mp hplace with rfl | hmem
      · rfl
      · exact hs.examined place hmem

theorem cycles_iff {s : PollState} (hs : AtFirst s) (hpos : 0 < hnd.tags.length) :
    (∀ last ∈ s.examined.head?, 0 = (last + 1) % hnd.tags.length) ↔
      s.examined = [] ∨ hnd.tags.length = 1 := by
  cases hexamined : s.examined with
  | nil => exact iff_of_true (fun _ hlast => by cases hlast) (Or.inl rfl)
  | cons last rest =>
      have hlast : last = 0 := hs.examined last (by rw [hexamined]; exact List.mem_cons_self)
      subst hlast
      constructor
      · intro h
        have hmod := h 0 rfl
        refine Or.inr ?_
        by_contra hne
        rw [Nat.mod_eq_of_lt (by omega)] at hmod
        omega
      · rintro (hnil | hone) last hmem
        · cases hnil
        · rw [hone, Nat.mod_one]

theorem pollsRight_iff {s : PollState} {buffers : Nat → Nat → Pixel} (h : Holds hnd)
    (hs : AtFirst s) : hnd.PollsRight s buffers ↔ hnd.PollCondition s buffers := by
  have hzero : hnd.tagPoll s.call = 0 := by rw [hs.call, tagPoll_zero]
  cases hhead : hnd.tags.head? with
  | none =>
      have hnil : hnd.tags = [] := List.head?_eq_none_iff.mp hhead
      refine iff_of_false (fun hright => ?_) fun hcond => hcond.nonempty hnil
      have hlt := hright.inTable
      rw [hnil] at hlt
      exact Nat.not_lt_zero _ hlt
  | some tag =>
      have hmem : tag ∈ hnd.tags := List.mem_of_head? hhead
      have hpos : 0 < hnd.tags.length := List.length_pos_of_mem hmem
      have hfits : hnd.Fits tag := h.fits tag hmem
      have hget : hnd.tags[0]? = some tag := by rw [← List.head?_eq_getElem?, hhead]
      constructor
      · rintro ⟨-, hcycles, hblits⟩
        rw [hzero] at hcycles hblits
        refine ⟨List.ne_nil_of_mem hmem, (cycles_iff hs hpos).mp hcycles, ?_⟩
        intro tag' htag' hready
        obtain rfl := Option.some.inj (hhead.symm.trans htag')
        have hblit := hblits tag hget hready _ (poll_of_head hs hhead)
        rw [if_pos hready] at hblit
        exact (blitted_blit_iff hfits).mp hblit
      · rintro ⟨-, halone, hindifferent⟩
        refine ⟨?_, ?_, ?_⟩
        · rwa [hzero]
        · rw [hzero]
          exact (cycles_iff hs hpos).mpr halone
        · rw [hzero]
          intro tag' htag' hready s' hstep
          obtain rfl := Option.some.inj (hget.symm.trans htag')
          rw [poll_of_head hs hhead, if_pos hready] at hstep
          obtain rfl := Except.ok.inj hstep
          exact (blitted_blit_iff hfits).mpr (hindifferent tag hhead hready)

theorem atFirst_start (screen : Nat → Pixel) : AtFirst (.start screen) :=
  ⟨rfl, fun _ hplace => absurd hplace List.not_mem_nil⟩

/-! ## Runs -/

/--
On a table that holds, all polls of a run examine the tags in turn and blit those
that are ready, if and only if the table has a tag, no other one where there is a
second poll, and each blit makes no difference to where the rows go.
-/
theorem polls_right_iff (h : Holds hnd) (screen : Nat → Pixel)
    (polls : List (Nat → Nat → Pixel)) :
    Each hnd.poll hnd.PollsRight (.start screen) polls ↔
      Each hnd.poll hnd.PollCondition (.start screen) polls :=
  each_iff_under (I := AtFirst) (C := hnd.PollsRight) (fun _ _ hs => pollsRight_iff h hs)
    (fun _ _ _ hs _ hstep => hs.poll hstep) (atFirst_start screen)

/-- A screen of two columns and three rows with a region of one pixel in its second row. -/
def pixelTable : RawVideoMemoryAllocator where
  pixelWidth := 2
  pixelHeight := 3
  memoryTags := 4096
  room := 41
  tags := [⟨0, 8192, 12288, 1, 1, 1, 1, true⟩]
  blocks := fun _ => 4

theorem holds_pixelTable : Holds pixelTable := by
  refine ⟨by decide, fun tag htag => ?_, by decide⟩
  obtain rfl := List.mem_singleton.mp htag
  exact ⟨by decide, by decide, fun _ _ => Nat.le_refl 4⟩

theorem polls_right_iff_pixelTable : Holds pixelTable ∧
    (Each pixelTable.poll pixelTable.PollsRight (.start fun _ => 0) [fun _ _ => 7] ↔
      Each pixelTable.poll pixelTable.PollCondition (.start fun _ => 0) [fun _ _ => 7]) :=
  ⟨holds_pixelTable, polls_right_iff holds_pixelTable (fun _ => 0) [fun _ _ => 7]⟩

/-- Its only pixel is drawn into the first row. -/
theorem pixelTable_not_polls_right :
    ¬ ∀ hnd : RawVideoMemoryAllocator, Holds hnd →
      ∀ (screen : Nat → Pixel) (polls : List (Nat → Nat → Pixel)),
        Each hnd.poll hnd.PollsRight (.start screen) polls := by
  intro h
  obtain ⟨hright, -⟩ := h pixelTable holds_pixelTable (fun _ => 0) [fun _ _ => 7]
  have hcond := (pollsRight_iff holds_pixelTable (atFirst_start _)).mp hright
  have habove := (hcond.indifferent _ rfl rfl).above 0 (by decide) 0 (by decide) (by decide)
  revert habove
  decide

end RawVideoMemoryAllocator

end BlockyOS.Video
