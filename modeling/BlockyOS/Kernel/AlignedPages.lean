import BlockyOS.Kernel.AddressCodec
import BlockyOS.Kernel.PageOwnership

/-!
# Aligned pages

`AllocateAlignedPagesFromRange` and `FreeAlignedPages`.  The pointer returned is
the one behind an aligned word, so that it is aligned to eight bytes only.
-/

namespace BlockyOS.Kernel

open BlockyOS.Foundation
open BlockyOS.HostTool (Fault)
open AllocState (virtualAddress)

namespace PagingState

/-- The loop of `AllocatePagesFromRange` over the addresses that are mapped. -/
def firstUnmapped (E : PagingEnv) (s : PagingState) (limit : Nat) : Nat → Nat → Except Fault Nat
  | 0, _ => .error .hang
  | fuel + 1, base =>
      if s.totalMappedMemory E base ≠ 0 ∧ base < limit then
        firstUnmapped E s limit fuel (u64 (base + pageSize))
      else .ok base

/-- `AllocatePagesFromRange`, zero standing for `NULL`. -/
def allocatePagesFromRange (E : PagingEnv) (s : PagingState)
    (base limit nBytes flags key : Nat) : Except Fault (Nat × List Frames × PagingState) :=
  match s.firstUnmapped E limit E.fuel base with
  | .error e => .error e
  | .ok base =>
      if limit ≤ base then .ok (0, [], s)
      else s.allocatePages E base nBytes flags key

/-- `AllocateAlignedPagesFromRange`: the address of the pages goes into the aligned word. -/
def allocateAlignedPagesFromRange (E : PagingEnv) (s : PagingState)
    (base limit nBytes flags key align : Nat) : Except Fault (Nat × PagingState) :=
  match s.allocatePagesFromRange E base limit (roundup (u64 (nBytes + 8)) align) flags key with
  | .error e => .error e
  | .ok (p, _, s) =>
      if p = 0 then .ok (0, s)
      else .ok (u64 (roundup p align + 8), s.setWord (roundup p align) p)

def freeAlignedPages (E : PagingEnv) (s : PagingState) (page : Nat) :
    Except Fault PagingState :=
  s.freePages E (s.word (u64sub page 8))

end PagingState

/-! ## The address of an allocation -/

structure PageCoordinate.Small (c : PageCoordinate) : Prop extends c.Bounded where
  l4 : c.l4 < 512
  l5 : c.l5 < 512

theorem PageCoordinate.Small.advance {c : PageCoordinate} (h : c.Small) (level5 : Bool)
    (nBytes : Nat) : (c.advance level5 nBytes).Small := by
  have hstep : (c.step nBytes).l4 = c.l4 ∧ (c.step nBytes).l5 = c.l5 := by
    rw [PageCoordinate.step]
    split
    · exact ⟨rfl, rfl⟩
    · split <;> exact ⟨rfl, rfl⟩
  have hcarry2 : ∀ c : PageCoordinate, c.carryL2.l4 = c.l4 ∧ c.carryL2.l5 = c.l5 := by
    intro c
    rw [PageCoordinate.carryL2]
    split <;> exact ⟨rfl, rfl⟩
  have hcarry3 : ∀ c : PageCoordinate, c.carryL3.l4 = c.l4 ∧ c.carryL3.l5 = c.l5 := by
    intro c
    rw [PageCoordinate.carryL3]
    split <;> exact ⟨rfl, rfl⟩
  have hcarry4 : ∀ c : PageCoordinate, c.l4 < 512 → c.carryL4.l4 < 512 ∧ c.carryL4.l5 = c.l5 := by
    intro c hc
    rw [PageCoordinate.carryL4]
    split
    · exact ⟨PageCoordinate.next_lt _, rfl⟩
    · exact ⟨hc, rfl⟩
  have hcarry5 : ∀ c : PageCoordinate, c.l5 < 512 →
      (c.carryL5 level5).l4 = c.l4 ∧ (c.carryL5 level5).l5 < 512 := by
    intro c hc
    rw [PageCoordinate.carryL5]
    split
    · exact ⟨rfl, PageCoordinate.next_lt _⟩
    · exact ⟨rfl, hc⟩
  obtain ⟨h24, h25⟩ := hcarry2 (c.step nBytes)
  obtain ⟨h34, h35⟩ := hcarry3 (c.step nBytes).carryL2
  obtain ⟨h44, h45⟩ := hcarry4 (c.step nBytes).carryL2.carryL3
    (by rw [h34, h24, hstep.1]; exact h.l4)
  obtain ⟨h54, h55⟩ := hcarry5 (c.step nBytes).carryL2.carryL3.carryL4
    (by rw [h45, h35, h25, hstep.2]; exact h.l5)
  exact ⟨h.toBounded.advance level5 nBytes, by rw [PageCoordinate.advance, h54]; exact h44, h55⟩

theorem TurnBack.small {c c' : PageCoordinate} (h : TurnBack c c') (hc : c.Small) : c'.Small := by
  cases h with
  | same => exact hc
  | l2 => exact ⟨⟨hc.l1, PageCoordinate.prev_lt _, hc.l3⟩, hc.l4, hc.l5⟩
  | l3 => exact ⟨⟨hc.l1, hc.l2, PageCoordinate.prev_lt _⟩, hc.l4, hc.l5⟩
  | l4 => exact ⟨⟨hc.l1, hc.l2, hc.l3⟩, PageCoordinate.prev_lt _, hc.l5⟩
  | l5 => exact ⟨⟨hc.l1, hc.l2, hc.l3⟩, hc.l4, PageCoordinate.prev_lt _⟩

section Turns

variable {E : PagingEnv} {s : PagingState} {base nBytes flags key : Nat} {c : PageCoordinate}

theorem virtualAddress_page (hc : c.Small) :
    4096 ∣ virtualAddress c ∧ virtualAddress c + 4096 ≤ 2 ^ 64 := by
  have h1 := hc.l1
  have h2 := hc.l2
  have h3 := hc.l3
  have h4 := hc.l4
  have h5 := hc.l5
  have hpacked : packedIndices c =
    c.l1 * 2 ^ 12 + c.l2 * 2 ^ 21 + c.l3 * 2 ^ 30 + c.l4 * 2 ^ 39 + c.l5 * 2 ^ 48 := rfl
  rcases Nat.lt_or_ge (packedIndices c) (2 ^ 56) with h | h
  · rw [virtualAddress_of_lt h]
    omega
  · rw [virtualAddress_of_le h]
    omega

theorem allocatePages_address {virt : Nat} {frames : List Frames} {s' : PagingState}
    (h : s.allocatePages E base nBytes flags key = .ok (virt, frames, s')) :
    4096 ∣ virt ∧ virt + 4096 ≤ 2 ^ 64 := by
  obtain ⟨bytes, s₁, hloop, -⟩ := PagingState.allocatePages_ok_iff.mp h
  obtain ⟨c, hc, rfl⟩ : ∃ c : PageCoordinate, c.Small ∧ virt = virtualAddress c := by
    refine allocateFrom_turns (P := fun c _ => c.Small)
      (R := fun f => ∃ c : PageCoordinate, c.Small ∧ f.virt = virtualAddress c)
      (fun hc => hc.advance E.level5 nBytes) ?_ ?_
      ⟨⟨Nat.zero_lt_succ _, Nat.zero_lt_succ _, Nat.zero_lt_succ _⟩, Nat.zero_lt_succ _,
        Nat.zero_lt_succ _⟩ hloop
    · intro _ _ _ _ hc hresult
      cases hresult with
      | again hback _ => exact hback.small hc
    · intro _ c _ hc hresult
      cases hresult with
      | done _ _ _ => exact ⟨c, hc, rfl⟩
  exact virtualAddress_page hc

theorem allocatePagesFromRange_address {limit virt : Nat} {frames : List Frames}
    {s' : PagingState}
    (h : s.allocatePagesFromRange E base limit nBytes flags key = .ok (virt, frames, s')) :
    4096 ∣ virt ∧ virt + 4096 ≤ 2 ^ 64 := by
  rw [PagingState.allocatePagesFromRange] at h
  split at h
  case h_1 => cases h
  case h_2 =>
    split at h
    case isTrue =>
      cases h
      exact ⟨Nat.dvd_zero 4096, by decide⟩
    case isFalse => exact allocatePages_address h

end Turns

/-! ## A request -/

/-- The arguments of a call; the alignment is a power of two of 32 bits, from eight on. -/
structure AlignedRequest where
  base : Nat
  limit : Nat
  nBytes : Nat
  flags : Nat
  key : Nat
  shift : Nat
  nBytes_pos : 1 ≤ nBytes
  nBytes_lt : nBytes < 2 ^ 64
  shift_ge : 3 ≤ shift
  shift_lt : shift < 32

namespace AlignedRequest

def align (r : AlignedRequest) : Nat := 2 ^ r.shift

/-- The bytes that the pages of an allocation hold, one behind the other. -/
def extent (frames : List Frames) : Nat := (frames.map Frames.size).sum

def underlying (r : AlignedRequest) (E : PagingEnv) (s : PagingState) :
    Except Fault (Nat × List Frames × PagingState) :=
  s.allocatePagesFromRange E r.base r.limit (roundup (u64 (r.nBytes + 8)) r.align) r.flags r.key

def allocate (r : AlignedRequest) (E : PagingEnv) (s : PagingState) :
    Except Fault (Nat × PagingState) :=
  s.allocateAlignedPagesFromRange E r.base r.limit r.nBytes r.flags r.key r.align

/-- What a pointer returned has to be, over pages at `p` that hold `bytes` bytes. -/
structure Serves (r : AlignedRequest) (E : PagingEnv) (s : PagingState) (p bytes q : Nat) :
    Prop where
  aligned : r.align ∣ q
  inside : p ≤ q ∧ q + r.nBytes ≤ p + bytes
  wordInside : p ≤ u64sub q 8 ∧ u64sub q 8 + 8 ≤ p + bytes
  wordApart : u64sub q 8 + 8 ≤ q ∨ q + r.nBytes ≤ u64sub q 8
  frees : s.freeAlignedPages E q = s.freePages E p

/-- Every pointer that is returned serves the request within the pages behind it. -/
def Right (r : AlignedRequest) (E : PagingEnv) (s : PagingState) : Prop :=
  ∀ q s', r.allocate E s = .ok (q, s') → q ≠ 0 →
    ∃ p frames s₁, r.underlying E s = .ok (p, frames, s₁) ∧ r.Serves E s' p (extent frames) q

/-! ### The word in front -/

theorem align_ge (r : AlignedRequest) : 8 ≤ r.align :=
  Nat.pow_le_pow_right (Nat.zero_lt_succ 1) r.shift_ge

theorem align_dvd_word (r : AlignedRequest) : r.align ∣ 2 ^ 64 :=
  Nat.pow_dvd_pow 2 (Nat.le_trans (Nat.le_of_lt r.shift_lt) (by decide))

/-- The result of a rounding is aligned even where it wraps. -/
theorem align_dvd_roundup (r : AlignedRequest) (a : Nat) : r.align ∣ roundup a r.align := by
  rw [roundup, u64, Nat.dvd_mod_iff r.align_dvd_word]
  exact Nat.dvd_mul_left _ _

theorem align_dvd_iff (r : AlignedRequest) (a : Nat) :
    r.align ∣ u64 (roundup a r.align + 8) ↔ r.align = 8 := by
  rw [u64, Nat.dvd_mod_iff r.align_dvd_word, Nat.dvd_add_right (r.align_dvd_roundup a)]
  constructor
  · exact fun h => Nat.le_antisymm (Nat.le_of_dvd (Nat.zero_lt_succ 7) h) r.align_ge
  · exact fun h => h ▸ Nat.dvd_refl 8

section Calls

variable {r : AlignedRequest} {E : PagingEnv} {s s₁ : PagingState} {p : Nat}
  {frames : List Frames}

theorem allocate_of_underlying (h : r.underlying E s = .ok (p, frames, s₁)) (hp : p ≠ 0) :
    r.allocate E s = .ok (u64 (roundup p r.align + 8), s₁.setWord (roundup p r.align) p) := by
  rw [underlying] at h
  rw [allocate, PagingState.allocateAlignedPagesFromRange, h]
  exact if_neg hp

theorem underlying_of_allocate {q : Nat} {s' : PagingState} (h : r.allocate E s = .ok (q, s'))
    (hq : q ≠ 0) : ∃ p frames s₁, r.underlying E s = .ok (p, frames, s₁) ∧ p ≠ 0 := by
  rw [allocate, PagingState.allocateAlignedPagesFromRange] at h
  split at h
  case h_1 => cases h
  case h_2 p frames s₁ hunder =>
    split at h
    case isTrue =>
      cases h
      exact absurd rfl hq
    case isFalse hp => exact ⟨p, frames, s₁, hunder, hp⟩

theorem serves_of_eight (halign : r.align = 8) (hdvd : 4096 ∣ p) (hword : p + 4096 ≤ 2 ^ 64)
    {bytes : Nat} (hfits : r.nBytes + 8 ≤ bytes) :
    r.Serves E (s₁.setWord (roundup p r.align) p) p bytes (u64 (roundup p r.align + 8)) := by
  have hround : roundup p 8 = p :=
    roundup_of_dvd (by omega) (by decide) (Nat.dvd_trans (by decide) hdvd)
  have hq : u64 (p + 8) = p + 8 := u64_of_lt (by omega)
  have hback : u64sub (p + 8) 8 = p := u64sub_of_le (by omega) (Nat.le_add_left 8 p)
  refine ⟨(r.align_dvd_iff p).mpr halign, ?_, ?_, ?_, ?_⟩ <;> rw [halign, hround, hq]
  · omega
  · rw [hback]
    omega
  · rw [hback]
    exact Or.inl (Nat.le_refl _)
  · rw [PagingState.freeAlignedPages, hback]
    have hstored : (s₁.setWord p p).word p = p := if_pos rfl
    rw [hstored]

/-- The call is right where the alignment is eight and the pages hold a word more. -/
theorem alignedRight_iff (r : AlignedRequest) (E : PagingEnv) (s : PagingState) :
    r.Right E s ↔ ∀ p frames s₁, r.underlying E s = .ok (p, frames, s₁) → p ≠ 0 →
      r.align = 8 ∧ r.nBytes + 8 ≤ extent frames := by
  constructor
  · intro h p frames s₁ hunder hp
    obtain ⟨hdvd, hword⟩ := allocatePagesFromRange_address hunder
    have hround : roundup p 8 = p :=
      roundup_of_dvd (by omega) (by decide) (Nat.dvd_trans (by decide) hdvd)
    have hq : u64 (roundup p r.align + 8) ≠ 0 := by
      intro hzero
      -- Zero is aligned, so that the alignment would be eight and the sum would not wrap.
      have halign := (r.align_dvd_iff p).mp (hzero ▸ Nat.dvd_zero r.align)
      rw [halign, hround, u64_of_lt (by omega)] at hzero
      omega
    obtain ⟨p', frames', s', hunder', hserves⟩ := h _ _ (allocate_of_underlying hunder hp) hq
    rw [hunder] at hunder'
    cases hunder'
    have halign := (r.align_dvd_iff p).mp hserves.aligned
    have hinside := hserves.inside.2
    rw [halign, hround, u64_of_lt (by omega)] at hinside
    exact ⟨halign, by omega⟩
  · intro h q s' hallocate hq
    obtain ⟨p, frames, s₁, hunder, hp⟩ := underlying_of_allocate hallocate hq
    obtain ⟨halign, hfits⟩ := h p frames s₁ hunder hp
    obtain ⟨hdvd, hword⟩ := allocatePagesFromRange_address hunder
    rw [allocate_of_underlying hunder hp] at hallocate
    cases hallocate
    exact ⟨p, frames, s₁, hunder, serves_of_eight halign hdvd hword hfits⟩

end Calls

/-! ### A small memory -/

theorem sample_pos : 1 ≤ 4096 := by decide

theorem sample_lt : 4096 < 2 ^ 64 := by decide

theorem sampleShift_ge : 3 ≤ 4 := by decide

theorem sampleShift_lt : 4 < 32 := by decide

/-- A page aligned to 16 bytes, from anywhere. -/
def sample : AlignedRequest :=
  ⟨0, 2 ^ 64 - 1, 4096, 1, 0, 4, sample_pos, sample_lt, sampleShift_ge, sampleShift_lt⟩

/-- The pointer returned is `0x200008`. -/
theorem not_alignedRight_sample : ¬ sample.Right identityEnv secondTable := by
  intro h
  have heval : ((sample.allocate identityEnv secondTable).map Prod.fst).toOption =
      some 0x200008 := by decide +kernel
  obtain ⟨⟨q, s'⟩, hallocate, hq⟩ := ok_of_eval heval
  obtain rfl : q = 0x200008 := hq
  obtain ⟨p, frames, s₁, -, hserves⟩ := h _ _ hallocate (by decide)
  exact absurd hserves.aligned (by decide)

end AlignedRequest

end BlockyOS.Kernel
