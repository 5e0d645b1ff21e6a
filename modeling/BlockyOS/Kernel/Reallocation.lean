import BlockyOS.Kernel.PageOwnership

/-!
# Reallocating pages

`ReallocatePages` copies the old pages into new ones, writes the entries of the new
ones again and frees the old ones.  It has no `return` statement.
-/

namespace BlockyOS.Kernel

open BlockyOS.Foundation
open BlockyOS.HostTool (Fault)

/-! ## The function -/

/-- The fields of the entries written, in which `PageInMemory` is not set. -/
def reallocFields (kind : PageKind) (flags protectionKey physicalAddress : Nat) :
    List BitField :=
  (pageFields kind flags protectionKey physicalAddress).set 9 (1, 0)

def reallocEntry (kind : PageKind) (flags protectionKey physicalAddress : Nat) : Nat :=
  packFields (reallocFields kind flags protectionKey physicalAddress)

/-- `(uint64_t)NPhys + (cc * PAGE_SIZE3)`, for all three sizes of pages. -/
def reallocAddress (nPhys cc : Nat) : Nat := u64 (nPhys + u32 (cc * pageSize3))

/-- What a call leaves; `value` is what its `return` statement gives. -/
structure Reallocated where
  value : Option Nat
  state : PagingState

namespace PagingState

/-- `memcpy` of words that do not overlap. -/
def copyWords (s : PagingState) (dst src len : Nat) : PagingState :=
  s.setRun dst (len / 8) fun i => s.word (src + 8 * i)

/-- One case of the switch; a counter of 32 bits does not reach a larger count. -/
def rewriteEntries (s : PagingState) (kind : PageKind) (flags key pgt nPhys count : Nat) :
    Except Fault PagingState :=
  if 2 ^ 32 ≤ count then .error .hang
  else .ok (s.setRun pgt count fun cc => reallocEntry kind flags key (reallocAddress nPhys cc))

/-- `ReallocatePages`: the end of the function is reached without a value. -/
def reallocatePages (E : PagingEnv) (s : PagingState) (phys base flags key size : Nat) :
    Except Fault Reallocated :=
  match s.allocatePages E phys size (readWritable ||| supervisorMode) key with
  | .error e => .error e
  | .ok (new, _, s) =>
      let s := s.copyWords new base (s.totalMappedMemory E base)
      let nPhys := s.mapPhysical E new
      let rewritten :=
        match (s.tables E).walkPageTreeByVirtual E.shift new with
        | (3, pgt) => s.rewriteEntries .page1GB flags key pgt nPhys (size / pageSize3)
        | (2, pgt) => s.rewriteEntries .page2MB flags key pgt nPhys (size / pageSize2)
        | (1, pgt) => s.rewriteEntries .page4KB flags key pgt nPhys (size / pageSize)
        | _ => .ok s
      match rewritten with
      | .error e => .error e
      | .ok s =>
          -- `InvalidatePages`, whose counter has 32 bits as well
          if 2 ^ 32 ≤ roundup size pageSize / pageSize then .error .hang
          else
            match s.freePages E base with
            | .error e => .error e
            | .ok s => .ok ⟨none, s⟩

def byteFrom (s : PagingState) (a j : Nat) : Nat := s.word (a + j / 8 * 8) / 256 ^ (j % 8) % 256

end PagingState

/-! ## What the function is for -/

/-- The arguments of a call. -/
structure ReallocCall where
  phys : Nat
  base : Nat
  flags : Nat
  key : Nat
  size : Nat

namespace ReallocCall

def allocation (c : ReallocCall) (E : PagingEnv) (s : PagingState) :
    Except Fault (Nat × List Frames × PagingState) :=
  s.allocatePages E c.phys c.size (readWritable ||| supervisorMode) c.key

structure Moves (c : ReallocCall) (E : PagingEnv) (s : PagingState) (new : Nat)
    (frames : List Frames) (s₁ : PagingState) (r : Reallocated) : Prop where
  value : r.value = some new
  contents : ∀ j, j < min (s.totalMappedMemory E c.base) c.size →
    r.state.byteFrom new j = s.byteFrom c.base j
  kept : ∀ a, a + 8 ≤ new ∨ new + c.size ≤ a →
    (∀ virt kind, (s₁.tables E).leafSlot E.shift virt kind ≠ some a) →
    r.state.word a = s₁.word a
  translates : ∀ i f, frames[i]? = some f →
    r.state.mapPhysical E (new + i * f.size) = f.address
  flags : ∀ i f, frames[i]? = some f → ∃ kind slot,
    (r.state.tables E).leafSlot E.shift (new + i * f.size) kind = some slot ∧
      bits (r.state.word slot) 0 5 = packFields (accessFields c.flags)
  freed : r.state.mapPhysical E c.base = 0

/-- Wherever there is a new allocation the call returns it in the place of the old one. -/
def Right (c : ReallocCall) (E : PagingEnv) (s : PagingState) : Prop :=
  ∀ new frames s₁, c.allocation E s = .ok (new, frames, s₁) →
    ∃ r, s.reallocatePages E c.phys c.base c.flags c.key c.size = .ok r ∧
      c.Moves E s new frames s₁ r

theorem value_eq_none {E : PagingEnv} {s : PagingState} {phys base flags key size : Nat}
    {r : Reallocated} (h : s.reallocatePages E phys base flags key size = .ok r) :
    r.value = none := by
  rw [PagingState.reallocatePages] at h
  split at h
  case h_1 => cases h
  case h_2 new frames s₁ halloc =>
    simp only at h
    split at h
    case h_1 => cases h
    case h_2 s₂ hrewritten =>
      split at h
      case isTrue => cases h
      case isFalse =>
        split at h
        case h_1 => cases h
        case h_2 => 
          cases h
          rfl

theorem not_moves {c : ReallocCall} {E : PagingEnv} {s s₁ : PagingState} {new : Nat}
    {frames : List Frames} {r : Reallocated}
    (hcall : s.reallocatePages E c.phys c.base c.flags c.key c.size = .ok r) :
    ¬ c.Moves E s new frames s₁ r := by
  intro hmoves
  have hvalue := hmoves.value
  rw [value_eq_none hcall] at hvalue
  cases hvalue

/-- Whatever is allocated, the address of the new pages is lost. -/
theorem reallocation_not_right (c : ReallocCall) (E : PagingEnv) (s : PagingState) {new : Nat}
    {frames : List Frames} {s₁ : PagingState}
    (hallocation : c.allocation E s = .ok (new, frames, s₁)) : ¬ c.Right E s := by
  intro hright
  obtain ⟨r, hcall, hmoves⟩ := hright new frames s₁ hallocation
  exact not_moves hcall hmoves

/-- Two pages in the place of what `base` maps. -/
def sample (base : Nat) : ReallocCall := ⟨0, base, readWritable, 0, 8192⟩

theorem reallocation_not_right_secondTable :
    ¬ (sample 0x200000).Right identityEnv secondTable := by
  have heval : (((sample 0x200000).allocation identityEnv secondTable).map Prod.fst).toOption =
      some 0x200000 := by decide +kernel
  obtain ⟨⟨new, frames, s₁⟩, hallocation, -⟩ := ok_of_eval heval
  exact reallocation_not_right (sample 0x200000) identityEnv secondTable hallocation

/-- A page that was just allocated is not moved either. -/
theorem reallocation_of_live : ∃ base frames s,
    secondTable.allocatePages identityEnv 0x310 4096 5 0 = .ok (base, frames, s) ∧
      s.totalMappedMemory identityEnv base = 4096 ∧ ¬ (sample base).Right identityEnv s := by
  have heval : ((secondTable.allocatePages identityEnv 0x310 4096 5 0).bind fun live =>
      ((sample live.1).allocation identityEnv live.2.2).map fun moved =>
        (live.2.2.totalMappedMemory identityEnv live.1, moved.1)).toOption =
      some (4096, 0x201000) := by decide +kernel
  cases hlive : secondTable.allocatePages identityEnv 0x310 4096 5 0 with
  | error e =>
      rw [hlive] at heval
      cases heval
  | ok live =>
      obtain ⟨base, frames, s⟩ := live
      rw [hlive] at heval
      obtain ⟨⟨new, frames', s₁⟩, hallocation, hmapped⟩ := ok_of_eval heval
      refine ⟨base, frames, s, rfl, (Prod.mk.inj hmapped).1, fun hright => ?_⟩
      obtain ⟨r, hcall, hmoves⟩ := hright new frames' s₁ hallocation
      exact not_moves hcall hmoves

end ReallocCall

end BlockyOS.Kernel
