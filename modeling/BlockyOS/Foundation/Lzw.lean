import Mathlib.Data.List.Basic
import Mathlib.Data.Nat.Bitwise
import Mathlib.Data.Nat.Size

/-!
# Encodings with a growing dictionary

A dictionary of strings grows while a text is encoded: behind every code, the string
of the code before is entered with one more symbol, the first of the present one.
A code can name the entry that it completes.  The width of the codes grows with the
dictionary, up to a largest width; a full dictionary stays as it is until a clear
code empties it.
-/

namespace BlockyOS.Foundation.Lzw

/-- The codes below `literals` stand for single symbols; the next two clear and end. -/
structure Coding (α : Type) where
  literals : Nat
  literal : Nat → α
  limit : Nat
  maxWidth : Nat

structure Dictionary (α : Type) where
  entries : List (List α)
  previous : Option (List α)

structure Token (α : Type) where
  code : Nat
  width : Nat
  string : List α

section Coding

variable {α : Type} (c : Coding α)

def Coding.clearCode : Nat := c.literals

def Coding.endCode : Nat := c.literals + 1

def Dictionary.empty : Dictionary α := ⟨[], none⟩

def Coding.nextCode (d : Dictionary α) : Nat := c.literals + 2 + d.entries.length

def Coding.width (d : Dictionary α) : Nat := min c.maxWidth (Nat.size (c.nextCode d))

def Coding.string (d : Dictionary α) (code : Nat) : Option (List α) :=
  if code < c.literals then some [c.literal code]
  else if code < c.literals + 2 then none
  else d.entries[code - (c.literals + 2)]?

/-- The code stands for `s`, or completes the next entry, which is `s`. -/
def Coding.Names (d : Dictionary α) (code : Nat) (s : List α) : Prop :=
  c.string d code = some s ∨
    (code = c.nextCode d ∧ c.nextCode d < c.limit ∧
      ∃ p, d.previous = some p ∧ s = p ++ p.take 1)

/-- The dictionary behind a code for `s`. -/
def Coding.enter (d : Dictionary α) (s : List α) : Dictionary α :=
  { entries :=
      if c.nextCode d < c.limit then
        d.entries ++ (d.previous.map fun p => p ++ s.take 1).toList
      else d.entries
    previous := some s }

inductive Encodes : Dictionary α → List (Token α) → Prop
  | finish {d} : Encodes d [⟨c.endCode, c.width d, []⟩]
  | clear {d tokens} (hrest : Encodes .empty tokens) :
      Encodes d (⟨c.clearCode, c.width d, []⟩ :: tokens)
  | code {d tokens code s} (hnames : c.Names d code s) (hrest : Encodes (c.enter d s) tokens) :
      Encodes d (⟨code, c.width d, s⟩ :: tokens)

def text (tokens : List (Token α)) : List α := tokens.flatMap Token.string

/-- The codes and widths, as they are written. -/
def written (tokens : List (Token α)) : List (Nat × Nat) := tokens.map fun t => (t.code, t.width)

def totalWidth : List (Token α) → Nat
  | [] => 0
  | t :: tokens => t.width + totalWidth tokens

@[simp] theorem text_append (tokens tokens' : List (Token α)) :
    text (tokens ++ tokens') = text tokens ++ text tokens' := by
  simp [text]

@[simp] theorem text_singleton (t : Token α) : text [t] = t.string := by
  simp [text]

@[simp] theorem totalWidth_append (tokens tokens' : List (Token α)) :
    totalWidth (tokens ++ tokens') = totalWidth tokens + totalWidth tokens' := by
  induction tokens with
  | nil => simp [totalWidth]
  | cons t tokens ih => simp [totalWidth, ih, Nat.add_assoc]

@[simp] theorem totalWidth_singleton (t : Token α) : totalWidth [t] = t.width := rfl

structure Grown (d : Dictionary α) : Prop where
  limit : c.nextCode d ≤ c.limit
  entry : ∀ (k : Nat) (e : List α), d.entries[k]? = some e → e ≠ [] ∧ e.length ≤ k + 2
  previous : ∀ p, d.previous = some p → p ≠ [] ∧ p.length ≤ d.entries.length + 1

variable {c}

section Growth

variable {d : Dictionary α} {s : List α}

theorem Coding.enter_of_none (h : d.previous = none) : c.enter d s = ⟨d.entries, some s⟩ := by
  simp [Coding.enter, h]

theorem Coding.enter_of_full (h : c.limit ≤ c.nextCode d) :
    c.enter d s = ⟨d.entries, some s⟩ := by
  simp [Coding.enter, Nat.not_lt_of_le h]

theorem Coding.enter_of_room {p : List α} (h : c.nextCode d < c.limit)
    (hprevious : d.previous = some p) :
    c.enter d s = ⟨d.entries ++ [p ++ s.take 1], some s⟩ := by
  simp [Coding.enter, h, hprevious]

theorem grown_empty (h : c.literals + 2 ≤ c.limit) : Grown c .empty where
  limit := h
  entry k e he := by simp [Dictionary.empty] at he
  previous p hp := by cases hp

theorem length_take_one (h : s ≠ []) : (s.take 1).length = 1 := by
  cases s with
  | nil => exact absurd rfl h
  | cons a s => rfl

theorem Coding.string_bounds {code : Nat} (hd : Grown c d) (h : c.string d code = some s) :
    s ≠ [] ∧ s.length ≤ d.entries.length + 1 := by
  rw [Coding.string] at h
  split at h
  · cases h
    exact ⟨List.cons_ne_nil _ _, by simp⟩
  · split at h
    · cases h
    · obtain ⟨hne, hlength⟩ := hd.entry _ _ h
      have hlt := (List.getElem?_eq_some_iff.mp h).1
      exact ⟨hne, by omega⟩

theorem Coding.Names.code_ne {code : Nat} (h : c.Names d code s) :
    code ≠ c.clearCode ∧ code ≠ c.endCode := by
  rw [Coding.clearCode, Coding.endCode]
  rcases h with hstring | ⟨rfl, -⟩
  · rw [Coding.string] at hstring
    split at hstring
    · omega
    · split at hstring
      · cases hstring
      · omega
  · rw [Coding.nextCode]
    omega

theorem Coding.Names.bounds {code : Nat} (hd : Grown c d) (h : c.Names d code s) :
    s ≠ [] ∧ s.length ≤ (c.enter d s).entries.length + 1 := by
  rcases h with hstring | ⟨-, hroom, p, hp, rfl⟩
  · obtain ⟨hne, hlength⟩ := Coding.string_bounds hd hstring
    refine ⟨hne, Nat.le_trans hlength (Nat.succ_le_succ ?_)⟩
    rw [Coding.enter]
    dsimp only
    split
    · simp
    · exact Nat.le_refl _
  · obtain ⟨hne, hlength⟩ := hd.previous p hp
    rw [Coding.enter_of_room hroom hp]
    refine ⟨by simp [hne], ?_⟩
    simp [length_take_one hne]
    omega

theorem Grown.enter {code : Nat} (hd : Grown c d) (h : c.Names d code s) :
    Grown c (c.enter d s) := by
  obtain ⟨hs, hlength⟩ := h.bounds hd
  have hlast : ∀ p, (c.enter d s).previous = some p →
      p ≠ [] ∧ p.length ≤ (c.enter d s).entries.length + 1 := by
    rintro p hp
    cases hp
    exact ⟨hs, hlength⟩
  cases hprevious : d.previous with
  | none =>
      rw [Coding.enter_of_none hprevious] at hlast ⊢
      exact ⟨hd.limit, hd.entry, hlast⟩
  | some p =>
      rcases Nat.lt_or_ge (c.nextCode d) c.limit with hroom | hfull
      · rw [Coding.enter_of_room hroom hprevious] at hlast ⊢
        refine ⟨?_, ?_, hlast⟩
        · simp only [Coding.nextCode, List.length_append, List.length_singleton] at hroom ⊢
          exact hroom
        · intro k e he
          obtain ⟨hne, hbound⟩ := hd.previous p hprevious
          rw [List.getElem?_append] at he
          split at he
          · exact hd.entry k e he
          · obtain ⟨hk, rfl⟩ := List.getElem?_eq_some_iff.mp he
            simp only [List.length_singleton] at hk
            simp only [List.getElem_singleton, List.length_append, length_take_one hs]
            exact ⟨by simp [hne], by omega⟩
      · rw [Coding.enter_of_full hfull] at hlast ⊢
        exact ⟨hd.limit, hd.entry, hlast⟩

end Growth

theorem min_size_succ {m n : Nat} :
    min m (Nat.size (n + 1)) =
      if 2 ^ min m (Nat.size n) ≤ n + 1 ∧ min m (Nat.size n) < m then min m (Nat.size n) + 1
      else min m (Nat.size n) := by
  have hmono : Nat.size n ≤ Nat.size (n + 1) := Nat.size_le_size (Nat.le_succ n)
  have hbelow : n < 2 ^ Nat.size n := Nat.lt_size_self n
  rcases Nat.lt_or_ge (Nat.size n) m with hlt | hge
  · rw [Nat.min_eq_right (Nat.le_of_lt hlt)]
    split
    · next hgrow =>
      have hsize : Nat.size (n + 1) = Nat.size n + 1 := by
        rw [show n + 1 = 2 ^ Nat.size n by omega, Nat.size_pow]
      omega
    · next hkeep =>
      have hsize : Nat.size (n + 1) ≤ Nat.size n := Nat.size_le.mpr (by omega)
      omega
  · rw [Nat.min_eq_left hge, Nat.min_eq_left (Nat.le_trans hge hmono), if_neg (by omega)]

end Coding

end BlockyOS.Foundation.Lzw
