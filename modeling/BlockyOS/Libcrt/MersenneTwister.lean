import BlockyOS.Foundation.Recurrences

/-!
# The Mersenne Twister

`twist` renews its 312 words in place, and `mt_rng` tempers them one after the
other.  The sequence of the words is defined first, as a recurrence.
-/

namespace BlockyOS.Libcrt.MersenneTwister

open BlockyOS.Foundation

/-! ## The sequence -/

def seedWord (s : UInt64) : Nat → UInt64
  | 0 => s
  | k + 1 =>
      (6364136223846793005 : UInt64) * (seedWord s k ^^^ seedWord s k >>> 62) +
        UInt64.ofNat (k + 1)

/-- The 33 upper bits of `u` joined with the 31 lower bits of `v`. -/
def joined (u v : UInt64) : BitVec 64 :=
  (u.toBitVec.extractLsb' 31 33 ++ v.toBitVec.extractLsb' 0 31).cast (by decide)

/-- The product with the matrix `A` of the definition. -/
def timesA (x : BitVec 64) : BitVec 64 :=
  x >>> 1 ^^^ if x.getLsbD 0 then 0xb5026f5aa96619e9 else 0

/-- The word 312 places behind `u`, where `v` is next to `u` and `w` 156 places behind. -/
def nextWord (u v w : UInt64) : UInt64 := w ^^^ UInt64.ofBitVec (timesA (joined u v))

/-- The words of MT19937-64 from the seed. -/
def word (s : UInt64) (k : Nat) : UInt64 :=
  if k < 312 then seedWord s k
  else nextWord (word s (k - 312)) (word s (k - 311)) (word s (k - 156))
termination_by k

/-- The tempering of MT19937-64. -/
def temper (x : UInt64) : UInt64 :=
  let y := x ^^^ (x >>> 29 &&& 0x5555555555555555)
  let y := y ^^^ (y <<< 17 &&& 0x71d67fffeda60000)
  let y := y ^^^ (y <<< 37 &&& 0xfff7eee000000000)
  y ^^^ y >>> 43

/-! ## The code -/

def STATE_SIZE : Nat := 312

def MIDDLE : Nat := 156

def INIT_SHIFT : UInt64 := 62

def TWIST_MASK : UInt64 := 0xb5026f5aa96619e9

def INIT_FACT : UInt64 := 6364136223846793005

def SHIFT1 : UInt64 := 29

def MASK1 : UInt64 := 0x5555555555555555

def SHIFT2 : UInt64 := 17

def MASK2 : UInt64 := 0x71d67fffeda60000

def SHIFT3 : UInt64 := 37

def MASK3 : UInt64 := 0xfff7eee000000000

def SHIFT4 : UInt64 := 43

def LOWER_MASK : UInt64 := 0x7fffffff

def UPPER_MASK : UInt64 := ~~~LOWER_MASK

structure Generator where
  state : Nat → UInt64
  index : Nat

/-- A turn of the loop in `mt_seed`. -/
def seedTurn (i : Nat) (state : Nat → UInt64) : Nat → UInt64 :=
  Function.update state i
    (INIT_FACT * (state (i - 1) ^^^ state (i - 1) >>> INIT_SHIFT) + UInt64.ofNat i)

/-- `mt_seed`, on whatever the array held. -/
def mtSeed (g : Generator) (s : UInt64) : Generator where
  index := STATE_SIZE
  state := sweep seedTurn (STATE_SIZE - 1) 1 (Function.update g.state 0 s)

/-- A turn of the loop in `twist`. -/
def twistTurn (i : Nat) (state : Nat → UInt64) : Nat → UInt64 :=
  let x := state i &&& UPPER_MASK ||| state ((i + 1) % STATE_SIZE) &&& LOWER_MASK
  let x := x >>> 1 ^^^ if x &&& 1 ≠ 0 then TWIST_MASK else 0
  Function.update state i (state ((i + MIDDLE) % STATE_SIZE) ^^^ x)

def twist (g : Generator) : Generator := ⟨sweep twistTurn STATE_SIZE 0 g.state, 0⟩

def mtRng (g : Generator) : UInt64 × Generator :=
  let g := if STATE_SIZE ≤ g.index then twist g else g
  let y := g.state g.index
  let y := y ^^^ (y >>> SHIFT1 &&& MASK1)
  let y := y ^^^ (y <<< SHIFT2 &&& MASK2)
  let y := y ^^^ (y <<< SHIFT3 &&& MASK3)
  let y := y ^^^ y >>> SHIFT4
  (y, { g with index := g.index + 1 })

/-- What the call with the number `n` returns, counted from 0. -/
def output (g : Generator) : Nat → UInt64
  | 0 => (mtRng g).1
  | n + 1 => output (mtRng g).2 n

/-! ## One word -/

theorem recurs_word (s : UInt64) : Recurs 312 156 nextWord (word s) := by
  intro k
  have hsub : k + 312 - 311 = k + 1 ∧ k + 312 - 156 = k + 156 := by omega
  rw [word, if_neg (by omega), Nat.add_sub_cancel, hsub.1, hsub.2]

theorem joined_eq (u v : UInt64) :
    (u &&& UPPER_MASK ||| v &&& LOWER_MASK).toBitVec = joined u v := by
  have hlower : ∀ i : Fin 64, LOWER_MASK.toBitVec.getLsbD i = decide (i.val < 31) := by decide
  refine BitVec.eq_of_getLsbD_eq fun i hi => ?_
  have hi' := hlower ⟨i, hi⟩
  simp only [UInt64.toBitVec_or, UInt64.toBitVec_and, UPPER_MASK, UInt64.toBitVec_not, joined,
    BitVec.getLsbD_or, BitVec.getLsbD_and, BitVec.getLsbD_not, BitVec.getLsbD_cast,
    BitVec.getLsbD_append, BitVec.getLsbD_extractLsb', hi, hi']
  by_cases hlow : i < 31
  · simp [hlow]
  · have hhigh : i - 31 < 33 := by omega
    have hindex : 31 + (i - 31) = i := by omega
    simp [hlow, hhigh, hindex]

theorem and_one_ne_zero_iff (x : UInt64) : x &&& 1 ≠ 0 ↔ x.toBitVec.getLsbD 0 = true := by
  have hbit : x.toBitVec.getLsbD 0 = decide (x.toNat % 2 = 1) := Nat.testBit_zero x.toNat
  have hand : (x &&& 1).toNat = x.toNat % 2 := by
    rw [UInt64.toNat_and]
    exact Nat.and_one_is_mod x.toNat
  rw [ne_eq, ← UInt64.toNat_inj, hand, hbit, decide_eq_true_iff]
  exact Nat.mod_two_ne_zero

theorem twisted_eq (x : UInt64) :
    (x >>> 1 ^^^ if x &&& 1 ≠ 0 then TWIST_MASK else 0) = UInt64.ofBitVec (timesA x.toBitVec) := by
  have hshift : (x >>> 1).toBitVec = x.toBitVec >>> 1 := rfl
  rw [timesA]
  by_cases hodd : x &&& 1 ≠ 0
  · rw [if_pos hodd, if_pos ((and_one_ne_zero_iff x).mp hodd)]
    rfl
  · rw [if_neg hodd, if_neg (fun h => hodd ((and_one_ne_zero_iff x).mpr h))]
    rfl

theorem twistTurn_eq : twistTurn = renew 312 156 nextWord := by
  funext i state
  have hjoined := joined_eq (state i) (state ((i + 1) % STATE_SIZE))
  rw [twistTurn, twisted_eq, hjoined]
  rfl

/-! ## The words and the outputs -/

variable {s : UInt64} {g : Generator}

theorem state_mtSeed : (mtSeed g s).state =
    sweep seedTurn (STATE_SIZE - 1) 1 (Function.update g.state 0 s) := by
  rw [mtSeed]

theorem state_twist : (twist g).state = sweep twistTurn 312 0 g.state := by
  rw [twist, STATE_SIZE]

theorem index_twist : (twist g).index = 0 := rfl

theorem window_mtSeed (g : Generator) (s : UInt64) :
    Window 312 (word s) 0 (mtSeed g s).state := by
  have hall := @sweep_invariant _ seedTurn (fun i state => ∀ j < i, state j = seedWord s j)
    (STATE_SIZE - 1) 1 (Function.update g.state 0 s) ?_ ?_
  · intro i hi
    have hsize : 1 + (STATE_SIZE - 1) = 312 := by decide
    rw [hsize] at hall
    rw [Nat.zero_add, word, if_pos hi, state_mtSeed]
    exact hall i hi
  · intro j hj
    obtain rfl : j = 0 := by omega
    exact Function.update_self ..
  · intro i state hle _ hstate j hj
    obtain ⟨k, rfl⟩ := Nat.exists_eq_add_of_le' hle
    rw [seedTurn, Nat.add_sub_cancel, hstate k (Nat.lt_succ_self k)]
    rcases Nat.lt_succ_iff_lt_or_eq.mp hj with hlt | rfl
    · rw [Function.update_of_ne (Nat.ne_of_lt hlt), hstate j hlt]
    · rw [Function.update_self]
      rfl

/-- The array holds a window of the words, and its index stands at the word `k`. -/
structure Holds (s : UInt64) (k : Nat) (g : Generator) : Prop where
  window : ∃ base, Window 312 (word s) base g.state ∧ base + g.index = k
  index : g.index ≤ STATE_SIZE

theorem holds_mtSeed (g : Generator) (s : UInt64) : Holds s 312 (mtSeed g s) :=
  ⟨⟨0, window_mtSeed g s, rfl⟩, Nat.le_refl STATE_SIZE⟩

theorem Holds.twist {k : Nat} (h : Holds s k g) (hused : STATE_SIZE ≤ g.index) :
    Holds s k (twist g) := by
  obtain ⟨base, hwindow, hk⟩ := h.window
  have hindex : g.index = 312 := Nat.le_antisymm h.index hused
  have hnext := hwindow.sweep_renew (recurs_word s) (by decide) (by decide)
  rw [← twistTurn_eq, ← state_twist] at hnext
  refine ⟨⟨base + 312, hnext, ?_⟩, Nat.zero_le _⟩
  rw [← hk, hindex, index_twist, Nat.add_zero]

theorem Holds.mtRng {k : Nat} (h : Holds s k g) :
    (mtRng g).1 = temper (word s k) ∧ Holds s (k + 1) (mtRng g).2 := by
  have hready : ∀ g, Holds s k g → g.index < STATE_SIZE →
      temper (g.state g.index) = temper (word s k) ∧
        Holds s (k + 1) { g with index := g.index + 1 } := by
    rintro g ⟨⟨base, hwindow, hk⟩, -⟩ hlt
    refine ⟨?_, ⟨base, hwindow, ?_⟩, hlt⟩
    · rw [hwindow g.index hlt, hk]
    · rw [← Nat.add_assoc, hk]
  rw [MersenneTwister.mtRng]
  by_cases hused : STATE_SIZE ≤ g.index
  · rw [if_pos hused]
    exact hready _ (h.twist hused) (show 0 < STATE_SIZE by decide)
  · rw [if_neg hused]
    exact hready g h (Nat.not_le.mp hused)

/-- From a seed on, every call returns the next tempered word, across any number of twists. -/
theorem output_mtSeed (g : Generator) (s : UInt64) (n : Nat) :
    output (mtSeed g s) n = temper (word s (312 + n)) := by
  have hrun : ∀ n k g, Holds s k g → output g n = temper (word s (k + n)) := by
    intro n
    induction n with
    | zero => exact fun k g h => h.mtRng.1
    | succ n ih =>
        intro k g h
        rw [output, ih (k + 1) _ h.mtRng.2, Nat.add_right_comm, Nat.add_assoc]
  exact hrun n 312 _ (holds_mtSeed g s)

end BlockyOS.Libcrt.MersenneTwister
