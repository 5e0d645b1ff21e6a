import BlockyOS.Foundation.Words

/-!
# Iterated hashes

A hash that reads its message in blocks.  Every block but the last is folded
into a chaining value; a block that is full stays pending until a further symbol
arrives, since the last block is folded with a flag of its own.  The compression
is told the number of symbols read so far and whether the block is the last.
-/

namespace BlockyOS.Foundation

section BlockHashes

variable {σ α : Type} (size : Nat) (compress : Nat → Bool → σ → List α → σ)

/-- The number of blocks of a message of `n` symbols that are not the last one. -/
def fullBlocks (n : Nat) : Nat := (n - 1) / size

/-- `n` blocks folded into the chaining value, `k` symbols having been read before. -/
def absorb : Nat → Nat → σ → List α → σ
  | 0, _, s, _ => s
  | n + 1, k, s, msg =>
      absorb n (k + size) (compress (k + size) false s (msg.take size)) (msg.drop size)

def chain (k : Nat) (s : σ) (msg : List α) : σ :=
  absorb size compress (fullBlocks size msg.length) k s msg

def chainCount (k : Nat) (msg : List α) : Nat := k + size * fullBlocks size msg.length

def pendingBlock (msg : List α) : List α := msg.drop (size * fullBlocks size msg.length)

def padded (zero : α) (msg : List α) : List α :=
  pendingBlock size msg ++ List.replicate (size - (pendingBlock size msg).length) zero

def digest (zero : α) (s : σ) (msg : List α) : σ :=
  compress msg.length true (chain size compress 0 s msg) (padded size zero msg)

/-! ## One block and all the others -/

variable {size compress}

theorem fullBlocks_of_le {n : Nat} (h : n ≤ size) : fullBlocks size n = 0 := by
  rw [fullBlocks, Nat.div_eq_zero_iff]
  omega

theorem fullBlocks_add {n : Nat} (hsize : 0 < size) (hn : 0 < n) :
    fullBlocks size (size + n) = fullBlocks size n + 1 := by
  have hpred : size + n - 1 = n - 1 + size := by omega
  rw [fullBlocks, hpred, Nat.add_div_right _ hsize, fullBlocks]

theorem chain_of_le {k : Nat} {s : σ} {msg : List α} (h : msg.length ≤ size) :
    chain size compress k s msg = s := by
  rw [chain, fullBlocks_of_le h, absorb]

theorem chainCount_of_le {k : Nat} {msg : List α} (h : msg.length ≤ size) :
    chainCount size k msg = k := by
  rw [chainCount, fullBlocks_of_le h, Nat.mul_zero, Nat.add_zero]

theorem pendingBlock_of_le {msg : List α} (h : msg.length ≤ size) :
    pendingBlock size msg = msg := by
  rw [pendingBlock, fullBlocks_of_le h, Nat.mul_zero, List.drop_zero]

theorem fullBlocks_of_lt {msg : List α} (hsize : 0 < size) (h : size < msg.length) :
    fullBlocks size msg.length = fullBlocks size (msg.drop size).length + 1 := by
  have hrest : msg.length = size + (msg.drop size).length := by
    rw [List.length_drop]
    omega
  have hpos : 0 < (msg.drop size).length := by omega
  conv => lhs; rw [hrest]
  exact fullBlocks_add hsize hpos

theorem chain_of_lt {k : Nat} {s : σ} {msg : List α} (hsize : 0 < size)
    (h : size < msg.length) :
    chain size compress k s msg =
      chain size compress (k + size) (compress (k + size) false s (msg.take size))
        (msg.drop size) := by
  rw [chain, fullBlocks_of_lt hsize h, absorb, chain]

theorem chainCount_of_lt {k : Nat} {msg : List α} (hsize : 0 < size) (h : size < msg.length) :
    chainCount size k msg = chainCount size (k + size) (msg.drop size) := by
  rw [chainCount, fullBlocks_of_lt hsize h, chainCount]
  ring

theorem pendingBlock_of_lt {msg : List α} (hsize : 0 < size) (h : size < msg.length) :
    pendingBlock size msg = pendingBlock size (msg.drop size) := by
  rw [pendingBlock, fullBlocks_of_lt hsize h, pendingBlock, List.drop_drop]
  congr 1
  ring

theorem length_pending_le (hsize : 0 < size) (msg : List α) :
    (pendingBlock size msg).length ≤ size := by
  have hdiv := Nat.div_add_mod (msg.length - 1) size
  have hmod := Nat.mod_lt (msg.length - 1) hsize
  rw [pendingBlock, List.length_drop, fullBlocks]
  omega

theorem chainCount_add_pendingBlock (k : Nat) (msg : List α) :
    chainCount size k msg + (pendingBlock size msg).length = k + msg.length := by
  have hdiv := Nat.mul_div_le (msg.length - 1) size
  rw [chainCount, pendingBlock, List.length_drop, fullBlocks]
  omega

/-! ## A message in parts -/

variable (compress)

theorem parts_append (hsize : 0 < size) (k : Nat) (s : σ) (msg more : List α) :
    chain size compress k s (msg ++ more) =
        chain size compress (chainCount size k msg) (chain size compress k s msg)
          (pendingBlock size msg ++ more) ∧
      chainCount size k (msg ++ more) =
        chainCount size (chainCount size k msg) (pendingBlock size msg ++ more) ∧
      pendingBlock size (msg ++ more) = pendingBlock size (pendingBlock size msg ++ more) := by
  by_cases hle : msg.length ≤ size
  · rw [chain_of_le hle, chainCount_of_le hle, pendingBlock_of_le hle]
    exact ⟨rfl, rfl, rfl⟩
  · have hlt : size < msg.length := by omega
    have hlong : size < (msg ++ more).length := by
      rw [List.length_append]
      omega
    have hdrop : (msg ++ more).drop size = msg.drop size ++ more :=
      List.drop_append_of_le_length (by omega)
    have htake : (msg ++ more).take size = msg.take size :=
      List.take_append_of_le_length (by omega)
    obtain ⟨hchain, hcount, hpending⟩ := parts_append hsize (k + size)
      (compress (k + size) false s (msg.take size)) (msg.drop size) more
    refine ⟨?_, ?_, ?_⟩
    · rw [chain_of_lt hsize hlong, htake, hdrop, hchain, chain_of_lt hsize hlt,
        chainCount_of_lt hsize hlt, pendingBlock_of_lt hsize hlt]
    · rw [chainCount_of_lt hsize hlong, hdrop, hcount, chainCount_of_lt hsize hlt,
        pendingBlock_of_lt hsize hlt]
    · rw [pendingBlock_of_lt hsize hlong, hdrop, hpending, pendingBlock_of_lt hsize hlt]
termination_by msg.length
decreasing_by
  rw [List.length_drop]
  omega

variable {compress}

/-! ## Collisions -/

structure Compression (σ α : Type) where
  count : Nat
  last : Bool
  value : σ
  block : List α

variable (size compress)

/-- The calls that fold `n` blocks. -/
def absorbCalls : Nat → Nat → σ → List α → List (Compression σ α)
  | 0, _, _, _ => []
  | n + 1, k, s, msg =>
      ⟨k + size, false, s, msg.take size⟩ ::
        absorbCalls n (k + size) (compress (k + size) false s (msg.take size)) (msg.drop size)

def Compression.output (c : Compression σ α) : σ := compress c.count c.last c.value c.block

def lastCall (total k : Nat) (zero : α) (s : σ) (msg : List α) : Compression σ α :=
  ⟨total, true, chain size compress k s msg, padded size zero msg⟩

/-- The calls that fold a message whose length with what comes before it is `total`. -/
def callsFrom (total k : Nat) (zero : α) (s : σ) (msg : List α) : List (Compression σ α) :=
  absorbCalls size compress (fullBlocks size msg.length) k s msg ++
    [lastCall size compress total k zero s msg]

def digestCalls (zero : α) (s : σ) (msg : List α) : List (Compression σ α) :=
  callsFrom size compress msg.length 0 zero s msg

/-- Two different calls of the lists whose outputs `same` relates. -/
def Collide (same : σ → σ → Prop) (calls calls' : List (Compression σ α)) : Prop :=
  ∃ c ∈ calls, ∃ c' ∈ calls', c ≠ c' ∧ same (c.output compress) (c'.output compress)

variable {size compress}

theorem output_lastCall (zero : α) (s : σ) (msg : List α) :
    (lastCall size compress msg.length 0 zero s msg).output compress =
      digest size compress zero s msg := rfl

theorem lastCall_mem (total k : Nat) (zero : α) (s : σ) (msg : List α) :
    lastCall size compress total k zero s msg ∈ callsFrom size compress total k zero s msg :=
  List.mem_append_right _ (List.mem_singleton_self _)

theorem lastCall_of_lt {total k : Nat} {zero : α} {s : σ} {msg : List α} (hsize : 0 < size)
    (h : size < msg.length) :
    lastCall size compress total k zero s msg =
      lastCall size compress total (k + size) zero
        (compress (k + size) false s (msg.take size)) (msg.drop size) := by
  rw [lastCall, lastCall, padded, padded, pendingBlock_of_lt hsize h, chain_of_lt hsize h]

theorem callsFrom_of_lt {total k : Nat} {zero : α} {s : σ} {msg : List α} (hsize : 0 < size)
    (h : size < msg.length) :
    callsFrom size compress total k zero s msg =
      ⟨k + size, false, s, msg.take size⟩ ::
        callsFrom size compress total (k + size) zero
          (compress (k + size) false s (msg.take size)) (msg.drop size) := by
  rw [callsFrom, fullBlocks_of_lt hsize h, absorbCalls, lastCall_of_lt hsize h, callsFrom,
    List.cons_append]

theorem Collide.cons {same : σ → σ → Prop} {calls calls' : List (Compression σ α)}
    {c c' : Compression σ α}
    (h : Collide compress same calls calls') :
    Collide compress same (c :: calls) (c' :: calls') := by
  obtain ⟨d, hd, d', hd', hne, hsame⟩ := h
  exact ⟨d, List.mem_cons_of_mem _ hd, d', List.mem_cons_of_mem _ hd', hne, hsame⟩

theorem padded_inj {zero : α} {msg msg' : List α} (hlen : msg.length = msg'.length)
    (h : padded size zero msg = padded size zero msg') :
    pendingBlock size msg = pendingBlock size msg' := by
  have hpending : (pendingBlock size msg).length = (pendingBlock size msg').length := by
    rw [pendingBlock, pendingBlock, List.length_drop, List.length_drop, hlen]
  exact (List.append_inj h hpending).1

theorem eq_or_collide {same : σ → σ → Prop} (hrefl : ∀ s, same s s) (hsize : 0 < size)
    {zero : α} {total : Nat} (k : Nat) (s s' : σ) (msg msg' : List α)
    (hlen : msg.length = msg'.length)
    (h : same ((lastCall size compress total k zero s msg).output compress)
      ((lastCall size compress total k zero s' msg').output compress)) :
    (s = s' ∧ msg = msg') ∨
      Collide compress same (callsFrom size compress total k zero s msg)
        (callsFrom size compress total k zero s' msg') := by
  by_cases hle : msg.length ≤ size
  · have hle' : msg'.length ≤ size := by omega
    by_cases hcall : lastCall size compress total k zero s msg =
        lastCall size compress total k zero s' msg'
    · obtain ⟨-, -, hs, hpad⟩ := Compression.mk.inj hcall
      rw [chain_of_le hle, chain_of_le hle'] at hs
      have hpending := padded_inj hlen hpad
      rw [pendingBlock_of_le hle, pendingBlock_of_le hle'] at hpending
      exact .inl ⟨hs, hpending⟩
    · exact .inr ⟨_, lastCall_mem total k zero s msg, _, lastCall_mem total k zero s' msg',
        hcall, h⟩
  · have hlt : size < msg.length := by omega
    have hlt' : size < msg'.length := by omega
    have hdrops : (msg.drop size).length = (msg'.drop size).length := by
      rw [List.length_drop, List.length_drop, hlen]
    rw [lastCall_of_lt hsize hlt, lastCall_of_lt hsize hlt'] at h
    rw [callsFrom_of_lt hsize hlt, callsFrom_of_lt hsize hlt']
    obtain ⟨hmid, hdrop⟩ | hcollide := eq_or_collide hrefl hsize (k + size) _ _
      (msg.drop size) (msg'.drop size) hdrops h
    · by_cases hblock : s = s' ∧ msg.take size = msg'.take size
      · refine .inl ⟨hblock.1, ?_⟩
        rw [← List.take_append_drop size msg, hblock.2, hdrop, List.take_append_drop]
      · refine .inr ⟨_, List.mem_cons_self .., _, List.mem_cons_self .., ?_, ?_⟩
        · intro hcall
          obtain ⟨-, -, hs, htake⟩ := Compression.mk.inj hcall
          exact hblock ⟨hs, htake⟩
        · rw [Compression.output, Compression.output, hmid]
          exact hrefl _
    · exact .inr hcollide.cons
termination_by msg.length
decreasing_by
  rw [List.length_drop]
  omega

theorem eq_or_collide_of_digest {same : σ → σ → Prop} (hrefl : ∀ s, same s s)
    (hsize : 0 < size) {zero : α} {s : σ} {msg msg' : List α}
    (h : same (digest size compress zero s msg) (digest size compress zero s msg')) :
    msg = msg' ∨
      Collide compress same (digestCalls size compress zero s msg)
        (digestCalls size compress zero s msg') := by
  rw [← output_lastCall, ← output_lastCall] at h
  by_cases hlen : msg.length = msg'.length
  · rw [digestCalls, digestCalls]
    rw [hlen] at h ⊢
    exact (eq_or_collide hrefl hsize 0 s s msg msg' hlen h).imp_left And.right
  · refine .inr ⟨_, lastCall_mem _ 0 zero s msg, _, lastCall_mem _ 0 zero s msg', ?_, h⟩
    intro hcall
    exact hlen (Compression.mk.inj hcall).1

end BlockHashes

end BlockyOS.Foundation
