import BlockyOS.Foundation.BlockHashes
import BlockyOS.Foundation.Transcripts
import BlockyOS.Libcrt.BLAKE2b

/-!
# BLAKE2b on messages in parts

The state that `blake2b_update` feeds holds the blocks of one message, however
it was cut into parts.
-/

namespace BlockyOS.Libcrt.BLAKE2b

open BlockyOS.Foundation

/-! ## What a state holds -/

def counterWords (k : Nat) : Word × Word := (BitVec.ofNat 64 k, BitVec.ofNat 64 (k / 2 ^ 64))

def flagWords (lastNode : UInt8) (last : Bool) : Word × Word :=
  if last then (BitVec.allOnes 64, if lastNode ≠ 0 then BitVec.allOnes 64 else 0) else (0, 0)

/-- The compression as a function of the number of bytes read and of the last block. -/
def blockCompress (lastNode : UInt8) (k : Nat) (last : Bool) (h : Vector Word 8)
    (block : Bytes) : Vector Word 8 :=
  compressWords h (counterWords k) (flagWords lastNode last) block

/-- The state is open and has been fed `msg` since it was `start`. -/
structure Holds (start S : State) (msg : Bytes) : Prop where
  outlen : S.outlen = start.outlen
  lastNode : S.lastNode = start.lastNode
  h : S.h = chain blockBytes (blockCompress S.lastNode) 0 start.h msg
  t : S.t = counterWords (chainCount blockBytes 0 msg)
  f : S.f = (0, 0)
  buf : S.buf.length = blockBytes
  buflen : S.buflen = (pendingBlock blockBytes msg).length
  held : S.buf.take S.buflen = pendingBlock blockBytes msg

theorem counterWords_add {k inc : Nat} (hinc : inc < 2 ^ 64) :
    counterWords (k + inc) =
      ((counterWords k).1 + BitVec.ofNat 64 inc,
        (counterWords k).2 +
          if (counterWords k).1 + BitVec.ofNat 64 inc < BitVec.ofNat 64 inc then 1 else 0) := by
  simp only [counterWords, BitVec.lt_def, BitVec.toNat_add, BitVec.toNat_ofNat]
  congr 1
  · exact BitVec.ofNat_add k inc
  · have hmod := Nat.mod_lt k (by decide : 0 < 2 ^ 64)
    have hsplit := Nat.div_add_mod k (2 ^ 64)
    rw [Nat.mod_eq_of_lt hinc]
    split
    case isTrue hcarry =>
      have hdiv : (k + inc) / 2 ^ 64 = k / 2 ^ 64 + 1 := by omega
      rw [hdiv, ← BitVec.ofNat_add_ofNat]
      rfl
    case isFalse hcarry =>
      have hdiv : (k + inc) / 2 ^ 64 = k / 2 ^ 64 := by omega
      rw [hdiv]
      exact (BitVec.add_zero _).symm

theorem t_incrementCounter {S : State} {k inc : Nat} (ht : S.t = counterWords k)
    (hinc : inc < 2 ^ 64) :
    (incrementCounter S (BitVec.ofNat 64 inc)).t = counterWords (k + inc) := by
  rw [counterWords_add hinc, incrementCounter, ht]

/-! ## Feeding -/

theorem compress_block {S : State} {k : Nat} (ht : S.t = counterWords k) (hf : S.f = (0, 0))
    (block : Bytes) :
    compress (incrementCounter S 128) block =
      { S with
        h := blockCompress S.lastNode (k + blockBytes) false S.h block
        t := counterWords (k + blockBytes) } := by
  have hcount : (incrementCounter S 128).t = counterWords (k + blockBytes) :=
    t_incrementCounter ht (show 128 < 2 ^ 64 by decide)
  have hflag : flagWords S.lastNode false = S.f := hf.symm
  rw [compress, blockCompress, hflag, ← hcount]
  rfl

theorem updateLoop_eq (S : State) (input : Bytes) {k : Nat} (ht : S.t = counterWords k)
    (hf : S.f = (0, 0)) :
    updateLoop S input =
      ({ S with
          h := chain blockBytes (blockCompress S.lastNode) k S.h input
          t := counterWords (chainCount blockBytes k input) }, pendingBlock blockBytes input) := by
  rw [updateLoop]
  split
  case isFalse hle =>
    have hshort : input.length ≤ blockBytes := by omega
    rw [chain_of_le hshort, chainCount_of_le hshort, pendingBlock_of_le hshort, ← ht]
  case isTrue hlt =>
    have hpos : 0 < blockBytes := by decide
    rw [compress_block ht hf, updateLoop_eq _ _ (k := k + blockBytes) rfl (by exact hf),
      chain_of_lt hpos hlt, chainCount_of_lt hpos hlt, pendingBlock_of_lt hpos hlt]
termination_by input.length
decreasing_by
  rw [List.length_drop]
  simp only [blockBytes] at *
  omega

theorem splice_take_append {buf held input : Bytes} {n : Nat} (hheld : buf.take n = held)
    (hlen : n = held.length) :
    (splice buf n input).take (n + input.length) = held ++ input := by
  rw [splice, hheld, List.take_append_of_le_length (by rw [List.length_append]; omega),
    List.take_of_length_le (by rw [List.length_append]; omega)]

theorem holds_bufferInput {start S : State} {msg input : Bytes}
    (hS : Holds start S msg) (hfit : S.buflen + input.length ≤ blockBytes) :
    Holds start (bufferInput S input) (msg ++ input) := by
  have hpos : 0 < blockBytes := by decide
  have hroom : S.buflen + input.length ≤ S.buf.length := by rw [hS.buf]; exact hfit
  have hshort : (pendingBlock blockBytes msg ++ input).length ≤ blockBytes := by
    rw [List.length_append, ← hS.buflen]
    exact hfit
  obtain ⟨hchain, hcount, hpending⟩ :=
    parts_append (blockCompress S.lastNode) hpos 0 start.h msg input
  rw [chain_of_le hshort] at hchain
  rw [chainCount_of_le hshort] at hcount
  rw [pendingBlock_of_le hshort] at hpending
  constructor
  · exact hS.outlen
  · exact hS.lastNode
  · exact hS.h.trans hchain.symm
  · rw [hcount]
    exact hS.t
  · exact hS.f
  · exact (length_splice S.buf hroom).trans hS.buf
  · rw [hpending, List.length_append, ← hS.buflen]
    rfl
  · rw [hpending]
    exact splice_take_append hS.held hS.buflen

theorem splice_fill {start S : State} {msg input : Bytes}
    (hS : Holds start S msg) (hover : blockBytes - S.buflen < input.length) :
    splice S.buf S.buflen (input.take (blockBytes - S.buflen)) =
        (pendingBlock blockBytes msg ++ input).take blockBytes ∧
      input.drop (blockBytes - S.buflen) =
        (pendingBlock blockBytes msg ++ input).drop blockBytes := by
  have hlen : (pendingBlock blockBytes msg).length = S.buflen := hS.buflen.symm
  have hle : (pendingBlock blockBytes msg).length ≤ blockBytes := length_pending_le (by decide) msg
  have htaken : (input.take (blockBytes - S.buflen)).length = blockBytes - S.buflen := by
    rw [List.length_take]
    omega
  have hroom : S.buflen + (input.take (blockBytes - S.buflen)).length = S.buf.length := by
    rw [htaken, hS.buf]
    omega
  constructor
  · rw [splice, hroom, List.drop_length, List.append_nil, hS.held, List.take_append, hlen,
      List.take_of_length_le hle]
  · rw [List.drop_append, hlen, List.drop_eq_nil_of_le hle, List.nil_append]

theorem holds_update {start S : State} {msg : Bytes}
    (hS : Holds start S msg) (input : Bytes) : Holds start (update S input) (msg ++ input) := by
  have hpos : 0 < blockBytes := by decide
  have hle : (pendingBlock blockBytes msg).length ≤ blockBytes := length_pending_le hpos msg
  rw [update]
  split
  case isFalse hempty =>
    have hnil : input = [] := List.length_eq_zero_iff.mp (by omega)
    rw [hnil, List.append_nil]
    exact hS
  case isTrue hinput =>
    dsimp only
    rw [← hS.buflen] at hle
    split
    case isFalse hfits => exact holds_bufferInput hS (by omega)
    case isTrue hover =>
      obtain ⟨hfilled, hrest⟩ := splice_fill hS hover
      have hlong : blockBytes < (pendingBlock blockBytes msg ++ input).length := by
        rw [List.length_append, ← hS.buflen]
        omega
      obtain ⟨hchain, hcount, hpending⟩ :=
        parts_append (blockCompress S.lastNode) hpos 0 start.h msg input
      rw [chain_of_lt hpos hlong, ← hrest, ← hfilled, ← hS.h] at hchain
      rw [chainCount_of_lt hpos hlong, ← hrest] at hcount
      rw [pendingBlock_of_lt hpos hlong, ← hrest] at hpending
      have hfull : (splice S.buf S.buflen (input.take (blockBytes - S.buflen))).length =
          blockBytes := by
        rw [hfilled, List.length_take]
        omega
      have hroom : 0 + (pendingBlock blockBytes (input.drop (blockBytes - S.buflen))).length ≤
          (splice S.buf S.buflen (input.take (blockBytes - S.buflen))).length := by
        rw [Nat.zero_add, hfull]
        exact length_pending_le hpos _
      have hblock := compress_block (k := chainCount blockBytes 0 msg)
        (S := { S with
          buf := splice S.buf S.buflen (input.take (blockBytes - S.buflen)), buflen := 0 })
        hS.t hS.f (splice S.buf S.buflen (input.take (blockBytes - S.buflen)))
      rw [hblock,
        updateLoop_eq _ _ (k := chainCount blockBytes 0 msg + blockBytes) rfl (by exact hS.f)]
      constructor
      · exact hS.outlen
      · exact hS.lastNode
      · exact hchain.symm
      · exact congrArg counterWords hcount.symm
      · exact hS.f
      · exact (length_splice _ hroom).trans hfull
      · rw [hpending]
        exact Nat.zero_add _
      · rw [hpending]
        exact splice_take_append List.take_zero rfl

/-! ## The digest -/

/-- The digest that the state `start` is to give for `msg`. -/
def digestBytes (start : State) (msg : Bytes) : Bytes :=
  ((digest blockBytes (blockCompress start.lastNode) 0 start.h msg).toList.flatMap store64).take
    start.outlen

theorem holds_initParam (P : Param) : Holds (initParam P) (initParam P) [] where
  outlen := rfl
  lastNode := rfl
  h := (chain_of_le (by decide)).symm
  t := rfl
  f := rfl
  buf := List.length_replicate
  buflen := rfl
  held := rfl

theorem h_lastState {start S : State} {msg : Bytes} (hS : Holds start S msg) :
    (lastState S).h = digest blockBytes (blockCompress start.lastNode) 0 start.h msg := by
  have hlen := length_pending_le (by decide : 0 < blockBytes) msg
  have hbuflen : S.buflen < 2 ^ 64 := by
    rw [hS.buflen]
    exact Nat.lt_of_le_of_lt hlen (by decide)
  have hcount := t_incrementCounter hS.t hbuflen
  rw [hS.buflen, chainCount_add_pendingBlock, Nat.zero_add] at hcount
  have hflags : flagWords S.lastNode true = (setLastblock (incrementCounter S
      (BitVec.ofNat 64 (pendingBlock blockBytes msg).length))).f := by
    simp [setLastblock, flagWords, incrementCounter, hS.f]
  have hblock : splice S.buf S.buflen (List.replicate (blockBytes - S.buflen) 0) =
      padded blockBytes 0 msg := by
    have hend : S.buflen + (blockBytes - S.buflen) = S.buf.length := by
      rw [hS.buf, hS.buflen]
      omega
    rw [splice, List.length_replicate, hend, List.drop_length, List.append_nil, hS.held,
      hS.buflen, padded]
  rw [digest, blockCompress, ← hcount, ← hS.lastNode, hflags, ← hS.h, ← hblock, ← hS.buflen]
  rfl

theorem final_of_holds {start S : State} {msg : Bytes} (hS : Holds start S msg) {out : Bytes}
    {outlen : Nat} (hroom : start.outlen ≤ outlen) :
    final S (some out) outlen =
      some (lastState S, splice out 0 (digestBytes start msg)) := by
  have hsmall : ¬ outlen < S.outlen := by
    rw [hS.outlen]
    omega
  have hopen : isLastblock S = false := by
    rw [isLastblock, hS.f]
    rfl
  have hout : (lastState S).outlen = start.outlen := hS.outlen
  rw [final, if_neg hsmall, hopen, if_neg Bool.false_ne_true]
  simp only [stateBytes, h_lastState hS, hout, digestBytes]

/-! ## Runs of calls on one state -/

/-- A call that is given a state that was initialised before. -/
inductive Call where
  | update (input : Bytes)
  | final (out : Option Bytes) (outlen : Nat)

/-- The next state and what the call wrote; nothing where it returns -1. -/
def step (S : State) : Call → State × Option Bytes
  | .update input => (update S input, some [])
  | .final out outlen =>
      match final S out outlen with
      | none => (S, none)
      | some (S', out') => (S', some out')

/-- What the calls are for: a message is collected until it is hashed, and that only once. -/
def hashStep (start : State) : Option Bytes → Call → Option Bytes × Option Bytes
  | none, .update _ => (none, some [])
  | some msg, .update input => (some (msg ++ input), some [])
  | none, .final _ _ => (none, none)
  | some msg, .final none _ => (some msg, none)
  | some msg, .final (some out) outlen =>
      if outlen < start.outlen then (some msg, none)
      else (none, some (splice out 0 (digestBytes start msg)))

def Represents (start S : State) : Option Bytes → Prop
  | some msg => Holds start S msg
  | none => isLastblock S = true

theorem updateLoop_f (S : State) (input : Bytes) : (updateLoop S input).1.f = S.f := by
  rw [updateLoop]
  split
  case isFalse => rfl
  case isTrue hlt => exact updateLoop_f _ (input.drop blockBytes)
termination_by input.length
decreasing_by
  rw [List.length_drop]
  simp only [blockBytes] at *
  omega

theorem update_f (S : State) (input : Bytes) : (update S input).f = S.f := by
  rw [update]
  split
  case isFalse => rfl
  case isTrue =>
    dsimp only
    split
    case isFalse => rfl
    case isTrue => exact updateLoop_f _ _

theorem final_of_lastblock {S : State} (hS : isLastblock S = true) (out : Option Bytes)
    (outlen : Nat) : final S out outlen = none := by
  cases out with
  | none => rfl
  | some out =>
      rw [final, if_pos hS, ite_self]

theorem step_represents (start S : State) (collected : Option Bytes) (c : Call)
    (hS : Represents start S collected) :
    (step S c).2 = (hashStep start collected c).2 ∧
      Represents start (step S c).1 (hashStep start collected c).1 := by
  cases c with
  | update input =>
      cases collected with
      | none =>
          refine ⟨rfl, ?_⟩
          exact (congrArg (fun f : Word × Word => f.1 != 0) (update_f S input)).trans hS
      | some msg => exact ⟨rfl, holds_update hS input⟩
  | final out outlen =>
      cases collected with
      | none =>
          rw [step, final_of_lastblock hS]
          exact ⟨rfl, hS⟩
      | some msg =>
          cases out with
          | none => exact ⟨rfl, hS⟩
          | some out =>
              have houtlen : S.outlen = start.outlen := hS.outlen
              by_cases hroom : outlen < start.outlen
              · have hrefused : final S (some out) outlen = none := by
                  rw [final, houtlen, if_pos hroom]
                rw [step, hrefused, hashStep, if_pos hroom]
                exact ⟨rfl, hS⟩
              · rw [step, final_of_holds hS (by omega), hashStep, if_neg hroom]
                exact ⟨rfl, rfl⟩

/--
Whatever calls are made on a state after it was initialised, in whatever order:
they answer like the collector of one message, so the digest written is that of
all the bytes fed before, it is written at most once, and refused calls change
nothing.
-/
theorem transcript_initParam (P : Param) (calls : List Call) :
    transcript step (initParam P) calls =
      transcript (hashStep (initParam P)) (some []) calls :=
  (transcript_eq (s := initParam P) (t := some []) (step_represents (initParam P))
    (holds_initParam P) calls).1

/-! ## One call for a whole message -/

/-- What `blake2b` starts from, by the length of the key. -/
def started (outlen : Nat) (key : Option Bytes) (keylen : Nat) : Option State :=
  if 0 < keylen then initKey outlen key keylen else init outlen

def keyPart (key : Option Bytes) (keylen : Nat) : Bytes :=
  if 0 < keylen then keyBlock ((key.getD []).take keylen) else []

theorem holds_foldl_update {start S : State} {msg : Bytes} (hS : Holds start S msg)
    (parts : List Bytes) : Holds start (parts.foldl update S) (msg ++ parts.flatten) := by
  induction parts generalizing S msg with
  | nil =>
      rw [List.flatten_nil, List.append_nil]
      exact hS
  | cons part parts ih =>
      rw [List.flatten_cons, ← List.append_assoc]
      exact ih (holds_update hS part)

theorem started_some {outlen keylen : Nat} {key : Option Bytes} {S : State}
    (h : started outlen key keylen = some S) :
    (outlen ≠ 0 ∧ keylen ≤ keyBytes ∧ (key = none → keylen = 0)) ∧
      ∃ hle : outlen ≤ outBytes,
        Holds (initParam (sequential outlen keylen hle)) S (keyPart key keylen) := by
  rw [started] at h
  split at h
  case isTrue hkeylen =>
    unfold initKey at h
    split at h
    case isTrue => cases h
    case isFalse hout =>
      obtain ⟨hzero, hle⟩ := not_or.mp hout
      cases key with
      | none => cases h
      | some key =>
          dsimp only at h
          split at h
          case isTrue => cases h
          case isFalse hkey =>
            obtain ⟨hpos, hfit⟩ := not_or.mp hkey
            cases h
            refine ⟨⟨hzero, by omega, fun hnone => by cases hnone⟩, by omega, ?_⟩
            rw [keyPart, if_pos hkeylen]
            exact holds_update (holds_initParam _) _
  case isFalse hkeylen =>
    rw [init] at h
    split at h
    case isTrue => cases h
    case isFalse hout =>
      obtain ⟨hzero, hle⟩ := not_or.mp hout
      cases h
      have hnokey : keylen = 0 := by omega
      subst hnokey
      refine ⟨⟨hzero, by omega, fun _ => rfl⟩, by omega, ?_⟩
      rw [keyPart, if_neg hkeylen]
      exact holds_initParam _

theorem outlen_sequential {outlen keylen : Nat} (hle : outlen ≤ outBytes) :
    (initParam (sequential outlen keylen hle)).outlen = outlen :=
  toNat_digestLength hle

theorem blake2b_of_started {outlen keylen : Nat} {key : Option Bytes} {S : State}
    (h : started outlen key keylen = some S) (hle : outlen ≤ outBytes) (out msg : Bytes) :
    blake2b (some out) outlen (some msg) msg.length key keylen =
      some (splice out 0
        (digestBytes (initParam (sequential outlen keylen hle)) (keyPart key keylen ++ msg))) := by
  obtain ⟨⟨hzero, hkeylen, hnone⟩, _, hS⟩ := started_some h
  have hkey : ¬ (key = none ∧ 0 < keylen) := fun hboth => by
    have hnokey := hnone hboth.1
    omega
  have hrange : ¬ (outlen = 0 ∨ outBytes < outlen) := by omega
  rw [started] at h
  rw [blake2b, if_neg (by simp), if_neg hkey, if_neg hrange, if_neg (by omega), h]
  dsimp only [Option.getD_some]
  rw [List.take_length, final_of_holds (holds_update hS msg) (Nat.le_of_eq (outlen_sequential hle))]

/--
However a message is cut into parts, feeding the parts one after another to a
state and finishing it writes what one call of `blake2b` writes for the whole
message, with a key as without one.
-/
theorem stream_eq_blake2b {outlen keylen : Nat} {key : Option Bytes} {S : State}
    (h : started outlen key keylen = some S) (parts : List Bytes) (out : Bytes) :
    (final (parts.foldl update S) (some out) outlen).map Prod.snd =
      blake2b (some out) outlen (some parts.flatten) parts.flatten.length key keylen := by
  obtain ⟨-, hle, hS⟩ := started_some h
  rw [blake2b_of_started h hle,
    final_of_holds (holds_foldl_update hS parts) (Nat.le_of_eq (outlen_sequential hle))]
  rfl

theorem stream_eq_blake2b_keyed :
    (final ([[0x61], [], [0x62, 0x63]].foldl update
        (update (initParam (sequential 16 2 (by decide))) (keyBlock [1, 2]))) (some []) 16).map
          Prod.snd =
      blake2b (some []) 16 (some [0x61, 0x62, 0x63]) 3 (some [1, 2, 3]) 2 :=
  have h : started 16 (some [1, 2, 3]) 2 =
      some (update (initParam (sequential 16 2 (by decide))) (keyBlock [1, 2])) := rfl
  stream_eq_blake2b h [[0x61], [], [0x62, 0x63]] []

end BlockyOS.Libcrt.BLAKE2b
