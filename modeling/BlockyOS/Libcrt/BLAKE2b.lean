import BlockyOS.Foundation.WordBytes
import Mathlib.Data.Finite.Prod
import Mathlib.Data.Fintype.EquivFin

/-!
# BLAKE2b

The hash that names the files of the file system: its compression, the state
that a message is fed to in parts, and the call that hashes a whole message.
-/

namespace BlockyOS.Libcrt.BLAKE2b

open BlockyOS.Foundation

abbrev Word := BitVec 64

def blockBytes : Nat := 128

def outBytes : Nat := 64

def keyBytes : Nat := 64

def load64 (src : Bytes) : Word := loadBytes 64 8 src

def store64 (w : Word) : Bytes := storeBytes 8 w

def store32 (w : BitVec 32) : Bytes := storeBytes 4 w

@[simp] theorem length_store64 (w : Word) : (store64 w).length = 8 := length_storeBytes 8 w

theorem load64_store64 (w : Word) : load64 (store64 w) = w := loadBytes_storeBytes w rfl

theorem load64_append {p : Bytes} (hp : p.length = 8) (q : Bytes) : load64 (p ++ q) = load64 p :=
  loadBytes_append hp q

def rotr64 (w : Word) (c : Nat) : Word := w >>> c ||| w <<< (64 - c)

def IV : Vector Word 8 :=
  #v[0x6a09e667f3bcc908, 0xbb67ae8584caa73b, 0x3c6ef372fe94f82b, 0xa54ff53a5f1d36f1,
    0x510e527fade682d1, 0x9b05688c2b3e6c1f, 0x1f83d9abfb41bd6b, 0x5be0cd19137e2179]

def sigma : Vector (Vector (Fin 16) 16) 12 :=
  #v[#v[0, 1, 2, 3, 4, 5, 6, 7, 8, 9, 10, 11, 12, 13, 14, 15],
    #v[14, 10, 4, 8, 9, 15, 13, 6, 1, 12, 0, 2, 11, 7, 5, 3],
    #v[11, 8, 12, 0, 5, 2, 15, 13, 10, 14, 3, 6, 7, 1, 9, 4],
    #v[7, 9, 3, 1, 13, 12, 11, 14, 2, 6, 5, 10, 4, 0, 15, 8],
    #v[9, 0, 5, 7, 2, 4, 10, 15, 14, 1, 11, 12, 6, 8, 3, 13],
    #v[2, 12, 6, 10, 0, 11, 8, 3, 4, 13, 7, 5, 15, 14, 1, 9],
    #v[12, 5, 1, 15, 14, 13, 4, 10, 0, 7, 6, 3, 9, 2, 8, 11],
    #v[13, 11, 7, 14, 12, 1, 3, 9, 5, 0, 15, 4, 8, 6, 2, 10],
    #v[6, 15, 14, 9, 11, 3, 0, 8, 12, 2, 13, 7, 1, 4, 10, 5],
    #v[10, 2, 8, 4, 7, 6, 1, 5, 15, 11, 9, 14, 3, 12, 13, 0],
    #v[0, 1, 2, 3, 4, 5, 6, 7, 8, 9, 10, 11, 12, 13, 14, 15],
    #v[14, 10, 4, 8, 9, 15, 13, 6, 1, 12, 0, 2, 11, 7, 5, 3]]

/-! ## The compression -/

/-- The four words that one `G` works on. -/
structure Quad where
  a : Word
  b : Word
  c : Word
  d : Word

/-- One of the two halves of `G`, which differ in the message word and the rotations. -/
def halfG (x : Word) (r s : Nat) (q : Quad) : Quad :=
  let a := q.a + q.b + x
  let d := rotr64 (q.d ^^^ a) r
  let c := q.c + d
  ⟨a, rotr64 (q.b ^^^ c) s, c, d⟩

def G (x y : Word) (q : Quad) : Quad := halfG y 16 63 (halfG x 32 24 q)

/-- `f` on the words of `v` at four places. -/
def onQuad (f : Quad → Quad) (i j k l : Fin 16) (v : Vector Word 16) : Vector Word 16 :=
  let q := f ⟨v[i], v[j], v[k], v[l]⟩
  (((v.set i q.a).set j q.b).set k q.c).set l q.d

/-- `G(r,i,v[..],v[..],v[..],v[..])`; `n` is the source's `i`. -/
def mix (m : Vector Word 16) (r : Fin 12) (n : Fin 8) (i j k l : Fin 16) :
    Vector Word 16 → Vector Word 16 :=
  onQuad (G m[sigma[r][2 * n.val]] m[sigma[r][2 * n.val + 1]]) i j k l

def round (m : Vector Word 16) (r : Fin 12) (v : Vector Word 16) : Vector Word 16 :=
  v |> mix m r 0 0 4 8 12
    |> mix m r 1 1 5 9 13
    |> mix m r 2 2 6 10 14
    |> mix m r 3 3 7 11 15
    |> mix m r 4 0 5 10 15
    |> mix m r 5 1 6 11 12
    |> mix m r 6 2 7 8 13
    |> mix m r 7 3 4 9 14

def digestWords (h : Vector Word 8) : Word × Word := (h.get 0, h.get 1)

def rounds (m v : Vector Word 16) : Vector Word 16 :=
  (List.finRange 12).foldl (fun v r => round m r v) v

def messageWords (block : Bytes) : Vector Word 16 :=
  Vector.ofFn fun i => load64 (block.drop (8 * i.val))

def initialWords (h : Vector Word 8) (t f : Word × Word) : Vector Word 16 :=
  #v[h[0], h[1], h[2], h[3], h[4], h[5], h[6], h[7], IV[0], IV[1], IV[2], IV[3],
    IV[4] ^^^ t.1, IV[5] ^^^ t.2, IV[6] ^^^ f.1, IV[7] ^^^ f.2]

/-- The words `S->h` that `blake2b_compress` leaves. -/
def compressWords (h : Vector Word 8) (t f : Word × Word) (block : Bytes) : Vector Word 8 :=
  let v := rounds (messageWords block) (initialWords h t f)
  Vector.ofFn fun i => h[i] ^^^ v[i.val] ^^^ v[i.val + 8]

/-! ### The rounds can be undone -/

theorem rotr64_rotr64 (w : Word) {c : Nat} (hpos : 0 < c) (hc : c < 64) :
    rotr64 (rotr64 w c) (64 - c) = w := by
  apply BitVec.eq_of_getLsbD_eq
  intro j hj
  have hback : 64 - (64 - c) = c := by omega
  simp only [rotr64, hback, BitVec.getLsbD_or, BitVec.getLsbD_ushiftRight,
    BitVec.getLsbD_shiftLeft]
  by_cases hlow : j < c
  · have hbig : w.getLsbD (c + (64 - c + j)) = false := BitVec.getLsbD_of_ge _ _ (by omega)
    have hwrap : 64 - c + j < 64 := by omega
    have hshift : 64 - c + j - (64 - c) = j := by omega
    simp [hlow, hbig, hwrap, hshift]
  · have hfar : ¬ 64 - c + j < 64 := by omega
    have hnear : j - c < 64 - c := by omega
    have hsum : c + (j - c) = j := by omega
    have hover : w.getLsbD (c + (64 - c + j)) = false := BitVec.getLsbD_of_ge _ _ (by omega)
    simp [hlow, hfar, hnear, hsum, hj, hover]

/-- Undoes `halfG`. -/
def unhalfG (x : Word) (r s : Nat) (q : Quad) : Quad :=
  let b := rotr64 q.b (64 - s) ^^^ q.c
  ⟨q.a - b - x, b, q.c - q.d, rotr64 q.d (64 - r) ^^^ q.a⟩

theorem unhalfG_halfG (x : Word) {r s : Nat} (hr : 0 < r ∧ r < 64) (hs : 0 < s ∧ s < 64)
    (q : Quad) : unhalfG x r s (halfG x r s q) = q := by
  simp only [unhalfG, halfG, rotr64_rotr64 _ hr.1 hr.2, rotr64_rotr64 _ hs.1 hs.2,
    BitVec.xor_assoc, BitVec.xor_self, BitVec.xor_zero, BitVec.add_sub_cancel]
  have ha : q.a + q.b + x - q.b - x = q.a := by
    rw [BitVec.add_assoc, BitVec.add_comm q.b x, ← BitVec.add_assoc, BitVec.add_sub_cancel,
      BitVec.add_sub_cancel]
  rw [ha]

def unG (x y : Word) (q : Quad) : Quad := unhalfG x 32 24 (unhalfG y 16 63 q)

theorem unG_G (x y : Word) (q : Quad) : unG x y (G x y q) = q := by
  rw [unG, G, unhalfG_halfG y (by decide) (by decide), unhalfG_halfG x (by decide) (by decide)]

/-- The four places are different from one another. -/
def Apart (i j k l : Fin 16) : Prop := i ≠ j ∧ i ≠ k ∧ i ≠ l ∧ j ≠ k ∧ j ≠ l ∧ k ≠ l

instance (i j k l : Fin 16) : Decidable (Apart i j k l) := by
  unfold Apart
  infer_instance

theorem onQuad_onQuad {f g : Quad → Quad} (hgf : ∀ q, g (f q) = q) {i j k l : Fin 16}
    (hapart : Apart i j k l) (v : Vector Word 16) :
    onQuad g i j k l (onQuad f i j k l v) = v := by
  obtain ⟨hij, hik, hil, hjk, hjl, hkl⟩ := hapart
  simp only [ne_eq, Fin.ext_iff] at hij hik hil hjk hjl hkl
  have hread : (⟨(onQuad f i j k l v)[i], (onQuad f i j k l v)[j], (onQuad f i j k l v)[k],
      (onQuad f i j k l v)[l]⟩ : Quad) = f ⟨v[i], v[j], v[k], v[l]⟩ := by
    simp [onQuad, Ne.symm hij, Ne.symm hik, Ne.symm hil, Ne.symm hjk, Ne.symm hjl, Ne.symm hkl]
  rw [onQuad, hread, hgf]
  apply Vector.ext
  intro n hn
  simp only [onQuad, Vector.getElem_set, Fin.getElem_fin]
  split
  · simp_all
  · split
    · simp_all
    · split
      · simp_all
      · split
        · simp_all
        · rfl

theorem mix_injective (m : Vector Word 16) (r : Fin 12) (n : Fin 8) {i j k l : Fin 16}
    (hapart : Apart i j k l) : Function.Injective (mix m r n i j k l) :=
  Function.LeftInverse.injective fun v => onQuad_onQuad (unG_G _ _) hapart v

theorem round_injective (m : Vector Word 16) (r : Fin 12) : Function.Injective (round m r) := by
  have hcolumns := (mix_injective m r 3 (i := 3) (j := 7) (k := 11) (l := 15) (by decide)).comp
    ((mix_injective m r 2 (i := 2) (j := 6) (k := 10) (l := 14) (by decide)).comp
      ((mix_injective m r 1 (i := 1) (j := 5) (k := 9) (l := 13) (by decide)).comp
        (mix_injective m r 0 (i := 0) (j := 4) (k := 8) (l := 12) (by decide))))
  have hdiagonals := (mix_injective m r 7 (i := 3) (j := 4) (k := 9) (l := 14) (by decide)).comp
    ((mix_injective m r 6 (i := 2) (j := 7) (k := 8) (l := 13) (by decide)).comp
      ((mix_injective m r 5 (i := 1) (j := 6) (k := 11) (l := 12) (by decide)).comp
        (mix_injective m r 4 (i := 0) (j := 5) (k := 10) (l := 15) (by decide))))
  exact hdiagonals.comp hcolumns

/-- The twelve rounds are a permutation of the sixteen words, whatever the message words are. -/
theorem rounds_bijective (m : Vector Word 16) : Function.Bijective (rounds m) := by
  have hinjective : ∀ rs : List (Fin 12),
      Function.Injective fun v => rs.foldl (fun v r => round m r v) v := by
    intro rs
    induction rs with
    | nil => exact fun _ _ h => h
    | cons r rs ih => exact ih.comp (round_injective m r)
  have hword : Finite Word := Finite.of_injective BitVec.toFin fun _ _ => BitVec.eq_of_toFin_eq
  have hwords : Finite (Vector Word 16) :=
    Finite.of_injective (fun v : Vector Word 16 => fun i : Fin 16 => v[i]) fun v v' h =>
      Vector.ext fun i hi => congrFun h ⟨i, hi⟩
  exact Finite.injective_iff_bijective.mp (hinjective _)

/-! ## The state -/

/-- The digest fits the buffer that `blake2b_final` takes it from. -/
structure State where
  h : Vector Word 8
  t : Word × Word
  f : Word × Word
  buf : Bytes
  buflen : Nat
  outlen : Nat
  lastNode : UInt8
  outlen_le : outlen ≤ outBytes

structure Param where
  digestLength : UInt8
  keyLength : UInt8
  fanout : UInt8
  depth : UInt8
  leafLength : BitVec 32
  nodeOffset : BitVec 32
  xofLength : BitVec 32
  nodeDepth : UInt8
  innerLength : UInt8
  reserved : Bytes
  salt : Bytes
  personal : Bytes
  digestLength_le : digestLength.toNat ≤ outBytes

/-- The packed structure in memory. -/
def Param.bytes (P : Param) : Bytes :=
  [P.digestLength, P.keyLength, P.fanout, P.depth] ++ store32 P.leafLength ++
    store32 P.nodeOffset ++ store32 P.xofLength ++ [P.nodeDepth, P.innerLength] ++
    P.reserved ++ P.salt ++ P.personal

def isLastblock (S : State) : Bool := S.f.1 != 0

def setLastblock (S : State) : State :=
  { S with f := (BitVec.allOnes 64, if S.lastNode ≠ 0 then BitVec.allOnes 64 else S.f.2) }

def incrementCounter (S : State) (inc : Word) : State :=
  { S with t := (S.t.1 + inc, S.t.2 + if S.t.1 + inc < inc then 1 else 0) }

def init0 : State :=
  { h := IV, t := (0, 0), f := (0, 0), buf := List.replicate blockBytes 0, buflen := 0,
    outlen := 0, lastNode := 0, outlen_le := Nat.zero_le outBytes }

def initParam (P : Param) : State :=
  { init0 with
    h := Vector.ofFn fun i => IV[i] ^^^ load64 (P.bytes.drop (8 * i.val))
    outlen := P.digestLength.toNat
    outlen_le := P.digestLength_le }

theorem toNat_digestLength {outlen : Nat} (h : outlen ≤ outBytes) :
    (UInt8.ofNat outlen).toNat = outlen :=
  UInt8.toNat_ofNat_of_lt' (Nat.lt_of_le_of_lt h (by decide))

/-- The parameters that `blake2b_init` and `blake2b_init_key` fill in. -/
def sequential (outlen keylen : Nat) (h : outlen ≤ outBytes) : Param :=
  { digestLength := UInt8.ofNat outlen, keyLength := UInt8.ofNat keylen, fanout := 1, depth := 1,
    leafLength := 0, nodeOffset := 0, xofLength := 0, nodeDepth := 0, innerLength := 0,
    reserved := List.replicate 14 0, salt := List.replicate 16 0,
    personal := List.replicate 16 0
    digestLength_le := (Nat.le_of_eq (toNat_digestLength h)).trans h }

def compress (S : State) (block : Bytes) : State :=
  { S with h := compressWords S.h S.t S.f block }

/-- The turns of `while(inlen > BLAKE2B_BLOCKBYTES)`, with what is left of the input. -/
def updateLoop (S : State) (input : Bytes) : State × Bytes :=
  if blockBytes < input.length then
    updateLoop (compress (incrementCounter S 128) (input.take blockBytes))
      (input.drop blockBytes)
  else
    (S, input)
termination_by input.length
decreasing_by
  rw [List.length_drop]
  simp only [blockBytes] at *
  omega

/-- `memcpy( S->buf + S->buflen, in, inlen )` and the new length. -/
def bufferInput (S : State) (input : Bytes) : State :=
  { S with buf := splice S.buf S.buflen input, buflen := S.buflen + input.length }

def update (S : State) (input : Bytes) : State :=
  if 0 < input.length then
    let fill := blockBytes - S.buflen
    if fill < input.length then
      let filled := { S with buf := splice S.buf S.buflen (input.take fill), buflen := 0 }
      let rest := updateLoop (compress (incrementCounter filled 128) filled.buf) (input.drop fill)
      bufferInput rest.1 rest.2
    else
      bufferInput S input
  else
    S

/-- `blake2b_init`; nothing is returned where the source returns -1. -/
def init (outlen : Nat) : Option State :=
  if h : outlen = 0 ∨ outBytes < outlen then none
  else some (initParam (sequential outlen 0 (not_lt.mp (not_or.mp h).2)))

/-- The block that the key makes, filled up with zeros. -/
def keyBlock (key : Bytes) : Bytes := splice (List.replicate blockBytes 0) 0 key

def initKey (outlen : Nat) (key : Option Bytes) (keylen : Nat) : Option State :=
  if h : outlen = 0 ∨ outBytes < outlen then none
  else
    match key with
    | none => none
    | some key =>
        if keylen = 0 ∨ keyBytes < keylen then none
        else
          some (update (initParam (sequential outlen keylen (not_lt.mp (not_or.mp h).2)))
            (keyBlock (key.take keylen)))

def lastState (S : State) : State :=
  let S := setLastblock (incrementCounter S (BitVec.ofNat 64 S.buflen))
  let S := { S with buf := splice S.buf S.buflen (List.replicate (blockBytes - S.buflen) 0) }
  compress S S.buf

/-- The eight words of the state as bytes (`buffer`). -/
def stateBytes (S : State) : Bytes := S.h.toList.flatMap store64

/-- `blake2b_final`, with the new state and what the output buffer holds then. -/
def final (S : State) (out : Option Bytes) (outlen : Nat) : Option (State × Bytes) :=
  match out with
  | none => none
  | some out =>
      if outlen < S.outlen then none
      else if isLastblock S then none
      else
        let S := lastState S
        some (S, splice out 0 ((stateBytes S).take S.outlen))

/-- `blake2b`, with what the output buffer holds then. -/
def blake2b (out : Option Bytes) (outlen : Nat) (input : Option Bytes) (inlen : Nat)
    (key : Option Bytes) (keylen : Nat) : Option Bytes :=
  if input = none ∧ 0 < inlen then none
  else
    match out with
    | none => none
    | some out =>
        if key = none ∧ 0 < keylen then none
        else if outlen = 0 ∨ outBytes < outlen then none
        else if keyBytes < keylen then none
        else
          match if 0 < keylen then initKey outlen key keylen else init outlen with
          | none => none
          | some S =>
              -- the answer of the last call is not looked at
              match final (update S ((input.getD []).take inlen)) (some out) outlen with
              | none => some out
              | some (_, out') => some out'

end BlockyOS.Libcrt.BLAKE2b
