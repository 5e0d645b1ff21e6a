import BlockyOS.HostTool.Session
import BlockyOS.Libcrt.BLAKE2bStreams

/-!
# Path digests

The file code with BLAKE2b in the place of an arbitrary hash: `getfcode` calls
the three functions of the hash one after another on a buffer of two words.
Two paths that share an entry of the map are spelled alike, or hashing them has
made two compressions that agree in the 112 bits an entry keeps.
-/

namespace BlockyOS.Frat

open BlockyOS.Foundation
open BlockyOS.Libcrt
open BlockyOS.Libcrt.BLAKE2b (Word Holds blockBytes blockCompress digestBytes digestWords
  initParam sequential load64 store64 State)
open BlockyOS.HostTool (Path Host Tm Fcode ConfFsroot canonical)

/-- The buffer `hash` after the three calls, as the two words it is declared with. -/
def hashPath (path : Bytes) : Option (Word × Word) := do
  let S ← BLAKE2b.init 16
  let (_, hash) ← BLAKE2b.final (BLAKE2b.update S path) (some (List.replicate 16 0)) 16
  return (load64 hash, load64 (hash.drop 8))

/-- The tool's services with the hash that it is built with. -/
def blake2bHost (localtime : Nat → Tm) : Host where
  blake2b path := (hashPath path).getD (0, 0)
  localtime := localtime

theorem words_le_outBytes : 16 ≤ BLAKE2b.outBytes := by decide

def pathStart : State := initParam (sequential 16 0 words_le_outBytes)

def pathDigest (path : Bytes) : Vector Word 8 :=
  digest blockBytes (blockCompress pathStart.lastNode) 0 pathStart.h path

theorem take_words (h : Vector Word 8) :
    (h.toList.flatMap store64).take 16 = store64 (h.get 0) ++ store64 (h.get 1) := by
  obtain ⟨⟨words⟩, hlen⟩ := h
  match words, hlen with
  | a :: b :: rest, hlen =>
      have hfit : (store64 a ++ store64 b).length = 16 := by simp
      change ((a :: b :: rest).flatMap store64).take 16 = store64 a ++ store64 b
      rw [List.flatMap_cons, List.flatMap_cons, ← List.append_assoc,
        List.take_append_of_le_length (Nat.le_of_eq hfit.symm),
        List.take_of_length_le (Nat.le_of_eq hfit)]

theorem final_words {start S : State} {msg : Bytes} (hS : Holds start S msg)
    (hout : start.outlen = 16) {h : Vector Word 8}
    (hh : digest blockBytes (blockCompress start.lastNode) 0 start.h msg = h) :
    (BLAKE2b.final S (some (List.replicate 16 0)) 16).map
        (fun r => (load64 r.2, load64 (r.2.drop 8))) = some (h.get 0, h.get 1) := by
  have hwords : digestBytes start msg = store64 (h.get 0) ++ store64 (h.get 1) := by
    rw [digestBytes, hh, hout, take_words]
  have hwritten : splice (List.replicate 16 (0 : UInt8)) 0
      (store64 (h.get 0) ++ store64 (h.get 1)) =
      store64 (h.get 0) ++ store64 (h.get 1) := by
    simp [splice]
  have hsecond : (store64 (h.get 0) ++ store64 (h.get 1)).drop 8 = store64 (h.get 1) :=
    List.drop_left' (BLAKE2b.length_store64 _)
  rw [BLAKE2b.final_of_holds hS (Nat.le_of_eq hout), Option.map_some, hwords, hwritten, hsecond,
    BLAKE2b.load64_append (BLAKE2b.length_store64 _), BLAKE2b.load64_store64,
    BLAKE2b.load64_store64]

theorem hashPath_eq (path : Bytes) :
    hashPath path = some ((pathDigest path).get 0, (pathDigest path).get 1) := by
  have hS : Holds pathStart (BLAKE2b.update pathStart path) path :=
    BLAKE2b.holds_update (BLAKE2b.holds_initParam (sequential 16 0 words_le_outBytes)) path
  have hinit : BLAKE2b.init 16 = some pathStart := dif_neg (by decide)
  have hout : pathStart.outlen = 16 := rfl
  have hdigest : digest blockBytes (blockCompress pathStart.lastNode) 0 pathStart.h path =
      pathDigest path := by
    rw [pathDigest]
  have hwords := final_words hS hout hdigest
  rw [hashPath, hinit]
  cases hfinal : BLAKE2b.final (BLAKE2b.update pathStart path) (some (List.replicate 16 0)) 16 with
  | none =>
      rw [hfinal] at hwords
      cases hwords
  | some r =>
      rw [hfinal] at hwords
      simp only [Option.bind_eq_bind, Option.bind_some, hfinal]
      exact hwords

example : hashPath [0x61] = some (0x7f8773936e5ec327, 0x7e49464e4662e529) := by decide +kernel

/-- The bits of a digest that a file code keeps: 64 of the first word and 48 of the second. -/
def SameCode (h h' : Vector Word 8) : Prop :=
  (digestWords h).1 = (digestWords h').1 ∧
    (digestWords h).2.setWidth 48 = (digestWords h').2.setWidth 48

theorem getfcode_blake2bHost (localtime : Nat → Tm) (path : Path) :
    HostTool.getfcode (blake2bHost localtime) path =
      ⟨(pathDigest (canonical path)).get 0, ((pathDigest (canonical path)).get 1).setWidth 48⟩ := by
  have hhash : (blake2bHost localtime).blake2b (canonical path) =
      ((pathDigest (canonical path)).get 0, (pathDigest (canonical path)).get 1) := by
    simp only [blake2bHost, hashPath_eq, Option.getD_some]
  have hmask : BitVec.allOnes 64 &&& ~~~(0xFFFF#64 <<< 48) = (BitVec.allOnes 48).setWidth 64 := by
    decide
  rw [HostTool.getfcode, hhash, hmask]
  congr 1
  generalize (pathDigest (canonical path)).get 1 = high
  apply BitVec.eq_of_getLsbD_eq
  intro i hi
  have hwide : i < 64 := by omega
  simp only [BitVec.getLsbD_setWidth, BitVec.getLsbD_and, BitVec.getLsbD_allOnes]
  simp [hi, hwide]

/-- The compressions that hashing a path makes. -/
def pathCompressions (path : Path) : List (Compression (Vector Word 8) UInt8) :=
  digestCalls blockBytes (blockCompress pathStart.lastNode) 0 pathStart.h (canonical path)

/--
Two paths that lead to the same entry are spelled alike up to their separators,
or two different compressions of their digests agree in all that a code keeps.
-/
theorem same_entry_or_collide {localtime : Nat → Tm} {fr : ConfFsroot} {path path' : Path}
    {index index' fb : Nat}
    (h : HostTool.ffindi (blake2bHost localtime) fr path index = some fb)
    (h' : HostTool.ffindi (blake2bHost localtime) fr path' index' = some fb) :
    canonical path = canonical path' ∨
      Collide (blockCompress pathStart.lastNode) SameCode (pathCompressions path)
        (pathCompressions path') := by
  have hcode : HostTool.getfcode (blake2bHost localtime) path =
      HostTool.getfcode (blake2bHost localtime) path' :=
    (HostTool.ffindhi_some h).2.1.symm.trans (HostTool.ffindhi_some h').2.1
  rw [getfcode_blake2bHost, getfcode_blake2bHost] at hcode
  obtain ⟨hlow, hhigh⟩ := Fcode.mk.inj hcode
  exact eq_or_collide_of_digest (fun _ => ⟨rfl, rfl⟩) (by decide) ⟨hlow, hhigh⟩

/-- The paths `a\b` and `a/b`, on a map whose only entry belongs to both. -/
theorem same_entry_or_collide_separators :
    ∃ path path' : Path, path ≠ path' ∧ (canonical path = canonical path' ∨
      Collide (blockCompress pathStart.lastNode) SameCode (pathCompressions path)
        (pathCompressions path')) := by
  have hcanonical : canonical ⟨[0x61, 0x5C, 0x62], by decide⟩ =
      canonical ⟨[0x61, 0x2F, 0x62], by decide⟩ := by decide
  have hfound : ∀ path : Path, canonical path = [0x61, 0x2F, 0x62] →
      HostTool.ffindi (blake2bHost fun _ => ⟨0, 0, 0, 0⟩)
        (HostTool.sampleRoot [⟨HostTool.getfcode (blake2bHost fun _ => ⟨0, 0, 0, 0⟩)
          ⟨[0x61, 0x2F, 0x62], by decide⟩, 0, 0⟩] (by decide : 20 * 1 < 2 ^ 32))
        path 0 = some 0 := by
    intro path hpath
    have hcode : HostTool.getfcode (blake2bHost fun _ => ⟨0, 0, 0, 0⟩) path =
        HostTool.getfcode (blake2bHost fun _ => ⟨0, 0, 0, 0⟩) ⟨[0x61, 0x2F, 0x62], by decide⟩ := by
      rw [HostTool.getfcode, HostTool.getfcode, hpath]
      rfl
    rw [HostTool.ffindi, hcode]
    simp [HostTool.ffindhi, HostTool.sampleRoot, HostTool.matchesIndex, u32]
  exact ⟨⟨[0x61, 0x5C, 0x62], by decide⟩, ⟨[0x61, 0x2F, 0x62], by decide⟩, by decide,
    same_entry_or_collide (hfound _ (by decide)) (hfound _ (by decide))⟩

end BlockyOS.Frat
