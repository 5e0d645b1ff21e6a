import Mathlib.Data.List.Induction
import BlockyOS.HostTool.Directory

/-!
# Stored names and rebuilt paths

`__finit` keeps what follows the last separator among the first 36 bytes of a
path, the separator included and cut before the first byte outside ASCII.
`__fdirlist` puts it back behind the path of the directory, and merges the two
separators only when the stored one is `/`.
-/

namespace BlockyOS.HostTool

open BlockyOS.Foundation

/-! ## The last separator -/

theorem lastSep_some {chars : Bytes} {n i : Nat} (h : lastSep chars n = some i) :
    0 < i ∧ (∃ c, chars[i]? = some c ∧ isSep c) ∧
      ∀ j c, i < j → j ≤ n → chars[j]? = some c → ¬ isSep c := by
  induction n with
  | zero => cases h
  | succ n ih =>
      rw [lastSep] at h
      split at h
      case h_1 c hc =>
        split at h
        case isTrue hsep =>
          cases h
          exact ⟨Nat.succ_pos n, ⟨c, hc, hsep⟩, fun j c' hlow hhigh => by omega⟩
        case isFalse hsep =>
          obtain ⟨hpos, hat, hafter⟩ := ih h
          refine ⟨hpos, hat, fun j c' hlow hhigh hj => ?_⟩
          rcases Nat.lt_or_ge n j with hlast | hless
          · obtain rfl : j = n + 1 := by omega
            rw [hc] at hj
            rwa [← Option.some.inj hj]
          · exact hafter j c' hlow hless hj
      case h_2 hnone =>
        obtain ⟨hpos, hat, hafter⟩ := ih h
        refine ⟨hpos, hat, fun j c' hlow hhigh hj => ?_⟩
        rcases Nat.lt_or_ge n j with hlast | hless
        · obtain rfl : j = n + 1 := by omega
          rw [hnone] at hj
          cases hj
        · exact hafter j c' hlow hless hj

structure Splits (path parent : Path) (sep : UInt8) (comp : Bytes) : Prop where
  chars : path.chars = parent.chars ++ sep :: comp
  parent : parent.chars ≠ []
  sep : isSep sep
  comp : ∀ c ∈ comp, ¬ isSep c

theorem splits_of_parentPath {path parent : Path} (h : parentPath path = some parent) :
    ∃ sep comp, Splits path parent sep comp := by
  obtain ⟨i, hlast, rfl⟩ := Option.map_eq_some_iff.mp h
  obtain ⟨hpos, ⟨sep, hat, hsep⟩, hafter⟩ := lastSep_some hlast
  obtain ⟨hlt, hget⟩ := List.getElem?_eq_some_iff.mp hat
  refine ⟨sep, path.chars.drop (i + 1), ?_, ?_, hsep, ?_⟩
  · rw [← hget, ← List.drop_eq_getElem_cons hlt]
    exact (List.take_append_drop i path.chars).symm
  · intro hempty
    have hlen := congrArg List.length hempty
    change (path.chars.take i).length = 0 at hlen
    rw [List.length_take] at hlen
    omega
  · intro c hc
    obtain ⟨k, hk, rfl⟩ := List.mem_iff_getElem.mp hc
    rw [List.length_drop] at hk
    refine hafter (i + 1 + k) _ (by omega) (by omega) ?_
    rw [List.getElem_drop, List.getElem?_eq_getElem]

/-! ## The stored name -/

theorem finitScan_component {pre comp done : Bytes} {sep : UInt8} (hpre : pre ≠ [])
    (hsep : isSep sep) (hcomp : ∀ c ∈ comp, ¬ isSep c) :
    finitScan (pre.length + comp.length) (pre ++ sep :: (comp ++ done)) =
      (some pre.length,
        pre ++ sep :: ((comp.map fun c => if isascii c then c else 0) ++ done)) := by
  induction comp using List.reverseRecOn generalizing done with
  | nil =>
      obtain ⟨n, hn⟩ : ∃ n, pre.length = n + 1 :=
        Nat.exists_eq_succ_of_ne_zero fun hzero => hpre (List.length_eq_zero_iff.mp hzero)
      have hget : (pre ++ sep :: done)[n + 1]? = some sep := by
        rw [← hn, List.getElem?_append_right (Nat.le_refl _), Nat.sub_self]
        rfl
      rw [List.length_nil, Nat.add_zero, hn, finitScan]
      simp only [List.nil_append, List.map_nil, hget, hsep, if_true]
  | append_singleton comp c ih =>
      have hc : ¬ isSep c := hcomp c (by simp)
      have hindex : pre.length + (comp ++ [c]).length = pre.length + comp.length + 1 := by
        simp
        omega
      have hget : (pre ++ sep :: (comp ++ [c] ++ done))[pre.length + comp.length + 1]? =
          some c := by
        rw [List.getElem?_append_right (by omega)]
        have hoff : pre.length + comp.length + 1 - pre.length = comp.length + 1 := by omega
        rw [hoff, List.getElem?_cons_succ, List.append_assoc,
          List.getElem?_append_right (Nat.le_refl _), Nat.sub_self]
        rfl
      have hset : (pre ++ sep :: (comp ++ [c] ++ done)).set (pre.length + comp.length + 1) 0 =
          pre ++ sep :: (comp ++ (0 :: done)) := by
        rw [List.set_append_right _ _ (by omega)]
        have hoff : pre.length + comp.length + 1 - pre.length = comp.length + 1 := by omega
        rw [hoff, List.set_cons_succ, List.append_assoc, List.set_append_right _ _ (Nat.le_refl _),
          Nat.sub_self]
        rfl
      have hrest := fun d : Bytes => @ih d fun c' hc' => hcomp c' (by simp [hc'])
      rw [hindex, finitScan]
      simp only [hget, hc, Bool.false_eq_true, if_false]
      by_cases hascii : isascii c
      · rw [if_pos hascii]
        have hthis := hrest (c :: done)
        simpa [hascii] using hthis
      · rw [if_neg hascii, hset, hrest (0 :: done)]
        simp [hascii]

theorem finitScan_head {a : UInt8} {comp done : Bytes} (hcomp : ∀ c ∈ comp, ¬ isSep c) :
    finitScan comp.length (a :: (comp ++ done)) =
      (none, a :: ((comp.map fun c => if isascii c then c else 0) ++ done)) := by
  induction comp using List.reverseRecOn generalizing done with
  | nil => rfl
  | append_singleton comp c ih =>
      have hc : ¬ isSep c := hcomp c (by simp)
      have hget : (a :: (comp ++ [c] ++ done))[comp.length + 1]? = some c := by
        rw [List.getElem?_cons_succ, List.append_assoc,
          List.getElem?_append_right (Nat.le_refl _), Nat.sub_self]
        rfl
      have hset : (a :: (comp ++ [c] ++ done)).set (comp.length + 1) 0 =
          a :: (comp ++ (0 :: done)) := by
        rw [List.set_cons_succ, List.append_assoc, List.set_append_right _ _ (Nat.le_refl _),
          Nat.sub_self]
        rfl
      have hrest := fun d : Bytes => @ih d fun c' hc' => hcomp c' (by simp [hc'])
      rw [List.length_append, List.length_singleton, finitScan]
      simp only [hget, hc, Bool.false_eq_true, if_false]
      by_cases hascii : isascii c
      · rw [if_pos hascii]
        have hthis := hrest (c :: done)
        simpa [hascii] using hthis
      · rw [if_neg hascii, hset, hrest (0 :: done)]
        simp [hascii]

structure ScanEnd (path : Path) (pre : Bytes) (sep : UInt8) (comp : Bytes) : Prop where
  chars : 0x5C :: path.chars.take gptNameLen = pre ++ sep :: comp
  sep : isSep sep
  comp : ∀ c ∈ comp, ¬ isSep c

theorem exists_last_sep {chars : Bytes} {a : UInt8} (ha : isSep a) :
    ∃ pre sep comp, a :: chars = pre ++ sep :: comp ∧ isSep sep ∧ ∀ c ∈ comp, ¬ isSep c := by
  induction chars using List.reverseRecOn with
  | nil => exact ⟨[], a, [], rfl, ha, fun c hc => absurd hc List.not_mem_nil⟩
  | append_singleton chars c ih =>
      by_cases hc : isSep c
      · exact ⟨a :: chars, c, [], rfl, hc, fun c hc => absurd hc List.not_mem_nil⟩
      · obtain ⟨pre, sep, comp, hsplit, hsep, hcomp⟩ := ih
        refine ⟨pre, sep, comp ++ [c], ?_, hsep, fun c' hc' => ?_⟩
        · rw [← List.cons_append, hsplit, List.append_assoc, List.cons_append]
        · rcases List.mem_append.mp hc' with hold | hlast
          · exact hcomp c' hold
          · exact List.mem_singleton.mp hlast ▸ hc

theorem exists_scanEnd (path : Path) : ∃ pre sep comp, ScanEnd path pre sep comp := by
  obtain ⟨pre, sep, comp, hchars, hsep, hcomp⟩ :=
    @exists_last_sep (path.chars.take gptNameLen) 0x5C (by decide)
  exact ⟨pre, sep, comp, hchars, hsep, hcomp⟩

def scanTail (path : Path) : Bytes :=
  if path.chars.length < gptNameLen then [0]
  else List.replicate (path.chars.length + 1 - gptNameLen) 0x30

theorem scanStart_eq (path : Path) :
    scanStart (0x5C :: path.chars) = 0x5C :: path.chars.take gptNameLen ++ scanTail path := by
  rw [scanStart, scanTail, List.length_cons]
  split
  case isTrue hshort =>
    rw [if_pos (by omega), List.take_of_length_le (by omega)]
  case isFalse hlong => rw [if_neg (by omega), List.take_succ_cons]

section Scan

variable {path : Path} {pre comp : Bytes} {sep : UInt8} (h : ScanEnd path pre sep comp)

include h

theorem ScanEnd.notMem_zero : 0 ∉ comp := by
  intro hzero
  have hmem : 0 ∈ (0x5C :: path.chars.take gptNameLen : Bytes) := by
    rw [h.chars]
    exact List.mem_append_right _ (List.mem_cons_of_mem _ hzero)
  rcases List.mem_cons.mp hmem with habs | hchars
  · exact absurd habs (by decide)
  · exact path.terminated (List.mem_of_mem_take hchars)

theorem ScanEnd.sep_ne_zero : sep ≠ 0 := by
  rintro rfl
  exact absurd h.sep (by decide)

theorem ScanEnd.length_eq :
    pre.length + comp.length = min (0x5C :: path.chars).length gptNameLen ∨
      pre.length + comp.length + 1 = min (0x5C :: path.chars).length gptNameLen := by
  have hlen := congrArg List.length h.chars
  rw [List.length_cons, List.length_take, List.length_append, List.length_cons] at hlen
  rw [List.length_cons]
  omega

theorem ScanEnd.nameSpan_eq :
    nameSpan (0x5C :: path.chars) =
      sep :: ((comp.map fun c => if isascii c then c else 0) ++ scanTail path) := by
  have hstart : scanStart (0x5C :: path.chars) = pre ++ sep :: (comp ++ scanTail path) := by
    rw [scanStart_eq, h.chars, List.append_assoc, List.cons_append]
  have hscan : finitScan (min (0x5C :: path.chars).length gptNameLen)
      (pre ++ sep :: (comp ++ scanTail path)) =
        finitScan (pre.length + comp.length) (pre ++ sep :: (comp ++ scanTail path)) := by
    rcases h.length_eq with heq | hnext
    · rw [heq]
    · -- a short path: the scan begins at its terminator
      have hshort : path.chars.length < gptNameLen := by
        have hlen := congrArg List.length h.chars
        rw [List.length_cons, List.length_take, List.length_append, List.length_cons] at hlen
        rw [List.length_cons] at hnext
        omega
      have hend : (pre ++ sep :: (comp ++ scanTail path))[pre.length + comp.length + 1]? =
          some 0 := by
        rw [scanTail, if_pos hshort, List.getElem?_append_right (by omega),
          show pre.length + comp.length + 1 - pre.length = comp.length + 1 by omega,
          List.getElem?_cons_succ, List.getElem?_append_right (Nat.le_refl _), Nat.sub_self]
        rfl
      rw [← hnext, finitScan]
      simp only [hend]
      rfl
  rw [nameSpan, hstart, hscan]
  cases pre with
  | nil =>
      have hhead := @finitScan_head sep comp (scanTail path) h.comp
      rw [List.length_nil, Nat.zero_add, List.nil_append, hhead]
  | cons a pre =>
      rw [finitScan_component (List.cons_ne_nil a pre) h.sep h.comp]
      exact List.drop_left

theorem ScanEnd.terminated_iff :
    0 ∈ nameSpan (0x5C :: path.chars) ↔
      path.chars.length < gptNameLen ∨ ∃ c ∈ comp, isascii c = false := by
  rw [h.nameSpan_eq, List.mem_cons, List.mem_append, List.mem_map]
  constructor
  · rintro (habs | ⟨c, hc, hzero⟩ | htail)
    · exact absurd habs.symm h.sep_ne_zero
    · refine Or.inr ⟨c, hc, ?_⟩
      cases hascii : isascii c with
      | false => rfl
      | true =>
          rw [if_pos hascii] at hzero
          exact absurd (hzero ▸ hc) h.notMem_zero
    · by_cases hshort : path.chars.length < gptNameLen
      · exact Or.inl hshort
      · rw [scanTail, if_neg hshort] at htail
        exact absurd (List.eq_of_mem_replicate htail) (by decide)
  · rintro (hshort | ⟨c, hc, hascii⟩)
    · exact Or.inr (Or.inr (by rw [scanTail, if_pos hshort]; exact List.mem_singleton_self 0))
    · exact Or.inr (Or.inl ⟨c, hc, by rw [hascii]; rfl⟩)

end Scan

theorem cstr_component {comp tail : Bytes} (hzero : 0 ∉ comp)
    (hend : tail = [0] ∨ ∃ c ∈ comp, isascii c = false) :
    cstr ((comp.map fun c => if isascii c then c else 0) ++ tail) = comp.takeWhile isascii := by
  induction comp with
  | nil =>
      obtain rfl : tail = [0] := hend.resolve_right fun ⟨c, hc, _⟩ => absurd hc List.not_mem_nil
      rfl
  | cons c comp ih =>
      have hc : c ≠ 0 := fun h => hzero (h ▸ List.mem_cons_self)
      by_cases hascii : isascii c
      · have hend' : tail = [0] ∨ ∃ c ∈ comp, isascii c = false := by
          refine hend.imp_right fun ⟨c', hc', hnot⟩ => ?_
          rcases List.mem_cons.mp hc' with rfl | hrest
          · rw [hascii] at hnot
            cases hnot
          · exact ⟨c', hrest, hnot⟩
        rw [List.map_cons, if_pos hascii, List.cons_append, cstr,
          List.takeWhile_cons_of_pos (by simpa using hc), List.takeWhile_cons_of_pos hascii,
          ← ih (fun h => hzero (List.mem_cons_of_mem _ h)) hend']
        rfl
      · rw [List.map_cons, if_neg hascii, List.cons_append, cstr,
          List.takeWhile_cons_of_neg (by simp), List.takeWhile_cons_of_neg hascii]

theorem ScanEnd.storedName_eq {path : Path} {pre comp : Bytes} {sep : UInt8}
    (h : ScanEnd path pre sep comp) (hdone : 0 ∈ nameSpan (0x5C :: path.chars)) :
    storedName (0x5C :: path.chars) = sep :: comp.takeWhile isascii := by
  have hend : scanTail path = [0] ∨ ∃ c ∈ comp, isascii c = false := by
    refine (h.terminated_iff.mp hdone).imp_left fun hshort => ?_
    rw [scanTail, if_pos hshort]
  rw [storedName, h.nameSpan_eq, cstr,
    List.takeWhile_cons_of_pos (by simpa using h.sep_ne_zero), ← cstr,
    cstr_component h.notMem_zero hend]

theorem length_storedName_le {path : Path} (hdone : 0 ∈ nameSpan (0x5C :: path.chars)) :
    (storedName (0x5C :: path.chars)).length ≤ gptNameLen + 1 := by
  obtain ⟨pre, sep, comp, h⟩ := exists_scanEnd path
  have hlen := congrArg List.length h.chars
  have hinitial := (List.takeWhile_prefix isascii (l := comp)).length_le
  rw [List.length_cons, List.length_take, List.length_append, List.length_cons] at hlen
  rw [h.storedName_eq hdone, List.length_cons]
  omega

/-! ## The rebuilt path -/

/--
Among the first 36 bytes the last separator is `/`, and the ASCII bytes that follow it are the
last component of the path.
-/
def NameSurvives (path : Path) : Prop :=
  ∃ i pre comp, lastSep path.chars path.chars.length = some i ∧
    path.chars.take gptNameLen = pre ++ pathSep :: comp ∧ (∀ c ∈ comp, ¬ isSep c) ∧
    path.chars.drop (i + 1) = comp.takeWhile isascii

/-- The path `__fdirlist` opens a child on, which was created as `path`. -/
def rebuiltPath (dir path : Path) : Path := childPath dir (storedName (0x5C :: path.chars))

section Rebuilt

variable {path parent dir : Path} {sep : UInt8} {comp : Bytes}

theorem Splits.drop_lastSep (h : Splits path parent sep comp) {i : Nat}
    (hparent : parentPath path = some parent)
    (hlast : lastSep path.chars path.chars.length = some i) : path.chars.drop (i + 1) = comp := by
  obtain ⟨j, hj, htake⟩ := Option.map_eq_some_iff.mp hparent
  obtain rfl := Option.some.inj (hlast.symm.trans hj)
  obtain ⟨-, ⟨c, hat, -⟩, -⟩ := lastSep_some hlast
  have hi : parent.chars.length = i := by
    have hlt := (List.getElem?_eq_some_iff.mp hat).1
    rw [← htake]
    change (path.chars.take i).length = i
    rw [List.length_take]
    omega
  rw [h.chars, ← hi, List.drop_append, Nat.add_sub_cancel_left,
    List.drop_eq_nil_of_le (Nat.le_add_right _ _)]
  rfl

theorem last_sep_unique {pre pre' comp comp' : Bytes} {sep sep' : UInt8}
    (heq : pre ++ sep :: comp = pre' ++ sep' :: comp') (hsep : isSep sep) (hsep' : isSep sep')
    (hcomp : ∀ c ∈ comp, ¬ isSep c) (hcomp' : ∀ c ∈ comp', ¬ isSep c) :
    sep = sep' ∧ comp = comp' := by
  rcases List.append_eq_append_iff.mp heq with ⟨mid, -, hmid⟩ | ⟨mid, -, hmid⟩
  · cases mid with
    | nil =>
        rw [List.nil_append] at hmid
        exact ⟨(List.cons.inj hmid).1, (List.cons.inj hmid).2⟩
    | cons a mid =>
        have htail := (List.cons.inj hmid).2
        exact absurd hsep' (hcomp sep' (by rw [htail]; simp))
  · cases mid with
    | nil =>
        rw [List.nil_append] at hmid
        exact ⟨(List.cons.inj hmid).1.symm, (List.cons.inj hmid).2.symm⟩
    | cons a mid =>
        have htail := (List.cons.inj hmid).2
        exact absurd hsep (hcomp' sep (by rw [htail]; simp))

theorem Splits.nameSurvives_iff (h : Splits path parent sep comp)
    (hparent : parentPath path = some parent) {pre kept : Bytes} {first : UInt8}
    (hend : ScanEnd path pre first kept) :
    NameSurvives path ↔ first = pathSep ∧ kept.takeWhile isascii = comp := by
  constructor
  · rintro ⟨i, pre', kept', hlast, hchars, hkept, hdrop⟩
    have hboth : pre ++ first :: kept = (0x5C :: pre') ++ pathSep :: kept' := by
      rw [← hend.chars, hchars, List.cons_append]
    obtain ⟨hfirst, rfl⟩ := last_sep_unique hboth hend.sep (by decide) hend.comp hkept
    exact ⟨hfirst, by rw [← hdrop, h.drop_lastSep hparent hlast]⟩
  · rintro ⟨rfl, hkept⟩
    obtain ⟨i, hlast, -⟩ := Option.map_eq_some_iff.mp hparent
    have hchars := hend.chars
    cases pre with
    | nil => exact absurd (List.cons.inj hchars).1 (by decide)
    | cons a pre =>
        rw [List.cons_append] at hchars
        exact ⟨i, pre, kept, hlast, (List.cons.inj hchars).2, hend.comp,
          by rw [h.drop_lastSep hparent hlast, hkept]⟩

theorem canonical_component {comp : Bytes} (hcomp : ∀ c ∈ comp, ¬ isSep c) :
    (comp.map fun c => if c = pathNoSep then pathSep else c) = comp := by
  induction comp with
  | nil => rfl
  | cons c comp ih =>
      have hc : c ≠ pathNoSep := by
        rintro rfl
        exact hcomp _ List.mem_cons_self (by decide)
      rw [List.map_cons, if_neg hc, ih fun c' hc' => hcomp c' (List.mem_cons_of_mem _ hc')]

theorem canonical_sep {c : UInt8} (h : isSep c) :
    (if c = pathNoSep then pathSep else c) = pathSep := by
  split
  case isTrue => rfl
  case isFalse hne => simpa [isSep, hne] using h

theorem Splits.canonical_path (h : Splits path parent sep comp) :
    canonical path = canonical parent ++ pathSep :: comp := by
  rw [canonical, h.chars, List.map_append, List.map_cons, canonical_sep h.sep,
    canonical_component h.comp]
  rfl

theorem ScanEnd.canonical_rebuiltPath {pre kept : Bytes} {first : UInt8}
    (h : ScanEnd path pre first kept) (hdone : 0 ∈ nameSpan (0x5C :: path.chars))
    (hdir : canonical dir = canonical parent) :
    canonical (rebuiltPath dir path) = canonical parent ++ pathSep ::
      (if first = pathSep then kept.takeWhile isascii
        else pathSep :: kept.takeWhile isascii) := by
  have hinitial : ∀ c ∈ kept.takeWhile isascii, ¬ isSep c :=
    fun c hc => h.comp c (List.takeWhile_subset _ hc)
  have hcstr : cstr (kept.takeWhile isascii) = kept.takeWhile isascii := by
    rw [cstr, List.takeWhile_eq_self_iff]
    intro c hc
    have hne : c ≠ 0 := fun hzero => h.notMem_zero (hzero ▸ List.takeWhile_subset _ hc)
    simpa using hne
  have hname : cstr (if (first :: kept.takeWhile isascii).head? = some pathSep then
      (first :: kept.takeWhile isascii).tail else first :: kept.takeWhile isascii) =
        if first = pathSep then kept.takeWhile isascii else first :: kept.takeWhile isascii := by
    by_cases hslash : first = pathSep
    · rw [if_pos hslash, if_pos (by rw [hslash]; rfl)]
      exact hcstr
    · rw [if_neg hslash, if_neg (by simpa using hslash), cstr,
        List.takeWhile_cons_of_pos (by simpa using h.sep_ne_zero), ← cstr, hcstr]
  rw [rebuiltPath, h.storedName_eq hdone, canonical, childPath]
  simp only [hname, List.map_append, List.map_cons]
  rw [← canonical, hdir, canonical_sep (by decide)]
  by_cases hslash : first = pathSep
  · rw [if_pos hslash, if_pos hslash, canonical_component hinitial]
  · rw [if_neg hslash, if_neg hslash, List.map_cons, canonical_sep h.sep,
      canonical_component hinitial]

theorem canonical_rebuiltPath_iff (hparent : parentPath path = some parent)
    (hdone : 0 ∈ nameSpan (0x5C :: path.chars)) (hdir : canonical dir = canonical parent) :
    canonical (rebuiltPath dir path) = canonical path ↔ NameSurvives path := by
  obtain ⟨sep, comp, h⟩ := splits_of_parentPath hparent
  obtain ⟨pre, first, kept, hend⟩ := exists_scanEnd path
  rw [h.nameSurvives_iff hparent hend, hend.canonical_rebuiltPath hdone hdir, h.canonical_path,
    List.append_cancel_left_eq, List.cons_inj_right]
  by_cases hslash : first = pathSep
  · rw [if_pos hslash]
    simp [hslash]
  · rw [if_neg hslash]
    refine iff_of_false (fun heq => ?_) fun hand => hslash hand.1
    exact h.comp pathSep (heq ▸ List.mem_cons_self) (by decide)

end Rebuilt

end BlockyOS.HostTool
