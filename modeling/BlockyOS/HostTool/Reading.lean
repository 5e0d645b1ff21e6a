import BlockyOS.HostTool.DirContent
import BlockyOS.HostTool.FileLoops

/-!
# Reading a file

A file with the entries `0` to `k` holds the bytes of its `k` data blocks.
`_fread` admits a range by a sum of 64 bits and then looks its blocks up one by
one, by indices that are cut to 32 bits.
-/

namespace BlockyOS.HostTool

open BlockyOS.Foundation

/-! ## Files -/

/-- The entries of a file: the metadata entry, and `k` data entries behind it. -/
structure FileEntries (fr : ConfFsroot) (file : Nat) (c : Fcode) (k : Nat) : Prop where
  entry : HasEntry fr file c 0
  present : ∀ i, Present fr c i ↔ i ≤ k
  metadata : ∀ s i, HasEntry fr s c i →
    (flagcheck (fr.block s).attributes fsMetadataCluster = true ↔ i = 0)

section FileEntries

variable {fr : ConfFsroot} {file k : Nat} {c : Fcode} (hfile : FileEntries fr file c k)

include hfile

theorem FileEntries.lt : k < 2 ^ 32 := ((hfile.present k).mpr (Nat.le_refl k)).lt

theorem FileEntries.extent_eq : extent fr c = k + 1 :=
  HostTool.extent_eq (fun i hi => (hfile.present i).mpr (by omega))
    fun h => by have := (hfile.present _).mp h; omega

theorem FileEntries.dirBlocks_eq : dirBlocks fr c = k := by
  obtain ⟨-, hend, hblocks⟩ := dirBlocks_spec fr c
  have hext := hfile.extent_eq
  have hlt := extent_lt fr c
  rcases Nat.lt_trichotomy (dirBlocks fr c) k with hless | heq | hmore
  · rw [ffindhi_isNone_iff (by omega)] at hend
    exact absurd ((hfile.present _).mpr (by omega)) hend
  · exact heq
  · have := (hfile.present _).mp (hblocks k hmore)
    omega

theorem FileEntries.blockShare_zero : blockShare fr c 0 = 0 := by
  obtain ⟨s, hs, hentry⟩ := ffindhi_of_present ((hfile.present 0).mpr (Nat.zero_le _))
  rw [blockShare, hs]
  exact if_pos ((hfile.metadata s 0 hentry).mpr rfl)

theorem FileEntries.blockShare_data {i : Nat} (hi : i < k) :
    blockShare fr c (i + 1) = fr.blkSize := by
  obtain ⟨s, hs, hentry⟩ := ffindhi_of_present ((hfile.present (i + 1)).mpr hi)
  rw [blockShare, hs]
  exact if_neg fun hflag => absurd ((hfile.metadata s _ hentry).mp hflag) (Nat.succ_ne_zero i)

theorem FileEntries.fsize_eq : fsize fr file = k * fr.blkSize := by
  rw [fsize_eq_sum, hfile.entry.2.1, hfile.extent_eq, Finset.sum_range_succ',
    hfile.blockShare_zero, Nat.add_zero]
  have hshares : ∀ i ∈ Finset.range k, blockShare fr c (i + 1) = fr.blkSize :=
    fun i hi => hfile.blockShare_data (Finset.mem_range.mp hi)
  rw [Finset.sum_const_nat hshares, Finset.card_range]

end FileEntries

theorem getElem?_dirBytes {v : Volume} {c : Fcode} {n y : Nat}
    (hn : n ≤ dirBlocks v.root c) (hblk : 0 < v.root.blkSize) (hy : y < v.root.blkSize * n) :
    (dirBytes v c n)[y]? = fileByte v c (v.root.blkSize + y) := by
  induction n with
  | zero =>
      rw [Nat.mul_zero] at hy
      cases hy
  | succ n ih =>
      have hlen := @length_dirBytes v c n (by omega)
      rw [dirBytes_succ]
      by_cases hlow : y < v.root.blkSize * n
      · rw [List.getElem?_append_left (by omega)]
        exact ih (by omega) hlow
      · have hsplit : v.root.blkSize + y =
            v.root.blkSize * (n + 1) + (y - v.root.blkSize * n) := by
          rw [Nat.mul_succ]
          omega
        have hinside : y - v.root.blkSize * n < v.root.blkSize := by
          rw [Nat.mul_succ] at hy
          omega
        rw [List.getElem?_append_right (by omega), hlen, fileByte, hsplit,
          Nat.mul_add_div hblk, Nat.mul_add_mod, Nat.div_eq_of_lt hinside,
          Nat.mod_eq_of_lt hinside, Nat.add_zero]
        obtain ⟨s, hs, -⟩ := ffindhi_of_present ((dirBlocks_spec v.root c).2.2 n (by omega))
        rw [dirBlock, hs, Option.bind_some, List.getElem?_take_of_lt hinside]

/-! ## What is admitted -/

section Admitted

variable {E : Host} {v : Volume} {handle : FHandle} {c : Fcode} {k n : Nat}
  (hfile : FileEntries v.root handle.file c k)

/-- The sum that `_fread` compares with the size. -/
def readEnd (fr : ConfFsroot) (p n : Nat) : Nat := u64 (u64sub p fr.blkSize + n)

include hfile

theorem fread_refused (h : k * v.root.blkSize < readEnd v.root handle.progress n) :
    fread E v handle n = .ok (0, none, handle, v) := by
  rw [fread, hfile.fsize_eq]
  exact if_pos h

theorem fread_admitted (hheld : v.AllHeld) (hblk : 0 < v.root.blkSize)
    (h : readEnd v.root handle.progress n ≤ k * v.root.blkSize) :
    ∃ v₁, fupdatetstamp E v handle.file false = .ok v₁ ∧ v₁.root = v.root ∧ v₁.AllHeld ∧
      (∀ x, x / v.root.blkSize < 2 ^ 32 → x / v.root.blkSize ≠ 0 →
        fileByte v₁ c x = fileByte v c x) ∧
      fread E v handle n =
        .ok (n - (freadLoop v₁ handle.file n handle.progress n []).2.2,
          some (padTo n (freadLoop v₁ handle.file n handle.progress n []).1),
          { handle with
            progress := (freadLoop v₁ handle.file n handle.progress n []).2.1 }, v₁) := by
  obtain ⟨v₁, hstamp, hroot, hheld₁, hbytes⟩ :=
    fupdatetstamp_held (E := E) false hheld hfile.entry
  refine ⟨v₁, hstamp, hroot, hheld₁, hbytes, ?_⟩
  have hguard : ¬ (n ≠ 0 ∧ v₁.root.blkSize = 0) := by
    rw [hroot]
    exact fun hzero => hblk.ne' hzero.2
  have hadmitted : ¬ u64 (u64sub handle.progress v.root.blkSize + n) > k * v.root.blkSize :=
    Nat.not_lt.mpr h
  rw [fread, hfile.fsize_eq, if_neg hadmitted, hstamp]
  simp only [if_neg hguard]

end Admitted

/-! ## Ranges inside the file -/

/-- What `_fread` is to do: return the range if the file has it, and nothing otherwise. -/
def ReadsRight (E : Host) (v : Volume) (handle : FHandle) (c : Fcode) (k n : Nat) : Prop :=
  if handle.progress - v.root.blkSize + n ≤ k * v.root.blkSize then
    ∃ v', fread E v handle n = .ok (n,
      some (slice (dirBytes v c k) (handle.progress - v.root.blkSize) n),
      { handle with progress := handle.progress + n }, v')
  else ∃ out handle' v', fread E v handle n = .ok (0, out, handle', v')

def Touches (fr : ConfFsroot) (p n i : Nat) : Prop :=
  ∃ x, p ≤ x ∧ x < p + n ∧ x / fr.blkSize = i

theorem map_fileByte_eq_slice {v : Volume} {c : Fcode} {k p n : Nat} {g : Nat → UInt8}
    (hk : dirBlocks v.root c = k) (hblk : 0 < v.root.blkSize) (hlow : v.root.blkSize ≤ p)
    (hin : p - v.root.blkSize + n ≤ k * v.root.blkSize)
    (hg : ∀ x, p ≤ x → x < p + n → fileByte v c x = some (g x)) :
    (List.range n).map (fun j => g (p + j)) =
      slice (dirBytes v c k) (p - v.root.blkSize) n := by
  rw [Nat.mul_comm] at hin
  apply List.ext_getElem?
  intro j
  rw [getElem?_slice]
  split
  case isTrue hj =>
    rw [getElem?_dirBytes (by omega) hblk (by omega), List.getElem?_map, List.getElem?_range hj,
      show v.root.blkSize + (p - v.root.blkSize + j) = p + j by omega,
      hg (p + j) (by omega) (by omega)]
    rfl
  case isFalse hj =>
    rw [List.getElem?_eq_none (by rw [List.length_map, List.length_range]; omega)]

section Inside

variable {E : Host} {v : Volume} {handle : FHandle} {c : Fcode} {k n : Nat}
  (hfile : FileEntries v.root handle.file c k) (hheld : v.AllHeld)
  (hblk : 0 < v.root.blkSize) (hlow : v.root.blkSize ≤ handle.progress)
  (hin : handle.progress - v.root.blkSize + n ≤ k * v.root.blkSize)

include hfile hblk hlow hin

theorem exists_fileByte {x : Nat} (hx : handle.progress ≤ x)
    (hx' : x < handle.progress + n) :
    1 ≤ x / v.root.blkSize ∧ x / v.root.blkSize ≤ k ∧ ∃ byte, fileByte v c x = some byte := by
  have hfirst : 1 ≤ x / v.root.blkSize := Nat.div_pos (by omega) hblk
  have hlast : x / v.root.blkSize < k + 1 := by
    rw [Nat.div_lt_iff_lt_mul hblk, Nat.succ_mul]
    omega
  obtain ⟨s, hs, -⟩ := ffindhi_of_present ((hfile.present (x / v.root.blkSize)).mpr (by omega))
  refine ⟨hfirst, by omega, ?_⟩
  have hmod := Nat.mod_lt x hblk
  have hspan := v.root.blkSize_le_span
  rw [fileByte, hs, Option.bind_some]
  exact ⟨_, List.getElem?_eq_getElem (by rw [Volume.length_window]; omega)⟩

theorem range_lt : handle.progress + n < 2 ^ 64 := by
  have hk := hfile.lt
  have hb := v.root.blkSize_lt
  have hle : k * v.root.blkSize ≤ (2 ^ 32 - 1) * (2 ^ 32 - 1) :=
    Nat.mul_le_mul (by omega) (by omega)
  omega

theorem readEnd_inside : readEnd v.root handle.progress n ≤ k * v.root.blkSize := by
  have hend := range_lt hfile hblk hlow hin
  rw [readEnd, u64sub_of_le (by omega) hlow, u64_of_lt (by omega)]
  exact hin

include hheld

theorem fread_inside
    (hplain : ∀ i, Touches v.root handle.progress n i → Plain v.root c i) :
    ∃ v', fread E v handle n = .ok (n,
      some (slice (dirBytes v c k) (handle.progress - v.root.blkSize) n),
      { handle with progress := handle.progress + n }, v') := by
  have hend := range_lt hfile hblk hlow hin
  have hk := hfile.lt
  obtain ⟨v₁, -, hroot, hheld₁, hbytes, hread⟩ := fread_admitted (E := E) hfile hheld hblk
    (readEnd_inside hfile hblk hlow hin)
  have hbyte : ∀ x, handle.progress ≤ x → x < handle.progress + n →
      fileByte v c x = some ((fileByte v c x).getD 0) := by
    intro x hx hx'
    obtain ⟨-, -, byte, hsome⟩ := exists_fileByte hfile hblk hlow hin hx hx'
    rw [hsome]
    rfl
  have hloop := @freadLoop_bytes v₁ handle.file c (by rw [hroot]; exact hfile.entry)
    (by rwa [hroot]) (fun x => (fileByte v c x).getD 0) hheld₁ n handle.progress n []
    (by rwa [hroot]) hend (Nat.le_refl _) (fun x hx hx' => by
      obtain ⟨hfirst, hlast, -⟩ := exists_fileByte hfile hblk hlow hin hx hx'
      rw [hroot, hbytes x (by omega) (by omega)]
      exact ⟨hplain _ ⟨x, hx, hx', rfl⟩, hbyte x hx hx'⟩)
  have hslice := map_fileByte_eq_slice hfile.dirBlocks_eq hblk hlow hin hbyte
  refine ⟨v₁, ?_⟩
  rw [hread, hloop, List.nil_append, hslice, padTo_of_length]
  · rfl
  · rw [← hslice, List.length_map, List.length_range]

end Inside

/-! ## Blocks behind extension clusters -/

/-- The slot whose block `__fread1` reads for an index that is not that of its entry. -/
def blockFound (fr : ConfFsroot) (c : Fcode) (i : Nat) : Option Nat :=
  (skipExtension fr c (fr.nClusterItems + 2) (ffindhi fr c i) i).1

theorem FileEntries.skipExtension_data {fr : ConfFsroot} {file k j t : Nat} {c : Fcode}
    (hfile : FileEntries fr file c k) (fuel : Nat) (hj : 0 < j) (hle : j ≤ k + 1)
    (hfuel : k + 1 < fuel + j)
    (h : (skipExtension fr c fuel (ffindhi fr c j) (j + 1)).1 = some t) :
    flagcheck (fr.block t).attributes fsExtensionAllocatedCluster = false ∧
      ∃ i, 0 < i ∧ i ≤ k ∧ HasEntry fr t c i := by
  have hk := extent_lt fr c
  rw [hfile.extent_eq] at hk
  induction fuel generalizing j with
  | zero => omega
  | succ fuel ih =>
      cases hfind : ffindhi fr c j with
      | none =>
          rw [hfind, skipExtension] at h
          · cases h
          · exact fun hzero => by cases hzero
      | some s =>
          have hentry := ffindhi_some hfind
          rw [u32_of_lt (by omega)] at hentry
          have hpresent := (hfile.present j).mp ⟨s, hentry⟩
          rw [hfind, skipExtension] at h
          split at h
          case isTrue hflag =>
            rw [u64_of_lt (by omega)] at h
            exact ih (Nat.succ_pos j) (by omega) (by omega) h
          case isFalse hflag =>
            obtain rfl := Option.some.inj h
            exact ⟨Bool.eq_false_iff.mpr hflag, j, hj, hpresent, hentry⟩

theorem FileEntries.blockFound_data {fr : ConfFsroot} {file k i t : Nat} {c : Fcode}
    (hfile : FileEntries fr file c k) (hi : 0 < i) (hle : i ≤ k)
    (h : blockFound fr c i = some t) :
    flagcheck (fr.block t).attributes fsExtensionAllocatedCluster = false ∧
      ∃ j, 0 < j ∧ j ≤ k ∧ HasEntry fr t c j := by
  have hk := extent_lt fr c
  have hcount := extent_le_count fr c
  have hitems := countFcode_le fr c
  rw [hfile.extent_eq] at hk hcount
  obtain ⟨s, hfind, hentry⟩ := ffindhi_of_present ((hfile.present i).mpr hle)
  rw [blockFound, hfind, skipExtension] at h
  split at h
  case isTrue hflag =>
    rw [u64_of_lt (by omega)] at h
    exact hfile.skipExtension_data _ hi (by omega) (by omega) h
  case isFalse hflag =>
    obtain rfl := Option.some.inj h
    exact ⟨Bool.eq_false_iff.mpr hflag, i, hi, hle, hentry⟩

theorem fread1_eq {v : Volume} {file i : Nat} {c : Fcode} (hfile : HasEntry v.root file c 0)
    (hi : i ≠ 0) (hheld : v.AllHeld) (hblk : 0 < v.root.blkSize) :
    (fread1 v file i).1 = (blockFound v.root c i).map v.window := by
  obtain ⟨-, hcode, hindex⟩ := hfile
  unfold fread1 blockFound
  rw [hindex, hcode, if_pos hi]
  cases hskip : skipExtension v.root c (v.root.nClusterItems + 2) (ffindhi v.root c i) i with
  | mk found index =>
      cases found with
      | none => rfl
      | some t =>
          obtain ⟨hlt, -⟩ := skipExtension_some
            (fun s hs => ⟨(ffindhi_some hs).1, (ffindhi_some hs).2.1⟩) hskip
          exact hheld.readAt hlt hblk v.root.blkSize_le_span

/-! ## Ranges that wrap -/

theorem freadLoop_left_eq_iff {v : Volume} {file pos left : Nat} (out : Bytes) (fuel : Nat)
    (hblk : 0 < v.root.blkSize) (hleft : 0 < left) :
    (freadLoop v file (fuel + 1) pos left out).2.2 = left ↔
      (fread1 v file (pos / v.root.blkSize)).1 = none := by
  rw [freadLoop, if_neg hleft.ne']
  simp only
  cases (fread1 v file (pos / v.root.blkSize)).1 with
  | none => exact iff_of_true rfl rfl
  | some blk =>
      have hmod := Nat.mod_lt pos hblk
      have hle := freadLoop_left_le v file fuel
        (u64 (pos + min (v.root.blkSize - pos % v.root.blkSize) left))
        (left - min (v.root.blkSize - pos % v.root.blkSize) left)
        (out ++ slice blk (pos % v.root.blkSize)
          (min (v.root.blkSize - pos % v.root.blkSize) left))
      refine iff_of_false (fun heq => ?_) (fun hnone => by cases hnone)
      simp only at heq
      omega

/-- A range that the file does not have is refused, unless it wraps and its first block exists. -/
theorem fread_outside_iff {E : Host} {v : Volume} {handle : FHandle} {c : Fcode} {k n : Nat}
    (hfile : FileEntries v.root handle.file c k) (hheld : v.AllHeld)
    (hblk : 0 < v.root.blkSize) (hlow : v.root.blkSize ≤ handle.progress) (hn : 0 < n) :
    (∃ out handle' v', fread E v handle n = .ok (0, out, handle', v')) ↔
      (readEnd v.root handle.progress n ≤ k * v.root.blkSize →
        blockFound v.root c (handle.progress / v.root.blkSize) = none) := by
  rcases Nat.lt_or_ge (k * v.root.blkSize) (readEnd v.root handle.progress n) with hgt | hle
  · exact iff_of_true ⟨_, _, _, fread_refused hfile hgt⟩ fun hle => by omega
  · rw [imp_iff_right hle]
    obtain ⟨v₁, -, hroot, hheld₁, -, hread⟩ := fread_admitted (E := E) hfile hheld hblk hle
    obtain ⟨m, rfl⟩ := Nat.exists_eq_add_of_lt hn
    rw [Nat.zero_add] at hread ⊢
    have hentry : HasEntry v₁.root handle.file c 0 := by rw [hroot]; exact hfile.entry
    have hfirst := @fread1_eq v₁ handle.file (handle.progress / v.root.blkSize) c hentry
      (Nat.div_pos hlow hblk).ne' hheld₁ (by rwa [hroot])
    rw [hroot] at hfirst
    have hleft := @freadLoop_left_eq_iff v₁ handle.file handle.progress (m + 1) [] m
      (by rwa [hroot]) (Nat.succ_pos m)
    rw [hroot, hfirst, Option.map_eq_none_iff] at hleft
    rw [← hleft, hread]
    have hbound := freadLoop_left_le v₁ handle.file (m + 1) handle.progress (m + 1) []
    constructor
    · rintro ⟨out, handle', v', heq⟩
      have hcount := congrArg Prod.fst (Except.ok.inj heq)
      simp only at hcount
      omega
    · intro heq
      rw [heq, Nat.sub_self]
      exact ⟨_, _, _, rfl⟩

/-! ## Extension clusters are not read -/

theorem freadLoop_congr {v v' : Volume} {file : Nat} (hroot : v'.root = v.root)
    (hblk : 0 < v.root.blkSize) (fuel : Nat) {pos left : Nat} (out : Bytes)
    (hfit : pos + left < 2 ^ 64)
    (hsame : ∀ i, Touches v.root pos left i → (fread1 v' file i).1 = (fread1 v file i).1) :
    freadLoop v' file fuel pos left out = freadLoop v file fuel pos left out := by
  induction fuel generalizing pos left out with
  | zero => rfl
  | succ fuel ih =>
      by_cases hleft : left = 0
      · rw [freadLoop, freadLoop, if_pos hleft, if_pos hleft]
      · have hmod := Nat.mod_lt pos hblk
        have hfirst := hsame (pos / v.root.blkSize) ⟨pos, Nat.le_refl _, by omega, rfl⟩
        rw [freadLoop, freadLoop, if_neg hleft, if_neg hleft]
        simp only [hroot, hfirst]
        cases (fread1 v file (pos / v.root.blkSize)).1 with
        | none => rfl
        | some blk =>
            simp only
            rw [u64_of_lt (by omega)]
            refine ih _ (by omega) fun i => ?_
            rintro ⟨x, hx, hx', hi⟩
            exact hsame i ⟨x, by omega, by omega, hi⟩

theorem fupdatetstamp_window {E : Host} {v v₁ : Volume} {file t : Nat} {wt : Bool}
    (hstamp : fupdatetstamp E v file wt = .ok v₁) (hheld : v.AllHeld)
    (hfile : file < v.root.clusterMap.length) (ht : t < v.root.clusterMap.length)
    (hne : t ≠ file) : v₁.window t = v.window t := by
  obtain ⟨finfo, -, rfl⟩ := fupdatetstamp_ok hstamp
  exact Volume.window_writeAt_other (by decide) v.root.sizeofMetaFsBlock_le_span hfile ht hne
    (hheld t ht).1

section Unread

variable {E : Host} {v : Volume} {handle : FHandle} {c : Fcode} {k n s i : Nat}
  (hfile : FileEntries v.root handle.file c k) (hheld : v.AllHeld)
  (hblk : 0 < v.root.blkSize) (hlow : v.root.blkSize ≤ handle.progress)
  (hin : handle.progress - v.root.blkSize + n ≤ k * v.root.blkSize)
  (hfind : ffindhi v.root c i = some s)
  (hflag : flagcheck (v.root.block s).attributes fsExtensionAllocatedCluster = true)

include hfile hheld hblk hlow hin hfind hflag

theorem fread_unread (data : Bytes) {out out' : Option Bytes} {m m' : Nat}
    {handle₁ handle₂ : FHandle} {v₁ v₂ : Volume}
    (hread : fread E v handle n = .ok (m, out, handle₁, v₁))
    (hread' : fread E (v.writeAt s data v.root.blkSize) handle n = .ok (m', out', handle₂, v₂)) :
    out' = out := by
  have hend := range_lt hfile hblk hlow hin
  have hslot := (ffindhi_some hfind).1
  have hheld' := hheld.writeAt s data v.root.blkSize
  have hle := readEnd_inside hfile hblk hlow hin
  obtain ⟨w, hstamp, hroot, hheldw, -, hok⟩ := fread_admitted (E := E) hfile hheld hblk hle
  obtain ⟨w', hstamp', hroot', hheldw', -, hok'⟩ :=
    @fread_admitted E (v.writeAt s data v.root.blkSize) handle c k n hfile hheld' hblk hle
  rw [Volume.writeAt_root] at hroot'
  have hloop : freadLoop w' handle.file n handle.progress n [] =
      freadLoop w handle.file n handle.progress n [] := by
    refine freadLoop_congr (hroot'.trans hroot.symm) (by rwa [hroot]) n [] hend ?_
    rintro j ⟨x, hx, hx', hj⟩
    rw [hroot] at hj
    obtain ⟨hfirst, hlast, -⟩ := exists_fileByte hfile hblk hlow hin hx hx'
    rw [hj] at hfirst hlast
    rw [fread1_eq (by rw [hroot']; exact hfile.entry) (by omega) hheldw' (by rwa [hroot']),
      fread1_eq (by rw [hroot]; exact hfile.entry) (by omega) hheldw (by rwa [hroot]), hroot,
      hroot']
    cases hfound : blockFound v.root c j with
    | none => rfl
    | some t =>
        obtain ⟨hplain, j', hj', hle', hentry⟩ := hfile.blockFound_data hfirst hlast hfound
        have hts : t ≠ s := by
          rintro rfl
          rw [hflag] at hplain
          cases hplain
        have htf : t ≠ handle.file := by
          rintro rfl
          have hzero := hfile.entry.2.2
          rw [hentry.2.2] at hzero
          omega
        rw [Option.map_some, Option.map_some,
          fupdatetstamp_window hstamp' hheld' hfile.entry.1 hentry.1 htf,
          fupdatetstamp_window hstamp hheld hfile.entry.1 hentry.1 htf,
          Volume.window_writeAt_other hblk v.root.blkSize_le_span hslot hentry.1 hts
            (hheld t hentry.1).1]
  have hout := congrArg (fun r => r.2.1) (Except.ok.inj (hok.symm.trans hread))
  have hout' := congrArg (fun r => r.2.1) (Except.ok.inj (hok'.symm.trans hread'))
  exact hout'.symm.trans ((congrArg (fun r => some (padTo n r.1)) hloop).trans hout)

end Unread

theorem plain_of_readsRight {E : Host} {v : Volume} {handle : FHandle} {c : Fcode} {k n : Nat}
    (hfile : FileEntries v.root handle.file c k) (hheld : v.AllHeld)
    (hblk : 0 < v.root.blkSize) (hlow : v.root.blkSize ≤ handle.progress)
    (hin : handle.progress - v.root.blkSize + n ≤ k * v.root.blkSize)
    (hreads : ∀ s data, ReadsRight E (v.writeAt s data v.root.blkSize) handle c k n)
    (hread : ReadsRight E v handle c k n) {i : Nat} (hi : Touches v.root handle.progress n i) :
    Plain v.root c i := by
  intro s hfind
  by_contra hflag
  have hflag := Bool.eq_true_of_not_eq_false hflag
  obtain ⟨x, hx, hx', hxi⟩ := hi
  obtain ⟨-, -, byte, hbyte⟩ := exists_fileByte hfile hblk hlow hin hx hx'
  -- The cluster's bytes are all changed, which the claim's bytes follow and the read ones do not.
  have hright := hreads s ((v.window s).map (· + 1))
  rw [ReadsRight, Volume.writeAt_root, if_pos hin] at hright
  rw [ReadsRight, if_pos hin] at hread
  obtain ⟨v₁, hread⟩ := hread
  obtain ⟨v₂, hright⟩ := hright
  have hsame := fread_unread hfile hheld hblk hlow hin hfind hflag _ hread hright
  have hbytes := congrArg (fun l : Bytes => l[x - handle.progress]?) (Option.some.inj hsame)
  have hindex : v.root.blkSize + (handle.progress - v.root.blkSize + (x - handle.progress)) =
      x := by
    omega
  have hy : handle.progress - v.root.blkSize + (x - handle.progress) <
      v.root.blkSize * k := by
    rw [Nat.mul_comm]
    omega
  have hspan := v.root.blkSize_le_span
  have hcontent : ∀ w : Volume, w.root = v.root →
      (dirBytes w c k)[handle.progress - v.root.blkSize + (x - handle.progress)]? =
        fileByte w c x := by
    intro w hroot
    rw [← hroot] at hfile hblk hy hindex ⊢
    rw [getElem?_dirBytes (Nat.le_of_eq hfile.dirBlocks_eq.symm) hblk hy, hindex]
  simp only [getElem?_slice, if_pos (show x - handle.progress < n by omega)] at hbytes
  rw [hcontent v rfl, hcontent _ (Volume.writeAt_root v _ _ _), hbyte,
    fileByte_writeAt_same hfind hxi hblk (by rw [List.length_map, Volume.length_window]; omega)
      hheld, List.getElem?_map] at hbytes
  rw [fileByte, hxi, hfind, Option.bind_some] at hbyte
  rw [hbyte] at hbytes
  have hself : byte + 1 = byte := Option.some.inj hbytes
  exact absurd hself (by simp)

/-! ## When reading is right -/

/--
In a range of the file no block is an extension cluster; a range that the file
does not have is not admitted by wrapping, or its first block, by the index cut
to 32 bits, is not found.
-/
def ReadClear (fr : ConfFsroot) (c : Fcode) (k p n : Nat) : Prop :=
  if p - fr.blkSize + n ≤ k * fr.blkSize then ∀ i, Touches fr p n i → Plain fr c i
  else readEnd fr p n ≤ k * fr.blkSize → blockFound fr c (p / fr.blkSize) = none

/--
Whatever the disk holds, `_fread` returns the range if the file has it and
nothing otherwise, if and only if no block of a range inside the file is an
extension cluster, and no range outside it wraps onto blocks of the file.
-/
theorem fread_readsRight_iff {E : Host} {v : Volume} {handle : FHandle} {c : Fcode} {k n : Nat}
    (hfile : FileEntries v.root handle.file c k) (hheld : v.AllHeld)
    (hblk : 0 < v.root.blkSize) (hlow : v.root.blkSize ≤ handle.progress)
    (hn : 0 < n) :
    (∀ image, Volume.AllHeld { v with image := image } →
      ReadsRight E { v with image := image } handle c k n) ↔
        ReadClear v.root c k handle.progress n := by
  by_cases hin : handle.progress - v.root.blkSize + n ≤ k * v.root.blkSize
  · rw [ReadClear, if_pos hin]
    constructor
    · intro hreads i hi
      exact plain_of_readsRight hfile hheld hblk hlow hin
        (fun s data => hreads _ (hheld.writeAt s data v.root.blkSize)) (hreads v.image hheld) hi
    · intro hplain image hheld'
      rw [ReadsRight, if_pos hin]
      exact @fread_inside E { v with image := image } handle c k n hfile hheld' hblk hlow hin
        hplain
  · rw [ReadClear, if_neg hin]
    constructor
    · intro hreads
      have hread := hreads v.image hheld
      rw [ReadsRight, if_neg hin] at hread
      exact (fread_outside_iff hfile hheld hblk hlow hn).mp hread
    · intro hclear image hheld'
      rw [ReadsRight, if_neg hin]
      exact (@fread_outside_iff E { v with image := image } handle c k n hfile hheld' hblk hlow
        hn).mpr hclear

/-- The files `a` and `b` on a volume of 255-byte blocks. -/
def sampleOddFiles : Volume :=
  { sampleFiles 5 with
    root := { (sampleFiles 5).root with
      root := { (sampleFiles 5).root.root with confBlockSize := 255 } } }

theorem sampleOddFiles_entries :
    FileEntries sampleOddFiles.root 0 (getfcode sampleHost samplePath) 1 := by
  have hentries : ∀ s i, HasEntry sampleOddFiles.root s (getfcode sampleHost samplePath) i →
      s = 0 ∧ i = 0 ∨ s = 4 ∧ i = 1 := by
    rintro s i ⟨hlt, hcode, rfl⟩
    have hslots : ∀ s, s < 5 →
        (sampleOddFiles.root.block s).fcode = getfcode sampleHost samplePath →
          s = 0 ∧ (sampleOddFiles.root.block s).index.toNat = 0 ∨
            s = 4 ∧ (sampleOddFiles.root.block s).index.toNat = 1 := by
      decide
    exact hslots s hlt hcode
  refine ⟨⟨by decide, by decide, by decide⟩, fun i => ⟨?_, fun hi => ?_⟩, fun s i hentry => ?_⟩
  · rintro ⟨s, hentry⟩
    rcases hentries s i hentry with ⟨-, rfl⟩ | ⟨-, rfl⟩ <;> decide
  · rcases Nat.le_one_iff_eq_zero_or_eq_one.mp hi with rfl | rfl
    · exact ⟨0, by decide, by decide, by decide⟩
    · exact ⟨4, by decide, by decide, by decide⟩
  · rcases hentries s i hentry with ⟨rfl, rfl⟩ | ⟨rfl, rfl⟩ <;> decide

theorem sampleOddFiles_held : sampleOddFiles.AllHeld := by
  have hheld : ∀ s, s < 5 → sampleOddFiles.root.Addressable s ∧ sampleOddFiles.Holds s := by
    decide +kernel
  exact hheld

theorem readClear_sampleOddFiles :
    ReadClear sampleOddFiles.root (getfcode sampleHost samplePath) 1 300 100 := by
  rw [ReadClear, if_pos (by decide)]
  rintro i ⟨x, hlow, hhigh, rfl⟩
  have hblock : x / sampleOddFiles.root.blkSize = 1 := by
    have hsize : sampleOddFiles.root.blkSize = 255 := rfl
    rw [hsize]
    omega
  intro s hs
  rw [hblock] at hs
  have hfind : ffindhi sampleOddFiles.root (getfcode sampleHost samplePath) 1 = some 4 := by
    decide
  obtain rfl := Option.some.inj (hfind.symm.trans hs)
  decide

/-- The range is read right whatever the disk holds. -/
theorem fread_readsRight_sample :
    (∀ image, Volume.AllHeld { sampleOddFiles with image := image } →
      ReadsRight sampleHost { sampleOddFiles with image := image } ⟨0, 300, samplePath⟩
        (getfcode sampleHost samplePath) 1 100) ∧
      ReadClear sampleOddFiles.root (getfcode sampleHost samplePath) 1 300 100 := by
  have hclear := readClear_sampleOddFiles
  have hiff := @fread_readsRight_iff sampleHost sampleOddFiles ⟨0, 300, samplePath⟩ _ 1 100
    sampleOddFiles_entries sampleOddFiles_held (by decide) (by decide) (by decide)
  exact ⟨hiff.mpr hclear, hclear⟩

/-- Four gigabytes from a position near the end of the 64-bit range wrap onto block 1. -/
theorem not_readsRight_wrapped :
    ¬ ReadsRight sampleHost sampleOddFiles ⟨0, 2 ^ 64 - 2 ^ 32 + 255, samplePath⟩
      (getfcode sampleHost samplePath) 1 (2 ^ 32) := by
  intro hread
  rw [ReadsRight, if_neg (by decide)] at hread
  have hmissing := (fread_outside_iff sampleOddFiles_entries sampleOddFiles_held (by decide)
    (by decide) (by decide)).mp hread (by decide)
  have hfound : blockFound sampleOddFiles.root (getfcode sampleHost samplePath)
      ((2 ^ 64 - 2 ^ 32 + 255) / sampleOddFiles.root.blkSize) = some 4 := by
    decide
  rw [hfound] at hmissing
  cases hmissing

end BlockyOS.HostTool
