import BlockyOS.HostTool.FileLoops

/-!
# Writing and reading back

A write reads back when the blocks it touches exist, or when the file is dense,
the write starts no later than its end, and the scan for free slots meets
enough of them.  In every other case `_fwrite` reports all bytes all the same.
-/

namespace BlockyOS.HostTool

open BlockyOS.Foundation

/-! ## One more cluster -/

section Extension

variable {v : Volume} {file fb : Nat} {c : Fcode} (hfile : HasEntry v.root file c 0)
  (hc : c ≠ Fcode.zero) (halloc : allocatecluster v.root = (v.root.setCursor fb, some fb))

include hfile hc halloc

theorem extended_count :
    countFcode (v.extended file fb).root c = countFcode v.root c + 1 := by
  obtain ⟨-, hlt, -, hfree, -⟩ := allocatecluster_some halloc
  rw [ConfFsroot.block_eq_getElem hlt] at hfree
  have hadd := @numbers_set_add _ _ _ FsBlock.fcode FsBlock.number _ _ hlt
      (extensionEntry v.root file) c (by rw [hfree]; exact hc.symm) hfile.2.1
  have hcard := congrArg Multiset.card hadd
  rw [Multiset.card_cons, card_numbers, card_numbers] at hcard
  exact hcard

theorem extended_freeFrom : freeFrom (v.extended file fb).root + 1 = freeFrom v.root :=
  freeFrom_of_some halloc (by rw [show (extensionEntry v.root file).fcode = c from hfile.2.1]
                              exact hc)

theorem extended_entry : HasEntry (v.extended file fb).root file c 0 :=
  (@extended_edits _ file _ halloc).hasEntry_mono hc hfile

omit hfile in
theorem extended_block {s : Nat} (hs : (v.root.block s).fcode = c) :
    (v.extended file fb).root.block s = v.root.block s :=
  (@extended_edits _ file _ halloc).block_of_live (by rwa [hs])

omit hfile in
theorem extended_dense (hdense : DenseCode v.root c) :
    DenseCode (v.extended file fb).root c := by
  obtain ⟨-, hlt, -, hfree, -⟩ := allocatecluster_some halloc
  exact @denseCode_setBlock (v.root.setCursor fb) _ _ hlt hfree
      (fun _ => extensionEntry_index file) _ hc hdense

theorem extended_fsize (hdense : DenseCode v.root c) :
    fsize (v.extended file fb).root file = fsize v.root file + v.root.blkSize := by
  obtain ⟨-, hlt, -, hfree, -⟩ := allocatecluster_some halloc
  have hcode := hfile.2.1
  have hext : extent v.root c = countFcode v.root c := (denseCode_iff_extent.mp hdense).symm
  have hext' : extent (v.extended file fb).root c = countFcode v.root c + 1 := by
    rw [← extended_count hfile hc halloc]
    exact (denseCode_iff_extent.mp (extended_dense hc halloc hdense)).symm
  have hmissing : ¬ Present v.root c (countFcode v.root c) := by
    rw [← hext]
    exact not_present_extent v.root c
  have hlt32 := extent_lt v.root c
  have hnone := (@ffindhi_isNone_iff v.root c _ (by omega)).mpr hmissing
  have hfound := ffindhi_extended hfile hc hnone halloc rfl
  have hold : ∀ i, i < countFcode v.root c →
      blockShare (v.extended file fb).root c i = blockShare v.root c i := by
    intro i hi
    unfold blockShare
    rw [hfound i (by omega), if_neg (by omega)]
    cases hfind : ffindhi v.root c i with
    | none => rfl
    | some s =>
        simp only
        rw [extended_block hc halloc (ffindhi_some hfind).2.1]
        rfl
  have hnew : blockShare (v.extended file fb).root c (countFcode v.root c) =
      v.root.blkSize := by
    have hblock : (v.extended file fb).root.block fb = extensionEntry v.root file :=
      @ConfFsroot.block_setBlock_same (v.root.setCursor fb) _ _ hlt
    have hflag : flagcheck (extensionEntry v.root file).attributes fsMetadataCluster = false :=
      flagcheck_flagunset (by decide)
    unfold blockShare
    rw [hfound _ (by omega), if_pos rfl]
    simp only [hblock, hflag]
    rfl
  rw [fsize_eq_sum, fsize_eq_sum, (extended_entry hfile hc halloc).2.1, hcode, hext', hext,
    Finset.sum_range_succ, hnew]
  congr 1
  exact Finset.sum_congr rfl fun i hi => hold i (Finset.mem_range.mp hi)

end Extension

/-! ## When a write finds its place -/

/-- The first and the last block that a transfer of `n` bytes at position `p` touches. -/
def firstBlock (blkSize p : Nat) : Nat := (blkSize + p) / blkSize

def lastBlock (blkSize p n : Nat) : Nat := (blkSize + p + n - 1) / blkSize

/--
What the map must offer to a write of `n` bytes at position `p`: none of the
touched blocks is an extension cluster; the blocks that are missing continue the
file, whose indices are dense, and find free slots; and the file is then as long
as the position says.
-/
structure Placeable (fr : ConfFsroot) (file p n : Nat) : Prop where
  plain : ∀ i, firstBlock fr.blkSize p ≤ i → i ≤ lastBlock fr.blkSize p n →
    Plain fr (fr.block file).fcode i
  room : extent fr (fr.block file).fcode ≤ lastBlock fr.blkSize p n →
    countFcode fr (fr.block file).fcode = extent fr (fr.block file).fcode ∧
      firstBlock fr.blkSize p ≤ extent fr (fr.block file).fcode ∧
      flagcheck (fr.block file).attributes fsExtensionAllocatedCluster = false ∧
      lastBlock fr.blkSize p n + 1 - extent fr (fr.block file).fcode ≤ freeFrom fr
  size : p + n ≤ fsize fr file +
    fr.blkSize * (lastBlock fr.blkSize p n + 1 - extent fr (fr.block file).fcode)

structure Placed (v₀ : Volume) (file : Nat) (c : Fcode) (data : Bytes)
    (start first last : Nat) (v : Volume) (pos i : Nat) : Prop where
  geometry : ConfFsroot.SameGeometry v₀.root v.root
  held : v.AllHeld
  entry : HasEntry v.root file c 0
  plain : ∀ j, first ≤ j → j ≤ last → Plain v.root c j
  bytes : ∀ x, start ≤ x → x < pos → x / v₀.root.blkSize < i ∧
    fileByte v c x = some (data.getD (x - start) 0)
  room : (v.root = v₀.root ∧ last < extent v₀.root c) ∨
    (DenseCode v.root c ∧ i ≤ countFcode v.root c ∧
      countFcode v.root c ≤ max (extent v₀.root c) i ∧
      extent v₀.root c ≤ countFcode v.root c ∧
      flagcheck (v.root.block file).attributes fsExtensionAllocatedCluster = false ∧
      last + 1 - countFcode v.root c ≤ freeFrom v.root ∧
      fsize v.root file = fsize v₀.root file +
        v₀.root.blkSize * (countFcode v.root c - extent v₀.root c))

theorem bytes_of_pass {v v' : Volume} {c : Fcode} {data : Bytes}
    {start pos chunk b : Nat} (hstart : start ≤ pos)
    (hinside : pos % b + chunk ≤ b) (hend : pos + chunk ≤ start + data.length)
    (hbefore : ∀ x, start ≤ x → x < pos → x / b < pos / b ∧
      fileByte v c x = some (data.getD (x - start) 0))
    (hkeep : ∀ x, x / b < pos / b → fileByte v' c x = fileByte v c x)
    (hnew : ∀ x, x / b = pos / b → pos % b ≤ x % b → x % b < pos % b + chunk →
      fileByte v' c x = (slice data (pos - start) chunk)[x % b - pos % b]?)
    (x : Nat) (hlow : start ≤ x) (hhigh : x < pos + chunk) :
    x / b < pos / b + 1 ∧ fileByte v' c x = some (data.getD (x - start) 0) := by
  by_cases hx : x < pos
  · obtain ⟨hdiv, hbyte⟩ := hbefore x hlow hx
    exact ⟨by omega, by rw [hkeep x hdiv, hbyte]⟩
  · obtain ⟨hdiv, hrem⟩ := @div_add_of_inside b pos (x - pos) (by omega)
    rw [show pos + (x - pos) = x by omega] at hdiv hrem
    refine ⟨by omega, ?_⟩
    rw [hnew x hdiv (by omega) (by omega), getElem?_slice, if_pos (by omega), hrem,
      show pos - start + (pos % b + (x - pos) - pos % b) = x - start by omega,
      List.getElem?_eq_getElem (by omega), List.getD_eq_getElem?_getD,
      List.getElem?_eq_getElem (by omega), Option.getD_some]

section Placed

variable {v₀ v : Volume} {file start pos chunk last : Nat} {c : Fcode} {data : Bytes}
  (hc : c ≠ Fcode.zero) (hblk : 0 < v₀.root.blkSize) (hlow : v₀.root.blkSize ≤ start)
  (hlast : last = (start + data.length - 1) / v₀.root.blkSize) (hlast32 : last < 2 ^ 32)
  (h : Placed v₀ file c data start (start / v₀.root.blkSize) last v pos
    (pos / v₀.root.blkSize))
  (hstart : start ≤ pos) (hchunk : 0 < chunk)
  (hinside : pos % v₀.root.blkSize + chunk ≤ v₀.root.blkSize)
  (hend : pos + chunk ≤ start + data.length)

include hblk hlow hlast hlast32 h hstart hchunk hinside hend

omit hlast32 in
theorem Placed.block :
    v.root.blkSize = v₀.root.blkSize ∧ pos / v₀.root.blkSize ≠ 0 ∧
      pos / v₀.root.blkSize ≤ last ∧ start / v₀.root.blkSize ≤ pos / v₀.root.blkSize ∧
      pos % v₀.root.blkSize + (slice data (pos - start) chunk).length ≤
        v₀.root.blkSize ∧ (slice data (pos - start) chunk).length = chunk := by
  have hlen : (slice data (pos - start) chunk).length = chunk :=
    length_slice data (by omega)
  refine ⟨h.geometry.blkSize, (Nat.div_pos (by omega) hblk).ne', ?_,
    Nat.div_le_div_right hstart, by omega, hlen⟩
  rw [hlast]
  exact Nat.div_le_div_right (by omega)

theorem Placed.step_found {s : Nat}
    (hs : ffindhi v.root c (pos / v₀.root.blkSize) = some s)
    (hroom : (v.root = v₀.root ∧ last < extent v₀.root c) ∨
      pos / v₀.root.blkSize < countFcode v.root c) :
    Placed v₀ file c data start (start / v₀.root.blkSize) last
      (fwriteBlock v file (pos / v₀.root.blkSize) (pos % v₀.root.blkSize)
        (slice data (pos - start) chunk)) (pos + chunk) (pos / v₀.root.blkSize + 1) := by
  obtain ⟨hb, hi, hi_last, hi_first, hsrc, hlen⟩ :=
    Placed.block hblk hlow hlast h hstart hchunk hinside hend
  have hplain := h.plain _ hi_first hi_last
  have hbytes := fileByte_fwriteBlock_found h.entry hi (by omega) h.held (by rwa [hb])
    (by rwa [hb]) hplain hs
  rw [hb] at hbytes
  have hwrite := @fwriteBlock_of_found _ _ _ _ h.entry hi _ (pos % v₀.root.blkSize)
      (slice data (pos - start) chunk) hplain hs h.held (by rwa [hb])
  have hroot : (fwriteBlock v file (pos / v₀.root.blkSize) (pos % v₀.root.blkSize)
      (slice data (pos - start) chunk)).root = v.root := by
    rw [hwrite, Volume.writeAt_root]
  refine ⟨by rw [hroot]; exact h.geometry, by rw [hwrite]; exact h.held.writeAt _ _ _,
    by rw [hroot]; exact h.entry, by rw [hroot]; exact h.plain, ?_, ?_⟩
  · refine bytes_of_pass hstart hinside hend h.bytes (fun x hx => ?_) fun x hx hx' hx'' => ?_
    · exact (hbytes x (by omega)).1 (by omega)
    · exact (hbytes x (by omega)).2 hx hx' (by omega)
  · rw [hroot]
    rcases h.room with hall | ⟨hdense, hle, hmax, hext, hflag, hfree, hsize⟩
    · exact .inl hall
    · rcases hroom with hall | hlt
      · exact .inl hall
      · exact .inr ⟨hdense, by omega, by omega, hext, hflag, hfree, hsize⟩

include hc

theorem Placed.step_next (hdense : DenseCode v.root c)
    (hcount : countFcode v.root c = pos / v₀.root.blkSize)
    (hext : extent v₀.root c ≤ countFcode v.root c)
    (hflag : flagcheck (v.root.block file).attributes fsExtensionAllocatedCluster = false)
    (hfree : last + 1 - countFcode v.root c ≤ freeFrom v.root)
    (hsize : fsize v.root file = fsize v₀.root file +
      v₀.root.blkSize * (countFcode v.root c - extent v₀.root c)) :
    Placed v₀ file c data start (start / v₀.root.blkSize) last
      (fwriteBlock v file (pos / v₀.root.blkSize) (pos % v₀.root.blkSize)
        (slice data (pos - start) chunk)) (pos + chunk) (pos / v₀.root.blkSize + 1) := by
  obtain ⟨hb, hi, hi_last, hi_first, hsrc, hlen⟩ :=
    Placed.block hblk hlow hlast h hstart hchunk hinside hend
  have hnone : ffindhi v.root c (pos / v₀.root.blkSize) = none := by
    rw [ffindhi_isNone_iff (by omega), hdense.present_iff]
    omega
  obtain ⟨fb, halloc⟩ : ∃ fb, allocatecluster v.root = (v.root.setCursor fb, some fb) := by
    cases halloc : allocatecluster v.root with
    | mk fr slot =>
        cases slot with
        | none =>
            have := freeFrom_of_none halloc
            omega
        | some fb =>
            obtain ⟨rfl, -⟩ := allocatecluster_some halloc
            exact ⟨fb, rfl⟩
  have hbytes := fileByte_fwriteBlock_extended h.entry hc hi (by omega) h.held (by rwa [hb])
    (by rwa [hb]) hnone halloc hcount
  rw [hb] at hbytes
  have hwrite := @fwriteBlock_of_alloc _ _ _ _ h.entry hi _ (pos % v₀.root.blkSize)
      (slice data (pos - start) chunk) hnone halloc
  have hroot : (fwriteBlock v file (pos / v₀.root.blkSize) (pos % v₀.root.blkSize)
      (slice data (pos - start) chunk)).root = (v.extended file fb).root := by
    rw [hwrite, Volume.writeAt_root, Volume.writeAt_root]
  have hgeometry := (@extended_edits _ file _ halloc).sameGeometry
  have hblock : (v.extended file fb).root.block file = v.root.block file :=
    extended_block hc halloc h.entry.2.1
  have hcount' := extended_count h.entry hc halloc
  have hfree' := extended_freeFrom h.entry hc halloc
  refine ⟨by rw [hroot]; exact h.geometry.trans hgeometry, ?_,
    by rw [hroot]; exact extended_entry h.entry hc halloc, ?_, ?_, .inr ?_⟩
  · rw [hwrite]
    exact ((h.held.withRoot hgeometry).writeAt _ _ _).writeAt _ _ _
  · intro j hj hj' s hs
    rw [hroot] at hs ⊢
    rw [ffindhi_extended h.entry hc hnone halloc hcount j (by omega)] at hs
    split at hs
    case isTrue hjs =>
      obtain rfl := Option.some.inj hs
      have hnew : (v.extended file fb).root.block fb = extensionEntry v.root file :=
        @ConfFsroot.block_setBlock_same (v.root.setCursor fb) _ _ (allocatecluster_some halloc).2.1
      rw [hnew]
      exact (flagcheck_flagunset_of_disjoint (by decide)).trans hflag
    case isFalse =>
      rw [extended_block hc halloc (ffindhi_some hs).2.1]
      exact h.plain j hj hj' s hs
  · refine bytes_of_pass hstart hinside hend h.bytes (fun x hx => ?_) fun x hx hx' hx'' => ?_
    · exact (hbytes x (by omega)).1 (by omega)
    · exact (hbytes x (by omega)).2 hx hx' (by omega)
  · rw [hroot, hcount', hblock, extended_fsize h.entry hc halloc hdense, hsize, hb]
    refine ⟨extended_dense hc halloc hdense, by omega, by omega, by omega, hflag, by omega, ?_⟩
    rw [Nat.add_assoc, ← Nat.mul_succ]
    congr 2
    omega

theorem Placed.step :
    Placed v₀ file c data start (start / v₀.root.blkSize) last
      (fwriteBlock v file (pos / v₀.root.blkSize) (pos % v₀.root.blkSize)
        (slice data (pos - start) chunk)) (pos + chunk) (pos / v₀.root.blkSize + 1) := by
  obtain ⟨-, -, hi_last, -⟩ :=
    Placed.block hblk hlow hlast h hstart hchunk hinside hend
  rcases h.room with hall | ⟨hdense, hle, hmax, hext, hflag, hfree, hsize⟩
  · obtain ⟨s, hs, -⟩ := @ffindhi_of_present v.root c (pos / v₀.root.blkSize) (by
        rw [hall.1]
        exact present_of_lt_extent (by omega))
    exact Placed.step_found hblk hlow hlast hlast32 h hstart hchunk hinside hend hs (.inl hall)
  · rcases Nat.lt_or_eq_of_le hle with hlt | heq
    · obtain ⟨s, hs, -⟩ := ffindhi_of_present ((hdense.present_iff _).mpr hlt)
      exact Placed.step_found hblk hlow hlast hlast32 h hstart hchunk hinside hend hs
        (.inr hlt)
    · exact Placed.step_next hc hblk hlow hlast hlast32 h hstart hchunk hinside hend hdense
        heq.symm hext hflag hfree hsize

end Placed

/-! ## The calls around the loops -/

section Calls

variable {E : Host} {v : Volume} {handle : FHandle} {c : Fcode} (hheld : v.AllHeld)
  (hfile : HasEntry v.root handle.file c 0) (hblk : 0 < v.root.blkSize)

include hheld hfile hblk

theorem fwrite_runs {data : Bytes} (hc : c ≠ Fcode.zero) (hdistinct : DistinctEntries v.root)
    (hwritable : flagcheck (v.root.block handle.file).attributes fsReadonly = false)
    (hdata : data ≠ []) :
    ∃ v₀, v₀.root = v.root ∧ v₀.AllHeld ∧
      fwrite E v handle data.length (some data) =
        .ok (data.length,
          { handle with progress :=
              (fwriteLoop handle.file data data.length v₀ handle.progress data.length 0).2.1 },
          (fwriteLoop handle.file data data.length v₀ handle.progress data.length 0).1) := by
  obtain ⟨v₀, hstamp, hroot, hheld₀, -⟩ := fupdatetstamp_held (E := E) true hheld hfile
  have hfind : ffindh v.root c = some handle.file := by
    obtain ⟨s, hs, hentry⟩ := ffindhi_of_present ⟨handle.file, hfile⟩
    rw [ffindh, hs, hdistinct hc hentry hfile]
  have hlen : data.length ≠ 0 := by simpa using hdata
  have hleft := @fwriteLoop_left handle.file data data.length v₀ handle.progress _ 0
      (by rwa [hroot]) (Nat.le_refl _)
  refine ⟨v₀, hroot, hheld₀, ?_⟩
  unfold fwrite
  simp only [hlen, if_false, hstamp, hroot, hfile.2.1, hfind, hwritable, Bool.false_eq_true,
    hblk.ne', Nat.lt_irrefl, hleft, Nat.sub_zero]

theorem fread_runs {p n : Nat} (hfit : v.root.blkSize + p + n < 2 ^ 64)
    (hsize : p + n ≤ fsize v.root handle.file) :
    ∃ v₀, v₀.root = v.root ∧ v₀.AllHeld ∧
      (∀ x, x / v.root.blkSize < 2 ^ 32 → x / v.root.blkSize ≠ 0 →
        fileByte v₀ c x = fileByte v c x) ∧
      fread E v (fseek v.root handle p) n =
        .ok (n - (freadLoop v₀ handle.file n (v.root.blkSize + p) n []).2.2,
          some (padTo n (freadLoop v₀ handle.file n (v.root.blkSize + p) n []).1),
          ⟨handle.file, (freadLoop v₀ handle.file n (v.root.blkSize + p) n []).2.1,
            handle.path⟩, v₀) := by
  obtain ⟨v₀, hstamp, hroot, hheld₀, hbytes⟩ := fupdatetstamp_held (E := E) false hheld hfile
  refine ⟨v₀, hroot, hheld₀, hbytes, ?_⟩
  have hhandle : (fseek v.root handle p).file = handle.file := rfl
  have hguard : ¬ (n ≠ 0 ∧ v₀.root.blkSize = 0) := by
    rw [hroot]
    exact fun hzero => hblk.ne' hzero.2
  rw [fread, u64sub_fseek handle (by omega), u64_of_lt (by omega), hhandle,
    if_neg (by omega), hstamp]
  simp only [fseek_progress handle (show v.root.blkSize + p < 2 ^ 64 by omega), hguard,
    if_false]
  rfl

end Calls

/-- Writing at `p` and then reading the same range returns the bytes written. -/
def ReadsBack (E : Host) (v : Volume) (handle : FHandle) (p : Nat) (data : Bytes) : Prop :=
  ∃ handle' v', fread E v (fseek v.root handle p) data.length =
    .ok (data.length, some data, handle', v')

/-! ## Placed writes read back -/

theorem freeFrom_lt (fr : ConfFsroot) : freeFrom fr < 2 ^ 28 := by
  have hlen := fr.length_lt
  have hle : freeFrom fr ≤ (fr.clusterMap.drop fr.lastClusterAlloc).length :=
    List.countP_le_length
  rw [List.length_drop] at hle
  omega

theorem lt_of_lastBlock {b p n m : Nat} (hb : 0 < b) (h : lastBlock b p n < m) :
    b + p + n ≤ b * m := by
  have hlt := Nat.lt_mul_div_succ (b + p + n - 1) hb
  have hle : b * ((b + p + n - 1) / b + 1) ≤ b * m := Nat.mul_le_mul_left b h
  omega

section Run

variable {v₀ : Volume} {file p : Nat} {c : Fcode} {data : Bytes}
  (hc : c ≠ Fcode.zero) (hheld : v₀.AllHeld) (hfile : HasEntry v₀.root file c 0)
  (hblk : 0 < v₀.root.blkSize) (hdata : 0 < data.length)
  (hfit : v₀.root.blkSize + p + data.length < 2 ^ 64)
  (hlast32 : lastBlock v₀.root.blkSize p data.length < 2 ^ 32)

include hc hheld hfile hblk hdata hfit hlast32

theorem placed_run
    (hplain : ∀ i, firstBlock v₀.root.blkSize p ≤ i →
      i ≤ lastBlock v₀.root.blkSize p data.length → Plain v₀.root c i)
    (hroom : extent v₀.root c ≤ lastBlock v₀.root.blkSize p data.length →
      countFcode v₀.root c = extent v₀.root c ∧
        firstBlock v₀.root.blkSize p ≤ extent v₀.root c ∧
        flagcheck (v₀.root.block file).attributes fsExtensionAllocatedCluster = false ∧
        lastBlock v₀.root.blkSize p data.length + 1 - extent v₀.root c ≤
          freeFrom v₀.root) :
    Placed v₀ file c data (v₀.root.blkSize + p) (firstBlock v₀.root.blkSize p)
      (lastBlock v₀.root.blkSize p data.length)
      (fwriteLoop file data data.length v₀ (v₀.root.blkSize + p) data.length 0).1
      (v₀.root.blkSize + p + data.length)
      (lastBlock v₀.root.blkSize p data.length + 1) := by
  have hinit : Placed v₀ file c data (v₀.root.blkSize + p) (firstBlock v₀.root.blkSize p)
      (lastBlock v₀.root.blkSize p data.length) v₀ (v₀.root.blkSize + p)
      ((v₀.root.blkSize + p) / v₀.root.blkSize) := by
    refine ⟨.refl _, hheld, hfile, hplain, fun x hx hx' => by omega, ?_⟩
    rcases Nat.lt_or_ge (lastBlock v₀.root.blkSize p data.length) (extent v₀.root c) with
      hlt | hge
    · exact .inl ⟨rfl, hlt⟩
    · obtain ⟨hcount, hfirst, hflag, hfree⟩ := hroom hge
      refine .inr ⟨denseCode_iff_extent.mpr hcount, ?_, ?_, by omega, hflag, by omega, ?_⟩
      · rw [hcount]
        exact hfirst
      · rw [hcount]
        exact Nat.le_max_left _ _
      · rw [hcount, Nat.sub_self]
        rfl
  have hrun := @fwriteLoop_rule file _ _ data
    (Placed v₀ file c data (v₀.root.blkSize + p) (firstBlock v₀.root.blkSize p)
      (lastBlock v₀.root.blkSize p data.length))
    hblk (fun h => h.geometry.blkSize) hfit
    (fun h hstart hchunk hinside hend =>
      h.step hc hblk (by omega) rfl hlast32 hstart hchunk hinside hend)
    data.length _ _ (Nat.le_refl _) (by omega) (by omega) hinit
  rwa [Nat.add_sub_cancel_left, Nat.sub_self] at hrun

end Run

theorem Placed.fsize {v₀ v : Volume} {file start first last pos : Nat} {c : Fcode}
    {data : Bytes} (h : Placed v₀ file c data start first last v pos (last + 1)) :
    fsize v.root file =
      fsize v₀.root file + v₀.root.blkSize * (last + 1 - extent v₀.root c) := by
  rcases h.room with ⟨hroot, hlt⟩ | ⟨-, hle, hmax, hext, -, -, hsize⟩
  · rw [hroot, show last + 1 - extent v₀.root c = 0 by omega]
    rfl
  · rw [hsize, show countFcode v.root c - extent v₀.root c =
      last + 1 - extent v₀.root c by omega]

theorem Placed.readsBack {E : Host} {v₀ v : Volume} {handle : FHandle} {p last : Nat}
    {c : Fcode} {data : Bytes} (hblk : 0 < v₀.root.blkSize)
    (hfit : v₀.root.blkSize + p + data.length < 2 ^ 64) (hlast32 : last < 2 ^ 32)
    (hlast : last = lastBlock v₀.root.blkSize p data.length)
    (h : Placed v₀ handle.file c data (v₀.root.blkSize + p) (firstBlock v₀.root.blkSize p)
      last v (v₀.root.blkSize + p + data.length) (last + 1))
    (hsize : p + data.length ≤ HostTool.fsize v.root handle.file) :
    ReadsBack E v handle p data := by
  have hb := h.geometry.blkSize
  obtain ⟨v₁, hroot, hheld, hbytes, hread⟩ := fread_runs (E := E) h.held h.entry
    (by rwa [hb]) (by rwa [hb]) hsize
  have hloop := @freadLoop_bytes v₁ handle.file c (by rw [hroot]; exact h.entry)
      (by rw [hroot, hb]; exact hblk) (fun x => data.getD (x - (v₀.root.blkSize + p)) 0) hheld
          data.length (v₀.root.blkSize + p) _ [] (by rw [hroot, hb]; omega) hfit (Nat.le_refl _)
              (by
      intro x hlow hhigh
      obtain ⟨hdiv, hbyte⟩ := h.bytes x hlow hhigh
      have hfirst : firstBlock v₀.root.blkSize p ≤ x / v₀.root.blkSize :=
        Nat.div_le_div_right hlow
      have hne : 0 < firstBlock v₀.root.blkSize p := Nat.div_pos (by omega) hblk
      rw [hroot, hb]
      rw [hb] at hbytes
      exact ⟨h.plain _ hfirst (by omega), by rw [hbytes x (by omega) (by omega), hbyte]⟩)
  have hout : (List.range data.length).map (fun k =>
      data.getD (v₀.root.blkSize + p + k - (v₀.root.blkSize + p)) 0) = data := by
    apply List.ext_getElem
    · simp
    · intro k hk hk'
      simp [hk']
  rw [hb, hloop, List.nil_append, hout, padTo_of_length rfl] at hread
  exact ⟨_, _, hread⟩

end BlockyOS.HostTool
