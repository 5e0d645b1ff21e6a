import BlockyOS.HostTool.RoundTrip

/-!
# Writes that do not find their place

A file with a hole keeps the hole: new clusters are numbered by counting.  A
dense file that starts too low, or for which the scan meets too few free slots,
never gets an entry for the last block of the write.  Either way the bytes that
`_fwrite` reported are not read back.
-/

namespace BlockyOS.HostTool

open BlockyOS.Foundation

/-! ## Holes stay -/

theorem Edit.present_of_present {fr fr' : ConfFsroot} {c : Fcode} {file : Nat}
    (h : Edit {c} fr fr') (hc : c ≠ Fcode.zero) (hfile : HasEntry fr file c 0) :
    countFcode fr c ≤ countFcode fr' c ∧
      ∀ j, Present fr' c j → Present fr c j ∨ countFcode fr c ≤ j := by
  cases h with
  | cursor => exact ⟨Nat.le_refl _, fun j hj => .inl hj⟩
  | extend family fb hlt hfree hcode =>
      rw [ConfFsroot.block_eq_getElem hlt] at hfree
      have hkey : (extensionEntry fr family).fcode = c := hcode
      have hadd := @numbers_set_add _ _ _ FsBlock.fcode FsBlock.number _ _ hlt
          (extensionEntry fr family) c (by rw [hfree]; exact hc.symm) hkey
      constructor
      · have hcard := congrArg Multiset.card hadd
        rw [Multiset.card_cons, card_numbers, card_numbers] at hcard
        change countFcode fr c ≤ countFcode (fr.setBlock fb (extensionEntry fr family)) c
        have hle : countFcode (fr.setBlock fb (extensionEntry fr family)) c =
            countFcode fr c + 1 := hcard
        omega
      · rintro j ⟨s, hs⟩
        rcases (hasEntry_setBlock_iff hlt).mp hs with ⟨-, -, hindex⟩ | ⟨-, hold⟩
        · rw [extensionEntry_index, show (fr.block family).fcode = c from hcode] at hindex
          exact .inr (Nat.le_of_eq hindex)
        · exact .inl ⟨s, hold⟩
  | create c' attributes fb hlt hfree hmeta hplain hnew hcode =>
      obtain rfl : c' = c := hcode
      exact absurd hfile (hnew file)

theorem Edits.present_of_present {fr fr' : ConfFsroot} {c : Fcode} {file : Nat}
    (h : Edits {c} fr fr') (hc : c ≠ Fcode.zero) (hfile : HasEntry fr file c 0) :
    countFcode fr c ≤ countFcode fr' c ∧
      ∀ j, Present fr' c j → Present fr c j ∨ countFcode fr c ≤ j := by
  induction h with
  | refl => exact ⟨Nat.le_refl _, fun j hj => .inl hj⟩
  | tail hedits hedit ih =>
      obtain ⟨hcount, hpresent⟩ := ih
      obtain ⟨hcount', hpresent'⟩ :=
        hedit.present_of_present hc (Edits.hasEntry_mono hedits hc hfile)
      refine ⟨Nat.le_trans hcount hcount', fun j hj => ?_⟩
      rcases hpresent' j hj with hmid | hge
      · exact hpresent j hmid
      · exact .inr (Nat.le_trans hcount hge)

theorem extent_of_hole {fr fr' : ConfFsroot} {c : Fcode} {file : Nat}
    (h : Edits {c} fr fr') (hc : c ≠ Fcode.zero) (hfile : HasEntry fr file c 0)
    (hhole : extent fr c < countFcode fr c) : extent fr' c = extent fr c := by
  apply extent_eq
  · intro i hi
    obtain ⟨s, hs⟩ := present_of_lt_extent hi
    exact ⟨s, Edits.hasEntry_mono h hc hs⟩
  · intro hpresent
    rcases (h.present_of_present hc hfile).2 _ hpresent with hold | hge
    · exact not_present_extent fr c hold
    · omega

/-! ## Dense files that fall short -/

/-- No entry of the file is marked as an extension cluster. -/
def NoExtension (fr : ConfFsroot) (c : Fcode) : Prop :=
  ∀ s, (fr.block s).fcode = c →
    flagcheck (fr.block s).attributes fsExtensionAllocatedCluster = false

theorem NoExtension.plain {fr : ConfFsroot} {c : Fcode} (h : NoExtension fr c) (i : Nat) :
    Plain fr c i :=
  fun s hs => h s (ffindhi_some hs).2.1

/--
The invariant of a write that falls short: the next block lies beyond the file,
or the free slots that are left do not reach the last block.
-/
structure Short (file : Nat) (c : Fcode) (b last : Nat) (v : Volume) (i : Nat) : Prop where
  blkSize : v.root.blkSize = b
  held : v.AllHeld
  entry : HasEntry v.root file c 0
  noExtension : NoExtension v.root c
  dense : DenseCode v.root c
  short : countFcode v.root c < i ∨
    (i ≤ countFcode v.root c ∧ freeFrom v.root < last + 1 - countFcode v.root c)

theorem Short.step {v : Volume} {file b last i blkOffset : Nat} {c : Fcode} {src : Bytes}
    (hc : c ≠ Fcode.zero) (hb : 0 < b) (hi : i ≠ 0) (hi32 : i < 2 ^ 32)
    (h : Short file c b last v i) :
    Short file c b last (fwriteBlock v file i blkOffset src) (i + 1) := by
  have hblk : 0 < v.root.blkSize := by
    rw [h.blkSize]
    exact hb
  cases hfind : ffindhi v.root c i with
  | some s =>
      have hlt : i < countFcode v.root c := by
        rw [← h.dense.present_iff]
        have hentry := ffindhi_some hfind
        rw [u32_of_lt hi32] at hentry
        exact ⟨s, hentry⟩
      rw [fwriteBlock_of_found h.entry hi (h.noExtension.plain i) hfind h.held hblk]
      refine ⟨h.blkSize, h.held.writeAt _ _ _, h.entry, h.noExtension, h.dense, .inr ?_⟩
      rcases h.short with hlow | ⟨-, hfree⟩
      · omega
      · exact ⟨hlt, hfree⟩
  | none =>
      have hge : countFcode v.root c ≤ i := by
        have hmissing := (@ffindhi_isNone_iff v.root _ _ hi32).mp hfind
        rw [h.dense.present_iff] at hmissing
        omega
      cases halloc : allocatecluster v.root with
      | mk fr slot =>
          cases slot with
          | none =>
              obtain ⟨rfl, -⟩ := allocatecluster_none halloc
              rw [fwriteBlock_of_full h.entry hi hfind halloc]
              exact ⟨h.blkSize, h.held.withRoot (.setCursor _ 0), h.entry, h.noExtension,
                h.dense, .inl (Nat.lt_succ_of_le hge)⟩
          | some fb =>
              obtain ⟨rfl, hlt, -, -, -⟩ := allocatecluster_some halloc
              rw [fwriteBlock_of_alloc h.entry hi hfind halloc]
              have hcount := extended_count h.entry hc halloc
              have hfree := extended_freeFrom h.entry hc halloc
              have hheld : (v.extended file fb).AllHeld :=
                h.held.withRoot (@extended_edits _ file _ halloc).sameGeometry
              refine ⟨h.blkSize, (hheld.writeAt _ _ _).writeAt _ _ _,
                extended_entry h.entry hc halloc, ?_, extended_dense hc halloc h.dense, ?_⟩
              · intro s hs
                change flagcheck ((v.extended file fb).root.block s).attributes
                  fsExtensionAllocatedCluster = false
                by_cases hsame : s = fb
                · have hnew : (v.extended file fb).root.block s =
                      extensionEntry v.root file := by
                    rw [hsame]
                    exact @ConfFsroot.block_setBlock_same (v.root.setCursor fb) _ _ hlt
                  rw [hnew]
                  exact (flagcheck_flagunset_of_disjoint (by decide)).trans
                    (h.noExtension file h.entry.2.1)
                · have hold : (v.extended file fb).root.block s = v.root.block s :=
                    @ConfFsroot.block_setBlock_other (v.root.setCursor fb) _ _ _ hsame
                  change ((v.extended file fb).root.block s).fcode = c at hs
                  rw [hold] at hs ⊢
                  exact h.noExtension s hs
              · change countFcode (v.extended file fb).root c < i + 1 ∨
                  (i + 1 ≤ countFcode (v.extended file fb).root c ∧
                    freeFrom (v.extended file fb).root <
                      last + 1 - countFcode (v.extended file fb).root c)
                have hshort := h.short
                omega

/-! ## What reading back needs -/

section Needs

variable {E : Host} {v : Volume} {handle : FHandle} {p : Nat} {c : Fcode} {data : Bytes}
  (hheld : v.AllHeld) (hfile : HasEntry v.root handle.file c 0)
  (hblk : 0 < v.root.blkSize) (hdata : 0 < data.length)
  (hfit : v.root.blkSize + p + data.length < 2 ^ 64)
  (hreads : ReadsBack E v handle p data)

include hdata hfit hreads

theorem ReadsBack.size : p + data.length ≤ fsize v.root handle.file := by
  by_contra hsize
  obtain ⟨handle', v', hread⟩ := hreads
  rw [fread_past_size hfit (by omega)] at hread
  have hzero := (Prod.mk.inj (Except.ok.inj hread)).1
  omega

include hheld hfile hblk

theorem ReadsBack.present (hlast32 : lastBlock v.root.blkSize p data.length < 2 ^ 32) {i : Nat}
    (hlow : firstBlock v.root.blkSize p ≤ i)
    (hhigh : i ≤ lastBlock v.root.blkSize p data.length) : Present v.root c i := by
  have hsize := hreads.size hdata hfit
  obtain ⟨handle', v', hread⟩ := hreads
  obtain ⟨v₁, hroot, -, -, hrun⟩ := fread_runs (E := E) hheld hfile hblk hfit hsize
  rw [hrun] at hread
  have hleft := (Prod.mk.inj (Except.ok.inj hread)).1
  by_contra hmissing
  -- a position inside block `i`
  obtain ⟨x, hx, hx', hdiv⟩ : ∃ x, v.root.blkSize + p ≤ x ∧
      x < v.root.blkSize + p + data.length ∧ x / v.root.blkSize = i := by
    by_cases hinside : v.root.blkSize + p ≤ v.root.blkSize * i
    · refine ⟨v.root.blkSize * i, hinside, ?_, Nat.mul_div_cancel_left _ hblk⟩
      have hle : v.root.blkSize * i ≤ v.root.blkSize * lastBlock v.root.blkSize p data.length :=
        Nat.mul_le_mul_left _ hhigh
      have hend := Nat.mul_div_le (v.root.blkSize + p + data.length - 1) v.root.blkSize
      unfold lastBlock at hle
      omega
    · refine ⟨v.root.blkSize + p, Nat.le_refl _, by omega, ?_⟩
      refine Nat.le_antisymm hlow ?_
      exact (Nat.le_div_iff_mul_le hblk).mpr (by rw [Nat.mul_comm]; omega)
  have hnone : ffindhi v₁.root c (x / v₁.root.blkSize) = none := by
    rw [hroot, hdiv]
    exact (ffindhi_isNone_iff (by omega)).mpr hmissing
  exact @freadLoop_stops v₁ handle.file _ (by rwa [hroot]) (by rwa [hroot]) data.length _ _ _ []
      (by rw [hroot]; omega) hfit hx hx' hnone (by omega)

end Needs

/-! ## The exact condition -/

section Exact

variable {v₀ : Volume} {file p : Nat} {c : Fcode} {data : Bytes}
  (hc : c ≠ Fcode.zero) (hheld : v₀.AllHeld) (hfile : HasEntry v₀.root file c 0)
  (hblk : 0 < v₀.root.blkSize) (hdata : 0 < data.length)
  (hfit : v₀.root.blkSize + p + data.length < 2 ^ 64)
  (hlast32 : lastBlock v₀.root.blkSize p data.length < 2 ^ 32)

include hc hheld hfile hblk hdata hfit hlast32

theorem last_not_present (hnoext : NoExtension v₀.root c) (hdense : DenseCode v₀.root c)
    (hshort : countFcode v₀.root c < firstBlock v₀.root.blkSize p ∨
      (firstBlock v₀.root.blkSize p ≤ countFcode v₀.root c ∧
        freeFrom v₀.root <
          lastBlock v₀.root.blkSize p data.length + 1 - countFcode v₀.root c)) :
    ¬ Present (fwriteLoop file data data.length v₀ (v₀.root.blkSize + p) data.length 0).1.root
      c (lastBlock v₀.root.blkSize p data.length) := by
  have hrun := @fwriteLoop_rule file (v₀.root.blkSize + p) _ data
    (fun v _ i => Short file c v₀.root.blkSize (lastBlock v₀.root.blkSize p data.length) v i)
    hblk (fun h => h.blkSize) hfit
    (fun {v pos chunk} h hstart hchunk hinside hend => by
      have hi_last : pos / v₀.root.blkSize ≤ lastBlock v₀.root.blkSize p data.length :=
        Nat.div_le_div_right (by omega)
      exact h.step hc hblk (Nat.div_pos (by omega) hblk).ne' (by omega))
    data.length _ _ (Nat.le_refl _) (by omega) (by omega)
    ⟨rfl, hheld, hfile, hnoext, hdense, hshort⟩
  rw [Nat.add_sub_cancel_left, Nat.sub_self] at hrun
  rw [hrun.dense.present_iff]
  change ¬ lastBlock v₀.root.blkSize p data.length < _
  rcases hrun.short with hlow | ⟨hge, hfree⟩
  · change _ < lastBlock v₀.root.blkSize p data.length + 1 at hlow
    omega
  · change lastBlock v₀.root.blkSize p data.length + 1 ≤ _ at hge
    omega

end Exact

theorem Confined.allHeld {c : Fcode} {v v' : Volume} (h : Confined c v v') (hheld : v.AllHeld) :
    v'.AllHeld := by
  have hgeometry := h.edits.sameGeometry
  have hsize := h.size
  intro s hs
  obtain ⟨haddr, hholds⟩ := hheld s (by rwa [← hgeometry.length])
  refine ⟨(hgeometry.addressable s).mpr haddr, ?_⟩
  unfold Volume.Holds at hholds ⊢
  rw [hgeometry.slotOffset, hgeometry.span]
  omega

theorem Placeable.bounds {fr : ConfFsroot} {file p n : Nat} (hblk : 0 < fr.blkSize)
    (h : Placeable fr file p n) :
    lastBlock fr.blkSize p n < 2 ^ 32 ∧ fr.blkSize + p + n < 2 ^ 64 := by
  have hext := extent_lt fr (fr.block file).fcode
  have hfree := freeFrom_lt fr
  have hlast : lastBlock fr.blkSize p n < 2 ^ 29 := by
    rcases Nat.lt_or_ge (lastBlock fr.blkSize p n) (extent fr (fr.block file).fcode) with
      hlt | hge
    · omega
    · have hroom := (h.room hge).2.2.2
      omega
  have hpos := lt_of_lastBlock hblk hlast
  have hcap : fr.blkSize * 2 ^ 29 ≤ 2 ^ 32 * 2 ^ 29 :=
    Nat.mul_le_mul_right _ (Nat.le_of_lt fr.blkSize_lt)
  omega

theorem dense_of_present {fr fr' : ConfFsroot} {c : Fcode} {file p n : Nat}
    (h : Edits {c} fr fr') (hc : c ≠ Fcode.zero) (hfile : HasEntry fr file c 0) (hn : 0 < n)
    (hsize : p + n ≤ extent fr' c * fr.blkSize)
    (hpresent : ∀ i, firstBlock fr.blkSize p ≤ i → i ≤ lastBlock fr.blkSize p n →
      Present fr' c i)
    (hext : extent fr c ≤ lastBlock fr.blkSize p n) : countFcode fr c = extent fr c := by
  by_contra hne
  have hcount := extent_le_count fr c
  have hsame := extent_of_hole h hc hfile (by omega)
  by_cases hfirst : firstBlock fr.blkSize p ≤ extent fr c
  · apply not_present_extent _ c
    rw [hsame]
    exact hpresent _ hfirst hext
  · -- the write starts past the hole, where the size ends
    have hstart : fr.blkSize * (extent fr c + 1) ≤ fr.blkSize + p := by
      calc
        fr.blkSize * (extent fr c + 1) ≤ fr.blkSize * firstBlock fr.blkSize p :=
          Nat.mul_le_mul_left _ (by omega)
        _ ≤ fr.blkSize + p := Nat.mul_div_le _ _
    rw [hsame, Nat.mul_comm] at hsize
    rw [Nat.mul_add, Nat.mul_one] at hstart
    omega

theorem placeable_of_readsBack {E : Host} {v₀ : Volume} {handle : FHandle} {p : Nat}
    {c : Fcode} {data : Bytes} (hc : c ≠ Fcode.zero) (hheld : v₀.AllHeld)
    (hfile : HasEntry v₀.root handle.file c 0) (hblk : 0 < v₀.root.blkSize)
    (hdata : 0 < data.length) (hfit : v₀.root.blkSize + p + data.length < 2 ^ 64)
    (hnoext : NoExtension v₀.root c)
    (hreads : ReadsBack E
      (fwriteLoop handle.file data data.length v₀ (v₀.root.blkSize + p) data.length 0).1
      handle p data) :
    Placeable v₀.root handle.file p data.length := by
  have hcode := hfile.2.1
  have hloop := @fwriteLoop_confined v₀ handle.file data data.length (v₀.root.blkSize + p)
      data.length 0 hfile.1 hblk
  rw [hcode] at hloop
  have hedits := hloop.edits
  have hb := hedits.sameGeometry.blkSize
  have hfile' := hedits.hasEntry_mono hc hfile
  have hheld' := hloop.allHeld hheld
  have hsize := hreads.size hdata (by rwa [hb])
  have hle := fsize_le_extent
    (fwriteLoop handle.file data data.length v₀ (v₀.root.blkSize + p) data.length 0).1.root
    handle.file
  rw [hfile'.2.1, hb] at hle
  have hlast32 : lastBlock v₀.root.blkSize p data.length < 2 ^ 32 := by
    have hext := extent_lt (fwriteLoop handle.file data data.length v₀
      (v₀.root.blkSize + p) data.length 0).1.root c
    have hcap := Nat.mul_le_mul_right v₀.root.blkSize (Nat.le_of_lt hext)
    apply Nat.div_lt_of_lt_mul
    omega
  have hpresent : ∀ i, firstBlock v₀.root.blkSize p ≤ i →
      i ≤ lastBlock v₀.root.blkSize p data.length →
      Present (fwriteLoop handle.file data data.length v₀ (v₀.root.blkSize + p)
        data.length 0).1.root c i := by
    intro i hlow hhigh
    exact hreads.present hheld' hfile' (by rwa [hb]) hdata (by rwa [hb]) (by rwa [hb])
      (by rwa [hb]) (by rwa [hb])
  have hplain : ∀ i, firstBlock v₀.root.blkSize p ≤ i →
      i ≤ lastBlock v₀.root.blkSize p data.length → Plain v₀.root c i :=
    fun i _ _ => hnoext.plain i
  have hfirst_last : firstBlock v₀.root.blkSize p ≤
      lastBlock v₀.root.blkSize p data.length :=
    Nat.div_le_div_right (by omega)
  have hroom : extent v₀.root c ≤ lastBlock v₀.root.blkSize p data.length →
      countFcode v₀.root c = extent v₀.root c ∧
        firstBlock v₀.root.blkSize p ≤ extent v₀.root c ∧
        flagcheck (v₀.root.block handle.file).attributes fsExtensionAllocatedCluster = false ∧
        lastBlock v₀.root.blkSize p data.length + 1 - extent v₀.root c ≤
          freeFrom v₀.root := by
    intro hext
    have hdense : countFcode v₀.root c = extent v₀.root c :=
      dense_of_present hedits hc hfile hdata (hsize.trans hle) hpresent hext
    refine ⟨hdense, ?_⟩
    by_contra hshort
    refine last_not_present hc hheld hfile hblk hdata hfit hlast32 hnoext
      (denseCode_iff_extent.mpr hdense) ?_ (hpresent _ hfirst_last (Nat.le_refl _))
    by_cases hfirst : firstBlock v₀.root.blkSize p ≤ extent v₀.root c
    · refine .inr ⟨by omega, ?_⟩
      by_contra hfree
      exact hshort ⟨hfirst, hnoext _ hcode, by omega⟩
    · exact .inl (by omega)
  have hplaced := placed_run hc hheld hfile hblk hdata hfit hlast32 hplain hroom
  rw [hplaced.fsize] at hsize
  refine ⟨?_, ?_, ?_⟩
  · rwa [hcode]
  · rwa [hcode]
  · rwa [hcode]

/--
A write through an open, writable handle always reports all of its bytes.  They
are read back if the write is placeable, and, away from the end of the 64-bit
positions and in files without extension clusters, only then.
-/
theorem fwrite_readsBack_iff {E : Host} {v : Volume} {handle : FHandle} {p : Nat}
    {c : Fcode} {data : Bytes} (hdistinct : DistinctEntries v.root)
    (hconf : 512 ≤ v.root.blkSize) (hheld : v.AllHeld)
    (hopen : HasEntry v.root handle.file c 0) (hc : c ≠ Fcode.zero)
    (hwritable : flagcheck (v.root.block handle.file).attributes fsReadonly = false)
    (hdata : data ≠ []) :
    ∃ handle' v', fwrite E v (fseek v.root handle p) data.length (some data) =
        .ok (data.length, handle', v') ∧
      (Placeable v.root handle.file p data.length → ReadsBack E v' handle' p data) ∧
      (v.root.blkSize + p + data.length < 2 ^ 64 → NoExtension v.root c →
        ReadsBack E v' handle' p data → Placeable v.root handle.file p data.length) := by
  have hlen : 0 < data.length := List.length_pos_iff.mpr hdata
  have hblk : 0 < v.root.blkSize := by omega
  have hcode := hopen.2.1
  obtain ⟨v₀, hroot, hheld₀, hwrite⟩ := @fwrite_runs E _ (fseek v.root handle p) _ hheld hopen
      hblk _ hc hdistinct hwritable hdata
  refine ⟨_, _, hwrite, ?_, ?_⟩
  · intro hplace
    obtain ⟨hlast32, hfit⟩ := hplace.bounds hblk
    have hplain := hplace.plain
    have hroom := hplace.room
    have hsize := hplace.size
    rw [hcode] at hplain hroom hsize
    rw [fseek_progress handle (by omega)]
    rw [← hroot] at hopen hblk hfit hlast32 hplain hroom hsize ⊢
    have hplaced := placed_run hc hheld₀ hopen hblk hlen hfit hlast32 hplain hroom
    rw [← hplaced.fsize] at hsize
    exact @Placed.readsBack _ _ _ ⟨handle.file, _, handle.path⟩ _ _ _ _ hblk hfit hlast32 rfl
        hplaced hsize
  · intro hfit hnoext hreads
    rw [fseek_progress handle (by omega)] at hreads
    rw [← hroot] at hopen hblk hfit hnoext hreads ⊢
    exact @placeable_of_readsBack _ _ ⟨handle.file, _, handle.path⟩ _ _ _ hc hheld₀ hopen hblk
        hlen hfit hnoext hreads

/-- The one data block of file `a` is overwritten in part. -/
theorem fwrite_readsBack_sample :
    ∃ handle' v', fwrite sampleHost (sampleFiles 5)
        (fseek (sampleFiles 5).root ⟨0, 512, samplePath⟩ 0) 1 (some [1]) =
          .ok (1, handle', v') ∧
      ReadsBack sampleHost v' handle' 0 [1] := by
  have hheld : ∀ s, s < 5 → (sampleFiles 5).root.Addressable s ∧ (sampleFiles 5).Holds s := by
    decide +kernel
  have hplace : Placeable (sampleFiles 5).root 0 0 1 := by
    refine ⟨fun i hlow hhigh => ?_, fun hext => ?_, by decide +kernel⟩
    · have hfirst : firstBlock (sampleFiles 5).root.blkSize 0 = 1 := by decide
      have hlast : lastBlock (sampleFiles 5).root.blkSize 0 1 = 1 := by decide
      obtain rfl : i = 1 := by omega
      have hfind : ffindhi (sampleFiles 5).root ((sampleFiles 5).root.block 0).fcode 1 =
          some 4 := by
        decide
      intro s hs
      obtain rfl := Option.some.inj (hfind.symm.trans hs)
      decide
    · exact absurd hext (by decide +kernel)
  obtain ⟨handle', v', hwrite, hreads, -⟩ := @fwrite_readsBack_iff sampleHost (sampleFiles 5)
      ⟨0, 512, samplePath⟩ 0 (getfcode sampleHost samplePath) [1]
          (distinctEntries_of_pairwise (by decide)) (by decide) hheld
              ⟨by decide, by decide, by decide⟩ (by decide) (by decide) (by simp)
  exact ⟨handle', v', hwrite, hreads hplace⟩

/-- A volume whose only slot describes the empty file `a`. -/
def sampleFull : Volume where
  root := sampleRoot [⟨getfcode sampleHost samplePath, fsMetadataCluster, 0⟩] (by decide)
  image := .blank (2 ^ 21)
  ticks := 0

/-- With no slot left, one byte is reported as written and is not there. -/
theorem fwrite_reports_lost_byte :
    DistinctEntries sampleFull.root ∧ 512 ≤ sampleFull.root.blkSize ∧ sampleFull.AllHeld ∧
      HasEntry sampleFull.root 0 (getfcode sampleHost samplePath) 0 ∧
      flagcheck (sampleFull.root.block 0).attributes fsReadonly = false ∧
      ∃ handle' v', fwrite sampleHost sampleFull
          (fseek sampleFull.root ⟨0, 512, samplePath⟩ 0) 1 (some [1]) =
            .ok (1, handle', v') ∧
        ¬ ReadsBack sampleHost v' handle' 0 [1] := by
  have hheld : ∀ s, s < 1 → sampleFull.root.Addressable s ∧ sampleFull.Holds s := by
    decide +kernel
  have heval : ((fwrite sampleHost sampleFull (fseek sampleFull.root ⟨0, 512, samplePath⟩ 0)
      1 (some [1])).map fun r => (r.1, ((fread sampleHost r.2.2
        (fseek r.2.2.root r.2.1 0) 1).map fun r' => r'.1).toOption)).toOption =
      some (1, some 0) := by
    decide +kernel
  obtain ⟨⟨n, handle', v'⟩, hwrite, hseen⟩ := ok_of_eval heval
  obtain ⟨rfl, hcount⟩ := Prod.mk.inj hseen
  refine ⟨distinctEntries_of_pairwise (by decide), by decide, hheld,
    ⟨by decide, by decide, by decide⟩, by decide, handle', v', hwrite, ?_⟩
  rintro ⟨handle'', v'', hread⟩
  simp only at hcount
  rw [show ([1] : Bytes).length = 1 from rfl] at hread
  rw [hread] at hcount
  cases hcount

end BlockyOS.HostTool
