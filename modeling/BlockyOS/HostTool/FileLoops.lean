import BlockyOS.HostTool.FileView

/-!
# The loops of `_fwrite` and `_fread`

The write loop passes over consecutive blocks, so a property of "everything
before this position is written" is carried from pass to pass.  The read loop
collects the bytes of the file, and stops at the first block without an entry.
-/

namespace BlockyOS.HostTool

open BlockyOS.Foundation

/-! ## Blocks and positions -/

theorem div_add_of_inside {b pos k : Nat} (hk : pos % b + k < b) :
    (pos + k) / b = pos / b ∧ (pos + k) % b = pos % b + k := by
  have hb : 0 < b := by omega
  have hpos := Nat.div_add_mod pos b
  have hsplit : pos + k = b * (pos / b) + (pos % b + k) := by omega
  rw [hsplit, Nat.mul_add_div hb, Nat.mul_add_mod, Nat.div_eq_of_lt hk, Nat.mod_eq_of_lt hk]
  exact ⟨rfl, rfl⟩

theorem div_add_of_end {b pos k : Nat} (hb : 0 < b) (hk : pos % b + k = b) :
    (pos + k) / b = pos / b + 1 := by
  have hpos := Nat.div_add_mod pos b
  have hsplit : pos + k = b * (pos / b + 1) := by
    rw [Nat.mul_add, Nat.mul_one]
    omega
  rw [hsplit, Nat.mul_div_cancel_left _ hb]

/-! ## The write loop -/

theorem fwriteLoop_done (file : Nat) (data : Bytes) (fuel : Nat) (v : Volume)
    (pos written : Nat) : fwriteLoop file data fuel v pos 0 written = (v, pos, 0) := by
  cases fuel with
  | zero => rfl
  | succ fuel => rw [fwriteLoop, if_pos rfl]

theorem fwriteLoop_left {file : Nat} {data : Bytes} (fuel : Nat) {v : Volume}
    (pos : Nat) {left : Nat} (written : Nat) (hblk : 0 < v.root.blkSize)
    (hfuel : left ≤ fuel) : (fwriteLoop file data fuel v pos left written).2.2 = 0 := by
  induction fuel generalizing v pos left written with
  | zero =>
      obtain rfl : left = 0 := by omega
      rfl
  | succ fuel ih =>
      rw [fwriteLoop]
      split
      case isTrue h => exact h
      case isFalse hleft =>
        have hmod := Nat.mod_lt pos hblk
        have hgeometry := (fwriteBlock_edits v file (pos / v.root.blkSize)
          (pos % v.root.blkSize) (slice data written
            (min (v.root.blkSize - pos % v.root.blkSize) left))).sameGeometry
        exact ih _ _ (by rw [hgeometry.blkSize]; exact hblk) (by omega)

theorem fwriteLoop_rule {file start b : Nat} {data : Bytes}
    {P : Volume → Nat → Nat → Prop} (hb : 0 < b)
    (hblk : ∀ {v pos i}, P v pos i → v.root.blkSize = b)
    (hfit : start + data.length < 2 ^ 64)
    (hstep : ∀ {v pos chunk}, P v pos (pos / b) → start ≤ pos → 0 < chunk →
      pos % b + chunk ≤ b → pos + chunk ≤ start + data.length →
      P (fwriteBlock v file (pos / b) (pos % b) (slice data (pos - start) chunk))
        (pos + chunk) (pos / b + 1))
    (fuel : Nat) {v : Volume} {pos : Nat} (hstart : start ≤ pos)
    (hpos : pos < start + data.length) (hfuel : start + data.length - pos ≤ fuel)
    (hP : P v pos (pos / b)) :
    P (fwriteLoop file data fuel v pos (start + data.length - pos) (pos - start)).1
      (start + data.length) ((start + data.length - 1) / b + 1) := by
  induction fuel generalizing v pos with
  | zero => omega
  | succ fuel ih =>
      have hmod := Nat.mod_lt pos hb
      rw [fwriteLoop, if_neg (by omega)]
      simp only [hblk hP]
      by_cases hlast : start + data.length - pos ≤ b - pos % b
      · -- the last block, possibly not filled
        rw [Nat.min_eq_right hlast, Nat.sub_self, fwriteLoop_done]
        have hnext := @hstep _ _ (start + data.length - pos) hP hstart (by omega)
          (by omega) (by omega)
        have hend : pos + (start + data.length - pos) = start + data.length := by omega
        have hblock : (start + data.length - 1) / b = pos / b := by
          have hinside := (@div_add_of_inside b pos (start + data.length - pos - 1) (by omega)).1
          have hsplit : pos + (start + data.length - pos - 1) = start + data.length - 1 := by
            omega
          rwa [hsplit] at hinside
        rw [hend] at hnext
        rw [hblock]
        exact hnext
      · rw [Nat.min_eq_left (by omega), u64_of_lt (by omega)]
        have hnext := @hstep _ _ (b - pos % b) hP hstart (by omega) (by omega) (by omega)
        have hdiv := @div_add_of_end _ pos (b - pos % b) hb (by omega)
        rw [← hdiv] at hnext
        have hrest := ih (by omega) (by omega) (by omega) hnext
        have hleft : start + data.length - pos - (b - pos % b) =
            start + data.length - (pos + (b - pos % b)) := by
          omega
        have hwritten : pos - start + (b - pos % b) = pos + (b - pos % b) - start := by
          omega
        rw [hleft, hwritten]
        exact hrest

/-! ## The read loop -/

theorem freadLoop_left_le (v : Volume) (file fuel pos left : Nat) (out : Bytes) :
    (freadLoop v file fuel pos left out).2.2 ≤ left := by
  induction fuel generalizing pos left out with
  | zero => exact Nat.le_refl _
  | succ fuel ih =>
      rw [freadLoop]
      split
      case isTrue => exact Nat.le_refl _
      case isFalse =>
        simp only
        split
        case h_1 => exact Nat.le_refl _
        case h_2 => exact Nat.le_trans (ih _ _ _) (Nat.sub_le _ _)

section ReadLoop

variable {v : Volume} {file : Nat} {c : Fcode} (hfile : HasEntry v.root file c 0)
  (hblk : 0 < v.root.blkSize)

include hfile hblk

theorem freadLoop_bytes {g : Nat → UInt8} (hheld : v.AllHeld) (fuel : Nat)
    {pos left : Nat} (out : Bytes) (hpos : v.root.blkSize ≤ pos)
    (hfit : pos + left < 2 ^ 64) (hfuel : left ≤ fuel)
    (hbytes : ∀ x, pos ≤ x → x < pos + left →
      Plain v.root c (x / v.root.blkSize) ∧ fileByte v c x = some (g x)) :
    freadLoop v file fuel pos left out =
      (out ++ (List.range left).map fun k => g (pos + k), pos + left, 0) := by
  induction fuel generalizing pos left out with
  | zero =>
      obtain rfl : left = 0 := by omega
      simp [freadLoop]
  | succ fuel ih =>
      rw [freadLoop]
      split
      case isTrue h =>
        subst h
        simp
      case isFalse hleft =>
        have hmod := Nat.mod_lt pos hblk
        have hi : pos / v.root.blkSize ≠ 0 := (Nat.div_pos hpos hblk).ne'
        obtain ⟨hplain, hhead⟩ := hbytes pos (Nat.le_refl _) (by omega)
        have hfound : ∃ s, ffindhi v.root c (pos / v.root.blkSize) = some s := by
          unfold fileByte at hhead
          cases hfind : ffindhi v.root c (pos / v.root.blkSize) with
          | none => rw [hfind] at hhead; cases hhead
          | some s => exact ⟨s, rfl⟩
        obtain ⟨s, hs⟩ := hfound
        simp only [fread1_of_found hfile hi hplain hs hheld hblk]
        obtain ⟨chunk, hchunk⟩ :
            ∃ chunk, chunk = min (v.root.blkSize - pos % v.root.blkSize) left := ⟨_, rfl⟩
        rw [← hchunk, u64_of_lt (by omega)]
        have hslice : slice (v.window s) (pos % v.root.blkSize) chunk =
            (List.range chunk).map fun k => g (pos + k) := by
          apply List.ext_getElem?
          intro k
          rw [getElem?_slice, List.getElem?_map]
          split
          case isTrue hk =>
            obtain ⟨hdiv, hrem⟩ := @div_add_of_inside v.root.blkSize pos k (by omega)
            have hbyte := (hbytes (pos + k) (by omega) (by omega)).2
            unfold fileByte at hbyte
            rw [hdiv, hs, hrem, Option.bind_some] at hbyte
            rw [hbyte, List.getElem?_range hk]
            rfl
          case isFalse hk =>
            rw [List.getElem?_eq_none (by rw [List.length_range]; omega)]
            rfl
        have hrest := @ih (pos + chunk) (left - chunk)
          (out ++ slice (v.window s) (pos % v.root.blkSize) chunk) (by omega) (by omega)
          (by omega) (fun x hx hx' => hbytes x (by omega) (by omega))
        rw [hrest, hslice]
        have hrange : List.range left =
            List.range chunk ++ (List.range (left - chunk)).map (chunk + ·) := by
          rw [← List.range_add]
          congr 1
          omega
        have hend : pos + chunk + (left - chunk) = pos + left := by omega
        rw [hrange, List.map_append, List.map_map, List.append_assoc, hend]
        simp only [Function.comp_def, Nat.add_assoc]

theorem freadLoop_stops (fuel : Nat) {pos left x : Nat} (out : Bytes)
    (hpos : v.root.blkSize ≤ pos) (hfit : pos + left < 2 ^ 64) (hlow : pos ≤ x)
    (hhigh : x < pos + left) (hmissing : ffindhi v.root c (x / v.root.blkSize) = none) :
    (freadLoop v file fuel pos left out).2.2 ≠ 0 := by
  induction fuel generalizing pos left out with
  | zero =>
      change left ≠ 0
      omega
  | succ fuel ih =>
      have hmod := Nat.mod_lt pos hblk
      rw [freadLoop, if_neg (by omega)]
      simp only
      split
      case h_1 =>
        change left ≠ 0
        omega
      case h_2 blk hread =>
        rw [u64_of_lt (by omega)]
        by_cases hinside : x < pos + (v.root.blkSize - pos % v.root.blkSize)
        · obtain ⟨hdiv, -⟩ := @div_add_of_inside v.root.blkSize pos (x - pos) (by omega)
          rw [show pos + (x - pos) = x by omega] at hdiv
          rw [hdiv] at hmissing
          rw [fread1_of_missing hfile (Nat.div_pos hpos hblk).ne' hmissing] at hread
          cases hread
        · exact ih _ (by omega) (by omega) (by omega) (by omega)

end ReadLoop

/-! ## Time stamps -/

theorem fupdatetstamp_held {E : Host} {v : Volume} {file : Nat} {c : Fcode} (wt : Bool)
    (hheld : v.AllHeld) (hfile : HasEntry v.root file c 0) :
    ∃ v₁, fupdatetstamp E v file wt = .ok v₁ ∧ v₁.root = v.root ∧ v₁.AllHeld ∧
      ∀ x, x / v.root.blkSize < 2 ^ 32 → x / v.root.blkSize ≠ 0 →
        fileByte v₁ c x = fileByte v c x := by
  have hspan := v.root.sizeofMetaFsBlock_le_span
  have hread : freadinfo v file = some (v.window file) :=
    hheld.readAt hfile.1 (by decide) hspan
  obtain ⟨v₁, hv₁⟩ : ∃ v₁, fupdatetstamp E v file wt = .ok v₁ := by
    rw [fupdatetstamp, hread]
    exact ⟨_, rfl⟩
  obtain ⟨data, hwrite⟩ : ∃ data,
      v₁ = (v.writeAt file data sizeofMetaFsBlock).atTime (v.ticks + 1) := by
    obtain ⟨finfo, -, hwrite⟩ := fupdatetstamp_ok hv₁
    exact ⟨_, hwrite⟩
  refine ⟨v₁, hv₁, fupdatetstamp_root hv₁, ?_, fun x hx hne => ?_⟩
  · rw [hwrite]
    exact hheld.writeAt _ _ _
  · have hticks : fileByte v₁ c x = fileByte (v.writeAt file data sizeofMetaFsBlock) c x := by
      rw [hwrite]
      rfl
    rw [hticks]
    refine fileByte_writeAt_other hfile.1 (by decide) hspan hheld fun t ht => ?_
    rintro rfl
    have hindex := (ffindhi_some ht).2.2
    rw [hfile.2.2, u32_of_lt hx] at hindex
    exact hne hindex.symm

end BlockyOS.HostTool
