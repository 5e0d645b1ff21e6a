import BlockyOS.Libcrt.Strings
import BlockyOS.Libcrt.TextFormat

/-!
# Formatting into a bounded stream

The text of a format is what its items show, one behind the other.  The stream gets
the first characters of it, wherever they end, but of the text that an index of 32
bits finds: behind `2 ^ 32` characters it finds the first ones again.
-/

namespace BlockyOS.Libcrt

open BlockyOS.Foundation
open BlockyOS.HostTool (CString)

/-! ## The text of a format -/

def Piece.text : Piece → Bytes
  | .number negative value => (numBuf negative value).reverse
  | .string bytes => bytes
  | .char c => [c]

/-- All that a format shows.  It takes the first arguments and leaves the others. -/
def text : Bytes → List Arg → Option Bytes
  | [], _ => some []
  | [c], _ => if c = FormatStart then some [] else some [c]
  | c :: d :: rest, ls =>
      if c = FormatStart then
        (convert d ls).bind fun (piece, ls) => (text rest ls).map (piece.text ++ ·)
      else (text (d :: rest) ls).map (c :: ·)

/-- What the item at `k` shows, where the next one starts and what it leaves of the
arguments, or that the format ends there. -/
def nextItem (format : Memory) (k : Nat) (ls : List Arg) :
    Option (Option (Bytes × Nat × List Arg)) :=
  if format k = 0 then some none
  else if format k = FormatStart then
    if format (k + 1) = 0 then some none
    else (convert (format (k + 1)) ls).map fun (piece, ls) => some (piece.text, k + 2, ls)
  else some (some ([format k], k + 1, ls))

/-- The first `m` characters of the text from `k` on, or all of it where it is shorter. -/
inductive Renders (format : Memory) : Nat → List Arg → Nat → Bytes → Prop where
  | full {k ls} : Renders format k ls 0 []
  | stop {k ls m} (hitem : nextItem format k ls = some none) : Renders format k ls (m + 1) []
  | item {k ls m shown k' ls' rest} (hitem : nextItem format k ls = some (some (shown, k', ls')))
      (hrest : Renders format k' ls' (m + 1 - shown.length) rest) :
      Renders format k ls (m + 1) (shown.take (m + 1) ++ rest)

/-- The format as an index of 32 bits finds it. -/
def indexed (format : Memory) : Memory := fun k => format (u32 k)

section Items

variable {format : Memory} {k k' m : Nat} {ls ls' : List Arg} {shown t : Bytes}

theorem va_arg_eq_some {α : Type} {type : Arg → Option α} {a : α}
    (h : va_arg type ls = some (a, ls')) : ∃ arg, ls = arg :: ls' := by
  cases ls with
  | nil => cases h
  | cons arg rest =>
      obtain ⟨_, -, heq⟩ := Option.map_eq_some_iff.mp h
      cases heq
      exact ⟨arg, rfl⟩

/-- One argument is taken, or none for a character. -/
def TakesOne (ls : List Arg) (taken : Option (Piece × List Arg)) : Prop :=
  ∀ piece ls', taken = some (piece, ls') →
    (∃ arg, ls = arg :: ls') ∨ ls = ls' ∧ ∃ c, piece = .char c

theorem convert_takesOne (d : UInt8) (ls : List Arg) : TakesOne ls (convert d ls) := by
  have htakes : ∀ {α : Type} (type : Arg → Option α) (f : α × List Arg → Piece × List Arg),
      (∀ a rest, (f (a, rest)).2 = rest) → TakesOne ls ((va_arg type ls).map f) := by
    intro α type f hf piece ls' h
    obtain ⟨⟨a, rest⟩, hva, heq⟩ := Option.map_eq_some_iff.mp h
    have hrest := hf a rest
    rw [heq] at hrest
    obtain rfl : ls' = rest := hrest
    exact .inl (va_arg_eq_some hva)
  have hchar : TakesOne ls (some (Piece.char d, ls)) := by
    rintro piece ls' ⟨⟩
    exact .inr ⟨rfl, d, rfl⟩
  unfold convert
  iterate 10
    refine iteInduction (motive := TakesOne ls) (fun _ => htakes _ _ fun _ _ => rfl) fun _ => ?_
  exact hchar

theorem nextItem_progress (h : nextItem format k ls = some (some (shown, k', ls'))) :
    ls'.length ≤ ls.length ∧ ls'.length < ls.length + shown.length := by
  unfold nextItem at h
  split_ifs at h
  · cases h
  · cases h
  · obtain ⟨⟨piece, rest⟩, hconvert, heq⟩ := Option.map_eq_some_iff.mp h
    cases heq
    rcases convert_takesOne _ _ _ _ hconvert with ⟨arg, rfl⟩ | ⟨rfl, c, rfl⟩
    · rw [List.length_cons]
      omega
    · exact ⟨Nat.le_refl _, Nat.lt_succ_self _⟩
  · cases h
    exact ⟨Nat.le_refl _, Nat.lt_succ_self _⟩

theorem Renders.length_le (h : Renders format k ls m t) : t.length ≤ m := by
  induction h with
  | full => exact Nat.le_refl 0
  | stop => exact Nat.zero_le _
  | item _ _ ih =>
      rw [List.length_append, List.length_take]
      omega

theorem renders_zero : Renders format k ls 0 t ↔ t = [] := by
  constructor
  · intro h
    cases h
    rfl
  · rintro rfl
    exact .full

theorem not_renders (hitem : nextItem format k ls = none) : ¬ Renders format k ls (m + 1) t := by
  intro h
  cases h with
  | stop hstop => exact absurd (hitem.symm.trans hstop) nofun
  | item hmore _ => exact absurd (hitem.symm.trans hmore) nofun

theorem renders_stop (hitem : nextItem format k ls = some none) :
    Renders format k ls (m + 1) t ↔ t = [] := by
  constructor
  · intro h
    cases h with
    | stop _ => rfl
    | item hmore _ => exact absurd (hitem.symm.trans hmore) nofun
  · rintro rfl
    exact .stop hitem

theorem renders_item (hitem : nextItem format k ls = some (some (shown, k', ls'))) :
    Renders format k ls (m + 1) t ↔
      ∃ rest, Renders format k' ls' (m + 1 - shown.length) rest ∧
        t = shown.take (m + 1) ++ rest := by
  constructor
  · intro h
    cases h with
    | stop hstop => exact absurd (hitem.symm.trans hstop) nofun
    | item hmore hrest =>
        cases hitem.symm.trans hmore
        exact ⟨_, hrest, rfl⟩
  · rintro ⟨rest, hrest, rfl⟩
    exact .item hitem hrest

theorem Renders.unique {t' : Bytes} (h : Renders format k ls m t) (h' : Renders format k ls m t') :
    t = t' := by
  induction h generalizing t' with
  | full => exact (renders_zero.mp h').symm
  | stop hitem => exact ((renders_stop hitem).mp h').symm
  | item hitem _ ih =>
      obtain ⟨rest, hrest, rfl⟩ := (renders_item hitem).mp h'
      rw [ih hrest]

theorem nextItem_char {c : UInt8} (hc : format k = c) (hzero : c ≠ 0) (hstart : c ≠ FormatStart) :
    nextItem format k ls = some (some ([c], k + 1, ls)) := by
  rw [nextItem, hc, if_neg hzero, if_neg hstart]

theorem renders_replicate {n : Nat} {c : UInt8} (hzero : c ≠ 0) (hstart : c ≠ FormatStart)
    (hc : ∀ i < n, format (k + i) = c) (h : Renders format (k + n) ls m t) :
    Renders format k ls (n + m) (List.replicate n c ++ t) := by
  induction n generalizing k with
  | zero => rwa [Nat.zero_add, List.replicate_zero, List.nil_append]
  | succ n ih =>
      have hitem : nextItem format k ls = some (some ([c], k + 1, ls)) :=
        nextItem_char (hc 0 (Nat.succ_pos n)) hzero hstart
      have hrest : Renders format (k + 1) ls (n + m) (List.replicate n c ++ t) := by
        refine ih (fun i hi => ?_) ?_
        · rw [Nat.add_assoc, Nat.add_comm 1]
          exact hc (i + 1) (Nat.succ_lt_succ hi)
        · rwa [Nat.add_assoc, Nat.add_comm 1]
      have hall := Renders.item hitem hrest
      rw [List.take_succ_cons, List.take_nil] at hall
      rw [Nat.succ_add]
      exact hall

end Items

/-! ## The loop -/

/-- The state in front of the item at `k`, with what is shown already. -/
def shownState (stream : Memory) (k : Nat) (shown : Bytes) (ls : List Arg) : Rendering :=
  ⟨u32 k, shown.length, written stream shown, ls⟩

section Loop

variable {format stream : Memory} {size k k' m : Nat} {ls ls' : List Arg} {shown more t : Bytes}

theorem next_shownState :
    (shownState stream k shown ls).next = shownState stream (k + 1) shown ls := by
  have hcc : u32 (u32 k + 1) = u32 (k + 1) := Nat.mod_add_mod k (2 ^ 32) 1
  rw [shownState, Rendering.next, hcc]
  rfl

theorem put_shownState {c : UInt8} (hfits : shown.length + 1 < 2 ^ 32) :
    (shownState stream k shown ls).put c = shownState stream k (shown ++ [c]) ls := by
  rw [shownState, Rendering.put, update_written, u32_of_lt hfits, shownState,
    List.length_append, List.length_singleton]

theorem putWhileRoom_shownState (hfits : min (size - 1) (shown.length + more.length) < 2 ^ 32)
    (hroom : shown.length ≤ size - 1) :
    putWhileRoom size more (shownState stream k shown ls) =
      shownState stream k (shown ++ more.take (size - 1 - shown.length)) ls := by
  induction more generalizing shown with
  | nil => rw [putWhileRoom, List.take_nil, List.append_nil]
  | cons c more ih =>
      rw [putWhileRoom]
      split
      · next hlt =>
          have hlt : shown.length < size - 1 := hlt
          have hlength : (shown ++ [c]).length = shown.length + 1 := List.length_append
          have hleft : size - 1 - shown.length = size - 1 - (shown.length + 1) + 1 := by omega
          rw [List.length_cons] at hfits
          rw [put_shownState (by omega), ih (by omega) (by omega), hlength, hleft,
            List.take_succ_cons, List.append_assoc, List.singleton_append]
      · next hge =>
          have hge : ¬ shown.length < size - 1 := hge
          have hleft : size - 1 - shown.length = 0 := by omega
          rw [hleft, List.take_zero, List.append_nil]

theorem putPiece_shownState {piece : Piece}
    (hfits : min (size - 1) (shown.length + piece.text.length) < 2 ^ 32)
    (hroom : shown.length < size - 1) :
    Rendering.putPiece size (shownState stream k shown ls) piece =
      shownState stream k (shown ++ piece.text.take (size - 1 - shown.length)) ls := by
  cases piece with
  | number negative value => exact putWhileRoom_shownState hfits (Nat.le_of_lt hroom)
  | string bytes => exact putWhileRoom_shownState hfits (Nat.le_of_lt hroom)
  | char c =>
      rw [Piece.text, List.length_singleton] at hfits
      have hone : (Piece.char c).text.take (size - 1 - shown.length) = [c] :=
        List.take_of_length_le (by rw [Piece.text, List.length_singleton]; omega)
      rw [hone]
      exact put_shownState (by omega)

theorem copyTurn_full (hfull : size - 1 ≤ shown.length) :
    copyTurn format size (shownState stream k shown ls) =
      .inr (.ok (shownState stream k shown ls)) := by
  refine if_neg ?_
  rintro ⟨-, hlt⟩
  exact absurd hlt (Nat.not_lt.mpr hfull)

theorem copyTurn_item (hroom : shown.length < size - 1)
    (hfits : ∀ more k' ls', nextItem (indexed format) k ls = some (some (more, k', ls')) →
      min (size - 1) (shown.length + more.length) < 2 ^ 32) :
    copyTurn format size (shownState stream k shown ls) =
      match nextItem (indexed format) k ls with
      | none => .inr (.error .argument)
      | some none =>
          .inr (.ok (shownState stream (if indexed format k = 0 then k else k + 1) shown ls))
      | some (some (more, k', ls')) =>
          .inl (shownState stream k' (shown ++ more.take (size - 1 - shown.length)) ls') := by
  have hcc : ∀ k, format (shownState stream k shown ls).cc = indexed format k := fun _ => rfl
  rw [nextItem] at hfits
  rw [copyTurn, next_shownState, hcc, nextItem]
  by_cases hzero : indexed format k = 0
  · rw [if_neg (fun h => h.1 hzero), if_pos hzero]
    simp only [if_pos hzero]
  · rw [if_neg hzero] at hfits
    rw [if_pos ⟨hzero, hroom⟩, if_neg hzero]
    by_cases hstart : indexed format k = FormatStart
    · rw [if_pos hstart] at hfits
      rw [if_pos hstart, if_pos hstart, directiveTurn, hcc]
      by_cases hend : indexed format (k + 1) = 0
      · rw [if_pos hend, if_pos hend]
        simp only [if_neg hzero]
      · rw [if_neg hend] at hfits
        rw [if_neg hend, if_neg hend]
        cases hconvert : convert (indexed format (k + 1)) ls with
        | none => simp only [shownState, hconvert, Option.map_none]
        | some found =>
            obtain ⟨piece, ls'⟩ := found
            rw [hconvert] at hfits
            have hput := @putPiece_shownState stream size (k + 1) ls' shown piece
              (hfits _ _ _ rfl) hroom
            simp only [shownState, hconvert, Option.map_some] at hput ⊢
            rw [hput]
            exact congrArg Sum.inl next_shownState
    · rw [if_neg hstart] at hfits
      have hone : [indexed format k].take (size - 1 - shown.length) = [indexed format k] :=
        List.take_of_length_le (by rw [List.length_singleton]; omega)
      have hlast := hfits _ _ _ rfl
      rw [List.length_singleton] at hlast
      rw [if_neg hstart, if_neg hstart, put_shownState (by omega), next_shownState]
      simp only [hone]

theorem follow_copyTurn (hsize : size ≤ 2 ^ 32) {fuel : Nat} (hroom : shown.length + m = size - 1)
    (hfuel : ls.length + m < fuel) :
    (∃ t k' ls', follow (copyTurn format size) fuel (shownState stream k shown ls) =
        some (.ok (shownState stream k' (shown ++ t) ls')) ∧
      ∀ t', Renders (indexed format) k ls m t' ↔ t' = t) ∨
    (follow (copyTurn format size) fuel (shownState stream k shown ls) =
        some (.error .argument) ∧ ∀ t', ¬ Renders (indexed format) k ls m t') := by
  induction fuel generalizing k shown ls m with
  | zero => omega
  | succ fuel ih =>
      cases m with
      | zero =>
          rw [follow_of_answer (copyTurn_full (by omega))]
          exact .inl ⟨[], k, ls, by rw [List.append_nil], fun t' => renders_zero⟩
      | succ m =>
          have hleft : size - 1 - shown.length = m + 1 := by omega
          have hturn := @copyTurn_item format stream size k ls shown (by omega)
            fun _ _ _ _ => by omega
          rcases hitem : nextItem (indexed format) k ls with _ | _ | ⟨more, k', ls'⟩
          · rw [hitem] at hturn
            rw [follow_of_answer hturn]
            exact .inr ⟨rfl, fun t' => not_renders hitem⟩
          · rw [hitem] at hturn
            rw [follow_of_answer hturn]
            exact .inl ⟨[], _, ls, by rw [List.append_nil], fun t' => renders_stop hitem⟩
          · rw [hitem, hleft] at hturn
            have hprogress := nextItem_progress hitem
            have hlength : (shown ++ more.take (m + 1)).length =
                shown.length + min (m + 1) more.length := by
              rw [List.length_append, List.length_take]
            rw [follow_of_moves hturn]
            rcases @ih k' (m + 1 - more.length) ls' (shown ++ more.take (m + 1))
              (by omega) (by omega) with
              ⟨t, k'', ls'', hrun, hrenders⟩ | ⟨hrun, hrenders⟩
            · refine .inl ⟨more.take (m + 1) ++ t, k'', ls'', by rw [hrun, List.append_assoc], ?_⟩
              intro t'
              simp only [renders_item hitem, hrenders, exists_eq_left]
            · refine .inr ⟨hrun, fun t' h => ?_⟩
              obtain ⟨rest, hrest, -⟩ := (renders_item hitem).mp h
              exact hrenders rest hrest

end Loop

/-! ## The formatter -/

structure CopiesPrefix (stream : Memory) (size : Nat) (t : Bytes) (out : Copied) : Prop where
  count : out.size = min (size - 1) t.length
  shown : ∀ k < out.size, t[k]? = some (out.stream k)
  ended : out.stream out.size = 0
  kept : ∀ k, size ≤ k → out.stream k = stream k

section Copies

variable {mem stream : Memory} {size f : Nat} {ls : List Arg} {t : Bytes}

theorem copyF_cases (hpos : 1 ≤ size) (hsize : size ≤ 2 ^ 32) :
    (∃ t ls', copyF mem stream size f ls =
        .ok ⟨writtenString stream t, t.length, f, ls'⟩ ∧
      ∀ t', Renders (indexed fun cc => mem (f + cc)) 0 ls (size - 1) t' ↔ t' = t) ∨
    (copyF mem stream size f ls = .error .argument ∧
      ∀ t', ¬ Renders (indexed fun cc => mem (f + cc)) 0 ls (size - 1) t') := by
  have hstart : (⟨0, 0, stream, ls⟩ : Rendering) = shownState stream 0 [] ls := rfl
  rw [copyF, if_neg (by omega), copyLoop, hstart]
  rcases @follow_copyTurn (fun cc => mem (f + cc)) stream size 0 (size - 1) ls [] hsize
    (ls.length + size + 1) (Nat.zero_add _) (by omega) with
    ⟨t, k, ls', hrun, hrenders⟩ | ⟨hrun, hrenders⟩
  · exact .inl ⟨t, ls', by rw [hrun]; rfl, hrenders⟩
  · exact .inr ⟨by rw [hrun]; rfl, hrenders⟩

end Copies

/-! ## The text and the index -/

/-- The memory shows these characters from `k` on, and a zero behind them. -/
def ShowsFrom (format : Memory) (k : Nat) (bytes : Bytes) : Prop :=
  ∀ i ≤ bytes.length, format (k + i) = (bytes ++ [0]).getD i 0

section Shows

variable {format : Memory} {k m : Nat} {ls : List Arg} {bytes t : Bytes}

theorem ShowsFrom.tail {c : UInt8} (h : ShowsFrom format k (c :: bytes)) :
    format k = c ∧ ShowsFrom format (k + 1) bytes := by
  refine ⟨h 0 (Nat.zero_le _), fun i hi => ?_⟩
  rw [Nat.add_assoc, Nat.add_comm 1]
  exact h (i + 1) (Nat.succ_le_succ hi)

theorem ShowsFrom.nil (h : ShowsFrom format k []) : format k = 0 := h 0 (Nat.le_refl 0)

theorem renders_take_stop (hitem : nextItem format k ls = some none) :
    Renders format k ls m (List.take m []) := by
  rw [List.take_nil]
  cases m with
  | zero => exact .full
  | succ m => exact .stop hitem

theorem renders_take_item {shown : Bytes} {k' : Nat} {ls' : List Arg}
    (hitem : nextItem format k ls = some (some (shown, k', ls')))
    (hrest : ∀ m, Renders format k' ls' m (t.take m)) :
    Renders format k ls m ((shown ++ t).take m) := by
  cases m with
  | zero => exact .full
  | succ m =>
      rw [List.take_append]
      exact .item hitem (hrest _)

theorem renders_of_text (hshows : ShowsFrom format k bytes) (hzero : 0 ∉ bytes)
    (htext : text bytes ls = some t) : Renders format k ls m (t.take m) := by
  have hend : ∀ {k m ls}, ShowsFrom format k [] → Renders format k ls m (List.take m []) := by
    intro k m ls hshows
    exact renders_take_stop (by rw [nextItem, if_pos hshows.nil])
  induction bytes, ls using text.induct generalizing k t m with
  | case1 ls =>
      cases htext
      exact hend hshows
  | case2 ls =>
      rw [text, if_pos rfl] at htext
      cases htext
      obtain ⟨hc, hrest⟩ := hshows.tail
      refine renders_take_stop ?_
      rw [nextItem, hc, if_neg (by decide), if_pos rfl, if_pos hrest.nil]
  | case3 c ls hstart =>
      rw [text, if_neg hstart] at htext
      cases htext
      obtain ⟨hc, hrest⟩ := hshows.tail
      have hne : c ≠ 0 := fun h => hzero (h ▸ List.mem_singleton_self c)
      exact renders_take_item (t := []) (nextItem_char hc hne hstart) fun m => hend hrest
  | case4 d rest ls ih =>
      rw [text, if_pos rfl] at htext
      obtain ⟨⟨piece, ls'⟩, hconvert, hmap⟩ := Option.bind_eq_some_iff.mp htext
      obtain ⟨more, hmore, rfl⟩ := Option.map_eq_some_iff.mp hmap
      obtain ⟨hc, hrest⟩ := hshows.tail
      obtain ⟨hd, hrest⟩ := hrest.tail
      rw [List.mem_cons, List.mem_cons, not_or, not_or] at hzero
      have hitem : nextItem format k ls = some (some (piece.text, k + 2, ls')) := by
        rw [nextItem, hc, if_neg (by decide), if_pos rfl, hd, if_neg (Ne.symm hzero.2.1), hconvert]
        rfl
      exact renders_take_item hitem fun m => ih ls' hrest hzero.2.2 hmore
  | case5 c d rest ls hstart ih =>
      rw [text, if_neg hstart] at htext
      obtain ⟨more, hmore, rfl⟩ := Option.map_eq_some_iff.mp htext
      obtain ⟨hc, hrest⟩ := hshows.tail
      rw [List.mem_cons, not_or] at hzero
      exact renders_take_item (t := more) (nextItem_char hc (Ne.symm hzero.1) hstart)
        fun m => ih hrest hzero.2 hmore

end Shows

/-! ## When the stream gets a part of the text -/

section Bounded

variable {f : CString} {beyond stream : Memory} {size : Nat} {ls : List Arg} {t : Bytes}

/-- The formatter returns, and the stream holds the beginning of the text. -/
def CopiesText (copy : Formatter) (f : CString) (beyond stream : Memory) (size : Nat)
    (ls : List Arg) (t : Bytes) : Prop :=
  ∃ out, copy (stringAt f beyond) stream size 0 ls = .ok out ∧ CopiesPrefix stream size t out

theorem copiesPrefix_iff {t' : Bytes} {ls' : List Arg} (hpos : 1 ≤ size)
    (hlength : t'.length ≤ size - 1) :
    CopiesPrefix stream size t
        ⟨writtenString stream t', t'.length, 0, ls'⟩ ↔
      t' = t.take (size - 1) := by
  constructor
  · intro h
    have hcount : t'.length = min (size - 1) t.length := h.count
    refine List.ext_getElem (by rw [List.length_take, hcount]) fun k hk _ => ?_
    have hkt : k < t.length := by omega
    have hshown : t[k]? = some (writtenString stream t' k) := h.shown k hk
    rw [writtenString_of_lt _ _ hk, List.getElem?_eq_getElem hkt] at hshown
    rw [List.getElem_take]
    exact (Option.some.inj hshown).symm
  · rintro rfl
    refine ⟨List.length_take, fun k hk => ?_, writtenString_length .., fun k hk => ?_⟩
    · have hk : k < (t.take (size - 1)).length := hk
      have hkt : k < t.length := Nat.lt_of_lt_of_le hk (List.length_take_le' ..)
      change t[k]? = some (writtenString stream (t.take (size - 1)) k)
      rw [writtenString_of_lt _ _ hk, List.getElem_take, List.getElem?_eq_getElem hkt]
    · exact writtenString_of_gt _ _ (by omega)

theorem stringAt_start : (fun cc => stringAt f beyond (0 + cc)) = stringAt f beyond :=
  funext fun cc => congrArg _ (Nat.zero_add cc)

theorem copiesText_iff_renders (hpos : 1 ≤ size) (hsize : size ≤ 2 ^ 32) :
    CopiesText SimpleCopyF f beyond stream size ls t ↔
      Renders (indexed (stringAt f beyond)) 0 ls (size - 1) (t.take (size - 1)) := by
  rcases @copyF_cases (stringAt f beyond) stream size 0 ls hpos hsize with
    ⟨t', ls', hcopy, hrenders⟩ | ⟨hcopy, hrenders⟩
  all_goals rw [stringAt_start] at hrenders
  · rw [hrenders, eq_comm, ← @copiesPrefix_iff stream size t t' ls' hpos
      ((hrenders t').mpr rfl).length_le]
    constructor
    · rintro ⟨out, hout, hcopies⟩
      cases hcopy.symm.trans hout
      exact hcopies
    · exact fun hcopies => ⟨_, hcopy, hcopies⟩
  · refine iff_of_false ?_ (hrenders _)
    rintro ⟨out, hout, -⟩
    cases hcopy.symm.trans hout

theorem showsFrom_indexed (hshort : f.bytes.length < 2 ^ 32) :
    ShowsFrom (indexed (stringAt f beyond)) 0 f.bytes := by
  intro i hi
  have hlt : i < (f.bytes ++ [0]).length := by
    rw [List.length_append, List.length_singleton]
    omega
  rw [indexed, Nat.zero_add, u32_of_lt (by omega), stringAt, List.getD_eq_getElem?_getD,
    List.getElem?_eq_getElem hlt]
  rfl

/--
For every size up to `2 ^ 32`, the stream gets the beginning of the text and nothing
is written behind it, exactly when the format has fewer than `2 ^ 32` characters or its
first ones, over and over, show the same beginning.
-/
theorem simpleCopyF_bounded_iff (hpos : 1 ≤ size) (hsize : size ≤ 2 ^ 32)
    (htext : text f.bytes ls = some t) :
    CopiesText SimpleCopyF f beyond stream size ls t ↔
      f.bytes.length < 2 ^ 32 ∨
        Renders (indexed (stringAt f beyond)) 0 ls (size - 1) (t.take (size - 1)) := by
  rw [copiesText_iff_renders hpos hsize]
  constructor
  · exact .inr
  · rintro (hshort | hrenders)
    · exact renders_of_text (showsFrom_indexed hshort) f.terminated htext
    · exact hrenders

end Bounded

theorem simpleCopyF_bounded_sample :
    CopiesText SimpleCopyF ⟨chars "a%ub", by decide, by decide⟩ (fun _ => 0) (fun _ => 1) 9
        [.word 300] (chars "a44b") ∧
      CopiesText SimpleCopyF ⟨chars "%z", by decide, by decide⟩ (fun _ => 0) (fun _ => 1) 3
        [.quad 456] (chars "456") :=
  ⟨(simpleCopyF_bounded_iff (by decide) (by decide) (by decide)).mpr (.inl (by decide)),
    (simpleCopyF_bounded_iff (by decide) (by decide) (by decide)).mpr (.inl (by decide))⟩

/-! ## A format that the index does not reach the end of -/

section LongFormat

variable {n : Nat}

def longFormat (n : Nat) : Bytes :=
  FormatStart :: FormatStart :: FormatStart :: FormatStart :: (List.replicate n 0x61 ++ [0x62])

def longText (n : Nat) : Bytes :=
  FormatStart :: FormatStart :: (List.replicate n 0x61 ++ [0x62])

theorem length_longFormat : (longFormat n).length = n + 5 := by
  simp [longFormat]

theorem zero_notMem_longFormat : 0 ∉ longFormat n := by
  simp [longFormat, FormatStart]

theorem text_cons_char {c : UInt8} {rest : Bytes} {ls : List Arg} (hstart : c ≠ FormatStart) :
    text (c :: rest) ls = (text rest ls).map (c :: ·) := by
  cases rest <;> simp [text, hstart]

theorem text_cons_directive {d : UInt8} {rest : Bytes} {ls ls' : List Arg} {piece : Piece}
    (hconvert : convert d ls = some (piece, ls')) :
    text (FormatStart :: d :: rest) ls = (text rest ls').map (piece.text ++ ·) := by
  rw [text, if_pos rfl, hconvert, Option.bind_some]

theorem convert_formatStart : convert FormatStart [] = some (.char FormatStart, []) := by rfl

theorem text_longFormat : text (longFormat n) [] = some (longText n) := by
  have htail : text (List.replicate n 0x61 ++ [0x62]) [] =
      some (List.replicate n 0x61 ++ [0x62]) := by
    induction n with
    | zero => rfl
    | succ n ih =>
        rw [List.replicate_succ, List.cons_append, text_cons_char (by decide), ih,
          Option.map_some]
  rw [longFormat, text_cons_directive convert_formatStart, text_cons_directive convert_formatStart,
    htail]
  rfl

theorem renders_longFormat {f : CString} {beyond : Memory} (hbytes : f.bytes = longFormat n)
    (hn : n + 4 = 2 ^ 32) :
    Renders (indexed (stringAt f beyond)) 0 [] (n + 3)
      (FormatStart :: FormatStart :: (List.replicate n 0x61 ++ [FormatStart])) := by
  have hread : ∀ {k c}, (longFormat n)[u32 k]? = some c → indexed (stringAt f beyond) k = c := by
    intro k c h
    obtain ⟨hlt, -⟩ := List.getElem?_eq_some_iff.mp h
    rw [indexed, stringAt, hbytes, List.getElem?_append_left hlt, h, Option.getD_some]
  have hdirective : ∀ {k}, (longFormat n)[u32 k]? = some FormatStart →
      (longFormat n)[u32 (k + 1)]? = some FormatStart →
      nextItem (indexed (stringAt f beyond)) k [] = some (some ([FormatStart], k + 2, [])) := by
    intro k hk hk'
    rw [nextItem, hread hk, hread hk', if_neg (by decide), if_pos rfl, if_neg (by decide),
      convert_formatStart]
    rfl
  have hchar : ∀ i < n, indexed (stringAt f beyond) (4 + i) = 0x61 := by
    intro i hi
    apply hread
    rw [u32_of_lt (by omega), longFormat, Nat.add_comm]
    simp [List.getElem?_append_left, hi]
  have hwrap : u32 (4 + n) = 0 ∧ u32 (4 + n + 1) = 1 := by
    rw [u32, u32]
    omega
  have hlast : Renders (indexed (stringAt f beyond)) (4 + n) [] 1 [FormatStart] :=
    .item (hdirective (by rw [hwrap.1]; rfl) (by rw [hwrap.2]; rfl)) .full
  have hmiddle := renders_replicate (by decide) (by decide) hchar hlast
  have hsecond := Renders.item (hdirective (k := 2) rfl rfl) hmiddle
  exact .item (hdirective (k := 0) rfl rfl) hsecond

theorem not_right_of_longFormat {f : CString} {beyond stream : Memory}
    (hbytes : f.bytes = longFormat n) (hn : n + 4 = 2 ^ 32) :
    ¬ CopiesText SimpleCopyF f beyond stream (2 ^ 32) [] (longText n) := by
  have hlength : (longText n).length = n + 3 := by simp [longText]
  have hsize : 2 ^ 32 - 1 = n + 3 := by omega
  rw [copiesText_iff_renders (by decide) (Nat.le_refl _), hsize,
    List.take_of_length_le (Nat.le_of_eq hlength)]
  intro h
  have hsame := h.unique (renders_longFormat hbytes hn)
  rw [longText] at hsame
  have hlast := List.append_cancel_left (List.tail_eq_of_cons_eq (List.tail_eq_of_cons_eq hsame))
  exact absurd hlast (by decide)

/-- The first `2 ^ 32` characters show two less, and the index does not reach the last one,
for which there is room. -/
theorem not_simpleCopyF_bounded : ∃ f : CString, f.bytes = longFormat (2 ^ 32 - 4) ∧
    text f.bytes [] = some (longText (2 ^ 32 - 4)) ∧
    ¬ CopiesText SimpleCopyF f (fun _ => 0) (fun _ => 0) (2 ^ 32) [] (longText (2 ^ 32 - 4)) := by
  obtain ⟨n, hn⟩ : ∃ n, n = 2 ^ 32 - 4 := ⟨_, rfl⟩
  rw [← hn]
  have hfits : (longFormat n).length < 2 ^ 64 := by
    rw [length_longFormat]
    omega
  exact ⟨⟨longFormat n, zero_notMem_longFormat, hfits⟩, rfl, text_longFormat,
    not_right_of_longFormat rfl (by omega)⟩

end LongFormat

end BlockyOS.Libcrt
