import BlockyOS.Libcrt.BoundedText

/-!
# Printing on the screen

The text is formatted in turns of one page each, until the format and the size are used
up.  The formatter hands back the format pointer it was given, so that only the empty
format is ever used up.
-/

namespace BlockyOS.Video

open BlockyOS.Foundation
open BlockyOS.HostTool (CString)
open BlockyOS.Libcrt

/-! ## The function -/

structure VideoContext where
  vmcontext : Nat
  gcontext : Nat
  ngcontext : Nat

def VideoContext.Selected (ctx : VideoContext) : Prop :=
  ctx.vmcontext ≠ 0 ∧ ctx.gcontext ≠ 0 ∧ ctx.ngcontext ≠ 0

instance (ctx : VideoContext) : Decidable ctx.Selected := inferInstanceAs (Decidable (_ ∧ _ ∧ _))

structure Printing where
  fmt : Nat
  streamsize : Nat
  stdout : Memory
  ls : List Arg

def printTurn (mem : Memory) (s : Printing) : Printing ⊕ Except CopyFault Printing :=
  if mem s.fmt ≠ 0 ∨ s.streamsize ≠ 0 then
    match TextCopyF mem s.stdout s.streamsize s.fmt s.ls with
    | .ok out => .inl ⟨out.f, out.size, out.stream, out.ls⟩
    | .error fault => .inr (.error fault)
  else .inr (.ok s)

/-- The size of `stdout`, which is a page. -/
def stdoutSize : Nat := 4096

def stringIn (buffer : Memory) (size : Nat) : Bytes :=
  ((List.range size).map buffer).takeWhile (· ≠ 0)

/-- What is returned, if anything is, what `PrintTextByGlyph` is given, if it is called,
and where the format pointer is. -/
structure Printed where
  answer : Option Bool
  text : Bytes
  fmt : Nat

/-- `VideoPrintf` for at most `fuel` turns. -/
def VideoPrintf (ctx : VideoContext) (mem stdout : Memory) (fmt : Nat) (ls : List Arg)
    (fuel : Nat) : Option (Except CopyFault Printed) :=
  if ¬ ctx.Selected then some (.ok ⟨some false, [], fmt⟩)
  else
    (follow (printTurn mem) fuel ⟨fmt, stdoutSize, stdout, ls⟩).map
      (Except.map fun s => ⟨none, stringIn s.stdout stdoutSize, s.fmt⟩)

/-! ## When it prints -/

section Prints

variable {ctx : VideoContext} {f : CString} {beyond stdout mem : Memory} {ls : List Arg} {t : Bytes}

/-- The call returns, the glyph printer has got the text, and the format pointer, where
it was moved over the format at all, is behind it. -/
def PrintsText (ctx : VideoContext) (f : CString) (beyond stdout : Memory) (ls : List Arg)
    (t : Bytes) : Prop :=
  ∃ fuel out, VideoPrintf ctx (stringAt f beyond) stdout 0 ls fuel = some (.ok out) ∧
    out.text = t ∧ (ctx.Selected → out.fmt = f.bytes.length)

theorem copyF_keeps_format {size place : Nat} {out : Copied}
    (h : copyF mem stdout size place ls = .ok out) : out.f = place := by
  rw [copyF] at h
  split at h
  · cases h
    rfl
  · cases hloop : copyLoop (fun cc => mem (place + cc)) size stdout ls with
    | error fault =>
        rw [hloop] at h
        cases h
    | ok s =>
        rw [hloop] at h
        cases h
        rfl

theorem follow_printTurn_nonempty {s : Printing} {fuel : Nat} {answer : Except CopyFault Printing}
    (hne : mem s.fmt ≠ 0) (h : follow (printTurn mem) fuel s = some answer) :
    ∃ fault, answer = .error fault := by
  refine @answer_of_invariant _ _ (printTurn mem) (fun s => mem s.fmt ≠ 0)
    (fun answer => ∃ fault, answer = .error fault) ?_ _ hne _ _ h
  intro s hne
  rw [printTurn, if_pos (.inl hne)]
  cases hcopy : TextCopyF mem s.stdout s.streamsize s.fmt s.ls with
  | error fault => exact .inr ⟨_, rfl, fault, rfl⟩
  | ok out =>
      refine .inl ⟨_, rfl, ?_⟩
      change mem out.f ≠ 0
      rw [copyF_keeps_format hcopy]
      exact hne

theorem stringAt_zero_eq_zero_iff : stringAt f beyond 0 = 0 ↔ f.bytes = [] := by
  constructor
  · intro h
    by_contra hne
    have hpos := List.length_pos_iff.mpr hne
    rw [stringAt_of_lt hpos] at h
    exact f.terminated (h ▸ List.getElem_mem hpos)
  · intro hempty
    have hend := @stringAt_length f beyond
    rwa [hempty] at hend

theorem textCopyF_empty (hempty : f.bytes = []) :
    ∃ ls', TextCopyF (stringAt f beyond) stdout stdoutSize 0 ls =
      .ok ⟨writtenString stdout [], 0, 0, ls'⟩ := by
  have hshort : f.bytes.length < 2 ^ 32 := by
    rw [hempty]
    decide
  have hrenders : Renders (indexed (stringAt f beyond)) 0 ls (stdoutSize - 1) [] :=
    renders_of_text (t := []) (showsFrom_indexed hshort) f.terminated (by rw [hempty, text])
  rcases @copyF_cases (stringAt f beyond) stdout stdoutSize 0 ls (by decide) (by decide) with
    ⟨t, ls', hcopy, hcases⟩ | ⟨-, hcases⟩
  all_goals rw [stringAt_start] at hcases
  · obtain rfl := (hcases []).mp hrenders
    exact ⟨ls', hcopy⟩
  · exact absurd hrenders (hcases [])

theorem stringIn_writtenString_nil : stringIn (writtenString stdout []) stdoutSize = [] := by
  have hzero : writtenString stdout [] 0 = 0 := writtenString_length stdout []
  rw [stringIn, stdoutSize, List.range_succ_eq_map, List.map_cons, List.takeWhile_cons_of_neg]
  simp [hzero]

theorem not_printsText_nonempty (hselected : ctx.Selected) (hne : f.bytes ≠ []) :
    ¬ PrintsText ctx f beyond stdout ls t := by
  rintro ⟨fuel, out, hrun, -⟩
  rw [VideoPrintf, if_neg (not_not.mpr hselected)] at hrun
  obtain ⟨answer, hfollow, hanswer⟩ := Option.map_eq_some_iff.mp hrun
  obtain ⟨fault, rfl⟩ := @follow_printTurn_nonempty _ ⟨0, stdoutSize, stdout, ls⟩ fuel answer
    (mt stringAt_zero_eq_zero_iff.mp hne) hfollow
  cases hanswer

/--
The call returns and prints the text of the format, once and moving the format pointer
over it, exactly when the format is empty, or there is no context and no text.
-/
theorem videoPrintf_printsText_iff (htext : text f.bytes ls = some t) :
    PrintsText ctx f beyond stdout ls t ↔ f.bytes = [] ∨ ¬ ctx.Selected ∧ t = [] := by
  constructor
  · intro hprints
    by_cases hselected : ctx.Selected
    · by_contra hne
      exact not_printsText_nonempty hselected (fun hempty => hne (.inl hempty)) hprints
    · obtain ⟨fuel, out, hrun, rfl, -⟩ := hprints
      rw [VideoPrintf, if_pos hselected] at hrun
      cases hrun
      exact .inr ⟨hselected, rfl⟩
  · intro h
    by_cases hselected : ctx.Selected
    · obtain hempty : f.bytes = [] := h.resolve_right fun hnot => hnot.1 hselected
      obtain ⟨ls', hcopy⟩ := @textCopyF_empty f beyond stdout ls hempty
      have hzero : stringAt f beyond 0 = 0 := stringAt_zero_eq_zero_iff.mpr hempty
      have hfirst : printTurn (stringAt f beyond) ⟨0, stdoutSize, stdout, ls⟩ =
          .inl ⟨0, 0, writtenString stdout [], ls'⟩ := by
        rw [printTurn, if_pos (.inr (show stdoutSize ≠ 0 by decide)), hcopy]
      have hlast : printTurn (stringAt f beyond) ⟨0, 0, writtenString stdout [], ls'⟩ =
          .inr (.ok ⟨0, 0, writtenString stdout [], ls'⟩) :=
        if_neg fun h => h.elim (absurd hzero) (absurd rfl)
      refine ⟨2, ⟨none, [], 0⟩, ?_, ?_, fun _ => by rw [hempty]; rfl⟩
      · rw [VideoPrintf, if_neg (not_not.mpr hselected), follow_of_moves hfirst,
          follow_of_answer hlast, Option.map_some, Except.map, stringIn_writtenString_nil]
      · rw [hempty, text] at htext
        exact Option.some.inj htext
    · have ht : t = [] := by
        rcases h with hempty | ⟨-, ht⟩
        · rw [hempty, text] at htext
          exact (Option.some.inj htext).symm
        · exact ht
      exact ⟨0, ⟨some false, [], 0⟩, by rw [VideoPrintf, if_pos hselected], ht.symm,
        fun h => absurd h hselected⟩

/-- A sign of a conversion alone has no text, which only a call without a context prints. -/
theorem videoPrintf_printsText_sample :
    PrintsText ⟨1, 1, 1⟩ ⟨[], by decide, by decide⟩ (fun _ => 0) (fun _ => 1) [] [] ∧
      PrintsText ⟨0, 0, 0⟩ ⟨chars "%", by decide, by decide⟩ (fun _ => 0) (fun _ => 1) [] [] ∧
      ¬ PrintsText ⟨1, 1, 1⟩ ⟨chars "%", by decide, by decide⟩ (fun _ => 0) (fun _ => 1) []
        [] := by
  have htext : text (chars "%") [] = some [] := by decide
  refine ⟨(videoPrintf_printsText_iff rfl).mpr (.inl rfl),
    (videoPrintf_printsText_iff htext).mpr (.inr ⟨by decide, rfl⟩), fun hprints => ?_⟩
  rcases (videoPrintf_printsText_iff htext).mp hprints with hempty | ⟨hnone, -⟩
  · exact List.cons_ne_nil _ _ hempty
  · exact hnone (by decide)

/-- The format of one character is shown again and again, and nothing is printed. -/
theorem not_printsText_character : text (chars "A") [] = some (chars "A") ∧
    ¬ PrintsText ⟨1, 1, 1⟩ ⟨chars "A", by decide, by decide⟩ (fun _ => 0) (fun _ => 0) []
      (chars "A") :=
  ⟨by decide, not_printsText_nonempty (by decide) (by decide)⟩

end Prints

end BlockyOS.Video
