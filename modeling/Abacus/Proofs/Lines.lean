import Abacus.CommandLine.Run
import Abacus.Proofs.Lexeme
import Mathlib.Data.List.Forall2

/-!
# The expressions of a script

The lines of a text end in a line feed, with or without a carriage return in front of it, and the
last one may end with the text. Which of the two ends a line makes no difference once it is trimmed:
a carriage return is a blank.
-/

namespace Abacus.Text

/-! ## Lines -/

/-- A text and its lines, without what they end in. -/
inductive Lines : List Char → List (List Char) → Prop
  | none : Lines [] []
  | last {line : List Char} : line ≠ [] → '\n' ∉ line → Lines line [line]
  | feed {line rest : List Char} {ls : List (List Char)} :
      '\n' ∉ line → line.getLast? ≠ some '\r' → Lines rest ls →
      Lines (line ++ '\n' :: rest) (line :: ls)
  | carriage {line rest : List Char} {ls : List (List Char)} :
      '\n' ∉ line → Lines rest ls → Lines (line ++ '\r' :: '\n' :: rest) (line :: ls)

@[simp] theorem lines_cons (c : Char) (text : List Char) :
    lines (c :: text) = consLine c (lines text) := rfl

theorem consLine_nil {c : Char} (hc : c ≠ '\n') : consLine c [] = [[c]] := by
  simp [consLine, hc]

theorem consLine_cons {c : Char} (hc : c ≠ '\n') (line : List Char) (more : List (List Char)) :
    consLine c (line :: more) = (c :: line) :: more := by
  simp [consLine, hc]

theorem lines_feed {line : List Char} (h : '\n' ∉ line) (rest : List Char) :
    lines (line ++ '\n' :: rest) = line :: lines rest := by
  induction line with
  | nil => rfl
  | cons c line ih =>
    obtain ⟨hc, hline⟩ := List.ne_and_not_mem_of_not_mem_cons h
    rw [List.cons_append, lines_cons, ih hline, consLine_cons hc.symm]

theorem lines_last {line : List Char} (hne : line ≠ []) (h : '\n' ∉ line) :
    lines line = [line] := by
  induction line with
  | nil => exact absurd rfl hne
  | cons c line ih =>
    obtain ⟨hc, hline⟩ := List.ne_and_not_mem_of_not_mem_cons h
    rw [lines_cons]
    cases line with
    | nil => exact consLine_nil hc.symm
    | cons d line => rw [ih (List.cons_ne_nil d line) hline, consLine_cons hc.symm]

/-- Every text has lines. -/
theorem exists_lines (text : List Char) : ∃ ls, Lines text ls := by
  induction text with
  | nil => exact ⟨[], .none⟩
  | cons c text ih =>
    obtain ⟨ls, hls⟩ := ih
    by_cases hc : c = '\n'
    · subst hc
      exact ⟨[] :: ls, .feed List.not_mem_nil (by simp) hls⟩
    · have hfree : ∀ {line : List Char}, '\n' ∉ line → '\n' ∉ c :: line := fun h =>
        List.not_mem_cons_of_ne_of_not_mem (Ne.symm hc) h
      cases hls with
      | none => exact ⟨[[c]], .last (List.cons_ne_nil c []) (hfree List.not_mem_nil)⟩
      | last hne hline => exact ⟨[c :: text], .last (List.cons_ne_nil c text) (hfree hline)⟩
      | @feed line rest ls hline hreturn hls =>
        by_cases hlast : (c :: line).getLast? = some '\r'
        · -- the line feed had nothing in front of it, and now it has a carriage return
          cases line with
          | nil =>
            obtain rfl : c = '\r' := by simpa using hlast
            exact ⟨[] :: ls, .carriage List.not_mem_nil hls⟩
          | cons d line =>
            rw [List.getLast?_cons_cons] at hlast
            exact absurd hlast hreturn
        · exact ⟨(c :: line) :: ls, .feed (hfree hline) hlast hls⟩
      | @carriage line rest ls hline hls => exact ⟨(c :: line) :: ls, .carriage (hfree hline) hls⟩

/-! ## Trimmed lines -/

/-- A text and what is left of it without the blanks at either end. -/
def Trimmed (text inner : List Char) : Prop :=
  ∃ w w', Blank w ∧ Blank w' ∧ text = w ++ inner ++ w' ∧
    Ends isBlank inner ∧ Ends isBlank inner.reverse

theorem trimmed_trim (text : List Char) : Trimmed text (trim text) := by
  obtain ⟨w, rest, rfl, hw, hrest⟩ := exists_run isBlank text
  obtain ⟨v, inner, hv, hblank, hinner⟩ := exists_run isBlank rest.reverse
  have hrest' : rest = inner.reverse ++ v.reverse := by
    rw [← List.reverse_append, ← hv, List.reverse_reverse]
  have htrim : trim (w ++ rest) = inner.reverse := by
    rw [trim, dropWhile_run hw hrest, hv, dropWhile_run hblank hinner]
  refine ⟨w, v.reverse, hw, Blank.reverse hblank, ?_, ?_, ?_⟩
  · rw [htrim, hrest', List.append_assoc]
  · -- the blanks in front are all gone, unless nothing but blanks was there
    rw [htrim]
    cases hi : inner.reverse with
    | nil => exact Ends.nil _
    | cons c more =>
      rw [hrest', hi] at hrest
      exact fun d hd => hrest d (by simpa using hd)
  · rwa [htrim, List.reverse_reverse]

theorem Trimmed.trim_eq {text inner : List Char} (h : Trimmed text inner) : trim text = inner := by
  obtain ⟨w, w', hw, hw', rfl, hfirst, hlast⟩ := h
  cases inner with
  | nil =>
    have hall : Blank (w ++ w') := hw.append hw'
    have hdrop := dropWhile_run hall (Ends.nil isBlank)
    rw [List.append_nil] at hdrop
    rw [List.append_nil, trim, hdrop]
    rfl
  | cons c more =>
    have hfront : Ends isBlank (c :: more ++ w') := hfirst
    rw [trim, List.append_assoc, dropWhile_run hw hfront, List.reverse_append,
      dropWhile_run hw'.reverse hlast, List.reverse_reverse]

theorem trimmed_iff {text inner : List Char} : Trimmed text inner ↔ trim text = inner :=
  ⟨Trimmed.trim_eq, fun h => h ▸ trimmed_trim text⟩

/-- Blanks around what has none are trimmed away. -/
theorem trim_padded {w w' inner : List Char} (hw : Blank w) (hw' : Blank w')
    (h : ∀ c ∈ inner, isBlank c = false) : trim (w ++ inner ++ w') = inner := by
  refine Trimmed.trim_eq ⟨w, w', hw, hw', rfl, fun c hc => ?_, fun c hc => ?_⟩
  · exact h c (List.mem_of_mem_head? hc)
  · exact h c (List.mem_reverse.mp (List.mem_of_mem_head? hc))

/-- A carriage return at the end of a line is trimmed away with the blanks. -/
theorem trim_carriage (line : List Char) : trim (line ++ ['\r']) = trim line := by
  obtain ⟨w, w', hw, hw', htext, hends⟩ := trimmed_trim line
  have hreturn : Blank ['\r'] := by decide
  refine Trimmed.trim_eq ⟨w, w' ++ ['\r'], hw, hw'.append hreturn, ?_, hends⟩
  rw [← List.append_assoc, ← htext]

/-- However the lines end, they are trimmed to the same. -/
theorem Lines.map_trim {text : List Char} {ls : List (List Char)} (h : Lines text ls) :
    (lines text).map trim = ls.map trim := by
  induction h with
  | none => rfl
  | last hne hfree => rw [lines_last hne hfree]
  | feed hfree _ _ ih => rw [lines_feed hfree, List.map_cons, ih, List.map_cons]
  | @carriage line rest ls hfree _ ih =>
    have hline : '\n' ∉ line ++ ['\r'] := by simpa using hfree
    have hsplit : line ++ '\r' :: '\n' :: rest = line ++ ['\r'] ++ '\n' :: rest := by simp
    rw [hsplit, lines_feed hline, List.map_cons, ih, trim_carriage, List.map_cons]

end Abacus.Text

namespace Abacus
open Text

/-! ## Expressions -/

/-- A trimmed line that is neither blank nor a comment. -/
def IsExpression (line : List Char) : Prop := line ≠ [] ∧ line.head? ≠ some '#'

instance (line : List Char) : Decidable (IsExpression line) :=
  inferInstanceAs (Decidable (line ≠ [] ∧ line.head? ≠ some '#'))

/-- A text and the expressions in it: its lines, trimmed, but for blank lines and comments. -/
def Script (text : List Char) (expressions : List (List Char)) : Prop :=
  ∃ ls trimmed, Lines text ls ∧ List.Forall₂ Trimmed ls trimmed ∧
    expressions = trimmed.filter (IsExpression ·)

theorem forall₂_trimmed_iff {ls trimmed : List (List Char)} :
    List.Forall₂ Trimmed ls trimmed ↔ ls.map trim = trimmed := by
  have heq : Trimmed = fun line inner => trim line = inner := by
    funext line inner
    exact propext trimmed_iff
  rw [heq, ← List.forall₂_map_left_iff, List.forall₂_eq_eq_eq]

/-- A text has the expressions that are evaluated for it, and no others. -/
theorem script_iff {text : List Char} {expressions : List (List Char)} :
    Script text expressions ↔ expressions = scriptExpressions text := by
  have hkept : (fun line : List Char => decide (IsExpression line)) =
      fun line => !line.isEmpty && line.head? != some '#' := by
    funext line
    cases line <;> simp [IsExpression, bne, Bool.beq_eq_decide_eq]
  constructor
  · rintro ⟨ls, trimmed, hls, htrimmed, rfl⟩
    rw [scriptExpressions, hls.map_trim, forall₂_trimmed_iff.mp htrimmed, ← hkept]
  · rintro rfl
    obtain ⟨ls, hls⟩ := exists_lines text
    refine ⟨ls, ls.map trim, hls, forall₂_trimmed_iff.mpr rfl, ?_⟩
    rw [scriptExpressions, hls.map_trim, ← hkept]

/-- Which blanks there are at the ends, and how a line ends, makes no difference. A blank line is
none of the expressions, and neither is a comment. -/
example : scriptExpressions "# sums\r\n\t1+2 \r\n\r\n \u2003\n#\n(3)".toList =
    ["1+2".toList, "(3)".toList] := by decide +kernel

end Abacus
