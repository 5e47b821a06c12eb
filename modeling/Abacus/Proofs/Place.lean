import Abacus.Proofs.Enclosure
import Abacus.Proofs.Nesting

/-!
# Places of errors

An error with an offset points at what it complains of, however deep in groups the reading was. A
group is read without a look at what is behind it, but this begins with the parenthesis that closes
the group: no symbol goes on over it, and no run of numeric characters does. What is in the group
closes all that it opens, so that an unclosed group is always one of the whole text.
-/

namespace Abacus
open Text

/-- What the error says stands in the text at the offset that it gives. Errors of variables, and
of rules, are none of a text that is read without rules. -/
def ReadError.Locates (t : OperatorTable) (text : List Char) : ReadError → Prop
  | .illegalText index => ∃ front c behind, text = front ++ c :: behind ∧ index = byteLength front ∧
      isBlank c = false ∧ isNumeric c = false ∧ c ≠ '(' ∧
      ∀ symbol, t.contains symbol = true → ¬symbol.toList <+: c :: behind
  | .unclosedGroup index => ∃ front behind, text = front ++ '(' :: behind ∧
      index = byteLength front ∧ ∀ inside after, behind = inside ++ ')' :: after → ¬Closes 0 inside
  | .emptyGroup index => ∃ front w behind, text = front ++ '(' :: (w ++ ')' :: behind) ∧
      index = byteLength front ∧ Blank w
  | .malformedNumber literal index => ∃ front run behind, text = front ++ run ++ behind ∧
      index = byteLength front ∧ literal = String.ofList run ∧ run ≠ [] ∧
      (∀ c ∈ run, isNumeric c = true) ∧ Ends isNumeric behind ∧ Double.ofText? run = none
  | .leadingOperator _ | .tooDeep _ => True
  | .undefinedVariable _ | .nonFiniteVariable _ | .stalledRule _ => False

/-! ## Ranges -/

/-- A text is cut in one way so many bytes from its start. -/
theorem byteLength_append_inj {a b a' b' : List Char} (h : a ++ b = a' ++ b')
    (hlength : byteLength a = byteLength a') : a = a' ∧ b = b' := by
  induction a generalizing a' with
  | nil =>
    cases a' with
    | nil => exact ⟨rfl, h⟩
    | cons c a' =>
      have := c.utf8Size_pos
      simp only [byteLength_nil, byteLength_cons] at hlength
      omega
  | cons c a ih =>
    cases a' with
    | nil =>
      have := c.utf8Size_pos
      simp only [byteLength_nil, byteLength_cons] at hlength
      omega
    | cons d a' =>
      obtain ⟨rfl, hmore⟩ := List.cons.inj h
      simp only [byteLength_cons] at hlength
      obtain ⟨rfl, rfl⟩ := ih hmore (by omega)
      exact ⟨rfl, rfl⟩

namespace Cursor

variable {c d : Cursor} {w rest : List Char}

/-- Behind the range there is nothing, or a closing parenthesis. -/
def Fenced (c : Cursor) : Prop := ∀ d ∈ c.beyond.head?, d = ')'

/-- The range is a whole text or the contents of a group, which close all that they open. -/
structure Enclosed (c : Cursor) : Prop where
  fenced : c.Fenced
  closes : c.beyond = [] ∨ Closes 0 c.rest

theorem fenced_whole (text : List Char) (depth : Nat) : (whole text depth).Fenced := by
  rintro d ⟨⟩

theorem enclosed_whole (text : List Char) (depth : Nat) : (whole text depth).Enclosed :=
  ⟨fenced_whole text depth, .inl rfl⟩

theorem input_whole (text : List Char) (depth : Nat) : (whole text depth).input = text := by
  simp [whole, input]

theorem index_take_append (hc : c.rest = w ++ rest) :
    (c.take w.length).index = byteLength (c.passed.reverse ++ w) := by
  rw [take_index, hc, List.take_left, byteLength_append, byteLength_reverse]
  rfl

theorem input_append (hc : c.rest = w ++ rest) :
    c.input = c.passed.reverse ++ w ++ (rest ++ c.beyond) := by
  rw [input, hc]
  simp

theorem Ahead.beyond (h : c.Ahead d) : d.beyond = c.beyond := by
  have hlength : ∀ c : Cursor, byteLength (c.passed.reverse ++ c.rest) = c.stop := by
    intro c
    rw [byteLength_append, byteLength_reverse]
    rfl
  have hstop : byteLength (d.passed.reverse ++ d.rest) =
      byteLength (c.passed.reverse ++ c.rest) := by
    rw [hlength, hlength, h.stop]
  exact (byteLength_append_inj h.input hstop).2

/-- Numbers do not go on behind the range. -/
theorem Fenced.ends_numeric (h : c.Fenced) (hrest : Ends isNumeric rest) :
    Ends isNumeric (rest ++ c.beyond) := by
  refine hrest.append fun d hd => ?_
  rw [h d hd]
  decide

/-- Symbols do not go on behind the range. -/
theorem Fenced.prefix_rest (h : c.Fenced) {symbol : List Char} (hp : ')' ∉ symbol)
    (hfront : symbol <+: rest ++ c.beyond) : symbol <+: rest := by
  cases hbeyond : c.beyond with
  | nil => rwa [hbeyond, List.append_nil] at hfront
  | cons d behind =>
    obtain rfl : d = ')' := h d (by rw [hbeyond]; rfl)
    rw [hbeyond] at hfront
    exact (prefix_append_cons_iff hp).mp hfront

/-- A group that is unclosed in the range is unclosed in the text. -/
theorem Enclosed.splitClose_eq_none (h : c.Enclosed) (hw : Blank w) (hc : c.rest = w ++ '(' :: rest)
    (hsplit : splitClose '(' ')' 0 rest = none) :
    splitClose '(' ')' 0 (rest ++ c.beyond) = none := by
  rcases h.closes with hnil | hcloses
  · rwa [hnil, List.append_nil]
  · have htotal := hcloses.total
    have hblank := hw.level.count_eq
    rw [hc] at htotal
    simp at htotal
    exact absurd hsplit (splitClose_ne_none (by omega))

end Cursor

namespace Calculator

variable {k : Calculator} {c d inside after : Cursor} {opening : Nat}

theorem group_of_step (h : k.step c = .group opening inside after) :
    c.next.group = .group opening inside after := by
  have h : k.stepAt c.next = .group opening inside after := h
  unfold stepAt at h
  split at h
  · cases h
  · split at h
    · unfold Rule.step at h
      split at h
      · cases h
      · split at h <;> cases h
    · split at h
      · unfold Cursor.number at h
        simp only at h
        split at h <;> cases h
      · split at h
        · cases h
        · split at h
          · exact h
          · cases h

theorem enclosed_of_group (h : k.step c = .group opening inside after) : inside.Enclosed := by
  have h := group_of_step h
  unfold Cursor.group at h
  split at h
  · cases h
  · rename_i hsplit
    cases h
    refine ⟨?_, .inr (closes_of_splitClose hsplit)⟩
    rintro d ⟨⟩
    rfl

theorem Round.fenced {p : Piece} (h : k.Round c p d) (hc : c.Fenced) : d.Fenced := by
  rw [Cursor.Fenced, h.spec.1.beyond]
  exact hc

theorem Round.enclosed (hk : k.rules = []) (hp : k.operators.Parenless) {p : Piece}
    (h : k.Round c p d) (hc : c.Enclosed) : d.Enclosed := by
  refine ⟨h.fenced hc.fenced, hc.closes.imp (fun hnil => h.spec.1.beyond.trans hnil) ?_⟩
  intro hcloses
  obtain ⟨piece, hpiece, hcount⟩ := h.exists_piece hk hp
  rw [hpiece] at hcloses
  constructor
  · have := hcloses.total
    simp at this
    omega
  · intro front hf
    have := hcloses.front (piece ++ front) ((List.prefix_append_right_inj piece).mpr hf)
    simp at this
    omega

/-! ## Errors -/

/-- The cause of a step that fails stands where the blanks end. -/
theorem locates_of_failed (hk : k.rules = []) (hp : k.operators.Parenless) (hc : c.Enclosed)
    {cause : ReadError} (h : k.step c = .failed cause) : cause.Locates k.operators c.input := by
  have hpasses := step_passes hk c
  rw [h] at hpasses
  cases hpasses with
  | @malformed w literal tail hw hne hl ht hx hrest =>
    rw [List.append_assoc] at hrest
    refine ⟨c.passed.reverse ++ w, literal, tail ++ c.beyond, ?_,
      Cursor.index_take_append hrest, rfl,
      hne, hl, hc.fenced.ends_numeric ht, hx⟩
    rw [Cursor.input_append hrest]
    simp
  | @unclosed w tail hw hsplit hrest =>
    refine ⟨c.passed.reverse ++ w, tail ++ c.beyond, Cursor.input_append hrest,
      Cursor.index_take_append hrest, ?_⟩
    exact splitClose_eq_none_iff.mp (hc.splitClose_eq_none hw hrest hsplit)
  | @illegal w tail d hw hb hn hd hs hrest =>
    refine ⟨c.passed.reverse ++ w, d, tail ++ c.beyond, Cursor.input_append hrest,
      Cursor.index_take_append hrest, hb, hn, hd, fun symbol hsymbol hfront => ?_⟩
    have hshort : symbol.toList <+: d :: tail := hc.fenced.prefix_rest (hp symbol hsymbol).2 hfront
    exact OperatorTable.longestMatch_eq_none_iff.mp hs symbol hsymbol hshort

/-- A group that amounts to nothing is blank. -/
theorem locates_of_empty (hk : k.rules = []) (h : k.step c = .group opening inside after)
    (hnone : k.normal? inside = .ok none) :
    (ReadError.emptyGroup opening).Locates k.operators c.input := by
  obtain ⟨ts, hts, hnormal⟩ := exists_of_bind_eq_ok hnone
  obtain rfl := eq_nil_of_normalize hnormal
  have hblank : Blank inside.rest := blank_of_tokensFrom hk (tokens_eq_ok_iff.mp hts).2
  have hadvances := k.step_advances c
  have hpasses := step_passes hk c
  rw [h] at hadvances hpasses
  obtain ⟨rfl, -⟩ := hadvances
  cases hpasses with
  | @group w _ _ _ hw _ hrest _ _ =>
    have hrest : c.rest = w ++ '(' :: (inside.rest ++ ')' :: after.rest) := by
      rw [hrest]
      simp
    have hnext : c.next = c.take w.length :=
      Cursor.skip_blank hw (by simp [Ends]; decide) hrest
    refine ⟨c.passed.reverse ++ w, inside.rest, after.rest ++ c.beyond, ?_, ?_, hblank⟩
    · rw [Cursor.input_append hrest]
      simp
    · rw [hnext, Cursor.index_take_append hrest]

theorem Fails.locates (hk : k.rules = []) (hp : k.operators.Parenless) {cause : Failure}
    (h : k.Fails c cause) (hc : c.Enclosed) :
    ∀ e, cause = .read e → e.Locates k.operators c.input := by
  induction h with
  | step hs =>
    rintro e ⟨⟩
    exact locates_of_failed hk hp hc hs
  | deep =>
    rintro e ⟨⟩
    trivial
  | inside hs _ _ ih =>
    rw [← (input_of_group hs).1]
    exact ih (enclosed_of_group hs)
  | normal _ _ hnormal =>
    rintro e rfl
    rcases error_of_normalize hnormal with ⟨symbol, he⟩ | ⟨_, _, _, _, _, he⟩
    · cases he
      trivial
    · cases he
  | empty hs hnone =>
    rintro e ⟨⟩
    exact locates_of_empty hk hs hnone
  | later hround _ ih =>
    rw [← hround.spec.1.input]
    exact ih (hround.enclosed hk hp hc)

theorem locates_of_textValue (hk : k.rules = []) (hp : k.operators.Parenless) {text : List Char}
    {cause : ReadError} (h : k.textValue text = .error (.read cause)) :
    cause.Locates k.operators text := by
  rcases error_of_textValue h with hfails | ⟨ts, -, hnormal | ⟨_, _, -, -, hcause⟩⟩
  · have := hfails.locates hk hp (Cursor.enclosed_whole text 0) cause rfl
    rwa [Cursor.input_whole] at this
  · rcases error_of_normalize hnormal with ⟨symbol, he⟩ | ⟨_, _, _, _, _, he⟩
    · cases he
      trivial
    · cases he
  · cases hcause

section expressions
variable {β : Type} [Variables β]

/-- An error of reading is one of a variable, or it points at its cause in the text that is left
when the variables have been replaced. -/
theorem evaluateWith_error_locates (k : Calculator) (hk : k.rules = [])
    (hp : k.operators.Parenless) (expression : Option String) (bindings : β) {cause : ReadError}
    (h : k.evaluateWith expression bindings = .error (.read cause)) :
    (∃ name, cause = .undefinedVariable name ∨ cause = .nonFiniteVariable name) ∨
    ∃ text, substitute (Variables.lookup bindings) (expression.getD "").toList = .ok text ∧
      cause.Locates k.operators text := by
  cases hs : substitute (Variables.lookup bindings) (expression.getD "").toList with
  | ok text =>
    rw [evaluateWith_eq_textValue hs] at h
    exact .inr ⟨text, rfl, locates_of_textValue hk hp h⟩
  | error e =>
    obtain ⟨name, he⟩ := error_of_substitute hs
    cases error_of_evaluateWith hs h
    exact .inl ⟨name, he⟩

end expressions

/-- The number in the inner group, behind characters of two bytes and what a variable stands for. -/
theorem evaluateWith_error_locates_inner : (joining "÷").rules = [] ∧
    (joining "÷").operators.Parenless ∧
    (joining "÷").evaluateWith (some "3 ÷ ($x - (1.2.3 ÷ 4))") [("x", (-2 : Float))] =
      .error (.read (.malformedNumber "1.2.3" 14)) ∧
    (ReadError.malformedNumber "1.2.3" 14).Locates (joining "÷").operators
      "3 ÷ ((-2) - (1.2.3 ÷ 4))".toList := by
  have hp : (joining "÷").operators.Parenless :=
    OperatorTable.parenless_arithmetic.insert (by decide) (by decide)
  have he : (joining "÷").evaluateWith (some "3 ÷ ($x - (1.2.3 ÷ 4))") [("x", (-2 : Float))] =
      .error (.read (.malformedNumber "1.2.3" 14)) := by decide +kernel
  have hs : substitute (Variables.lookup [("x", (-2 : Float))]) "3 ÷ ($x - (1.2.3 ÷ 4))".toList =
      .ok "3 ÷ ((-2) - (1.2.3 ÷ 4))".toList := by decide +kernel
  refine ⟨rfl, hp, he, ?_⟩
  rcases evaluateWith_error_locates _ rfl hp _ _ he with ⟨_, h | h⟩ | ⟨text, htext, hlocates⟩
  · cases h
  · cases h
  · cases hs.symm.trans htext
    exact hlocates

end Calculator

end Abacus
