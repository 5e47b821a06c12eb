import Abacus.Proofs.Denotation
import Abacus.Proofs.Layout
import Abacus.Proofs.Normal
import Abacus.Proofs.Separation
import Abacus.Proofs.Sequence

/-!
# Accepted texts

A text that has a value is blank or the text of an expression, unless there is a group in it of a
plus and an operator: the plus is dropped, and the group stands for the operator. From a value
follows how the tokens alternate, and from this how the pieces of the layout do.
-/

namespace Abacus
open Text Grammar

namespace Calculator

variable {k : Calculator} {depth : Nat}

/-! ## Tokens -/

/-- The token has a value at some depth. -/
def Worth (k : Calculator) (t : Token) : Prop := ∃ depth x, k.value depth t = .ok x

/-- Tokens that have values, joined by operators. -/
inductive Alternates (k : Calculator) : List Token → Prop
  | last {t : Token} : k.Worth t → Alternates k [t]
  | link {t : Token} {symbol : String} {ts : List Token} : k.Worth t → Alternates k ts →
      Alternates k (t :: .operator symbol :: ts)

theorem Worth.operator? {t : Token} (h : k.Worth t) : t.operator? = none := by
  obtain ⟨d, x, hx⟩ := h
  exact operator?_of_value hx

theorem alternates_of_worth {tokens : List Token} (h : k.Worth (.group tokens)) :
    k.Alternates tokens := by
  obtain ⟨d, v, hv⟩ := h
  obtain ⟨-, first, more, x, steps, rfl, hfirst, hx, hlinks⟩ := resolved_of_value hv
  clear hfirst hv
  have hworth : k.Worth first := ⟨d + 1, x, hx⟩
  clear hx
  induction hlinks generalizing first with
  | nil => exact .last hworth
  | @cons pair step more steps hp _ ih => exact .link hworth (ih pair.2 ⟨d + 1, step.2, hp.2.2⟩)

theorem alternates_of_gather {tokens : List Token} {t : Token} (hg : gather tokens = some t)
    (ht : k.Worth t) : k.Alternates tokens := by
  match tokens with
  | [] => cases hg
  | [u] =>
    cases hg
    exact .last ht
  | u :: u' :: more =>
    cases hg
    exact alternates_of_worth ht

theorem Alternates.exists_cons {tokens : List Token} (h : k.Alternates tokens) :
    ∃ t more, tokens = t :: more ∧ k.Worth t := by
  cases h with
  | last ht => exact ⟨_, _, rfl, ht⟩
  | link ht _ => exact ⟨_, _, rfl, ht⟩

/-- Only the first token changes when it is exchanged for one that has a value. -/
theorem Alternates.exchange {t u : Token} {more : List Token} (h : k.Alternates (t :: more))
    (hu : k.Worth u) : k.Alternates (u :: more) := by
  cases h with
  | last => exact .last hu
  | link _ h => exact .link hu h

theorem eq_of_gather_operator {tokens : List Token} {symbol : String}
    (h : gather tokens = some (.operator symbol)) : tokens = [.operator symbol] := by
  match tokens with
  | [] | _ :: _ :: _ => cases h
  | [t] =>
    cases h
    rfl

/-- The token of a normalized sequence has a value only if the sequence alternates, behind its
sign if it has one. -/
theorem alternates_of_normalize {tokens : List Token} {t : Token}
    (h : k.normalize depth tokens = .ok (some t)) (ht : k.Worth t) :
    k.Alternates tokens ∨ ∃ sign : Sign, ∃ more,
      tokens = .operator sign.operator.symbol :: more ∧ k.Alternates more := by
  obtain ⟨result, hf, hg⟩ := normalize_eq_ok_iff.mp h
  have ha := alternates_of_gather hg ht
  cases foldSign_eq_ok_iff.mp hf with
  | unsigned => exact .inl ha
  | plus first more => exact .inr ⟨.plus, first :: more, rfl, ha⟩
  | @minus first x more hx => exact .inr ⟨.minus, first :: more, rfl, ha.exchange ⟨_, x, hx⟩⟩

/-- A sequence is normalized to an operator only if it is a plus and the operator. -/
theorem eq_of_normalize_operator {tokens : List Token} {symbol : String}
    (h : k.normalize depth tokens = .ok (some (.operator symbol))) :
    tokens = [.operator "+", .operator symbol] := by
  obtain ⟨result, hf, hg⟩ := normalize_eq_ok_iff.mp h
  obtain rfl := eq_of_gather_operator hg
  cases foldSign_eq_ok_iff.mp hf with
  | unsigned hne => exact absurd rfl (hne symbol [])
  | plus => rfl

end Calculator

namespace Layout

variable {k : Calculator} {depth : Nat}

/-! ## Layouts -/

theorem text_infix_symbol (w : List Char) (s : String) (rest : Layout) :
    rest.text <:+: (symbol w s rest).text :=
  (List.suffix_append _ _).isInfix

theorem text_infix_group (w : List Char) (body rest : Layout) :
    body.text <:+: (group w body rest).text := by
  refine ⟨w ++ ['('], ')' :: rest.text, ?_⟩
  simp [text]

/-- An operator is yielded by its own symbol, unless a group stands for one. -/
theorem Yields.exists_symbol (ho : k.operators = .arithmetic) {depth : Nat} {l : Layout}
    {symbol : String} {ts : List Token} (h : l.Yields k depth (.operator symbol :: ts))
    (hno : ¬HasOperatorGroup l.text) :
    ∃ (w : List Char) (op : Arithmetic) (rest : Layout), Blank w ∧ symbol = op.symbol ∧
      l = .symbol w op.symbol rest ∧ rest.Yields k depth ts ∧ ¬HasOperatorGroup rest.text := by
  cases h with
  | @symbol _ w _ rest _ hw _ _ hs hy =>
    obtain ⟨op, rfl⟩ := OperatorTable.contains_arithmetic_iff.mp (ho ▸ hs.1)
    exact ⟨w, op, rest, hw, rfl, rfl, hy, fun h => hno (h.mono (text_infix_symbol ..))⟩
  | @group _ w body rest inner _ _ hw _ hb hn hy =>
    -- what stands for an operator is a plus and the operator, so the group is written as such
    exfalso
    obtain rfl := Calculator.eq_of_normalize_operator hn
    have hbody : ¬HasOperatorGroup body.text :=
      fun h => hno (h.mono (text_infix_group w body rest))
    obtain ⟨w₁, plus, more, hw₁, hplus, rfl, hmore, hno'⟩ := hb.exists_symbol ho hbody
    obtain ⟨w₂, op, more', hw₂, -, rfl, hmore', -⟩ := hmore.exists_symbol ho hno'
    obtain ⟨w₃, hw₃, rfl⟩ := hmore'.eq_blank
    refine hno ⟨op, w₁, w₂, w₃, hw₁, hw₂, hw₃, w, rest.text, ?_⟩
    simp [text, ← hplus]
termination_by sizeOf l

/-- Behind an operand there is nothing, or an operator and what alternates further. -/
theorem Yields.exists_link (ho : k.operators = .arithmetic) {rest : Layout} {t : Token}
    {ts : List Token} (h : rest.Yields k depth ts) (ha : k.Alternates (t :: ts))
    (hno : ¬HasOperatorGroup rest.text) :
    (∃ w, Blank w ∧ rest = .blank w) ∨
    ∃ w op more ts', Blank w ∧ rest = .symbol w (Arithmetic.symbol op) more ∧
      more.Yields k depth ts' ∧ k.Alternates ts' ∧ ¬HasOperatorGroup more.text := by
  cases ha with
  | last => exact .inl h.eq_blank
  | link _ ha =>
    obtain ⟨w, op, more, hw, -, rfl, hmore, hno⟩ := h.exists_symbol ho hno
    exact .inr ⟨w, op, more, _, hw, rfl, hmore, ha, hno⟩

-- The body of a group is less than the group; on one layout an operand comes before a series and
-- a series before an expression.
mutual

/-- A token that has a value is that of an operand. -/
theorem Yields.exists_operand (ho : k.operators = .arithmetic) {depth : Nat} {l : Layout}
    {t : Token} {ts : List Token} (h : l.Yields k depth (t :: ts)) (ht : k.Worth t)
    (hno : ¬HasOperatorGroup l.text) :
    ∃ (w : List Char) (operand : Operand) (written : List Char) (rest : Layout), Blank w ∧
      operand.Written written ∧ l.text = w ++ written ++ rest.text ∧ rest.Yields k depth ts ∧
      sizeOf rest < sizeOf l := by
  cases h with
  | @number _ w literal rest x _ hw _ hl _ hx hy =>
    refine ⟨w, .number ⟨literal, x, hl, hx⟩, literal, rest, hw, .number, rfl, hy, ?_⟩
    simp only [number.sizeOf_spec]
    omega
  | symbol => cases ht.operator?
  | @group _ w body rest inner _ _ hw _ hb hn hy =>
    have hbody : ¬HasOperatorGroup body.text :=
      fun h => hno (h.mono (text_infix_group w body rest))
    obtain ⟨e, he⟩ := hb.exists_expression ho hn ht hbody
    refine ⟨w, .group e, _, rest, hw, .group he, rfl, hy, ?_⟩
    simp only [group.sizeOf_spec]
    omega
termination_by (sizeOf l, 0)

/-- Where the tokens alternate, the text is that of a series. -/
theorem Yields.exists_series (ho : k.operators = .arithmetic) {depth : Nat} {l : Layout}
    {ts : List Token} (h : l.Yields k depth ts) (ha : k.Alternates ts)
    (hno : ¬HasOperatorGroup l.text) : ∃ s : Series, s.Written l.text := by
  obtain ⟨t, more, rfl, ht⟩ := ha.exists_cons
  obtain ⟨w, operand, written, rest, hw, hwritten, htext, hy, hlt⟩ := h.exists_operand ho ht hno
  have hrest : ¬HasOperatorGroup rest.text := by
    intro hg
    rw [htext] at hno
    exact hno (hg.mono (List.suffix_append _ _).isInfix)
  rw [htext]
  rcases hy.exists_link ho ha hrest with
    ⟨w', hw', rfl⟩ | ⟨w', op, tail, ts', hw', rfl, htail, ha', hno'⟩
  · exact ⟨.last operand, .last hw hwritten hw'⟩
  · have : sizeOf tail < sizeOf l := by
      simp only [symbol.sizeOf_spec] at hlt
      omega
    obtain ⟨s, hs⟩ := htail.exists_series ho ha' hno'
    exact ⟨.link operand op s, .link hw hwritten hw' hs⟩
termination_by (sizeOf l, 1)

/-- Where they amount to a token that has a value, the text is that of an expression. -/
theorem Yields.exists_expression (ho : k.operators = .arithmetic) {depth d : Nat} {l : Layout}
    {ts : List Token} {t : Token} (h : l.Yields k depth ts)
    (hn : k.normalize d ts = .ok (some t)) (ht : k.Worth t)
    (hno : ¬HasOperatorGroup l.text) : ∃ e : Expression, e.Written l.text := by
  rcases Calculator.alternates_of_normalize hn ht with ha | ⟨sign, more, rfl, ha⟩
  · obtain ⟨s, hs⟩ := h.exists_series ho ha hno
    exact ⟨.plain s, .plain hs⟩
  · obtain ⟨w, op, rest, hw, hsymbol, rfl, hy, hno⟩ := h.exists_symbol ho hno
    obtain ⟨s, hs⟩ := hy.exists_series ho ha hno
    refine ⟨.signed sign s, ?_⟩
    rw [text, ← hsymbol]
    exact .signed hw hs
termination_by (sizeOf l, 2)

end

end Layout

namespace Calculator

/-! ## Texts -/

/-- A text that has a value is blank or the text of an expression exactly if no group in it
stands for an operator. -/
theorem grammatical_iff_of_evaluate (maxDepth : Nat) (text : String) (v : Float)
    (hdollar : '$' ∉ text.toList) (hv : ({ maxDepth } : Calculator).evaluate text = .ok v) :
    (Blank text.toList ∨ ∃ e : Expression, e.Written text.toList) ↔
      ¬HasOperatorGroup text.toList := by
  constructor
  · rintro (hblank | ⟨e, he⟩)
    · have hopen : Separated '(' text.toList := separated_of_blank hblank (by decide)
      exact hopen.not_hasOperatorGroup
    · exact (Expression.Written.separated e '(' he (by decide)).not_hasOperatorGroup
  · intro hno
    rw [evaluate_of_not_mem _ hdollar, textValue] at hv
    obtain ⟨t?, ht, hv⟩ := exists_of_bind_eq_ok hv
    obtain ⟨ts, hts, hn⟩ := exists_of_bind_eq_ok ht
    obtain ⟨l, hl, hy⟩ := Layout.exists_yields rfl (tokens_eq_ok_iff.mp hts).2
    have hl : l.text = text.toList := hl
    rw [← hl] at hno ⊢
    cases t? with
    | none =>
      obtain rfl := eq_nil_of_normalize hn
      obtain ⟨w, hw, rfl⟩ := hy.eq_blank
      exact .inl hw
    | some t => exact .inr (hy.exists_expression rfl hn ⟨0, v, eq_ok_of_mapError hv⟩ hno)

theorem grammatical_iff_of_evaluate_grouped : '$' ∉ "2 (+*) 3".toList ∧
    ({} : Calculator).evaluate "2 (+*) 3" = .ok 6 ∧
      ((Blank "2 (+*) 3".toList ∨ ∃ e : Expression, e.Written "2 (+*) 3".toList) ↔
        ¬HasOperatorGroup "2 (+*) 3".toList) := by
  have hdollar : '$' ∉ "2 (+*) 3".toList := by decide
  have hv : ({} : Calculator).evaluate "2 (+*) 3" = .ok 6 := by decide +kernel
  exact ⟨hdollar, hv, grammatical_iff_of_evaluate ({} : Calculator).maxDepth _ _ hdollar hv⟩

/-- The product is taken although the text is not that of an expression. -/
theorem evaluate_ungrammatical : ({} : Calculator).evaluate "2 (+*) 3" = .ok 6 ∧
    '$' ∉ "2 (+*) 3".toList ∧ ¬Blank "2 (+*) 3".toList ∧
      ¬∃ e : Expression, e.Written "2 (+*) 3".toList := by
  refine ⟨by decide +kernel, by decide, by decide, ?_⟩
  rintro ⟨e, he⟩
  have hgroup : HasOperatorGroup "2 (+*) 3".toList :=
    ⟨.mul, [], [], [], by decide, by decide, by decide, ['2', ' '], [' ', '3'], by decide⟩
  exact (Expression.Written.separated e '(' he (by decide)).not_hasOperatorGroup hgroup

end Calculator

end Abacus
