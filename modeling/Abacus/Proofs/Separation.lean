import Mathlib.Data.List.Chain
import Abacus.Proofs.Grammar

/-!
# Operators apart

In the text of an expression, blanks aside, no operator comes right behind another: a series ends
with an operand, and so does whatever stands in front of an operator. A group of a sign and an
operator is therefore in no such text.
-/

namespace Abacus.Grammar
open Text

def isOperator (c : Char) : Bool := c ∈ ['+', '-', '*', '/', '%', '^']

/-- The characters are not both operators. -/
def Apart (a b : Char) : Prop := isOperator a = false ∨ isOperator b = false

def unspaced (text : List Char) : List Char := text.filter fun c => !isBlank c

/-- No operator of the text comes right behind another, nor does one that comes next, and the
first is not right behind the character before the text. -/
def Separated (before : Char) (text : List Char) : Prop :=
  ∀ next, (before :: (unspaced text ++ [next])).IsChain Apart

theorem isOperator_char (op : Arithmetic) : isOperator op.char = true := by
  cases op <;> rfl

theorem unspaced_append (text more : List Char) :
    unspaced (text ++ more) = unspaced text ++ unspaced more :=
  List.filter_append ..

theorem unspaced_blank {w : List Char} (hw : Blank w) : unspaced w = [] := by
  refine List.filter_eq_nil_iff.mpr ?_
  intro c hc
  simp [hw c hc]

theorem unspaced_cons {c : Char} (hc : isBlank c = false) (text : List Char) :
    unspaced (c :: text) = c :: unspaced text := by
  simp [unspaced, hc]

theorem unspaced_symbol (op : Arithmetic) : unspaced op.symbol.toList = [op.char] := by
  rw [op.symbol_toList, unspaced_cons op.not_blank_char]
  rfl

theorem not_operator_of_numeric {c : Char} (h : isNumeric c = true) : isOperator c = false := by
  cases ho : isOperator c with
  | false => rfl
  | true =>
    simp only [isOperator, List.mem_cons, List.not_mem_nil, or_false, decide_eq_true_eq] at ho
    rcases ho with rfl | rfl | rfl | rfl | rfl | rfl <;> exact absurd h (by decide)

variable {before : Char} {text more : List Char}

/-- Blanks around a text do not matter. -/
theorem Separated.spaced {w w' : List Char} (h : Separated before text) (hw : Blank w)
    (hw' : Blank w') : Separated before (w ++ text ++ w') := by
  intro next
  rw [unspaced_append, unspaced_append, unspaced_blank hw, unspaced_blank hw', List.nil_append,
    List.append_nil]
  exact h next

/-- Two texts may be joined by a character that is right for both. -/
theorem Separated.join {c : Char} (hc : isBlank c = false) (h : Separated before text)
    (h' : Separated c more) : Separated before (text ++ c :: more) := by
  intro next
  rw [unspaced_append, unspaced_cons hc, List.append_assoc, List.cons_append, ← List.cons_append,
    List.isChain_split]
  exact ⟨h c, h' next⟩

theorem separated_of_blank {w : List Char} (hw : Blank w) (h : isOperator before = false) :
    Separated before w := by
  intro next
  rw [unspaced_blank hw]
  exact List.isChain_pair.mpr (.inl h)

theorem Separated.cons {c : Char} (hb : isBlank c = false) (ho : isOperator c = false)
    (h : Separated c text) : Separated before (c :: text) := by
  intro next
  rw [unspaced_cons hb, List.cons_append, List.isChain_cons_cons]
  exact ⟨.inr ho, h next⟩

theorem separated_of_numeric (hne : text ≠ []) (h : ∀ c ∈ text, isNumeric c = true) :
    Separated before text := by
  induction text generalizing before with
  | nil => exact absurd rfl hne
  | cons c text ih =>
    have hc : isNumeric c = true := h c (by simp)
    have ho := not_operator_of_numeric hc
    refine Separated.cons (isBlank_of_isNumeric hc) ho ?_
    cases text with
    | nil => exact separated_of_blank (by decide) ho
    | cons d text =>
      refine ih (by simp) ?_
      intro x hx
      exact h x (List.mem_cons_of_mem c hx)

mutual

/-- An expression is separated behind anything that is not an operator. -/
theorem Expression.Written.separated : ∀ (e : Expression) {text : List Char} (before : Char),
    e.Written text → isOperator before = false → Separated before text
  | .plain s, _, before, .plain h, _ => Series.Written.separated s before h
  | .signed sign s, _, before, .signed hw h, hb => by
    have hs := Series.Written.separated s sign.operator.char h
    rw [Arithmetic.symbol_toList, List.append_assoc, List.singleton_append]
    exact (separated_of_blank hw hb).join sign.operator.not_blank_char hs

theorem Series.Written.separated : ∀ (s : Series) {text : List Char} (before : Char),
    s.Written text → Separated before text
  | .last t, _, before, .last hw h hw' => (Operand.Written.separated t before h).spaced hw hw'
  | .link t op more, _, before, .link hw h hw' hm => by
    have ht := (Operand.Written.separated t before h).spaced hw hw'
    have hrest := ht.join op.not_blank_char (Series.Written.separated more op.char hm)
    simpa [Arithmetic.symbol_toList] using hrest

theorem Operand.Written.separated : ∀ (t : Operand) {text : List Char} (before : Char),
    t.Written text → Separated before text
  | .number n, _, before, .number => separated_of_numeric n.literal_ne_nil n.numeric
  | .group e, _, before, .group h => by
    have hbody := Expression.Written.separated e '(' h (by decide)
    have hend : Separated ')' [] := separated_of_blank (by decide) (by decide)
    exact (hbody.join (by decide) hend).cons (by decide) (by decide)

end

/-- A group of nothing but a plus and an operator. -/
def HasOperatorGroup (text : List Char) : Prop :=
  ∃ (op : Arithmetic) (w w' w'' : List Char), Blank w ∧ Blank w' ∧ Blank w'' ∧
    '(' :: (w ++ '+' :: (w' ++ op.symbol.toList ++ w'' ++ [')'])) <:+: text

theorem HasOperatorGroup.mono {text text' : List Char} (h : HasOperatorGroup text)
    (hpart : text <:+: text') : HasOperatorGroup text' := by
  obtain ⟨op, w, w', w'', hw, hw', hw'', hgroup⟩ := h
  exact ⟨op, w, w', w'', hw, hw', hw'', hgroup.trans hpart⟩

theorem Separated.not_hasOperatorGroup (h : Separated before text) : ¬HasOperatorGroup text := by
  rintro ⟨op, w, w', w'', -, hw', -, left, right, htext⟩
  -- behind the parenthesis and in front of the last blanks there are only the two operators
  have hpart : '+' :: (w' ++ op.symbol.toList) <:+: text := by
    refine ⟨left ++ '(' :: w, w'' ++ ')' :: right, ?_⟩
    rw [← htext]
    simp
  have hpair : ['+', op.char] <:+: before :: (unspaced text ++ ['(']) := by
    have hfilter := hpart.filter fun c => !isBlank c
    have hplus : unspaced ('+' :: (w' ++ op.symbol.toList)) = ['+', op.char] := by
      rw [unspaced_cons (by decide), unspaced_append, unspaced_blank hw', unspaced_symbol]
      rfl
    rw [← hplus]
    refine hfilter.trans ⟨[before], ['('], ?_⟩
    rfl
  have happart := List.isChain_pair.mp <| List.IsChain.infix (h '(') hpair
  rcases happart with hp | ho
  · exact absurd hp (by decide)
  · rw [isOperator_char] at ho
    cases ho

end Abacus.Grammar
