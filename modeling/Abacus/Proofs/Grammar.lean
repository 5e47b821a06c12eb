import Abacus.Calculator
import Abacus.Proofs.Arithmetic
import Abacus.Proofs.Reduction

/-!
# The grammar of arithmetic

    expression ::= [sign] series
    series     ::= operand (operator operand)*
    operand    ::= number | '(' expression ')'

Blanks may stand before, between and after the tokens. The meaning of an expression is the tree
of the operations that are applied: a leading minus is of the first operand alone, and a series
is reduced by its rises.
-/

namespace Abacus.Grammar
open Text

/-! ## Syntax -/

inductive Sign where
  | plus | minus
  deriving DecidableEq

/-- A sign is written like the operator. -/
def Sign.operator : Sign → Arithmetic
  | plus => .add
  | minus => .sub

/-- A run of numeric characters with the double that it reads as. -/
structure Number where
  literal : List Char
  value : Float
  numeric : ∀ c ∈ literal, isNumeric c = true
  reads : Double.ofText? literal = some value

mutual

inductive Expression where
  | plain (s : Series)
  | signed (sign : Sign) (s : Series)

inductive Series where
  | last (t : Operand)
  | link (t : Operand) (op : Arithmetic) (more : Series)

inductive Operand where
  | number (n : Number)
  | group (e : Expression)

end

mutual

/-- How deep the parentheses of an expression nest. -/
def Expression.nesting : Expression → Nat
  | .plain s | .signed _ s => s.nesting

def Series.nesting : Series → Nat
  | .last t => t.nesting
  | .link t _ more => max t.nesting more.nesting

def Operand.nesting : Operand → Nat
  | .number _ => 0
  | .group e => e.nesting + 1

end

mutual

/-- The texts of an expression. -/
inductive Expression.Written : Expression → List Char → Prop
  | plain {s : Series} {text : List Char} : s.Written text → Expression.Written (.plain s) text
  | signed {sign : Sign} {s : Series} {w text : List Char} : Blank w → s.Written text →
      Expression.Written (.signed sign s) (w ++ sign.operator.symbol.toList ++ text)

inductive Series.Written : Series → List Char → Prop
  | last {t : Operand} {w text w' : List Char} : Blank w → t.Written text → Blank w' →
      Series.Written (.last t) (w ++ text ++ w')
  | link {t : Operand} {op : Arithmetic} {more : Series} {w text w' rest : List Char} :
      Blank w → t.Written text → Blank w' → more.Written rest →
      Series.Written (.link t op more) (w ++ text ++ (w' ++ op.symbol.toList ++ rest))

inductive Operand.Written : Operand → List Char → Prop
  | number {n : Number} : Operand.Written (.number n) n.literal
  | group {e : Expression} {text : List Char} : e.Written text →
      Operand.Written (.group e) ('(' :: (text ++ [')']))

end

/-! ## Meaning -/

/-- The two levels of the operators: sums and differences are below all the others, and powers are
no higher than products. -/
def precedence : Arithmetic → Int
  | .add | .sub => 1
  | .mul | .div | .rem | .pow => 2

/-- The priorities of the operators are in the order of their levels. -/
theorem priority_lt_iff (op next : Arithmetic) :
    op.priority < next.priority ↔ precedence op < precedence next := by
  cases op <;> cases next <;> decide

/-- The operations that are applied, on numbers and on one another's results. -/
inductive Reduction where
  | number (x : Float)
  | negate (r : Reduction)
  | apply (op : Arithmetic) (left right : Reduction)

namespace Reduction

def value : Reduction → Float
  | number x => x
  | negate r => -r.value
  | apply op l r => op.result l.value r.value

/-- Somewhere a quotient is applied to a right operand of zero. -/
def dividesByZero : Reduction → Bool
  | number _ => false
  | negate r => r.dividesByZero
  | apply op l r => l.dividesByZero || r.dividesByZero || op.refuses r.value

/-- Operations on a first operand and further ones, as the rises of the chain say. -/
def ofChain (left : Reduction) (steps : List (Arithmetic × Reduction)) : Reduction :=
  Chain.nest (m := Id) precedence apply left steps

end Reduction

/-- A leading minus is of the first operand alone. -/
def Sign.apply : Sign → Reduction → Reduction
  | plus, r => r
  | minus, r => r.negate

mutual

def Expression.reduction : Expression → Reduction
  | .plain s => .ofChain s.first s.steps
  | .signed sign s => .ofChain (sign.apply s.first) s.steps

def Series.first : Series → Reduction
  | .last t | .link t _ _ => t.reduction

def Series.steps : Series → List (Arithmetic × Reduction)
  | .last _ => []
  | .link _ op more => (op, more.first) :: more.steps

def Operand.reduction : Operand → Reduction
  | .number n => .number n.value
  | .group e => e.reduction

end

/-! ## Texts of expressions -/

theorem Number.literal_ne_nil (n : Number) : n.literal ≠ [] := by
  intro h
  have hr := n.reads
  rw [h] at hr
  cases hr

/-- A digit is a number. -/
def Number.ofDigit (d : Fin 10) : Number where
  literal := [Nat.digitChar d]
  value := Float.ofNat d
  numeric := List.forall_mem_singleton.mpr (by decide +revert)
  reads := by decide +revert +kernel

/-- A character that occurs in the text of some expression. -/
def isGrammatical (c : Char) : Bool :=
  isBlank c || isNumeric c || c ∈ ['(', ')', '+', '-', '*', '/', '%', '^']

theorem grammatical_of_blank {w : List Char} (hw : Blank w) : ∀ c ∈ w, isGrammatical c = true := by
  intro c hc
  simp [isGrammatical, hw c hc]

theorem grammatical_symbol (op : Arithmetic) : ∀ c ∈ op.symbol.toList, isGrammatical c = true := by
  rw [op.symbol_toList]
  refine List.forall_mem_singleton.mpr ?_
  cases op <;> decide

theorem level_symbol (op : Arithmetic) : Level op.symbol.toList := by
  obtain ⟨ho, hc⟩ := OperatorTable.parenless_arithmetic op.symbol
    (OperatorTable.contains_arithmetic_iff.mpr ⟨op, rfl⟩)
  exact Level.of_parenless ho hc

mutual

/-- The text of an expression is level and has no other characters than the grammar's. -/
theorem Expression.Written.level : ∀ (e : Expression) {text : List Char}, e.Written text →
    Level text ∧ ∀ c ∈ text, isGrammatical c = true
  | .plain s, _, .plain h => Series.Written.level s h
  | .signed sign s, _, .signed hw h => by
    obtain ⟨hl, hg⟩ := Series.Written.level s h
    refine ⟨(hw.level.append (level_symbol sign.operator)).append hl, ?_⟩
    have hw := grammatical_of_blank hw
    have ho := grammatical_symbol sign.operator
    simp only [List.mem_append]
    grind

theorem Series.Written.level : ∀ (s : Series) {text : List Char}, s.Written text →
    Level text ∧ ∀ c ∈ text, isGrammatical c = true
  | .last t, _, .last hw h hw' => by
    obtain ⟨hl, hg⟩ := Operand.Written.level t h
    refine ⟨(hw.level.append hl).append hw'.level, ?_⟩
    have hw := grammatical_of_blank hw
    have hw' := grammatical_of_blank hw'
    simp only [List.mem_append]
    grind
  | .link t op more, _, .link hw h hw' hm => by
    obtain ⟨hl, hg⟩ := Operand.Written.level t h
    obtain ⟨hlm, hgm⟩ := Series.Written.level more hm
    refine ⟨(hw.level.append hl).append ((hw'.level.append (level_symbol op)).append hlm), ?_⟩
    have hw := grammatical_of_blank hw
    have hw' := grammatical_of_blank hw'
    have ho := grammatical_symbol op
    simp only [List.mem_append]
    grind

theorem Operand.Written.level : ∀ (t : Operand) {text : List Char}, t.Written text →
    Level text ∧ ∀ c ∈ text, isGrammatical c = true
  | .number n, _, .number => by
    refine ⟨level_of_numeric n.numeric, ?_⟩
    intro c hc
    simp [isGrammatical, n.numeric c hc]
  | .group e, _, .group h => by
    obtain ⟨hl, hg⟩ := Expression.Written.level e h
    refine ⟨hl.group, ?_⟩
    intro c hc
    simp only [List.mem_cons, List.mem_append, List.not_mem_nil, or_false] at hc
    rcases hc with rfl | hc | rfl
    · decide
    · exact hg c hc
    · decide

end

end Abacus.Grammar
