import Abacus.Calculator

/-!
# Evaluation

The value of a token: a number is its own value, and a group is a chain of operands joined by
operators. Any list of tokens has a value or an error; the error is that of the first token that
does not fit, or of the first operator that refuses its operands, whichever the reduction meets
first.
-/
namespace Abacus.Calculator

/-- The operator that a token names. -/
def operator (k : Calculator) : Token → Except EvalError Operator
  | .operator symbol =>
    match k.operators.get? symbol with
    | some op => .ok op
    | none => .error (.unknownOperator symbol)
  | token => .error (.operatorExpected token.text)

/-- Refuses what stands deeper than the limit, without evaluating it. -/
@[macro_inline] def guarded (k : Calculator) (depth : Nat) (x : Except EvalError Float) : Except EvalError Float :=
  if k.maxDepth < depth then .error (.tooDeep k.maxDepth) else x

mutual

/-- The value of a token that stands at a depth as an operand. -/
def value (k : Calculator) (depth : Nat) : Token → Except EvalError Float
  | .operand x => .ok x
  | .operator symbol => .error (.operandExpected symbol)
  | .group [] => k.guarded depth (.error (.missingOperand none))
  | .group (first :: more) => k.guarded depth do
    Chain.reduce k.operator (← k.value (depth + 1) first) (k.links (depth + 1) more)

/-- What follows the first operand, in pairs of an operator and the value of its operand. -/
def links (k : Calculator) (depth : Nat) : List Token → List (Token × Except EvalError Float)
  | [] => []
  | [t] => [(t, .error (.missingOperand t.operator?))]
  | t :: operand :: more => (t, k.value depth operand) :: k.links depth more

end

end Abacus.Calculator
