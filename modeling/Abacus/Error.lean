/-!
# Errors

A text is refused either while it is read or while what was read is evaluated. Each error is the
cause of a refusal; `message` is the sentence that reports it.
-/
namespace Abacus

/-- Causes found in the text; an `index` is the byte offset of the offending place. -/
inductive ReadError where
  | undefinedVariable (name : String)
  | nonFiniteVariable (name : String)
  | illegalText (index : Nat)
  | leadingOperator (symbol : String)
  | malformedNumber (literal : String) (index : Nat)
  | unclosedGroup (index : Nat)
  | emptyGroup (index : Nat)
  | stalledRule (index : Nat)
  | tooDeep (limit : Nat)
  deriving Repr, DecidableEq

/-- Causes found while a sequence of tokens is reduced to a value. -/
inductive EvalError where
  | unknownOperator (symbol : String)
  | missingOperand (after : Option String)
  | operandExpected (found : String)
  | operatorExpected (found : String)
  | divisionByZero
  | refusedOperands (symbol details : String)
  | tooDeep (limit : Nat)
  deriving Repr, DecidableEq

inductive Failure where
  | read (e : ReadError)
  | eval (e : EvalError)
  deriving Repr, DecidableEq

def ReadError.message : ReadError → String
  | .undefinedVariable name => s!"Variable '{name}' is not defined."
  | .nonFiniteVariable name => s!"Variable '{name}' is not a finite number."
  | .illegalText index => s!"Error at offset {index}: Illegal expression."
  | .leadingOperator symbol => s!"Illegal expression: '{symbol}' cannot start an expression."
  | .malformedNumber literal index => s!"Error at offset {index}: Invalid number: {literal}."
  | .unclosedGroup index =>
    s!"Error at offset {index}: Expected closing parenthesis ')' but none found."
  | .emptyGroup index => s!"Error at offset {index}: Parentheses enclose an empty expression."
  | .stalledRule index => s!"Error at offset {index}: Token parser matched but consumed no input."
  | .tooDeep limit => s!"Parentheses are nested deeper than the limit of {limit}."

def EvalError.message : EvalError → String
  | .unknownOperator symbol => s!"The '{symbol}' operator was not found."
  | .missingOperand (some symbol) => s!"Expected an operand after '{symbol}'."
  | .missingOperand none => "Expected an operand."
  | .operandExpected found => s!"Expected an operand but found '{found}'."
  | .operatorExpected found => s!"Expected an operator but found '{found}'."
  | .divisionByZero => "Division by zero."
  | .refusedOperands symbol details => s!"Invalid operands for '{symbol}': {details}."
  | .tooDeep limit => s!"Groups are nested deeper than the limit of {limit}."

def Failure.message : Failure → String
  | .read e => e.message
  | .eval e => e.message

end Abacus
