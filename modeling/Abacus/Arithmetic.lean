import Abacus.Double
import Abacus.Operator

/-!
# Arithmetic

The operators that every table starts with.
-/
namespace Abacus

inductive Arithmetic where
  | add | sub | mul | div | rem | pow
  deriving Repr, DecidableEq

namespace Arithmetic

def all : List Arithmetic := [.add, .sub, .mul, .div, .rem, .pow]

def symbol : Arithmetic → String
  | .add => "+"
  | .sub => "-"
  | .mul => "*"
  | .div => "/"
  | .rem => "%"
  | .pow => "^"

def additivePriority : Int := 10

/-- Powers share the priority of products. -/
def multiplicativePriority : Int := 100

def priority : Arithmetic → Int
  | .add | .sub => additivePriority
  | .mul | .div | .rem | .pow => multiplicativePriority

/-- Only a quotient by zero is refused; the remainder by zero is no number. -/
def compute (op : Arithmetic) (left right : Float) : Except EvalError Float :=
  match op with
  | .add => .ok (left + right)
  | .sub => .ok (left - right)
  | .mul => .ok (left * right)
  | .div => if right == 0.0 then .error .divisionByZero else .ok (left / right)
  | .rem => .ok (Double.remainder left right)
  | .pow => .ok (left.pow right)

def operator (op : Arithmetic) : Operator := ⟨op.priority, op.compute⟩

end Arithmetic

/-- The table of arithmetic. -/
def OperatorTable.arithmetic : OperatorTable :=
  Arithmetic.all.foldl (fun t op => t.insert op.symbol op.operator) .empty

end Abacus
