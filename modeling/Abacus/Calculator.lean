import Abacus.Arithmetic
import Abacus.Rule

/-!
# Calculators

A calculator is what the meaning of a text depends on: the operators, the token rules, and how
deep groups may be nested.
-/
namespace Abacus

/-- The limit on nesting where none is given. -/
def defaultMaxDepth : Nat := 256

structure Calculator where
  operators : OperatorTable := .arithmetic
  rules : List Rule := []
  maxDepth : Nat := defaultMaxDepth

namespace Calculator

def withOperator (k : Calculator) (symbol : String) (op : Operator) : Calculator :=
  { k with operators := k.operators.insert symbol op }

def withRule (k : Calculator) (rule : Rule) (wanted : Option Nat) : Calculator :=
  { k with rules := Rule.insert k.rules rule wanted }

def withMaxDepth (k : Calculator) (maxDepth : Nat) : Calculator :=
  { k with maxDepth := maxDepth }

end Calculator

end Abacus
