import Abacus.Evaluation

/-!
# Normal form of a sequence

The tokens of a range become one token, or none if there were none. A leading sign is folded
into the first operand, for which a negated group has to be evaluated at once; any other leading
operator is refused.
-/
namespace Abacus.Calculator

def isSign (symbol : String) : Bool := symbol = "+" || symbol = "-"

/-- The operand opposite to a token that stands at a depth. -/
def negate (k : Calculator) (depth : Nat) : Token → Except Failure Token
  | .operand x => .ok (.operand (-x))
  | .operator symbol => .error (.read (.leadingOperator symbol))
  | token@(.group _) => do
    let x ← (k.value (depth + 1) token).mapError .eval
    return .operand (-x)

/-- The tokens with a leading sign folded away. -/
def foldSign (k : Calculator) (depth : Nat) : List Token → Except Failure (List Token)
  | .operator symbol :: more =>
    match more with
    | [] => .error (.read (.leadingOperator symbol))
    | first :: more =>
      if !isSign symbol then .error (.read (.leadingOperator symbol))
      else if symbol = "-" then do return (← k.negate depth first) :: more
      else .ok (first :: more)
  | tokens => .ok tokens

/-- One token for a sequence; a sequence of several is a group. -/
def gather : List Token → Option Token
  | [] => none
  | [token] => some token
  | tokens => some (.group tokens)

def normalize (k : Calculator) (depth : Nat) (tokens : List Token) :
    Except Failure (Option Token) := do
  return gather (← k.foldSign depth tokens)

end Abacus.Calculator
