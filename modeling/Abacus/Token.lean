import Abacus.Positional

/-!
# Tokens

What a text is read into: numbers, operator symbols, and groups of tokens that stand for one
operand.
-/
namespace Abacus

inductive Token where
  | operand (value : Float)
  | operator (symbol : String)
  | group (tokens : List Token)

namespace Token

def operator? : Token → Option String
  | .operator symbol => some symbol
  | _ => none

mutual

/-- The text of a token. A group is its tokens with one space between them, in parentheses. -/
def text : Token → String
  | .operand value => String.ofList (Double.write value)
  | .operator symbol => symbol
  | .group [] => "()"
  | .group (first :: more) => "(" ++ first.text ++ spaced more ++ ")"

/-- Texts of tokens that each follow another. -/
def spaced : List Token → String
  | [] => ""
  | first :: more => " " ++ first.text ++ spaced more

end

end Token

end Abacus
