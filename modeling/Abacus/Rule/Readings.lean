import Abacus.Rule

/-!
# Ready-made readings

Scans from which rules are commonly built: a token that stands for whatever comes next, so many
characters or so many bytes.
-/
namespace Abacus.Scan

/-- Over `n` characters. -/
def bumps : Nat → Scan Unit
  | 0 => .done ()
  | n + 1 => .move .bump (bumps n)

/-- The token that stands for the next `n` characters, whatever they are. -/
def constant (n : Nat) (token : Token) : Scan Token := do
  bumps n
  return token

/-- The token that stands for the next bytes, whatever they are. -/
def covering (bytes : Nat) (token : Token) : Scan Token := do
  advance bytes
  return token

/-- The number one in as many groups of one token. -/
def nestedOne : Nat → Token
  | 0 => .operand 1.0
  | n + 1 => .group [nestedOne n]

def nested (levels : Nat) : Scan Token := constant 1 (nestedOne levels)

end Abacus.Scan
