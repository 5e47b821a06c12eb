import Abacus.Scan
import Abacus.Token

/-!
# Token rules

A rule extends the notation: where the next character is one that it accepts, it reads the token
that stands there. Rules are tried in order and the first that accepts is used.
-/
namespace Abacus

structure Rule where
  accepts : Char → Bool
  read : Scan Token

namespace Rule

/-- Where a rule is put: at the wanted position if the list reaches that far, else at the end. -/
def position (rules : List Rule) (wanted : Option Nat) : Nat :=
  (wanted.filter (· ≤ rules.length)).getD rules.length

def insert (rules : List Rule) (rule : Rule) (wanted : Option Nat) : List Rule :=
  rules.insertIdx (position rules wanted) rule

def find? (rules : List Rule) (c : Char) : Option Rule := rules.find? (·.accepts c)

end Rule

end Abacus
