import Abacus.Reading
import Abacus.Substitution
import Abacus.Variables

/-!
# Expressions

From a text to its value: references are replaced, the text is read, and the token it amounts to
is evaluated. Nothing at all is worth zero.
-/
namespace Abacus.Calculator

/-- The value of a text without references. -/
def textValue (k : Calculator) (text : List Char) : Except Failure Float := do
  match ← k.token? text with
  | none => return 0.0
  | some token => (k.value 0 token).mapError .eval

/-- The value of a text in which names stand for what they are bound to. -/
def textValueWith (k : Calculator) (lookup : String → Option Float) (text : List Char) :
    Except Failure Float := do
  k.textValue (← (substitute lookup text).mapError .read)

/-- The value of an expression with variables from a collection; no expression is worth zero. -/
def evaluateWith {β : Type} [Variables β] (k : Calculator) (expression : Option String)
    (bindings : β) : Except Failure Float :=
  match expression with
  | none => .ok 0.0
  | some text => k.textValueWith (Variables.lookup bindings) text.toList

/-- The value of an expression without variables. -/
def evaluate (k : Calculator) (expression : String) : Except Failure Float :=
  k.evaluateWith (some expression) ([] : List (String × Float))

end Abacus.Calculator
