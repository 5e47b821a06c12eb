import Abacus.Numeral
import Abacus.Text

/-!
# Bindings

`NAME=VALUE` on the command line. The name may be written with the `$` of a reference, and
blanks around either part do not count.
-/
namespace Abacus
open Text

inductive BindingError where
  | noEqualsSign (text : String)
  | invalidName (name : String)
  | emptyValue (name : String)
  | invalidValue (name : String)
  deriving Repr, DecidableEq

def BindingError.message : BindingError → String
  | .noEqualsSign text => s!"expected NAME=VALUE, found '{text}'"
  | .invalidName name => s!"invalid variable name '{name}'"
  | .emptyValue name => s!"invalid value for '{name}': cannot parse float from empty string"
  | .invalidValue name => s!"invalid value for '{name}': invalid float literal"

/-- The name and the value that a binding gives it. -/
def binding (text : String) : Except BindingError (String × Float) :=
  match splitAt? '=' text.toList with
  | none => .error (.noEqualsSign text)
  | some (left, right) =>
    let name := (trim left).dropWhile (· = '$')
    let value := trim right
    if name.isEmpty || !name.all isNameChar then .error (.invalidName (String.ofList name))
    else if value.isEmpty then .error (.emptyValue (String.ofList name))
    else match Double.ofText? value with
      | none => .error (.invalidValue (String.ofList name))
      | some x => .ok (String.ofList name, x)

end Abacus
