import Abacus.Error
import Abacus.Positional
import Abacus.Text

/-!
# Substitution

A reference is a `$` and the longest name behind it. Before a text is read, every reference is
replaced by a literal of its value; a `$` without a name stays, and what was put in is not looked
at again. The first reference without a finite value is an error.
-/
namespace Abacus
open Text

/-- The finite value of a name. -/
def finiteValue (lookup : String → Option Float) (name : String) : Except ReadError Float :=
  match lookup name with
  | none => .error (.undefinedVariable name)
  | some x => if x.isFinite then .ok x else .error (.nonFiniteVariable name)

def substitute (lookup : String → Option Float) (text : List Char) :
    Except ReadError (List Char) :=
  match text with
  | [] => .ok []
  | c :: rest =>
    let name := rest.takeWhile isNameChar
    if c = '$' ∧ name ≠ [] then do
      let x ← finiteValue lookup (String.ofList name)
      return Double.literal x ++ (← substitute lookup (rest.dropWhile isNameChar))
    else do
      return c :: (← substitute lookup rest)
termination_by text.length
decreasing_by
  · have := (List.dropWhile_suffix isNameChar (l := rest)).length_le
    simp only [List.length_cons]
    omega
  · simp

end Abacus
