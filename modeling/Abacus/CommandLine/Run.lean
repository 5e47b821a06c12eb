import Abacus.CommandLine.Options
import Abacus.Expression

/-!
# Runs

A run of the program is a function of its arguments and of the file that they name. It prints
one value a line and ends at the first expression that has none.
-/
namespace Abacus
open Text

/-- What a run leaves behind: its exit status and what it printed on either channel. -/
structure Outcome where
  status : Nat
  output : String
  complaint : String
  deriving Repr, DecidableEq

/-- The expressions of a script: its lines, trimmed, but for blank lines and comments. -/
def scriptExpressions (script : List Char) : List (List Char) :=
  ((lines script).map trim).filter fun line => !line.isEmpty && line.head? != some '#'

namespace Options

def calculator (o : Options) : Calculator := { maxDepth := o.maxDepth }

/-- Expressions evaluated in turn, up to the first that fails. -/
def printAll (o : Options) : List (List Char) → Outcome
  | [] => ⟨0, "", ""⟩
  | expression :: more =>
    match o.calculator.textValueWith (Variables.lookup o.vars) expression with
    | .error e => ⟨1, "", e.message ++ "\n"⟩
    | .ok x =>
      let rest := o.printAll more
      { rest with output := String.ofList (Double.write x) ++ "\n" ++ rest.output }

/-- A run with the given options, where `file` holds the bytes of the file that the contents
name, if it can be read. -/
def run (o : Options) (file : Option ByteArray) : Outcome :=
  if o.file then
    match file.bind String.fromUTF8? with
    | some script => o.printAll (scriptExpressions script.toList)
    | none =>
      let name := o.contents
      ⟨1, "", s!"Failed to read the input file '{name}'. Perhaps this file does not exist?\n"⟩
  else o.printAll [o.contents.toList]

end Options

/-- A run of the program where `files` knows what the files that can be read hold. -/
def run (arguments : List String) (files : String → Option ByteArray) : Outcome :=
  match Options.ofArguments arguments with
  | .error e => ⟨2, "", e.message ++ "\n"⟩
  | .ok o => o.run (files o.contents)

end Abacus
