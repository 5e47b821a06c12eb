import Abacus.Calculator
import Abacus.CommandLine.Binding

/-!
# Options

The arguments of the program: `-f` or `--file`, any number of `-v NAME=VALUE` or `--var`, at
most one `--max-depth N`, and the contents, exactly once and anywhere. A value follows its
option as the next argument or is attached to it; short options may be joined, and behind `--`
everything is contents.

Arguments are taken from the left. An attached value is checked at once, but an option whose value
is an argument of its own stays pending, and is checked with that value when the next option or
the contents are taken, or at the end. So an argument that cannot be taken at all, an unknown
option or more contents, is the error even behind a pending option that is wrong.
-/
namespace Abacus

inductive UsageError where
  | missingContents
  | unknownArgument (argument : String)
  | repeatedOption (option : String)
  | missingValue (option : String)
  | unexpectedValue (option : String)
  | refusedValue (option reason : String)
  deriving Repr, DecidableEq

def UsageError.message : UsageError → String
  | .missingContents => "error: the contents are missing"
  | .unknownArgument argument => s!"error: unexpected argument '{argument}'"
  | .repeatedOption option => s!"error: '{option}' cannot be used more than once"
  | .missingValue option => s!"error: '{option}' needs a value"
  | .unexpectedValue option => s!"error: '{option}' takes no value"
  | .refusedValue option reason => s!"error: invalid value for '{option}': {reason}"

structure Options where
  file : Bool
  vars : List (String × Float)
  maxDepth : Nat
  contents : String

namespace Options

/-- An option as it is written: a long name, with or without a value attached to it, or joined
letters, the last of which may go over into a value. -/
inductive Switch where
  | long (name : String) (value : Option String)
  | short (letters : List Char)

/-- An argument by its form. -/
inductive Argument where
  | plain (text : String)
  | terminator
  | switch (s : Switch)

/-- A dash alone is plain. -/
def Argument.ofString (text : String) : Argument :=
  match text.toList with
  | ['-', '-'] => .terminator
  | '-' :: '-' :: option =>
    match Text.splitAt? '=' option with
    | some (name, value) => .switch (.long (String.ofList name) (some (String.ofList value)))
    | none => .switch (.long (String.ofList option) none)
  | '-' :: letter :: more => .switch (.short (letter :: more))
  | _ => .plain text

/-- The options that take a value. -/
inductive Setting where
  | var
  | maxDepth

def Setting.name : Setting → String
  | .var => "--var"
  | .maxDepth => "--max-depth"

/-- An option whose value is an argument of its own, which may still be to come. -/
structure Pending where
  setting : Setting
  value : Option String

/-- What the arguments so far have said. -/
structure Draft where
  file : Bool := false
  vars : List (String × Float) := []
  maxDepth : Option Nat := none
  contents : Option String := none
  pending : Option Pending := none

/-- A whole number of at most sixty-four bits, with or without a plus. -/
def limit? (text : String) : Option Nat :=
  let digits := match text.toList with
    | '+' :: rest => rest
    | rest => rest
  let n := Numeral.ofDigits digits
  if !digits.isEmpty && digits.all Char.isDigit && n < Nat.pow 2 64 then some n else none

namespace Draft

def set (d : Draft) (value : String) : Setting → Except UsageError Draft
  | .var =>
    match binding value with
    | .ok pair => .ok { d with vars := d.vars ++ [pair] }
    | .error e => .error (.refusedValue Setting.var.name e.message)
  | .maxDepth =>
    if d.maxDepth.isSome then .error (.repeatedOption Setting.maxDepth.name)
    else match limit? value with
      | some n => .ok { d with maxDepth := some n }
      | none => .error (.refusedValue Setting.maxDepth.name "not a limit")

/-- Checks the pending option. -/
def settle (d : Draft) : Except UsageError Draft :=
  match d.pending with
  | none => .ok d
  | some ⟨setting, none⟩ => .error (.missingValue setting.name)
  | some ⟨setting, some value⟩ => { d with pending := none }.set value setting

def addFile (d : Draft) : Except UsageError Draft := do
  let d ← d.settle
  if d.file then .error (.repeatedOption "--file") else return { d with file := true }

/-- A setting with the value attached to it. Without one it is pending. -/
def addSetting (d : Draft) (setting : Setting) : Option String → Except UsageError Draft
  | none => do return { ← d.settle with pending := some ⟨setting, none⟩ }
  | some value => do (← d.settle).set value setting

/-- More contents are refused before anything pending is checked. -/
def addContents (d : Draft) (text : String) : Except UsageError Draft :=
  if d.contents.isSome then .error (.unknownArgument text)
  else do return { ← d.settle with contents := some text }

/-- The value that a pending option lacks, or else the contents. -/
def addPlain (d : Draft) (text : String) : Except UsageError Draft :=
  match d.pending with
  | some ⟨setting, none⟩ => .ok { d with pending := some ⟨setting, some text⟩ }
  | _ => d.addContents text

/-- Joined short options. What is behind one that takes a value is the value, but for an equals
sign between them. -/
def addShort (d : Draft) (argument : String) : List Char → Except UsageError Draft
  | [] => .ok d
  | 'f' :: more => do (← d.addFile).addShort argument more
  | ['v'] => d.addSetting .var none
  | 'v' :: '=' :: value => d.addSetting .var (some (String.ofList value))
  | 'v' :: value => d.addSetting .var (some (String.ofList value))
  | _ => .error (.unknownArgument argument)

/-- An option by its long name. -/
def addLong (d : Draft) (argument name : String) (value : Option String) :
    Except UsageError Draft :=
  match name, value with
  | "file", none => d.addFile
  | "file", some _ => .error (.unexpectedValue "--file")
  | "var", value => d.addSetting .var value
  | "max-depth", value => d.addSetting .maxDepth value
  | _, _ => .error (.unknownArgument argument)

def addSwitch (d : Draft) (argument : String) : Switch → Except UsageError Draft
  | .long name value => d.addLong argument name value
  | .short letters => d.addShort argument letters

/-- All of some arguments. Behind the terminator none is the value of an option. -/
def addAll (d : Draft) : List String → Except UsageError Draft
  | [] => d.settle
  | argument :: rest =>
    match Argument.ofString argument with
    | .plain text => do (← d.addPlain text).addAll rest
    | .terminator => do (← rest.foldlM addContents d).settle
    | .switch s => do (← d.addSwitch argument s).addAll rest

end Draft

/-- What all the arguments of a run say. -/
def ofArguments (arguments : List String) : Except UsageError Options := do
  let d ← Draft.addAll {} arguments
  match d.contents with
  | none => .error .missingContents
  | some contents =>
    return { file := d.file, vars := d.vars, maxDepth := d.maxDepth.getD defaultMaxDepth, contents }

end Options

end Abacus
