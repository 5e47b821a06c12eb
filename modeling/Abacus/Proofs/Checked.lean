import Abacus.Expression
import Abacus.Proofs.Offsets

/-!
# The checked program

From a text to its value once more, by offsets and in the order in which a program goes: each sum of
offsets or depths, each slice of a text and each access to a list fails where it has no result, and
recursion that does not end has none either.
-/

namespace Abacus
open Text

/-! ## Lists -/

/-- The list without what stands at an index. -/
def remove? {α : Type} (xs : List α) (i : Nat) : Option (List α) :=
  if i < xs.length then some (xs.eraseIdx i) else none

/-- The list with something else at an index. -/
def replace? {α : Type} (xs : List α) (i : Nat) (x : α) : Option (List α) :=
  if i < xs.length then some (xs.set i x) else none

/-! ## Substitution -/

/-- What has been put out of a text, and what is left of it. -/
structure Draft where
  output : List Char
  rest : List Char

/-- A draft when all that is left of it has been substituted. -/
def Draft.finish? (draft : Draft) (lookup : String → Option Float) :
    Checked ReadError (List Char) := do
  match find? (· = '$') draft.rest with
  | none => return draft.output ++ draft.rest
  | some dollar =>
    let front ← slice? draft.rest 0 dollar
    let after ← slice? draft.rest (← add? dollar 1) (byteLength draft.rest)
    let length := (find? (!isNameChar ·) after).getD (byteLength after)
    if length = 0 then Draft.mk (draft.output ++ front ++ ['$']) after |>.finish? lookup
    else
      let name ← slice? after 0 length
      let x ← finiteValue lookup (String.ofList name)
      let rest ← slice? after length (byteLength after)
      Draft.mk (draft.output ++ front ++ Double.literal x) rest |>.finish? lookup
partial_fixpoint

def substitute? (lookup : String → Option Float) (text : List Char) :
    Checked ReadError (List Char) :=
  if '$' ∈ text then (Draft.mk [] text).finish? lookup else return text

/-! ## Tokens -/

/-- The lexeme at the start of what is ahead. -/
def Offsets.lexeme? (o : Offsets) : Option (Option (Lexeme × List Char)) := do
  return Lexeme.classify (← o.remaining?)

/-- The number that so many bytes make. -/
def Offsets.number? (o : Offsets) (length : Nat) :
    Checked Failure (Option (Token × Offsets)) := do
  let literal ← slice? (← o.remaining?) 0 length
  match Double.ofText? literal with
  | none => throw (.read (.malformedNumber (String.ofList literal) o.index))
  | some x => return some (.operand x, ← o.advance? length)

/-- The token that a rule reads. -/
def Rule.step? (rule : Rule) (o : Offsets) : Checked Failure (Option (Token × Offsets)) := do
  let (t, after) ← (rule.read.run? o).adapt Failure.read
  if after.index = o.index then throw (.read (.stalledRule o.index))
  else return some (t, after)

namespace Calculator

/-! ## Evaluation -/

/-- The priority of the operator that comes next, if a token does. -/
def nextPriority (k : Calculator) : List Token → Except EvalError (Option Int)
  | [] => .ok none
  | t :: _ => (k.operator t).map fun op => some op.priority

mutual

def value? (k : Calculator) (depth : Nat) : Token → Checked EvalError Float
  | .operand x => return x
  | .operator symbol => throw (.operandExpected symbol)
  | .group ts => k |>.sequence? depth ts
partial_fixpoint

/-- The value of the tokens in a group. -/
def sequence? (k : Calculator) (depth : Nat) (ts : List Token) : Checked EvalError Float := do
  if k.maxDepth < depth then throw (.tooDeep k.maxDepth)
  else
    let (left, rest) ← k |>.operand? depth none ts
    k |>.climb? depth left rest
partial_fixpoint

/-- The value of the first token and the tokens behind it. -/
def operand? (k : Calculator) (depth : Nat) (after : Option String) :
    List Token → Checked EvalError (Float × List Token)
  | [] => throw (.missingOperand after)
  | .operator symbol :: _ => throw (.operandExpected symbol)
  | t :: rest => do return (← k |>.value? (← add? depth 1) t, rest)
partial_fixpoint

/-- The value to which operators and operands lead from the one on the left. -/
def climb? (k : Calculator) (depth : Nat) (left : Float) : List Token → Checked EvalError Float
  | [] => return left
  | t :: more => do
    let op ← k.operator t
    let (right, rest) ← k |>.operand? depth t.operator? more
    let next ← k.nextPriority rest
    if next.any (op.priority < ·) then
      let right ← k |>.climb? depth right rest
      op.compute left right
    else
      let left ← op.compute left right
      k |>.climb? depth left rest
partial_fixpoint

end

/-! ## Normal form -/

def negate? (k : Calculator) (depth : Nat) : Token → Checked Failure Token
  | .operand x => return .operand (-x)
  | .operator symbol => throw (.read (.leadingOperator symbol))
  | .group ts => do
    let x ← (k.value? (← add? depth 1) (.group ts)).adapt Failure.eval
    return .operand (-x)

def normalize? (k : Calculator) (depth : Nat) (ts : List Token) :
    Checked Failure (Option Token) := do
  match ts.head?.bind Token.operator? with
  | none => return gather ts
  | some symbol =>
    if ts.length < 2 ∨ isSign symbol = false then throw (.read (.leadingOperator symbol))
    else
      let ts ← remove? ts 0
      if symbol = "-" then
        let first ← k.negate? depth (← (ts[0]? : Option Token))
        return gather (← replace? ts 0 first)
      else return gather ts

/-! ## Reading -/

mutual

/-- The tokens between two offsets of a text. -/
def tokens? (k : Calculator) (text : List Char) (start stop depth : Nat) :
    Checked Failure (List Token) := do
  if k.maxDepth < depth then throw (.read (.tooDeep k.maxDepth))
  else k |>.tokensFrom? (← Offsets.ofRange? text start stop depth)
partial_fixpoint

/-- The tokens that are left in a range. -/
def tokensFrom? (k : Calculator) (o : Offsets) : Checked Failure (List Token) := do
  match ← k |>.next? o with
  | none => return []
  | some (t, after) => return t :: (← k |>.tokensFrom? after)
partial_fixpoint

/-- The next token and where it ends, if any is left. -/
def next? (k : Calculator) (o : Offsets) : Checked Failure (Option (Token × Offsets)) := do
  match ← o.peek? with
  | none => return none
  | some ch =>
    let lexeme ← o.lexeme?
    match lexeme with
    | some (.blank, w) => k |>.next? (← o.advance? (byteLength w))
    | _ =>
      match Rule.find? k.rules ch with
      | some rule => rule.step? o
      | none =>
        match lexeme with
        | some (.numeric, literal) => o.number? (byteLength literal)
        | _ =>
          match k.operators.longestMatch (← o.remaining?) with
          | some symbol =>
            return some (.operator symbol, ← o.advance? (byteLength symbol.toList))
          | none =>
            match lexeme with
            | some (.opening, _) => k |>.group? o
            | _ => throw (.read (.illegalText o.index))
partial_fixpoint

/-- The group that begins with the next character. -/
def group? (k : Calculator) (o : Offsets) : Checked Failure (Option (Token × Offsets)) := do
  let start ← add? o.index 1
  match ← matchingClose? o.input start o.stop with
  | none => throw (.read (.unclosedGroup o.index))
  | some close =>
    let depth ← add? o.depth 1
    let ts ← k |>.tokens? o.input start close depth
    let after ← o.seek? (← add? close 1)
    match ← k.normalize? depth ts with
    | none => throw (.read (.emptyGroup o.index))
    | some t => return some (t, after)
partial_fixpoint

end

/-! ## Expressions -/

/-- The value of a text in which nothing is left to substitute. -/
def textValue? (k : Calculator) (text : List Char) : Checked Failure Float := do
  let ts ← k.tokens? text 0 (byteLength text) 0
  match ← k.normalize? 0 ts with
  | none => return 0.0
  | some t => (k.value? 0 t).adapt Failure.eval

def evaluateWith? {β : Type} [Variables β] (k : Calculator) (expression : Option String)
    (bindings : β) : Checked Failure Float := do
  match expression.filter (· ≠ "") with
  | none => return 0.0
  | some source =>
    k.textValue? (← (substitute? (Variables.lookup bindings) source.toList).adapt Failure.read)

end Calculator

end Abacus
