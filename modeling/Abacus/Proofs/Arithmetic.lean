import Abacus.Arithmetic
import Abacus.Proofs.Lexeme

/-!
# The table of arithmetic

Its symbols are the six characters of the operators, each with its own operation, and a quotient
by zero is all that is ever refused.
-/

namespace Abacus

namespace Arithmetic

/-- The result of an operation that is not refused. -/
def result : Arithmetic → Float → Float → Float
  | .add, l, r => l + r
  | .sub, l, r => l - r
  | .mul, l, r => l * r
  | .div, l, r => l / r
  | .rem, l, r => Double.remainder l r
  | .pow, l, r => l.pow r

/-- Only a quotient by zero is refused. -/
def refuses (op : Arithmetic) (right : Float) : Bool := op = .div && right == 0.0

theorem compute_eq (op : Arithmetic) (l r : Float) :
    op.compute l r = if op.refuses r then .error .divisionByZero else .ok (op.result l r) := by
  cases op <;> simp [compute, refuses, result]

/-- The character of an operator. -/
def char : Arithmetic → Char
  | .add => '+'
  | .sub => '-'
  | .mul => '*'
  | .div => '/'
  | .rem => '%'
  | .pow => '^'

theorem symbol_toList (op : Arithmetic) : op.symbol.toList = [op.char] := by
  cases op <;> decide

theorem not_blank_char (op : Arithmetic) : Text.isBlank op.char = false := by
  cases op <;> decide

theorem not_numeric_char (op : Arithmetic) : Text.isNumeric op.char = false := by
  cases op <;> decide

end Arithmetic

namespace OperatorTable

theorem get?_arithmetic (op : Arithmetic) :
    arithmetic.get? op.symbol = some op.operator := by
  cases op <;> rfl

theorem contains_arithmetic_iff {s : String} :
    arithmetic.contains s = true ↔ ∃ op : Arithmetic, op.symbol = s := by
  constructor
  · intro h
    have hs : s ∈ ["^", "%", "/", "*", "-", "+"] := contains_iff_mem.mp h
    simp only [List.mem_cons, List.not_mem_nil, or_false] at hs
    rcases hs with rfl | rfl | rfl | rfl | rfl | rfl
    · exact ⟨.pow, rfl⟩
    · exact ⟨.rem, rfl⟩
    · exact ⟨.div, rfl⟩
    · exact ⟨.mul, rfl⟩
    · exact ⟨.sub, rfl⟩
    · exact ⟨.add, rfl⟩
  · rintro ⟨op, rfl⟩
    simp [contains, get?_arithmetic]

theorem exists_of_get?_arithmetic {s : String} {op : Operator} (h : arithmetic.get? s = some op) :
    ∃ op' : Arithmetic, op'.symbol = s ∧ op = op'.operator := by
  obtain ⟨op', rfl⟩ := contains_arithmetic_iff.mp (by rw [contains, h]; rfl)
  rw [get?_arithmetic] at h
  exact ⟨op', rfl, (Option.some.inj h).symm⟩

theorem isLongest_arithmetic (op : Arithmetic) (tail : List Char) :
    arithmetic.IsLongest op.symbol (op.symbol.toList ++ tail) := by
  refine ⟨contains_arithmetic_iff.mpr ⟨op, rfl⟩, List.prefix_append _ _, ?_⟩
  intro other ho _
  obtain ⟨op', rfl⟩ := contains_arithmetic_iff.mp ho
  simp [Arithmetic.symbol_toList]

theorem parenless_arithmetic : arithmetic.Parenless := by
  intro s hs
  obtain ⟨op, rfl⟩ := contains_arithmetic_iff.mp hs
  cases op <;> decide

theorem unmixed_arithmetic : arithmetic.Unmixed := by
  intro s hs c hc
  obtain ⟨op, rfl⟩ := contains_arithmetic_iff.mp hs
  rw [Arithmetic.symbol_toList] at hc
  rw [List.mem_singleton.mp hc]
  cases op <;> decide

theorem loneMinus_arithmetic : arithmetic.LoneMinus := by
  intro s
  constructor
  · rintro ⟨hs, hhead⟩
    obtain ⟨op, rfl⟩ := contains_arithmetic_iff.mp hs
    revert hhead
    cases op <;> decide
  · rintro rfl
    exact ⟨contains_arithmetic_iff.mpr ⟨.sub, rfl⟩, rfl⟩

end OperatorTable

end Abacus
