import Abacus.Text

/-!
# Lexemes

What the notation itself gives a form to: blanks, numbers and parentheses. The first character
decides the class of a lexeme, and blanks and numbers go on as far as their characters do.
-/
namespace Abacus
open Text

inductive Lexeme where
  | blank
  | numeric
  | opening
  | closing
  deriving Repr, DecidableEq

namespace Lexeme

def ofChar? (c : Char) : Option Lexeme :=
  if isBlank c then some .blank
  else if isNumeric c then some .numeric
  else if c = '(' then some .opening
  else if c = ')' then some .closing
  else none

/-- The lexeme of a class at the start of a text. -/
def extent (text : List Char) : Lexeme → List Char
  | .blank => text.takeWhile isBlank
  | .numeric => text.takeWhile isNumeric
  | .opening | .closing => text.take 1

/-- The lexeme at the start of a text and its class. -/
def classify (text : List Char) : Option (Lexeme × List Char) :=
  (text.head?.bind ofChar?).map fun l => (l, l.extent text)

theorem isNumeric_of_ofChar? {c : Char} (h : ofChar? c = some .numeric) : isNumeric c = true := by
  unfold ofChar? at h
  split at h
  · simp at h
  · split at h
    · assumption
    · split at h
      · simp at h
      · split at h <;> simp at h

end Lexeme

end Abacus
