import Abacus.Text

/-!
# Cursors

A cursor stands in a range of a text. It knows the characters behind it, those of the range
that are still ahead, and those beyond the range, which it never reaches. Every move is `take`:
some characters of the rest pass behind the cursor, so nothing of the text is ever lost and the
position never goes back.
-/
namespace Abacus
open Text

/-- `passed` is kept nearest first; `depth` counts the groups around the range. -/
structure Cursor where
  passed : List Char
  rest : List Char
  beyond : List Char
  depth : Nat

namespace Cursor

/-- The byte offset of the cursor in its text. -/
def index (c : Cursor) : Nat := byteLength c.passed

/-- The byte offset at which the range ends. -/
def stop (c : Cursor) : Nat := c.index + byteLength c.rest

def input (c : Cursor) : List Char := c.passed.reverse ++ c.rest ++ c.beyond

/-- At the start of a text that is the whole range. -/
def whole (text : List Char) (depth : Nat) : Cursor := ⟨[], text, [], depth⟩

/-- How many characters of a text lie wholly within its first `bytes` bytes. -/
def countWithin : Nat → List Char → Nat
  | _, [] => 0
  | bytes, c :: rest =>
    if c.utf8Size ≤ bytes then countWithin (bytes - c.utf8Size) rest + 1 else 0

/-- How many characters it takes to cover the first `bytes` bytes of a text. -/
def countCovering : Nat → List Char → Nat
  | _, [] => 0
  | bytes, c :: rest =>
    if bytes = 0 then 0 else countCovering (bytes - c.utf8Size) rest + 1

/-- Move over the next `n` characters, or to the end of the range. -/
def take (c : Cursor) (n : Nat) : Cursor :=
  { c with passed := (c.rest.take n).reverse ++ c.passed, rest := c.rest.drop n }

/-- A cursor on the bytes from `start` to `stop`. An end inside a character moves back before
it, and a start inside a character moves on behind it. -/
def ofRange (text : List Char) (start stop depth : Nat) : Cursor :=
  let n := countWithin stop text
  take ⟨[], text.take n, text.drop n, depth⟩ (countCovering start (text.take n))

/-- The next character, if the range goes on. -/
def peek (c : Cursor) : Option Char := c.rest.head?

/-- The longest run of accepted characters ahead. -/
def run (c : Cursor) (accepts : Char → Bool) : List Char := c.rest.takeWhile accepts

/-- The moves of a cursor: over one character, over as many as it takes to cover a number of
bytes, and over the longest run of accepted ones. -/
inductive Move where
  | bump
  | advance (bytes : Nat)
  | skip (accepts : Char → Bool)

/-- The characters that a move passes over. -/
def count (c : Cursor) : Move → Nat
  | .bump => 1
  | .advance bytes => countCovering bytes c.rest
  | .skip accepts => (c.run accepts).length

def move (c : Cursor) (m : Move) : Cursor := c.take (c.count m)

@[simp] theorem take_rest (c : Cursor) (n : Nat) : (c.take n).rest = c.rest.drop n := rfl

@[simp] theorem take_beyond (c : Cursor) (n : Nat) : (c.take n).beyond = c.beyond := rfl

@[simp] theorem take_depth (c : Cursor) (n : Nat) : (c.take n).depth = c.depth := rfl

/-- Moving on by `m` and then by `n` is moving on by both. -/
theorem take_take (c : Cursor) (m n : Nat) : (c.take m).take n = c.take (m + n) := by
  simp [take, List.take_add, List.drop_drop]

@[simp] theorem take_zero (c : Cursor) : c.take 0 = c := by simp [take]

/-- A move changes no character of the text. -/
@[simp] theorem take_input (c : Cursor) (n : Nat) : (c.take n).input = c.input := by
  simp only [input, take, List.reverse_append, List.reverse_reverse, List.append_assoc]
  rw [← List.append_assoc (c.rest.take n), List.take_append_drop]

/-- The offset grows by the bytes that were moved over. -/
theorem take_index (c : Cursor) (n : Nat) :
    (c.take n).index = c.index + byteLength (c.rest.take n) := by
  simp only [index, take, byteLength_append, byteLength_reverse]
  omega

end Cursor

end Abacus
