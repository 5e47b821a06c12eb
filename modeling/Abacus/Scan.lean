import Abacus.Cursor
import Abacus.Error

/-!
# Scans

A scan is a program that reads from a text: it looks at the cursor, moves it, and ends in a
value or an error. As the cursor changes through its own moves alone, a scan can only consume
what is ahead in the range (`run_eq_take`).
-/
namespace Abacus

inductive Scan (α : Type) where
  | done (value : α)
  | fail (cause : ReadError)
  | look (next : Cursor → Scan α)
  | move (m : Cursor.Move) (next : Scan α)

namespace Scan

def run {α : Type} : Scan α → Cursor → Except ReadError (α × Cursor)
  | .done value, c => .ok (value, c)
  | .fail cause, _ => .error cause
  | .look next, c => (next c).run c
  | .move m next, c => next.run (c.move m)

def bind {α β : Type} : Scan α → (α → Scan β) → Scan β
  | .done value, f => f value
  | .fail cause, _ => .fail cause
  | .look next, f => .look fun c => (next c).bind f
  | .move m next, f => .move m (next.bind f)

instance : Monad Scan where
  pure := .done
  bind := bind

/-- The next character, moved over. -/
def bump : Scan (Option Char) := .look fun c => .move .bump (.done c.peek)

def advance (bytes : Nat) : Scan Unit := .move (.advance bytes) (.done ())

/-- The longest run of accepted characters, moved over. -/
def eatWhile (accepts : Char → Bool) : Scan (List Char) :=
  .look fun c => .move (.skip accepts) (.done (c.run accepts))

/-- Something that the cursor knows. -/
def ask {α : Type} (f : Cursor → α) : Scan α := .look fun c => .done (f c)

/-- A scan leaves the cursor further on in the same range. -/
theorem run_eq_take {α : Type} {s : Scan α} {c d : Cursor} {a : α} (h : s.run c = .ok (a, d)) :
    ∃ n, d = c.take n := by
  induction s generalizing c with
  | done value => cases h; exact ⟨0, (Cursor.take_zero _).symm⟩
  | fail cause => cases h
  | look next ih => exact ih c h
  | move m next ih =>
    obtain ⟨n, rfl⟩ := ih h
    exact ⟨_, Cursor.take_take ..⟩

end Scan

end Abacus
