/-!
# Balanced brackets

The bracket that closes a group is the first one at which the group holds more closing brackets
than opening ones. Nothing else about the contents matters, so the search is the same on
characters and on bytes.
-/
namespace Abacus

/-- The contents of a group that is already open, with `nested` groups open inside it, and what
follows the bracket that closes it. -/
def splitClose {α : Type} [DecidableEq α] (opening closing : α) :
    Nat → List α → Option (List α × List α)
  | _, [] => none
  | nested, x :: rest =>
    if x = closing ∧ nested = 0 then some ([], rest)
    else
      let nested := if x = closing then nested - 1 else if x = opening then nested + 1 else nested
      (splitClose opening closing nested rest).map fun p => (x :: p.1, p.2)

/-- A closed group is its contents, the closing bracket and the rest. -/
theorem splitClose_append {α : Type} [DecidableEq α] {opening closing : α} {nested : Nat}
    {text inside after : List α} (h : splitClose opening closing nested text = some (inside, after)) :
    text = inside ++ closing :: after := by
  induction text generalizing nested inside with
  | nil => simp [splitClose] at h
  | cons x rest ih =>
    rw [splitClose] at h
    split at h
    · rename_i hx
      cases h
      simp [hx.1]
    · obtain ⟨p, hp, he⟩ := Option.map_eq_some_iff.1 h
      cases he
      simp [ih hp]

/-- The offset of the parenthesis that closes the group whose contents begin at `start`, looked
for before `stop`. -/
def matchingClose (text : String) (start stop : Nat) : Option Nat :=
  let bytes := text.toUTF8.data.toList
  if start ≤ stop ∧ stop ≤ bytes.length then
    (splitClose '('.toUInt8 ')'.toUInt8 0 ((bytes.take stop).drop start)).map
      fun p => start + p.1.length
  else none

end Abacus
