import Abacus.Balance
import Abacus.Lexeme
import Abacus.Normal

/-!
# Reading

A range is read token by token. Blanks separate tokens; then a rule that accepts the next
character reads the token; a numeric character begins a number, which is the whole run of such
characters; the longest operator symbol that fits is an operator; and a parenthesis opens a
group. A group is delimited before it is read, so what stands in it is read in a range of its
own, one level deeper.
-/
namespace Abacus
open Text

/-- What stands at a cursor. A group comes with the offset of its opening parenthesis, a cursor
on its contents and one behind it. -/
inductive Step where
  | finished
  | failed (cause : ReadError)
  | token (token : Token) (after : Cursor)
  | group (opening : Nat) (inside after : Cursor)

/-- The token at a cursor by a rule that accepts what it sees. -/
def Rule.step (rule : Rule) (c : Cursor) : Step :=
  match rule.read.run c with
  | .error cause => .failed cause
  | .ok (token, after) =>
    if after.index = c.index then .failed (.stalledRule c.index) else .token token after

namespace Cursor

/-- The number at a cursor before a numeric character. -/
def number (c : Cursor) : Step :=
  let literal := Lexeme.numeric.extent c.rest
  match Double.ofText? literal with
  | some x => .token (.operand x) (c.take literal.length)
  | none => .failed (.malformedNumber (String.ofList literal) c.index)

/-- The group at a cursor before an opening parenthesis. -/
def group (c : Cursor) : Step :=
  match splitClose '(' ')' 0 (c.rest.drop 1) with
  | none => .failed (.unclosedGroup c.index)
  | some (inside, after) =>
    .group c.index
      ⟨'(' :: c.passed, inside, ')' :: after ++ c.beyond, c.depth + 1⟩
      (c.take (inside.length + 2))

end Cursor

namespace Calculator

/-- What stands at a cursor that is not before a blank. -/
def stepAt (k : Calculator) (c : Cursor) : Step :=
  match c.peek with
  | none => .finished
  | some ch =>
    match Rule.find? k.rules ch with
    | some rule => rule.step c
    | none =>
      if Lexeme.ofChar? ch = some .numeric then c.number
      else
        match k.operators.longestMatch c.rest with
        | some symbol => .token (.operator symbol) (c.take symbol.toList.length)
        | none =>
          if Lexeme.ofChar? ch = some .opening then c.group else .failed (.illegalText c.index)

/-- What comes next in a range. -/
def step (k : Calculator) (c : Cursor) : Step := k.stepAt (c.move (.skip isBlank))

end Calculator

/-- How much is left to read behind a step. -/
def Step.Shorter (n : Nat) : Step → Prop
  | .finished | .failed _ => True
  | .token _ after => after.rest.length < n
  | .group _ inside after => inside.rest.length < n ∧ after.rest.length < n

theorem Step.Shorter.mono {m n : Nat} (h : m ≤ n) {s : Step} (hs : s.Shorter m) : s.Shorter n := by
  cases s with
  | finished | failed => trivial
  | token => exact Nat.lt_of_lt_of_le hs h
  | group => exact ⟨Nat.lt_of_lt_of_le hs.1 h, Nat.lt_of_lt_of_le hs.2 h⟩

theorem Cursor.take_shorter {c : Cursor} {n : Nat} (hn : 0 < n) (hc : c.rest ≠ []) :
    (c.take n).rest.length < c.rest.length := by
  have := List.length_pos_iff.2 hc
  simp only [take_rest, List.length_drop]
  omega

theorem Rule.step_shorter (rule : Rule) (c : Cursor) : (rule.step c).Shorter c.rest.length := by
  unfold Rule.step
  split
  · trivial
  · rename_i token after h
    split
    · trivial
    · rename_i hne
      obtain ⟨n, rfl⟩ := Scan.run_eq_take h
      refine Cursor.take_shorter (Nat.pos_of_ne_zero ?_) ?_
      · rintro rfl; simp at hne
      · intro hc; simp [Cursor.take_index, hc] at hne

theorem Cursor.number_shorter {c : Cursor} {ch : Char} (hc : c.peek = some ch)
    (hn : Lexeme.ofChar? ch = some .numeric) : c.number.Shorter c.rest.length := by
  obtain ⟨rest, hr⟩ : ∃ rest, c.rest = ch :: rest := List.head?_eq_some_iff.1 hc
  have hn : isNumeric ch = true := Lexeme.isNumeric_of_ofChar? hn
  unfold Cursor.number
  simp only
  split
  · exact Cursor.take_shorter (by simp [Lexeme.extent, hr, hn]) (by simp [hr])
  · trivial

theorem Cursor.group_shorter {c : Cursor} (hc : c.rest ≠ []) : c.group.Shorter c.rest.length := by
  unfold Cursor.group
  split
  · trivial
  · rename_i inside after h
    have hl := congrArg List.length (splitClose_append h)
    simp only [List.length_drop, List.length_append, List.length_cons] at hl
    exact ⟨by simp only; omega, Cursor.take_shorter (by omega) hc⟩

namespace Calculator

/-- Every step but the last consumes something, and a group's contents are less than the group. -/
theorem step_shorter (k : Calculator) (c : Cursor) : (k.step c).Shorter c.rest.length := by
  have hle : (c.move (.skip isBlank)).rest.length ≤ c.rest.length := by
    simp [Cursor.move]
  refine Step.Shorter.mono hle ?_
  unfold step stepAt
  generalize c.move (.skip isBlank) = d
  split
  · trivial
  · rename_i ch hch
    have hd : d.rest ≠ [] := by rintro hd; simp [Cursor.peek, hd] at hch
    split
    · exact Rule.step_shorter ..
    · split
      · rename_i hn; exact Cursor.number_shorter hch hn
      · split
        · rename_i symbol hs
          exact Cursor.take_shorter
            (List.length_pos_iff.2 (OperatorTable.longestMatch_ne_nil hs)) hd
        · split
          · exact Cursor.group_shorter hd
          · trivial

/-- Refuses what stands deeper than the limit, without reading it. -/
@[macro_inline] def within (k : Calculator) (depth : Nat) (tokens : Except Failure (List Token)) :
    Except Failure (List Token) :=
  if k.maxDepth < depth then .error (.read (.tooDeep k.maxDepth)) else tokens

/-- The tokens from a cursor to the end of its range. -/
def tokensFrom (k : Calculator) (c : Cursor) : Except Failure (List Token) :=
  match _h : k.step c with
  | .finished => .ok []
  | .failed cause => .error (.read cause)
  | .token token after => do return token :: (← k.tokensFrom after)
  | .group opening inside after => do
    let tokens ← k.within inside.depth (k.tokensFrom inside)
    match ← k.normalize inside.depth tokens with
    | none => .error (.read (.emptyGroup opening))
    | some token => return token :: (← k.tokensFrom after)
termination_by c.rest.length
decreasing_by
  all_goals
    have hs := k.step_shorter c
    rw [_h] at hs
  · exact hs
  · exact hs.1
  · exact hs.2

/-- The tokens of a range. -/
def tokens (k : Calculator) (c : Cursor) : Except Failure (List Token) :=
  k.within c.depth (k.tokensFrom c)

/-- The one token of a whole text, or none if it is blank. -/
def token? (k : Calculator) (text : List Char) : Except Failure (Option Token) := do
  k.normalize 0 (← k.tokens (.whole text 0))

end Calculator

end Abacus
