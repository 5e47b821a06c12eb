import Abacus.Proofs.Normal
import Abacus.Proofs.Progress
import Abacus.Proofs.SideBySide

/-!
# Locality

Where there are no rules, a range is read by what is in it. The text around it, and where the range
is in the text, count for nothing but the offsets of errors, which are those in the range counted
from its start.
-/

namespace Abacus
open Text

/-! ## Offsets -/

/-- The cause, found so many bytes further on. -/
def ReadError.moved (bytes : Nat) : ReadError → ReadError
  | .illegalText index => .illegalText (index + bytes)
  | .malformedNumber literal index => .malformedNumber literal (index + bytes)
  | .unclosedGroup index => .unclosedGroup (index + bytes)
  | .emptyGroup index => .emptyGroup (index + bytes)
  | .stalledRule index => .stalledRule (index + bytes)
  | cause => cause

def Failure.moved (bytes : Nat) : Failure → Failure
  | .read cause => .read (cause.moved bytes)
  | .eval cause => .eval cause

theorem Failure.moved_moved (m n : Nat) (e : Failure) : (e.moved m).moved n = e.moved (m + n) := by
  cases e with
  | read cause => cases cause <;> simp [moved, ReadError.moved, Nat.add_assoc]
  | eval cause => rfl

/-- The second cursor has the same ahead at the same depth, so many bytes further on. -/
structure Cursor.Moved (bytes : Nat) (c c' : Cursor) : Prop where
  rest : c'.rest = c.rest
  depth : c'.depth = c.depth
  index : c'.index = c.index + bytes

/-- The steps come to the same, with all offsets so many bytes further on. -/
abbrev Step.Moved (bytes : Nat) : Step → Step → Prop :=
  Together (Cursor.Moved bytes) Eq fun e e' => e' = e.moved bytes

/-! ## Steps -/

namespace Cursor

variable {bytes : Nat} {c c' : Cursor}

/-- What a cursor has ahead stands in a text of its own at the start. -/
theorem moved_whole (c : Cursor) : (whole c.rest c.depth).Moved c.index c :=
  ⟨rfl, rfl, (Nat.zero_add _).symm⟩

theorem Moved.take (h : c.Moved bytes c') (n : Nat) : (c.take n).Moved bytes (c'.take n) where
  rest := by rw [take_rest, take_rest, h.rest]
  depth := h.depth
  index := by
    rw [take_index, take_index, h.rest, h.index]
    omega

theorem Moved.next (h : c.Moved bytes c') : c.next.Moved bytes c'.next := by
  have hcount : c'.count (.skip isBlank) = c.count (.skip isBlank) := by
    simp only [count, run, h.rest]
  rw [Cursor.next, Cursor.next, move, move, hcount]
  exact h.take _

theorem Moved.number (h : c.Moved bytes c') : c.number.Moved bytes c'.number := by
  rw [Cursor.number, Cursor.number, h.rest, h.index]
  split
  · exact .token rfl (h.take _)
  · exact .failed rfl

theorem Moved.group (h : c.Moved bytes c') : c.group.Moved bytes c'.group := by
  rw [Cursor.group, Cursor.group, h.rest, h.index]
  split
  · exact .failed rfl
  · refine .group rfl ⟨rfl, ?_, ?_⟩ (h.take _)
    · rw [h.depth]
    · have hpassed : ∀ d : Cursor, byteLength ('(' :: d.passed) = d.index + 1 := by
        intro d
        rw [byteLength_cons, utf8Size_parenthesis.1, Nat.add_comm]
        rfl
      show byteLength ('(' :: c'.passed) = byteLength ('(' :: c.passed) + bytes
      rw [hpassed, hpassed, h.index]
      omega

end Cursor

namespace Calculator

variable {k : Calculator} {bytes : Nat} {c c' : Cursor}

theorem step_moved (hk : k.rules = []) (h : c.Moved bytes c') :
    (k.step c).Moved bytes (k.step c') := by
  have hnext := h.next
  show (k.stepAt c.next).Moved bytes (k.stepAt c'.next)
  cases hc : c.next.rest with
  | nil =>
    have hc' : c'.next.rest = [] := hnext.rest.trans hc
    rw [stepAt, stepAt, Cursor.peek, Cursor.peek, hc, hc']
    exact .finished
  | cons ch rest =>
    rw [stepAt_cons hk hc, stepAt_cons hk (hnext.rest.trans hc)]
    split
    · exact hnext.number
    · split
      · exact .token rfl (hnext.take _)
      · split
        · exact hnext.group
        · rw [hnext.index]
          exact .failed rfl

/-! ## Ranges -/

theorem within_moved (depth : Nat) (x : Except Failure (List Token)) :
    (k.within depth x).mapError (.moved bytes) = k.within depth (x.mapError (.moved bytes)) := by
  rw [within, within]
  split <;> rfl

/-- The errors of a normal form have no place. -/
theorem normalize_moved (depth : Nat) (ts : List Token) :
    (k.normalize depth ts).mapError (.moved bytes) = k.normalize depth ts := by
  cases h : k.normalize depth ts with
  | ok t? => rfl
  | error e =>
    rcases error_of_normalize h with ⟨symbol, rfl⟩ | ⟨_, _, cause, -, -, rfl⟩ <;> rfl

theorem normal?_moved (hd : c'.depth = c.depth)
    (h : k.tokensFrom c' = (k.tokensFrom c).mapError (.moved bytes)) :
    k.normal? c' = (k.normal? c).mapError (.moved bytes) := by
  rw [normal?, normal?, mapError_bind, tokens, tokens, within_moved, hd, h]
  simp only [normalize_moved]

theorem tokensFrom_moved (hk : k.rules = []) (h : c.Moved bytes c') :
    k.tokensFrom c' = (k.tokensFrom c).mapError (.moved bytes) := by
  refine sideBySide_mapError_iff.mp (tokensFrom_together_eq (Cursor.Moved bytes) ?_ ?_ h)
  · intro d d' hd
    exact step_moved hk hd
  · intro d d' hd hread
    exact sideBySide_mapError_iff.mpr
      (normal?_moved hd.depth (sideBySide_mapError_iff.mp hread))

end Calculator

/-! ## Parts of a text -/

/-- The part is what stands between two offsets of a text, each between two characters. -/
def Slice (text : List Char) (start stop : Nat) (part : List Char) : Prop :=
  ∃ before behind, text = before ++ part ++ behind ∧ start = byteLength before ∧
    stop = byteLength (before ++ part)

/-- A range of a text is the part that stands there, moved on by the offset of its start. -/
theorem Slice.moved {text part : List Char} {start stop : Nat} (h : Slice text start stop part)
    (depth : Nat) :
    (Cursor.whole part depth).Moved start (Cursor.ofRange text start stop depth) := by
  obtain ⟨before, behind, rfl, rfl, rfl⟩ := h
  have hmoved := Cursor.moved_whole ⟨before.reverse, part, behind, depth⟩
  rw [Cursor.index, byteLength_reverse] at hmoved
  rwa [Cursor.ofRange_append]

namespace Calculator

variable {k : Calculator}

theorem tokens_slice (hk : k.rules = []) {text part : List Char} {start stop : Nat}
    (h : Slice text start stop part) (depth : Nat) :
    k.tokens (.ofRange text start stop depth) =
      (k.tokens (.whole part depth)).mapError (.moved start) := by
  have hmoved := h.moved depth
  rw [tokens, tokens, within_moved, hmoved.depth, tokensFrom_moved hk hmoved]

/-- The contents of a group are read as a text of their own. -/
theorem normal?_inside (hk : k.rules = []) {c inside after : Cursor} {opening : Nat}
    (h : k.step c = .group opening inside after) :
    k.normal? inside =
      (k.normal? (.whole inside.rest (c.depth + 1))).mapError (.moved (opening + 1)) := by
  have hpasses := step_passes hk c
  have hadvances := k.step_advances c
  rw [h] at hpasses hadvances
  obtain ⟨-, close, -, -, ⟨hindex, -⟩, -⟩ := hadvances
  have hdepth : inside.depth = c.depth + 1 := by
    cases hpasses
    assumption
  have hmoved := inside.moved_whole
  rw [hindex, hdepth] at hmoved
  exact normal?_moved hmoved.depth (tokensFrom_moved hk hmoved)

/-- The same part of two texts is read as the same tokens or with the same error, whose offset
differs by as much as the starts of the part do. What stands around a group, too, counts for nothing
but the offsets of errors in it, which are counted from behind its opening parenthesis. -/
theorem tokens_range_local (k : Calculator) (hk : k.rules = []) :
    (∀ (A B part : List Char) (s e s' e' depth : Nat), Slice A s e part → Slice B s' e' part →
      (k.tokens (.ofRange A s e depth)).mapError (Failure.moved s') =
        (k.tokens (.ofRange B s' e' depth)).mapError (Failure.moved s)) ∧
    ∀ c opening inside after, k.step c = .group opening inside after →
      k.normal? inside =
        (k.normal? (.whole inside.rest (c.depth + 1))).mapError (Failure.moved (opening + 1)) := by
  constructor
  · intro A B part s e s' e' depth hA hB
    rw [tokens_slice hk hA, tokens_slice hk hB]
    cases k.tokens (.whole part depth) with
    | ok ts => rfl
    | error cause =>
      show Except.error ((cause.moved s).moved s') = Except.error ((cause.moved s').moved s)
      rw [Failure.moved_moved, Failure.moved_moved, Nat.add_comm]
  · intro c opening inside after h
    exact normal?_inside hk h

/-- What is no part of an expression stands in a group of the same part of two texts. -/
theorem tokens_range_local_nested : ({} : Calculator).rules = [] ∧
    Slice "é (1+(2§))".toList 4 11 "1+(2§)".toList ∧
    Slice "(1+(2§)".toList 1 8 "1+(2§)".toList ∧
    (({} : Calculator).tokens (.ofRange "é (1+(2§))".toList 4 11 1)).mapError (Failure.moved 1) =
      (({} : Calculator).tokens (.ofRange "(1+(2§)".toList 1 8 1)).mapError (Failure.moved 4) ∧
    ({} : Calculator).tokens (.ofRange "é (1+(2§))".toList 4 11 1) =
      .error (.read (.illegalText 8)) ∧
    ({} : Calculator).tokens (.ofRange "(1+(2§)".toList 1 8 1) =
      .error (.read (.illegalText 5)) := by
  have hA : Slice "é (1+(2§))".toList 4 11 "1+(2§)".toList :=
    ⟨"é (".toList, ")".toList, by decide, by decide, by decide⟩
  have hB : Slice "(1+(2§)".toList 1 8 "1+(2§)".toList :=
    ⟨"(".toList, [], by decide, by decide, by decide⟩
  exact ⟨rfl, hA, hB, (tokens_range_local {} rfl).1 _ _ _ _ _ _ _ 1 hA hB, by decide +kernel,
    by decide +kernel⟩

end Calculator

end Abacus
