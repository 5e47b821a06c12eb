import Abacus.Proofs.Slices
import Abacus.Scan

/-!
# Cursors by their offsets

A program keeps a cursor as a text and two offsets in it, and each of its moves is arithmetic on
offsets and a look at a slice. No such move fails from a cursor of a range, and each of them comes
to where the cursor does.
-/

namespace Abacus
open Text

/-- A computation that may fail, and may have an error if it does not. -/
abbrev Checked (ε α : Type) : Type := ExceptT ε Option α

namespace Checked
variable {ε α β : Type}

/-- The computation that does not fail. -/
def of (x : Except ε α) : Checked ε α := ExceptT.mk (some x)

theorem of_ok_bind (a : α) (f : α → Checked ε β) : (of (.ok a) >>= f) = f a := rfl

/-- Nothing fails in a sequence of which nothing fails. -/
theorem of_bind {x : Except ε α} {f : α → Checked ε β} {g : α → Except ε β}
    (hf : ∀ a, x = .ok a → f a = of (g a)) : (of x >>= f) = of (x >>= g) := by
  cases x with
  | error e => rfl
  | ok a => exact hf a rfl

theorem of_map_bind {γ : Type} {x : Except ε α} {m : α → γ} {f : γ → Checked ε β}
    {g : α → Except ε β} (hf : ∀ a, x = .ok a → f (m a) = of (g a)) :
    (of (x.map m) >>= f) = of (x >>= g) := by
  cases x with
  | error e => rfl
  | ok a => exact hf a rfl

theorem lift_bind {a : Option α} {b : α} (h : a = some b) (f : α → Checked ε β) :
    ((liftM a : Checked ε α) >>= f) = f b := by
  rw [h]
  rfl

theorem lift_ok_bind (a : α) (f : α → Checked ε β) :
    ((liftM (Except.ok a : Except ε α) : Checked ε α) >>= f) = f a := rfl

end Checked

/-- A text and two offsets in it. -/
structure Offsets where
  input : List Char
  index : Nat
  stop : Nat
  depth : Nat

def Cursor.offsets (c : Cursor) : Offsets := ⟨c.input, c.index, c.stop, c.depth⟩

namespace Offsets

/-- A cursor on the bytes from `start` to `stop`, moved to where characters end. -/
def ofRange? (text : List Char) (start stop depth : Nat) : Option Offsets := do
  let stop ← floor? text (min stop (byteLength text))
  let index ← ceil? text (min start stop)
  return ⟨text, index, stop, depth⟩

def remaining? (o : Offsets) : Option (List Char) := slice? o.input o.index o.stop

def peek? (o : Offsets) : Option (Option Char) := do
  return (← o.remaining?).head?

def bump? (o : Offsets) : Option (Option Char × Offsets) := do
  match ← o.peek? with
  | none => return (none, o)
  | some ch => return (some ch, { o with index := ← add? o.index ch.utf8Size })

def seek? (o : Offsets) (index : Nat) : Option Offsets := do
  let index ← clamp? index o.index o.stop
  return { o with index := ← ceil? o.input index }

def advance? (o : Offsets) (bytes : Nat) : Option Offsets := o.seek? (saturatingAdd o.index bytes)

def eatWhile? (o : Offsets) (accepts : Char → Bool) : Option (List Char × Offsets) := do
  let rest ← o.remaining?
  let length := (find? (!accepts ·) rest).getD (byteLength rest)
  let index ← add? o.index length
  return (← slice? rest 0 length, { o with index })

def move? (o : Offsets) : Cursor.Move → Option Offsets
  | .bump => do return (← o.bump?).2
  | .advance bytes => o.advance? bytes
  | .skip accepts => do return (← o.eatWhile? accepts).2

/-- All that a cursor can be asked for. -/
def cursor? (o : Offsets) : Option Cursor := do
  let passed ← slice? o.input 0 o.index
  let beyond ← slice? o.input o.stop (byteLength o.input)
  return ⟨passed.reverse, ← o.remaining?, beyond, o.depth⟩

end Offsets

namespace Cursor
open Offsets

variable {c : Cursor}

@[simp] theorem offsets_input (c : Cursor) : c.offsets.input = c.input := rfl

@[simp] theorem offsets_index (c : Cursor) : c.offsets.index = c.index := rfl

@[simp] theorem offsets_stop (c : Cursor) : c.offsets.stop = c.stop := rfl

@[simp] theorem offsets_depth (c : Cursor) : c.offsets.depth = c.depth := rfl

/-- A cursor that moves keeps its text and the end of its range. -/
theorem offsets_take (c : Cursor) (n : Nat) :
    (c.take n).offsets = { c.offsets with index := (c.take n).index } := by
  have h := c.ahead_take n
  rw [offsets, h.input, h.stop, h.depth]
  rfl

theorem stop_le (c : Cursor) : c.stop ≤ byteLength c.input := by
  rw [input, byteLength_append, byteLength_append, byteLength_reverse]
  exact Nat.le_add_right ..

theorem slice_rest (c : Cursor) : Slice c.input c.index c.stop c.rest := by
  refine ⟨c.passed.reverse, c.beyond, rfl, ?_, ?_⟩
  · rw [byteLength_reverse]
    rfl
  · rw [byteLength_append, byteLength_reverse]
    rfl

theorem remaining?_offsets (c : Cursor) : c.offsets.remaining? = some c.rest :=
  slice?_eq_some_iff.mpr c.slice_rest

theorem peek?_offsets (c : Cursor) : c.offsets.peek? = some c.peek := by
  rw [peek?, remaining?_offsets]
  rfl

theorem cursor?_offsets (c : Cursor) : c.offsets.cursor? = some c := by
  have hpassed : slice? c.input 0 c.index = some c.passed.reverse := by
    refine slice?_eq_some_iff.mpr ⟨[], c.rest ++ c.beyond, ?_, rfl, ?_⟩
    · simp [input]
    · rw [List.nil_append, byteLength_reverse]
      rfl
  have hbeyond : slice? c.input c.stop (byteLength c.input) = some c.beyond := by
    refine slice?_eq_some_iff.mpr ⟨c.passed.reverse ++ c.rest, [], ?_, ?_, ?_⟩
    · simp [input]
    · rw [byteLength_append, byteLength_reverse]
      rfl
    · rfl
  simp [cursor?, hpassed, hbeyond, remaining?_offsets]

/-- What covers an offset in the range is what is behind and what covers the rest of it. -/
theorem index_take_covering {bytes : Nat} (hbytes : bytes ≤ byteLength c.rest) :
    byteLength (c.input.take (countCovering (c.index + bytes) c.input)) =
      (c.take (countCovering bytes c.rest)).index := by
  have hinput : c.input = c.passed.reverse ++ (c.rest ++ c.beyond) := List.append_assoc ..
  have hindex : c.index = byteLength c.passed.reverse := (byteLength_reverse _).symm
  have hle := countCovering_le_length bytes c.rest
  rw [take_index, hinput, hindex, countCovering_add, countCovering_append_of_le hbytes,
    List.take_length_add_append, List.take_append_of_le_length hle, byteLength_append]

/-- The boundary from an offset on in what is ahead is where a cursor comes to that covers it. -/
theorem ceil?_input (hsize : byteLength c.input < sizeLimit) {bytes : Nat}
    (hbytes : bytes ≤ byteLength c.rest) : ceil? c.input (c.index + bytes) =
      some (c.take (countCovering bytes c.rest)).index := by
  have hin : c.index + bytes ≤ byteLength c.input := by
    have := c.stop_le
    rw [stop] at this
    omega
  rw [ceil?_eq hsize hin, index_take_covering hbytes]

theorem ofRange?_eq {text : List Char} (hsize : byteLength text < sizeLimit)
    (start stop depth : Nat) :
    ofRange? text start stop depth = some (ofRange text start stop depth).offsets := by
  have hinput : text.take (countWithin stop text) ++ text.drop (countWithin stop text) = text :=
    List.take_append_drop ..
  rw [ofRange?, floor?_eq, countWithin_min, ofRange]
  generalize text.take (countWithin stop text) = inside at hinput ⊢
  generalize text.drop (countWithin stop text) = behind at hinput ⊢
  subst hinput
  have hceil : ceil? (inside ++ behind) (min start (byteLength inside)) =
      some (take ⟨[], inside, behind, depth⟩ (countCovering start inside)).index := by
    have h := @ceil?_input ⟨[], inside, behind, depth⟩ hsize _ (Nat.min_le_right start _)
    rwa [countCovering_min, index, byteLength_nil, Nat.zero_add] at h
  have hstop : Cursor.stop ⟨[], inside, behind, depth⟩ = byteLength inside := Nat.zero_add _
  rw [offsets_take]
  simp [hceil, hstop, input]

theorem seek?_offsets (hsize : byteLength c.input < sizeLimit) (index : Nat) :
    c.offsets.seek? index = some (c.take (countCovering (index - c.index) c.rest)).offsets := by
  have hclamp : clamp? index c.index c.stop =
      some (c.index + min (index - c.index) (byteLength c.rest)) := by
    rw [clamp?, if_pos c.index_le_stop, stop]
    congr 1
    omega
  simp [seek?, hclamp, ceil?_input hsize (Nat.min_le_right ..), countCovering_min, offsets_take]

/-- What is looked for in the range, between its characters, is where the cursor comes to. -/
theorem seek?_take (hsize : byteLength c.input < sizeLimit) (n : Nat) :
    c.offsets.seek? (c.take n).index = some (c.take n).offsets := by
  have hbytes : (c.take n).index - c.index = byteLength (c.rest.take n) := by
    rw [take_index]
    omega
  have hcount : countCovering (byteLength (c.rest.take n)) c.rest = (c.rest.take n).length := by
    have h := countCovering_append (c.rest.take n) (c.rest.drop n)
    rwa [List.take_append_drop] at h
  have hsame : c.take (c.rest.take n).length = c.take n := by
    simp [take, List.take_eq_take_iff, List.drop_eq_drop_iff]
  rw [seek?_offsets hsize, hbytes, hcount, hsame]

theorem advance?_offsets (hsize : byteLength c.input < sizeLimit) (bytes : Nat) :
    c.offsets.advance? bytes = some (c.move (.advance bytes)).offsets := by
  have hle := c.stop_le
  have hmin : min (saturatingAdd c.index bytes - c.index) (byteLength c.rest) =
      min bytes (byteLength c.rest) := by
    rw [stop] at hle
    rw [saturatingAdd, wordLimit_eq]
    omega
  rw [advance?, seek?_offsets hsize, ← countCovering_min]
  show some (c.take (countCovering (min (saturatingAdd c.index bytes - c.index) _)
    c.rest)).offsets = _
  rw [hmin, countCovering_min]
  rfl

theorem run_append_rest (c : Cursor) (accepts : Char → Bool) :
    c.rest = c.run accepts ++ (c.move (.skip accepts)).rest := by
  have hsplit : c.rest = c.run accepts ++ c.rest.dropWhile accepts :=
    List.takeWhile_append_dropWhile.symm
  have hdrop : (c.move (.skip accepts)).rest = c.rest.dropWhile accepts := by
    show c.rest.drop (c.run accepts).length = _
    conv_lhs => rw [hsplit]
    exact List.drop_left
  rwa [hdrop]

/-- What is added to the offset stays in the range. -/
theorem add?_index (hsize : byteLength c.input < sizeLimit) {front behind : List Char}
    (h : c.rest = front ++ behind) :
    add? c.index (byteLength front) = some (c.take front.length).index := by
  have hle := c.stop_le
  rw [stop, h, byteLength_append] at hle
  rw [take_index, h, List.take_left]
  refine add?_of_lt ?_
  rw [wordLimit_eq]
  omega

theorem eatWhile?_offsets (hsize : byteLength c.input < sizeLimit) (accepts : Char → Bool) :
    c.offsets.eatWhile? accepts = some (c.run accepts, (c.move (.skip accepts)).offsets) := by
  have hrest := c.run_append_rest accepts
  have hlength :
      (find? (!accepts ·) c.rest).getD (byteLength c.rest) = byteLength (c.run accepts) :=
    find?_getD accepts c.rest
  simp [eatWhile?, remaining?_offsets, hlength, add?_index hsize hrest, slice?_front hrest, move,
    count, offsets_take]

theorem bump?_offsets (hsize : byteLength c.input < sizeLimit) :
    c.offsets.bump? = some (c.peek, (c.move .bump).offsets) := by
  cases hc : c.rest with
  | nil =>
    have hpeek : c.peek = none := by
      rw [peek, hc]
      rfl
    have hindex : (c.take 1).index = c.index := by
      rw [take_index, hc]
      rfl
    simp [bump?, peek?_offsets, hpeek, move, count, offsets_take, hindex]
    rfl
  | cons ch rest =>
    have hpeek : c.peek = some ch := by
      rw [peek, hc]
      rfl
    have hadd : add? c.index ch.utf8Size = some (c.take 1).index := by
      have h := add?_index hsize (show c.rest = [ch] ++ rest from hc)
      rwa [byteLength_cons, byteLength_nil, Nat.add_zero] at h
    simp [bump?, peek?_offsets, hpeek, hadd, move, count, offsets_take]

theorem move?_offsets (hsize : byteLength c.input < sizeLimit) (m : Move) :
    c.offsets.move? m = some (c.move m).offsets := by
  cases m with
  | bump =>
    rw [move?, bump?_offsets hsize]
    rfl
  | advance bytes => exact advance?_offsets hsize bytes
  | skip accepts =>
    rw [move?, eatWhile?_offsets hsize]
    rfl

end Cursor

/-! ## Groups -/

/-- The offset of the parenthesis that closes as many groups as are open, counted from an offset on
for every byte. -/
def closing? : List UInt8 → Nat → Nat → Option (Option Nat)
  | [], _, _ => some none
  | b :: more, opened, offset => do
    let next ← add? offset 1
    if b = '('.toUInt8 then closing? more (← add? opened 1) next
    else if b = ')'.toUInt8 then do
      let opened ← sub? opened 1
      if opened = 0 then return some offset
      else closing? more opened next
    else closing? more opened next

/-- The search for the parenthesis that closes a group, by offsets. -/
def matchingClose? (text : List Char) (start stop : Nat) : Option (Option Nat) := do
  if start ≤ stop ∧ stop ≤ (bytes text).length then
    match ← closing? (((bytes text).take stop).drop start) 1 0 with
    | none => return none
    | some offset => return some (← add? start offset)
  else return none

/-- One group is open besides those that are open inside it, and none is ever closed but one that is
open. -/
theorem closing?_eq (bytes : List UInt8) (nested offset : Nat)
    (hnested : nested + 1 + bytes.length < wordLimit)
    (hoffset : offset + bytes.length < wordLimit) :
    closing? bytes (nested + 1) offset =
      some ((splitClose '('.toUInt8 ')'.toUInt8 nested bytes).map
        fun p => offset + p.1.length) := by
  induction bytes generalizing nested offset with
  | nil => rfl
  | cons b more ih =>
    rw [List.length_cons] at hnested hoffset
    have hnext : add? offset 1 = some (offset + 1) := add?_of_lt (by omega)
    -- what is counted behind a byte is one less than what is counted from it
    have hcount : (fun p : List UInt8 × List UInt8 => offset + p.1.length) ∘
        (fun p : List UInt8 × List UInt8 => (b :: p.1, p.2)) =
        fun p => offset + 1 + p.1.length := by
      funext p
      simp only [Function.comp, List.length_cons]
      omega
    have hne : ')'.toUInt8 ≠ '('.toUInt8 := by decide
    by_cases hopen : b = '('.toUInt8
    · subst hopen
      have hopened : add? (nested + 1) 1 = some (nested + 1 + 1) := add?_of_lt (by omega)
      rw [splitClose_opening hne.symm, Option.map_map, hcount,
        ← ih (nested + 1) (offset + 1) (by omega) (by omega)]
      simp [closing?, hnext, hopened]
    · by_cases hclose : b = ')'.toUInt8
      · subst hclose
        have hopened : sub? (nested + 1) 1 = some nested := if_pos (by omega)
        cases nested with
        | zero =>
          rw [splitClose_closing]
          simp [closing?, hnext, hopened, hne]
        | succ nested =>
          rw [splitClose_closing_succ, Option.map_map, hcount,
            ← ih nested (offset + 1) (by omega) (by omega)]
          simp [closing?, hnext, hopened, hne]
      · rw [splitClose_cons hopen hclose, Option.map_map, hcount,
          ← ih nested (offset + 1) (by omega) (by omega)]
        simp [closing?, hnext, hopen, hclose]

theorem matchingClose?_eq {text : List Char} (hsize : byteLength text < sizeLimit)
    (start stop : Nat) :
    matchingClose? text start stop = some (matchingClose (String.ofList text) start stop) := by
  rw [matchingClose?, matchingClose]
  simp only [toUTF8_ofList]
  by_cases h : start ≤ stop ∧ stop ≤ (bytes text).length
  · have hlength := length_bytes text
    have hpart : (((bytes text).take stop).drop start).length = stop - start := by
      simp
      omega
    rw [if_pos h, if_pos h, closing?_eq _ 0 0 (by rw [wordLimit_eq]; omega)
      (by rw [wordLimit_eq]; omega)]
    cases hsplit : splitClose '('.toUInt8 ')'.toUInt8 0 (((bytes text).take stop).drop start) with
    | none => rfl
    | some p =>
      have happend := congrArg List.length (splitClose_append hsplit)
      rw [hpart, List.length_append, List.length_cons] at happend
      have hadd : add? start p.1.length = some (start + p.1.length) := add?_of_lt (by
        rw [wordLimit_eq]
        omega)
      simp [hadd]
  · rw [if_neg h, if_neg h]
    rfl

/-! ## Scans -/

namespace Scan
variable {α : Type}

/-- A scan from a text and two offsets. What it asks of the cursor is sliced out of the text. -/
def run? : Scan α → Offsets → Checked ReadError (α × Offsets)
  | .done value, o => return (value, o)
  | .fail cause, _ => throw cause
  | .look next, o => do (next (← o.cursor?)).run? o
  | .move m next, o => do next.run? (← o.move? m)

theorem run?_offsets (s : Scan α) {c : Cursor} (hsize : byteLength c.input < sizeLimit) :
    s.run? c.offsets = .of ((s.run c).map fun p => (p.1, p.2.offsets)) := by
  induction s generalizing c with
  | done value => rfl
  | fail cause => rfl
  | look next ih =>
    rw [run?, Checked.lift_bind c.cursor?_offsets]
    exact ih c hsize
  | move m next ih =>
    rw [run?, Checked.lift_bind (Cursor.move?_offsets hsize m)]
    exact ih (by rwa [Cursor.move, Cursor.take_input])

end Scan

end Abacus
