import Abacus.Reading
import Abacus.Proofs.Lexeme

/-!
# What a range begins with

Where there are no token rules, every text has exactly one front: it is blank, or begins behind
its blanks with a number, a symbol, a group, or with what is none of these. The tokens of a range
are given by its front and the tokens behind it.
-/

namespace Abacus
open Text

/-- The front of a text. -/
inductive Front (t : OperatorTable) : List Char → Prop
  | blank {w : List Char} : Blank w → Front t w
  | number {w literal tail : List Char} : Blank w → literal ≠ [] →
      (∀ c ∈ literal, isNumeric c = true) → Ends isNumeric tail → Front t (w ++ literal ++ tail)
  | symbol {w tail : List Char} {symbol : String} : Blank w → Ends isBlank symbol.toList →
      Ends isNumeric symbol.toList → t.IsLongest symbol (symbol.toList ++ tail) →
      Front t (w ++ symbol.toList ++ tail)
  | group {w body tail : List Char} : Blank w →
      splitClose '(' ')' 0 (body ++ ')' :: tail) = some (body, tail) →
      Front t (w ++ '(' :: (body ++ [')']) ++ tail)
  | unclosed {w tail : List Char} : Blank w → splitClose '(' ')' 0 tail = none →
      Front t (w ++ '(' :: tail)
  | illegal {w tail : List Char} {c : Char} : Blank w → isBlank c = false → isNumeric c = false →
      c ≠ '(' → t.longestMatch (c :: tail) = none → Front t (w ++ c :: tail)

theorem exists_front (t : OperatorTable) (text : List Char) : Front t text := by
  obtain ⟨w, text, rfl, hw, ht⟩ := exists_run isBlank text
  cases text with
  | nil => simpa using Front.blank hw
  | cons c tail =>
    have hc : isBlank c = false := ht c rfl
    cases hn : isNumeric c with
    | true =>
      obtain ⟨literal, tail, h, hl, ht⟩ := exists_run isNumeric (c :: tail)
      have hne : literal ≠ [] := by
        rintro rfl
        simp only [List.nil_append] at h
        subst h
        simp [Ends, hn] at ht
      rw [h, ← List.append_assoc]
      exact .number hw hne hl ht
    | false =>
      cases hs : t.longestMatch (c :: tail) with
      | some symbol =>
        have hlong := OperatorTable.longestMatch_eq_some_iff.mp hs
        obtain ⟨more, hmore⟩ := hlong.2.1
        obtain ⟨d, ds, hd⟩ := List.exists_cons_of_ne_nil (OperatorTable.longestMatch_ne_nil hs)
        have hdc : d = c := by
          rw [hd] at hmore
          exact (List.cons.inj hmore).1
        subst hdc
        rw [← hmore, ← List.append_assoc]
        refine .symbol hw ?_ ?_ (hmore ▸ hlong)
        · simpa [Ends, hd] using hc
        · simpa [Ends, hd] using hn
      | none =>
        by_cases hp : c = '('
        · subst hp
          cases hsplit : splitClose '(' ')' 0 tail with
          | none => exact .unclosed hw hsplit
          | some p =>
            obtain ⟨body, after⟩ := p
            obtain rfl := splitClose_append hsplit
            have := Front.group (t := t) hw hsplit
            simpa using this
        · exact .illegal hw hc hn hp hs

namespace Cursor

variable {c : Cursor} {w rest : List Char}

theorem take_append (hc : c.rest = w ++ rest) : (c.take w.length).rest = rest := by
  simp [hc]

theorem skip_blank (hw : Blank w) (hr : Ends isBlank rest) (hc : c.rest = w ++ rest) :
    c.move (.skip isBlank) = c.take w.length := by
  simp only [move, count, run, hc, takeWhile_run hw hr]

end Cursor

namespace Calculator

/-- The one token that a range amounts to, if it is not blank. -/
def normal? (k : Calculator) (c : Cursor) : Except Failure (Option Token) := do
  k.normalize c.depth (← k.tokens c)

variable {k : Calculator} {c : Cursor}

theorem tokens_eq_ok_iff {c : Cursor} {ts : List Token} :
    k.tokens c = .ok ts ↔ c.depth ≤ k.maxDepth ∧ k.tokensFrom c = .ok ts := by
  rw [tokens, within]
  split
  · rename_i hd
    simp [Nat.not_le.mpr hd]
  · rename_i hd
    simp [Nat.le_of_not_lt hd]

theorem tokensFrom_of_finished (h : k.step c = .finished) : k.tokensFrom c = .ok [] := by
  rw [tokensFrom]
  split <;> simp_all

theorem tokensFrom_of_failed {cause : ReadError} (h : k.step c = .failed cause) :
    k.tokensFrom c = .error (.read cause) := by
  rw [tokensFrom]
  split <;> simp_all

theorem tokensFrom_of_token {token : Token} {after : Cursor} (h : k.step c = .token token after) :
    k.tokensFrom c = (do return token :: (← k.tokensFrom after)) := by
  rw [tokensFrom]
  split <;> simp_all

theorem tokensFrom_of_group {opening : Nat} {inside after : Cursor}
    (h : k.step c = .group opening inside after) :
    k.tokensFrom c = (do
      match ← k.normal? inside with
      | none => .error (.read (.emptyGroup opening))
      | some token => return token :: (← k.tokensFrom after)) := by
  rw [tokensFrom]
  split
  · simp_all
  · simp_all
  · simp_all
  · rename_i hs
    rw [h] at hs
    cases hs
    simp only [normal?, bind_assoc]
    rfl

/-- What stands at a cursor that is not before a blank, where there are no rules. -/
theorem stepAt_cons (hk : k.rules = []) {ch : Char} {rest : List Char} (hc : c.rest = ch :: rest) :
    k.stepAt c =
      if isNumeric ch = true ∧ isBlank ch = false then c.number
      else match k.operators.longestMatch (ch :: rest) with
        | some symbol => .token (.operator symbol) (c.take symbol.toList.length)
        | none => if ch = '(' then c.group else .failed (.illegalText c.index) := by
  have hrule : Rule.find? k.rules ch = none := by
    rw [hk]
    rfl
  cases hs : k.operators.longestMatch (ch :: rest) <;>
    simp only [stepAt, Cursor.peek, hc, List.head?_cons, hrule, hs, Lexeme.ofChar?_eq_numeric_iff,
      Lexeme.ofChar?_eq_opening_iff]

section steps
variable {w literal body tail : List Char}

theorem step_eq_stepAt (hw : Blank w) (rest : List Char) (hr : Ends isBlank rest)
    (hc : c.rest = w ++ rest) : k.step c = k.stepAt (c.take w.length) := by
  rw [step, Cursor.skip_blank hw hr hc]

theorem step_blank (hw : Blank w) (hc : c.rest = w) : k.step c = .finished := by
  rw [step_eq_stepAt hw [] (by simp [Ends]) (by simpa using hc)]
  simp [stepAt, Cursor.peek, hc]

section plain
variable (hk : k.rules = []) (hw : Blank w)
include hk hw

/-- A range that begins with a number. -/
theorem step_number (hne : literal ≠ []) (hl : ∀ c ∈ literal, isNumeric c = true)
    (ht : Ends isNumeric tail) (hc : c.rest = w ++ literal ++ tail) :
    k.step c =
      match Double.ofText? literal with
      | some x => .token (.operand x) (c.take (w ++ literal).length)
      | none => .failed (.malformedNumber (String.ofList literal) (c.take w.length).index) := by
  obtain ⟨ch, more, rfl⟩ := List.exists_cons_of_ne_nil hne
  have hch : isNumeric ch = true := hl ch (by simp)
  have hb : Ends isBlank (ch :: more ++ tail) := by
    simpa [Ends] using isBlank_of_isNumeric hch
  have hrest : (c.take w.length).rest = ch :: (more ++ tail) :=
    Cursor.take_append (by simpa using hc)
  have hrun : Lexeme.numeric.extent (c.take w.length).rest = ch :: more := by
    rw [hrest]
    exact takeWhile_run hl ht
  rw [step_eq_stepAt hw _ hb (by simpa using hc), stepAt_cons hk hrest,
    if_pos ⟨hch, isBlank_of_isNumeric hch⟩, Cursor.number, hrun]
  cases Double.ofText? (ch :: more) with
  | none => rfl
  | some x =>
    show Step.token (.operand x) ((c.take w.length).take (ch :: more).length) = _
    rw [Cursor.take_take, ← List.length_append]

/-- A range that begins with a symbol. -/
theorem step_symbol {symbol : String} (hb : Ends isBlank symbol.toList)
    (hn : Ends isNumeric symbol.toList) (hl : k.operators.IsLongest symbol (symbol.toList ++ tail))
    (hc : c.rest = w ++ symbol.toList ++ tail) :
    k.step c = .token (.operator symbol) (c.take (w ++ symbol.toList).length) := by
  have hm := OperatorTable.longestMatch_eq_some_iff.mpr hl
  obtain ⟨ch, more, hch⟩ := List.exists_cons_of_ne_nil (OperatorTable.longestMatch_ne_nil hm)
  rw [hch] at hb hn
  have hrest : (c.take w.length).rest = ch :: (more ++ tail) :=
    Cursor.take_append (by simpa [hch] using hc)
  have hnum : isNumeric ch = false := hn ch rfl
  rw [step_eq_stepAt hw (symbol.toList ++ tail) (by simpa [Ends, hch] using hb)
    (by simpa using hc), stepAt_cons hk hrest, if_neg (by simp [hnum])]
  rw [hch, List.cons_append] at hm
  rw [hm]
  simp only [Cursor.take_take, List.length_append]

/-- A range that begins with a group. -/
theorem step_group (hsplit : splitClose '(' ')' 0 (body ++ ')' :: tail) = some (body, tail))
    (hc : c.rest = w ++ '(' :: (body ++ [')']) ++ tail) :
    ∃ inside : Cursor, inside.rest = body ∧ inside.depth = c.depth + 1 ∧
      k.step c = .group (c.take w.length).index inside
        (c.take (w ++ '(' :: (body ++ [')'])).length) := by
  have hrest : (c.take w.length).rest = '(' :: (body ++ ')' :: tail) :=
    Cursor.take_append (by simpa using hc)
  refine ⟨⟨'(' :: (c.take w.length).passed, body, ')' :: tail ++ c.beyond, c.depth + 1⟩, rfl, rfl, ?_⟩
  rw [step_eq_stepAt hw ('(' :: (body ++ ')' :: tail)) (by simp [Ends]; decide)
    (by simpa using hc), stepAt_cons hk hrest, if_neg (by decide),
    OperatorTable.longestMatch_parenthesis (.inl rfl)]
  simp only [if_true, Cursor.group, hrest, List.drop_one, List.tail_cons, hsplit, Cursor.take_take,
    Cursor.take_beyond, Cursor.take_depth]
  simp [Nat.add_assoc]

/-- A range that begins with a group that nothing closes. -/
theorem step_unclosed (hsplit : splitClose '(' ')' 0 tail = none) (hc : c.rest = w ++ '(' :: tail) :
    k.step c = .failed (.unclosedGroup (c.take w.length).index) := by
  have hrest : (c.take w.length).rest = '(' :: tail := Cursor.take_append hc
  rw [step_eq_stepAt hw ('(' :: tail) (by simp [Ends]; decide) hc, stepAt_cons hk hrest,
    if_neg (by decide), OperatorTable.longestMatch_parenthesis (.inl rfl)]
  simp only [if_true, Cursor.group, hrest, List.drop_one, List.tail_cons, hsplit]

/-- A range that begins with what no token begins with. -/
theorem step_illegal {ch : Char} (hb : isBlank ch = false) (hn : isNumeric ch = false)
    (hp : ch ≠ '(') (hm : k.operators.longestMatch (ch :: tail) = none)
    (hc : c.rest = w ++ ch :: tail) :
    k.step c = .failed (.illegalText (c.take w.length).index) := by
  have hrest : (c.take w.length).rest = ch :: tail := Cursor.take_append hc
  rw [step_eq_stepAt hw (ch :: tail) (by simpa [Ends] using hb) hc, stepAt_cons hk hrest,
    if_neg (by simp [hn]), hm]
  simp only [if_neg hp]

end plain

theorem tokensFrom_blank (hw : Blank w) (hc : c.rest = w) : k.tokensFrom c = .ok [] :=
  tokensFrom_of_finished (step_blank hw hc)

variable (hk : k.rules = []) (hw : Blank w)
include hk hw

theorem tokensFrom_number (hne : literal ≠ []) (hl : ∀ c ∈ literal, isNumeric c = true)
    (ht : Ends isNumeric tail) (hc : c.rest = w ++ literal ++ tail) :
    k.tokensFrom c =
      match Double.ofText? literal with
      | some x => (do return .operand x :: (← k.tokensFrom (c.take (w ++ literal).length)))
      | none => .error (.read (.malformedNumber (String.ofList literal)
          (c.take w.length).index)) := by
  have hs := step_number hk hw hne hl ht hc
  cases hx : Double.ofText? literal with
  | some x =>
    rw [hx] at hs
    exact tokensFrom_of_token hs
  | none =>
    rw [hx] at hs
    exact tokensFrom_of_failed hs

theorem tokensFrom_symbol {symbol : String} (hb : Ends isBlank symbol.toList)
    (hn : Ends isNumeric symbol.toList) (hl : k.operators.IsLongest symbol (symbol.toList ++ tail))
    (hc : c.rest = w ++ symbol.toList ++ tail) :
    k.tokensFrom c = (do
      return .operator symbol :: (← k.tokensFrom (c.take (w ++ symbol.toList).length))) :=
  tokensFrom_of_token (step_symbol hk hw hb hn hl hc)

theorem tokensFrom_group (hsplit : splitClose '(' ')' 0 (body ++ ')' :: tail) = some (body, tail))
    (hc : c.rest = w ++ '(' :: (body ++ [')']) ++ tail) :
    ∃ inside : Cursor, inside.rest = body ∧ inside.depth = c.depth + 1 ∧
      k.tokensFrom c = (do
        match ← k.normal? inside with
        | none => .error (.read (.emptyGroup (c.take w.length).index))
        | some token =>
          return token :: (← k.tokensFrom (c.take (w ++ '(' :: (body ++ [')'])).length))) := by
  obtain ⟨inside, hi, hd, hs⟩ := step_group hk hw hsplit hc
  exact ⟨inside, hi, hd, tokensFrom_of_group hs⟩

theorem tokensFrom_unclosed (hsplit : splitClose '(' ')' 0 tail = none)
    (hc : c.rest = w ++ '(' :: tail) :
    k.tokensFrom c = .error (.read (.unclosedGroup (c.take w.length).index)) :=
  tokensFrom_of_failed (step_unclosed hk hw hsplit hc)

theorem tokensFrom_illegal {ch : Char} (hb : isBlank ch = false) (hn : isNumeric ch = false)
    (hp : ch ≠ '(') (hm : k.operators.longestMatch (ch :: tail) = none)
    (hc : c.rest = w ++ ch :: tail) :
    k.tokensFrom c = .error (.read (.illegalText (c.take w.length).index)) :=
  tokensFrom_of_failed (step_illegal hk hw hb hn hp hm hc)

end steps

/-- What a step passes over, where there are no rules. -/
inductive Passes (k : Calculator) (c : Cursor) : Step → Prop
  | finished : Blank c.rest → Passes k c .finished
  | malformed {w literal tail : List Char} : Blank w → literal ≠ [] →
      (∀ d ∈ literal, isNumeric d = true) → Ends isNumeric tail → Double.ofText? literal = none →
      c.rest = w ++ literal ++ tail →
      Passes k c (.failed (.malformedNumber (String.ofList literal) (c.take w.length).index))
  | unclosed {w tail : List Char} : Blank w → splitClose '(' ')' 0 tail = none →
      c.rest = w ++ '(' :: tail → Passes k c (.failed (.unclosedGroup (c.take w.length).index))
  | illegal {w tail : List Char} {d : Char} : Blank w → isBlank d = false → isNumeric d = false →
      d ≠ '(' → k.operators.longestMatch (d :: tail) = none → c.rest = w ++ d :: tail →
      Passes k c (.failed (.illegalText (c.take w.length).index))
  | number {w literal : List Char} {x : Float} {after : Cursor} : Blank w →
      (∀ d ∈ literal, isNumeric d = true) → c.rest = w ++ literal ++ after.rest →
      after.depth = c.depth → Passes k c (.token (.operand x) after)
  | symbol {w : List Char} {s : String} {after : Cursor} : Blank w →
      k.operators.contains s = true → c.rest = w ++ s.toList ++ after.rest →
      after.depth = c.depth → Passes k c (.token (.operator s) after)
  | group {w : List Char} {opening : Nat} {inside after : Cursor} : Blank w →
      splitClose '(' ')' 0 (inside.rest ++ ')' :: after.rest) = some (inside.rest, after.rest) →
      c.rest = w ++ '(' :: (inside.rest ++ [')']) ++ after.rest →
      inside.depth = c.depth + 1 → after.depth = c.depth →
      Passes k c (.group opening inside after)

theorem step_passes (hk : k.rules = []) (c : Cursor) : k.Passes c (k.step c) := by
  have hf := exists_front k.operators c.rest
  generalize hc : c.rest = text at hf
  cases hf with
  | blank hw =>
    rw [step_blank hw hc]
    exact .finished (hc ▸ hw)
  | number hw hne hl ht =>
    rw [step_number hk hw hne hl ht hc]
    split
    · refine .number hw hl ?_ (Cursor.take_depth ..)
      rw [Cursor.take_append hc, hc]
    · exact .malformed hw hne hl ht ‹_› hc
  | symbol hw hb hn hs =>
    rw [step_symbol hk hw hb hn hs hc]
    refine .symbol hw hs.1 ?_ (Cursor.take_depth ..)
    rw [Cursor.take_append hc, hc]
  | @group w body tail hw hsplit =>
    obtain ⟨inside, rfl, hd, hs⟩ := step_group hk hw hsplit hc
    have hafter := Cursor.take_append hc
    rw [hs]
    refine .group hw ?_ ?_ hd (Cursor.take_depth ..)
    · rwa [hafter]
    · rw [hafter, hc]
  | unclosed hw hsplit =>
    rw [step_unclosed hk hw hsplit hc]
    exact .unclosed hw hsplit hc
  | illegal hw hb hn hp hs =>
    rw [step_illegal hk hw hb hn hp hs hc]
    exact .illegal hw hb hn hp hs hc

end Calculator

end Abacus
