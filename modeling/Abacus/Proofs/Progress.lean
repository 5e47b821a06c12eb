import Abacus.Proofs.Bytes
import Abacus.Proofs.Front
import Abacus.Proofs.Range

/-!
# Progress and confinement

A range is read by a loop that moves one cursor, and a group in it by a loop of its own. Whatever
the rules are, the cursor of a loop only goes forward and stays in its range, every token takes it
further, and nothing that is read inside a group gets past the parenthesis that closes it.
-/

namespace Abacus
open Text

/-! ## Cursors -/

namespace Cursor

/-- The second cursor stands in the same range, no further back. -/
structure Ahead (c d : Cursor) : Prop where
  input : d.input = c.input
  stop : d.stop = c.stop
  depth : d.depth = c.depth
  index_le : c.index ≤ d.index

/-- The second cursor stands in the same text, within the range that the first has ahead. -/
structure Encloses (c d : Cursor) : Prop where
  input : d.input = c.input
  index_le : c.index ≤ d.index
  le_stop : d.index ≤ c.stop

/-- The cursor behind the blanks ahead. -/
def next (c : Cursor) : Cursor := c.move (.skip isBlank)

variable {c d e : Cursor}

theorem index_le_stop (c : Cursor) : c.index ≤ c.stop := Nat.le_add_right ..

theorem ahead_take (c : Cursor) (n : Nat) : c.Ahead (c.take n) where
  input := take_input c n
  stop := by
    have hrest : byteLength c.rest = byteLength (c.rest.take n) + byteLength (c.rest.drop n) := by
      rw [← byteLength_append, List.take_append_drop]
    rw [stop, stop, take_index, take_rest, hrest]
    omega
  depth := take_depth c n
  index_le := by
    rw [take_index]
    omega

theorem ahead_next (c : Cursor) : c.Ahead c.next := ahead_take c _

theorem ends_next (c : Cursor) : Ends isBlank c.next.rest := by
  obtain ⟨w, rest, hc, hw, hrest⟩ := exists_run isBlank c.rest
  rw [next, skip_blank hw hrest hc, take_append hc]
  exact hrest

/-- What is ahead behind the blanks is a part of the text. -/
theorem rest_next_infix (c : Cursor) : c.next.rest <:+: c.input :=
  c.ahead_next.input ▸ ⟨c.next.passed.reverse, c.next.beyond, rfl⟩

theorem Ahead.refl (c : Cursor) : c.Ahead c := ⟨rfl, rfl, rfl, Nat.le_refl _⟩

theorem Ahead.trans (h : c.Ahead d) (h' : d.Ahead e) : c.Ahead e where
  input := h'.input.trans h.input
  stop := h'.stop.trans h.stop
  depth := h'.depth.trans h.depth
  index_le := Nat.le_trans h.index_le h'.index_le

theorem Ahead.encloses (h : c.Ahead d) : c.Encloses d where
  input := h.input
  index_le := h.index_le
  le_stop := h.stop ▸ d.index_le_stop

theorem Encloses.of_ahead (h : c.Ahead d) (h' : d.Encloses e) : c.Encloses e where
  input := h'.input.trans h.input
  index_le := Nat.le_trans h.index_le h'.index_le
  le_stop := h.stop ▸ h'.le_stop

/-- Characters take room, so what is moved over shows in the offset. -/
theorem index_lt_take {n : Nat} (hn : 0 < n) (hc : c.rest ≠ []) : c.index < (c.take n).index := by
  obtain ⟨ch, rest, hr⟩ := List.exists_cons_of_ne_nil hc
  obtain ⟨m, rfl⟩ : ∃ m, n = m + 1 := ⟨n - 1, by omega⟩
  have hch := ch.utf8Size_pos
  rw [take_index, hr, List.take_succ_cons, byteLength_cons]
  omega

end Cursor

/-! ## Rules -/

namespace Scan
variable {α : Type}

/-- A scan that goes on from a cursor comes to be another one at another cursor. -/
inductive Reaches : Scan α → Cursor → Scan α → Cursor → Prop
  | stay (s : Scan α) (c : Cursor) : Reaches s c s c
  | look {next : Cursor → Scan α} {c d : Cursor} {s : Scan α} :
      Reaches (next c) c s d → Reaches (.look next) c s d
  | move {m : Cursor.Move} {next : Scan α} {c d : Cursor} {s : Scan α} :
      Reaches next (c.move m) s d → Reaches (.move m next) c s d

theorem Reaches.ahead {s s' : Scan α} {c d : Cursor} (h : s.Reaches c s' d) : c.Ahead d := by
  induction h with
  | stay => exact .refl _
  | look _ ih => exact ih
  | move _ ih => exact (Cursor.ahead_take _ _).trans ih

theorem reaches_of_run {s : Scan α} {c d : Cursor} {a : α} (h : s.run c = .ok (a, d)) :
    s.Reaches c (.done a) d := by
  induction s generalizing c with
  | done value =>
    cases h
    exact .stay _ _
  | fail cause => cases h
  | look next ih => exact .look (ih c h)
  | move m next ih => exact .move (ih h)

end Scan

/-! ## Groups -/

namespace Cursor
variable {c : Cursor} {rest inside after : List Char}

theorem utf8Size_parenthesis : '('.utf8Size = 1 ∧ ')'.utf8Size = 1 := by decide

private theorem byteLength_opened : byteLength (c.passed.reverse ++ ['(']) = c.index + 1 := by
  simp [index, utf8Size_parenthesis.1]

/-- Before an opening parenthesis, the one that closes the group is where the contents end. -/
theorem matchingClose_rest (hc : c.rest = '(' :: rest) :
    matchingClose (String.ofList c.input) (c.index + 1) c.stop =
      (splitClose '(' ')' 0 rest).map fun p => c.index + 1 + byteLength p.1 := by
  have hstop : byteLength (c.passed.reverse ++ ['('] ++ rest) = c.stop := by
    rw [byteLength_append, byteLength_opened, stop, hc, byteLength_cons, utf8Size_parenthesis.1]
    omega
  have hinput : c.input = c.passed.reverse ++ ['('] ++ rest ++ c.beyond := by
    simp [input, hc]
  have := matchingClose_append (c.passed.reverse ++ ['(']) rest c.beyond
  rwa [byteLength_opened, hstop, ← hinput] at this

/-- The contents of a group are the range between its parentheses. -/
theorem ofRange_group (hc : c.rest = '(' :: (inside ++ ')' :: after)) (depth : Nat) :
    ofRange c.input (c.index + 1) (c.index + 1 + byteLength inside) depth =
      ⟨'(' :: c.passed, inside, ')' :: after ++ c.beyond, depth⟩ := by
  have := ofRange_append (c.passed.reverse ++ ['(']) inside (')' :: after ++ c.beyond) depth
  rw [byteLength_append _ inside, byteLength_opened] at this
  simpa [input, hc] using this

theorem index_take_group (hc : c.rest = '(' :: (inside ++ ')' :: after)) :
    (c.take (inside.length + 2)).index = c.index + 1 + byteLength inside + 1 := by
  have htake : c.rest.take (inside.length + 2) = '(' :: (inside ++ [')']) := by
    have hfront : ('(' :: (inside ++ [')']) ++ after).take ('(' :: (inside ++ [')'])).length =
        '(' :: (inside ++ [')']) := List.take_left
    rw [hc]
    simpa using hfront
  rw [take_index, htake, byteLength_cons, byteLength_append, byteLength_cons, byteLength_nil,
    utf8Size_parenthesis.1, utf8Size_parenthesis.2]
  omega

end Cursor

/-! ## Steps -/

/-- What a step does to the cursor that it is taken at, behind the blanks. A token takes it
further in the range. A group ends with the parenthesis that matches its own, and what is inside
is the range between the two. -/
def Step.Advances (c : Cursor) : Step → Prop
  | .finished => c.rest = []
  | .failed _ => True
  | .token _ after => c.Ahead after ∧ c.index < after.index
  | .group opening inside after => opening = c.index ∧ ∃ close,
      matchingClose (String.ofList c.input) (opening + 1) c.stop = some close ∧
      inside = .ofRange c.input (opening + 1) close (c.depth + 1) ∧
      (inside.index = opening + 1 ∧ inside.stop = close) ∧
      c.Ahead after ∧ after.index = close + 1

section steps
variable {c : Cursor}

/-- A rule that comes to a token has moved on, or it is stalled. -/
theorem Rule.step_of_run {rule : Rule} {t : Token} {after : Cursor}
    (h : rule.read.run c = .ok (t, after)) :
    rule.step c =
      if c.index < after.index then .token t after else .failed (.stalledRule c.index) := by
  have hle := (Scan.reaches_of_run h).ahead.index_le
  rw [Rule.step, h]
  by_cases hi : after.index = c.index
  · rw [if_neg (by omega)]
    exact if_pos hi
  · rw [if_pos (by omega)]
    exact if_neg hi

theorem Rule.step_advances (rule : Rule) (c : Cursor) : (rule.step c).Advances c := by
  cases h : rule.read.run c with
  | error cause =>
    rw [Rule.step, h]
    trivial
  | ok p =>
    obtain ⟨t, after⟩ := p
    rw [Rule.step_of_run h]
    split
    · rename_i hlt
      exact ⟨(Scan.reaches_of_run h).ahead, hlt⟩
    · trivial

theorem Cursor.take_advances {n : Nat} (hn : 0 < n) (hc : c.rest ≠ []) (t : Token) :
    (Step.token t (c.take n)).Advances c :=
  ⟨Cursor.ahead_take c n, Cursor.index_lt_take hn hc⟩

theorem Cursor.number_advances {ch : Char} {rest : List Char} (hc : c.rest = ch :: rest)
    (hn : isNumeric ch = true) : c.number.Advances c := by
  unfold Cursor.number
  simp only
  split
  · refine Cursor.take_advances ?_ (by simp [hc]) _
    simp [Lexeme.extent, hc, hn]
  · trivial

theorem Cursor.group_advances {rest : List Char} (hc : c.rest = '(' :: rest) :
    c.group.Advances c := by
  have hclose := Cursor.matchingClose_rest hc
  unfold Cursor.group
  rw [hc, List.drop_one, List.tail_cons]
  cases hsplit : splitClose '(' ')' 0 rest with
  | none => trivial
  | some p =>
    obtain ⟨inside, after⟩ := p
    rw [splitClose_append hsplit] at hc
    rw [hsplit, Option.map_some] at hclose
    refine ⟨rfl, _, hclose, (Cursor.ofRange_group hc _).symm, ?_, Cursor.ahead_take c _,
      Cursor.index_take_group hc⟩
    simp [Cursor.index, Cursor.stop, Cursor.utf8Size_parenthesis.1]
    omega

end steps

namespace Calculator

theorem stepAt_advances (k : Calculator) (c : Cursor) : (k.stepAt c).Advances c := by
  unfold stepAt
  cases hc : c.peek with
  | none => exact List.head?_eq_none_iff.mp hc
  | some ch =>
    obtain ⟨rest, hr⟩ : ∃ rest, c.rest = ch :: rest := List.head?_eq_some_iff.mp hc
    simp only
    split
    · exact Rule.step_advances _ c
    · split
      · rename_i hn
        exact Cursor.number_advances hr (Lexeme.isNumeric_of_ofChar? hn)
      · split
        · rename_i symbol hs
          have hne := OperatorTable.longestMatch_ne_nil hs
          exact Cursor.take_advances (List.length_pos_iff.mpr hne) (by simp [hr]) _
        · split
          · rename_i ho
            rw [Lexeme.ofChar?_eq_opening_iff.mp ho] at hr
            exact Cursor.group_advances hr
          · trivial

theorem step_advances (k : Calculator) (c : Cursor) : (k.step c).Advances c.next :=
  k.stepAt_advances c.next

variable {k : Calculator} {c inside after : Cursor}

/-- A step stays in the text. -/
theorem input_of_token {t : Token} (h : k.step c = .token t after) : after.input = c.input := by
  have hstep := k.step_advances c
  rw [h] at hstep
  exact (c.ahead_next.trans hstep.1).input

theorem input_of_group {opening : Nat} (h : k.step c = .group opening inside after) :
    inside.input = c.input ∧ after.input = c.input := by
  have hstep := k.step_advances c
  rw [h] at hstep
  obtain ⟨-, close, -, rfl, -, ha, -⟩ := hstep
  refine ⟨?_, (c.ahead_next.trans ha).input⟩
  rw [Cursor.ofRange_input, c.ahead_next.input]

end Calculator

/-! ## Loops -/

/-- A token and the offsets between which it was read. -/
structure Piece where
  token : Token
  start : Nat
  stop : Nat

/-- Pieces from one offset to another: none is empty, and each begins where the one before has
ended, or further on. -/
def Spans : Nat → List Piece → Nat → Prop
  | start, [], stop => start ≤ stop
  | start, p :: more, stop => start ≤ p.start ∧ p.start < p.stop ∧ Spans p.stop more stop

/-- Every piece takes room. -/
theorem Spans.length_le : ∀ {pieces : List Piece} {start stop : Nat}, Spans start pieces stop →
    start + pieces.length ≤ stop
  | [], _, _, h => h
  | p :: more, start, stop, ⟨hs, hp, hm⟩ => by
    have := hm.length_le
    rw [List.length_cons]
    omega

namespace Calculator

/-- One round of the loop over a range, which adds a piece. -/
inductive Round (k : Calculator) (c : Cursor) : Piece → Cursor → Prop
  | token {t : Token} {after : Cursor} :
      k.step c = .token t after → Round k c ⟨t, c.next.index, after.index⟩ after
  | group {opening : Nat} {inside after : Cursor} {t : Token} :
      k.step c = .group opening inside after → k.normal? inside = .ok (some t) →
      Round k c ⟨t, opening, after.index⟩ after

/-- Rounds of the loop one after the other. -/
inductive Run (k : Calculator) : Cursor → List Piece → Cursor → Prop
  | stay (c : Cursor) : Run k c [] c
  | round {c d e : Cursor} {p : Piece} {more : List Piece} :
      k.Round c p d → Run k d more e → Run k c (p :: more) e

/-- The loop stops at a cursor: nothing is left, or there is an error, which may come from the
inside of a group. -/
inductive Stops (k : Calculator) (c : Cursor) : Except Failure Unit → Prop
  | finished : k.step c = .finished → Stops k c (.ok ())
  | failed {cause : ReadError} : k.step c = .failed cause → Stops k c (.error (.read cause))
  | inside {opening : Nat} {inside after : Cursor} {cause : Failure} :
      k.step c = .group opening inside after → k.normal? inside = .error cause →
      Stops k c (.error cause)
  | empty {opening : Nat} {inside after : Cursor} :
      k.step c = .group opening inside after → k.normal? inside = .ok none →
      Stops k c (.error (.read (.emptyGroup opening)))

/-- The rule that reads what stands at a cursor. -/
def ruleAt (k : Calculator) (c : Cursor) : Option Rule := c.peek.bind (Rule.find? k.rules)

/-- The cursors that reading a range passes through: those of its loop, those of the rules that
read its tokens, and those of the groups in it. -/
inductive Visits (k : Calculator) : Cursor → Cursor → Prop
  | loop {c d : Cursor} {pieces : List Piece} : k.Run c pieces d → Visits k c d
  | blank {c d : Cursor} {pieces : List Piece} : k.Run c pieces d → Visits k c d.next
  | rule {c d e : Cursor} {pieces : List Piece} {rule : Rule} {s : Scan Token} :
      k.Run c pieces d → k.ruleAt d.next = some rule → rule.read.Reaches d.next s e → Visits k c e
  | group {c d e : Cursor} {pieces : List Piece} {opening : Nat} {inside after : Cursor} :
      k.Run c pieces d → k.step d = .group opening inside after → Visits k inside e → Visits k c e

variable {k : Calculator} {c d e : Cursor} {p : Piece} {pieces : List Piece}

theorem step_of_ruleAt {rule : Rule} (h : k.ruleAt c.next = some rule) :
    k.step c = rule.step c.next := by
  obtain ⟨ch, hc, hf⟩ := Option.bind_eq_some_iff.mp h
  show k.stepAt c.next = _
  simp only [stepAt, hc, hf]

/-- A round takes the cursor from where its piece begins, or from before, to where it ends. -/
theorem Round.spec (h : k.Round c p d) :
    c.Ahead d ∧ c.index ≤ p.start ∧ p.start < p.stop ∧ p.stop = d.index := by
  have hstep := k.step_advances c
  have hnext := c.ahead_next
  cases h with
  | token hs =>
    rw [hs] at hstep
    exact ⟨hnext.trans hstep.1, hnext.index_le, hstep.2, rfl⟩
  | group hs _ =>
    rw [hs] at hstep
    obtain ⟨rfl, close, -, -, ⟨hi, rfl⟩, ha, hafter⟩ := hstep
    have := Cursor.index_le_stop ‹Cursor›
    exact ⟨hnext.trans ha, hnext.index_le, by simp only; omega, rfl⟩

theorem Round.shorter {c d : Cursor} {p : Piece} (h : k.Round c p d) :
    d.rest.length < c.rest.length := by
  have hshort := k.step_shorter c
  cases h with
  | token hs =>
    rw [hs] at hshort
    exact hshort
  | group hs _ =>
    rw [hs] at hshort
    exact hshort.2

theorem Run.spec (h : k.Run c pieces d) : c.Ahead d ∧ Spans c.index pieces d.index := by
  induction h with
  | stay => exact ⟨.refl _, Nat.le_refl _⟩
  | round hround _ ih =>
    obtain ⟨ha, hs, hp, he⟩ := hround.spec
    exact ⟨ha.trans ih.1, hs, hp, he ▸ ih.2⟩

/-- A round reads its token and leaves the rest. -/
theorem Round.tokensFrom (h : k.Round c p d) :
    k.tokensFrom c = (k.tokensFrom d).map (p.token :: ·) := by
  cases h with
  | token hs =>
    rw [tokensFrom_of_token hs]
    cases k.tokensFrom d <;> rfl
  | group hs hn =>
    rw [tokensFrom_of_group hs, hn]
    show (do return _ :: (← k.tokensFrom d)) = _
    cases k.tokensFrom d <;> rfl

theorem Round.exists_tokensFrom {p : Piece} (hround : k.Round c p d)
    (h : k.tokensFrom c = .ok ts) :
    ∃ rest, k.tokensFrom d = .ok rest ∧ ts = p.token :: rest := by
  rw [hround.tokensFrom] at h
  cases hrest : k.tokensFrom d with
  | error =>
    rw [hrest] at h
    cases h
  | ok rest =>
    rw [hrest] at h
    cases h
    exact ⟨rest, rfl, rfl⟩

theorem Run.tokensFrom (h : k.Run c pieces d) :
    k.tokensFrom c = (k.tokensFrom d).map (pieces.map Piece.token ++ ·) := by
  induction h with
  | stay c => cases k.tokensFrom c <;> rfl
  | @round _ _ e _ _ hround _ ih =>
    rw [hround.tokensFrom, ih]
    cases k.tokensFrom e <;> rfl

theorem Stops.tokensFrom {outcome : Except Failure Unit} (h : k.Stops c outcome) :
    k.tokensFrom c = outcome.map fun _ => [] := by
  cases h with
  | finished hs => exact tokensFrom_of_finished hs
  | failed hs => exact tokensFrom_of_failed hs
  | inside hs hn =>
    rw [tokensFrom_of_group hs, hn]
    rfl
  | empty hs hn =>
    rw [tokensFrom_of_group hs, hn]
    rfl

/-- Either the loop stops at a cursor or it goes on. -/
theorem exists_stops_or_round (k : Calculator) (c : Cursor) :
    (∃ outcome, k.Stops c outcome) ∨ ∃ p d, k.Round c p d := by
  cases hs : k.step c with
  | finished => exact .inl ⟨_, .finished hs⟩
  | failed cause => exact .inl ⟨_, .failed hs⟩
  | token t after => exact .inr ⟨_, _, .token hs⟩
  | group opening inside after =>
    cases hn : k.normal? inside with
    | error cause => exact .inl ⟨_, .inside hs hn⟩
    | ok t? =>
      cases t? with
      | none => exact .inl ⟨_, .empty hs hn⟩
      | some t => exact .inr ⟨_, _, .group hs hn⟩

/-- As every round moves the cursor and none takes it out of the range, the loop ends. -/
theorem exists_run_stops (k : Calculator) (c : Cursor) :
    ∃ pieces d outcome, k.Run c pieces d ∧ k.Stops d outcome := by
  induction hn : c.stop - c.index using Nat.strongRecOn generalizing c with
  | ind n ih =>
  obtain ⟨outcome, hstops⟩ | ⟨p, d, hround⟩ := k.exists_stops_or_round c
  · exact ⟨[], c, outcome, .stay c, hstops⟩
  · obtain ⟨ha, hs, hp, he⟩ := hround.spec
    have hle := d.index_le_stop
    have hstop := ha.stop
    obtain ⟨more, e, outcome, hrun, hstops⟩ := ih (d.stop - d.index) (by omega) d rfl
    exact ⟨p :: more, e, outcome, .round hround hrun, hstops⟩

/-- What reading a range passes through, on whatever level, is in the range. -/
theorem Visits.encloses (h : k.Visits c e) : c.Encloses e := by
  induction h with
  | loop hrun => exact hrun.spec.1.encloses
  | blank hrun => exact (hrun.spec.1.trans (Cursor.ahead_next _)).encloses
  | rule hrun _ hr => exact ((hrun.spec.1.trans (Cursor.ahead_next _)).trans hr.ahead).encloses
  | @group _ d e _ _ inside after hrun hs _ ih =>
    have hinput : inside.input = d.next.input :=
      (input_of_group hs).1.trans d.ahead_next.input.symm
    have hstep := k.step_advances d
    rw [hs] at hstep
    obtain ⟨rfl, close, -, -, ⟨hstart, hstop⟩, ha, hafter⟩ := hstep
    have hd := hrun.spec.1.trans (Cursor.ahead_next d)
    have hle := after.index_le_stop
    refine .of_ahead hd ⟨ih.input.trans hinput, ?_, ?_⟩
    · have := ih.index_le
      omega
    · have := ih.le_stop
      have := ha.stop
      omega

/-- What holds where the loop over a range has come to a cursor and found some pieces. -/
structure Progresses (k : Calculator) (c : Cursor) (pieces : List Piece) (d : Cursor) : Prop where
  ahead : c.Ahead d
  spans : Spans c.index pieces d.index
  rounds_le : pieces.length ≤ d.index - c.index
  advances : d.Ahead d.next ∧ (k.step d).Advances d.next
  /-- A rule goes forward with every move, and stops the reading if it comes to a token without
  having moved at all. -/
  rule_ahead : ∀ rule, k.ruleAt d.next = some rule → ∀ s e s' e',
    rule.read.Reaches d.next s e → s.Reaches e s' e' → d.next.Ahead e ∧ e.Ahead e'
  rule_stalled : ∀ rule, k.ruleAt d.next = some rule → ∀ t e, rule.read.run d.next = .ok (t, e) →
    e.index = d.next.index → k.tokensFrom c = .error (.read (.stalledRule d.next.index))
  /-- Whatever is read inside a group ends before the parenthesis that closes it. -/
  group_encloses : ∀ opening inside after, k.step d = .group opening inside after →
    ∀ e, k.Visits inside e → inside.Encloses e ∧ e.index < after.index
  /-- The loop ends, and what was read is what the pieces hold. -/
  stops : ∃ more e outcome, k.Run d more e ∧ k.Stops e outcome ∧
    k.tokensFrom c = outcome.map fun _ => (pieces ++ more).map Piece.token

/-- Reading any range with any rules, on every level of nesting: the loop makes progress until it
ends, and nothing that it passes through is outside the range. -/
theorem reading_progresses (k : Calculator) (c : Cursor) :
    (∀ pieces d, k.Run c pieces d → k.Progresses c pieces d) ∧
    ∀ e, k.Visits c e → c.Encloses e := by
  refine ⟨fun pieces d hrun => ?_, fun e he => he.encloses⟩
  obtain ⟨hahead, hspans⟩ := hrun.spec
  have hadvances := k.step_advances d
  refine ⟨hahead, hspans, ?_, ⟨d.ahead_next, hadvances⟩, ?_, ?_, ?_, ?_⟩
  · have := hspans.length_le
    omega
  · intro rule _ s e s' e' hs hs'
    exact ⟨hs.ahead, hs'.ahead⟩
  · intro rule hrule t e ht he
    have hs := step_of_ruleAt hrule
    rw [Rule.step_of_run ht, if_neg (by omega)] at hs
    rw [hrun.tokensFrom, tokensFrom_of_failed hs]
    rfl
  · intro opening inside after hs e he
    rw [hs] at hadvances
    obtain ⟨rfl, close, -, -, ⟨-, hstop⟩, -, hafter⟩ := hadvances
    have hle := he.encloses.le_stop
    exact ⟨he.encloses, by omega⟩
  · obtain ⟨more, e, outcome, hmore, hstops⟩ := k.exists_run_stops d
    refine ⟨more, e, outcome, hmore, hstops, ?_⟩
    rw [hrun.tokensFrom, hmore.tokensFrom, hstops.tokensFrom]
    cases outcome with
    | error cause => rfl
    | ok u => simp [Except.map]

end Calculator

end Abacus
