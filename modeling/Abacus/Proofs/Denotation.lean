import Abacus.Expression
import Abacus.Proofs.Front
import Abacus.Proofs.Grammar
import Abacus.Proofs.Outcome
import Abacus.Proofs.Sequence
import Abacus.Proofs.Substitution

/-!
# The value of an expression

Whatever is written by the grammar, within the limit on nesting, is worth the value of its
reduction, or is refused for a division by zero in it. A token stands for a reduction if its value
is that outcome; reading keeps this, from numbers over series to groups.
-/

namespace Abacus
open Text

namespace Grammar

namespace Reduction

def outcome (r : Reduction) : Except EvalError Float :=
  if r.dividesByZero then .error .divisionByZero else .ok r.value

theorem outcome_of_dividesByZero {r : Reduction} (h : r.dividesByZero = true) :
    r.outcome = .error .divisionByZero := by
  rw [outcome, if_pos h]

theorem outcome_eq_error {r : Reduction} {e : EvalError} (h : r.outcome = .error e) :
    e = .divisionByZero ∧ r.dividesByZero = true := by
  cases hz : r.dividesByZero with
  | true =>
    rw [outcome_of_dividesByZero hz] at h
    cases h
    exact ⟨rfl, rfl⟩
  | false => simp [outcome, hz] at h

theorem outcome_negate (r : Reduction) :
    r.negate.outcome = (do return -(← r.outcome)) := by
  cases hz : r.dividesByZero <;> simp [outcome, dividesByZero, value, hz]

theorem outcome_apply (op : Arithmetic) (l r : Reduction) :
    (apply op l r).outcome = (do op.compute (← l.outcome) (← r.outcome)) := by
  cases hl : l.dividesByZero with
  | true => simp [outcome, dividesByZero, hl, bind, Except.bind]
  | false =>
    cases hr : r.dividesByZero with
    | true => simp [outcome, dividesByZero, hl, hr, bind, Except.bind]
    | false => simp [outcome, dividesByZero, value, hl, hr, bind, Except.bind, Arithmetic.compute_eq]

@[simp] theorem ofChain_nil (left : Reduction) : ofChain left [] = left :=
  Chain.nest_nil (m := Id) precedence apply left

theorem ofChain_cons (left right : Reduction) (op : Arithmetic)
    (more : List (Arithmetic × Reduction)) :
    ofChain left ((op, right) :: more) =
      if Chain.rises precedence op more then apply op left (ofChain right more)
      else ofChain (apply op left right) more :=
  Chain.nest_cons (m := Id) precedence apply left op right more

/-- A division by zero in an operand is one in the chain. -/
theorem dividesByZero_ofChain {left : Reduction} {steps : List (Arithmetic × Reduction)}
    (h : left.dividesByZero = true ∨ ∃ step ∈ steps, step.2.dividesByZero = true) :
    (ofChain left steps).dividesByZero = true := by
  induction steps generalizing left with
  | nil => simpa using h
  | cons step more ih =>
    obtain ⟨op, right⟩ := step
    rw [ofChain_cons]
    split
    · rcases h with h | ⟨step, hm, h⟩
      · simp [dividesByZero, h]
      · have hr : (ofChain right more).dividesByZero = true := by
          rcases List.mem_cons.mp hm with rfl | hm
          · exact ih (.inl h)
          · exact ih (.inr ⟨step, hm, h⟩)
        simp [dividesByZero, hr]
    · rcases h with h | ⟨step, hm, h⟩
      · exact ih (.inl (by simp [dividesByZero, h]))
      · rcases List.mem_cons.mp hm with rfl | hm
        · exact ih (.inl (by simp [dividesByZero, h]))
        · exact ih (.inr ⟨step, hm, h⟩)

end Reduction

end Grammar

open Grammar

namespace Calculator

variable {k : Calculator}

theorem operator_arithmetic (ho : k.operators = .arithmetic) (op : Arithmetic) :
    k.operator (.operator op.symbol) = .ok op.operator := by
  rw [operator, ho, OperatorTable.get?_arithmetic]

/-- The links of a chain whose operands come to outcomes of reductions. -/
def linksOf (steps : List (Arithmetic × Reduction)) : List (Token × Except EvalError Float) :=
  steps.map fun step => (.operator step.1.symbol, step.2.outcome)

theorem nextPriority_linksOf (ho : k.operators = .arithmetic)
    (steps : List (Arithmetic × Reduction)) :
    Chain.nextPriority k.operator (linksOf steps) =
      .ok (steps.head?.map fun step => step.1.priority) := by
  cases steps with
  | nil => rfl
  | cons step more =>
    simp only [linksOf, List.map_cons, Chain.nextPriority, operator_arithmetic ho]
    rfl

/-- The reduction of such a chain comes to the outcome of the chain of reductions. -/
theorem reduce_linksOf (ho : k.operators = .arithmetic) {left : Reduction} {x : Float}
    (hx : left.outcome = .ok x) (steps : List (Arithmetic × Reduction)) :
    Chain.reduce k.operator x (linksOf steps) = (Reduction.ofChain left steps).outcome := by
  induction steps generalizing left x with
  | nil => simpa [linksOf, Chain.reduce] using hx.symm
  | cons step more ih =>
    obtain ⟨op, right⟩ := step
    show Chain.reduce k.operator x ((.operator op.symbol, right.outcome) :: linksOf more) = _
    rw [Chain.reduce, operator_arithmetic ho, nextPriority_linksOf ho]
    cases hr : right.outcome with
    | error e =>
      obtain ⟨rfl, hz⟩ := Reduction.outcome_eq_error hr
      have hmore : (Reduction.ofChain left ((op, right) :: more)).dividesByZero = true :=
        Reduction.dividesByZero_ofChain (.inr ⟨(op, right), by simp, hz⟩)
      rw [Reduction.outcome_of_dividesByZero hmore]
      rfl
    | ok y =>
      have happly : (Reduction.apply op left right).outcome = op.compute x y := by
        rw [Reduction.outcome_apply, hx, hr]
        rfl
      have hrises : (more.head?.map fun step => step.1.priority).any
          (decide <| op.operator.priority < ·) = Chain.rises precedence op more := by
        cases more with
        | nil => rfl
        | cons next _ => exact decide_eq_decide.mpr (priority_lt_iff op next.1)
      simp only [bind, Except.bind, hrises]
      rw [Reduction.ofChain_cons]
      split
      · rw [ih hr, Reduction.outcome_apply, hx]
        rfl
      · cases hc : op.compute x y with
        | ok z =>
          simp only [Arithmetic.operator, hc]
          exact ih (happly.trans hc)
        | error e =>
          rw [hc] at happly
          obtain ⟨rfl, hz⟩ := Reduction.outcome_eq_error happly
          simp only [Arithmetic.operator, hc]
          rw [Reduction.outcome_of_dividesByZero (Reduction.dividesByZero_ofChain (.inl hz))]

/-- A token that is no operator and whose value, at any depth up to the given one, is the outcome
of the reduction. -/
def Stands (k : Calculator) (depth : Nat) (t : Token) (r : Reduction) : Prop :=
  t.operator? = none ∧ ∀ d ≤ depth, k.value d t = r.outcome

/-- A sequence whose operands stand for those of a chain and whose operators are its own. -/
def StandsForChain (k : Calculator) (depth : Nat) (left : Reduction)
    (steps : List (Arithmetic × Reduction)) (tokens : List Token) : Prop :=
  ∃ t more, tokens = Token.alternation t more ∧ k.Stands depth t left ∧
    List.Forall₂ (fun pair step => pair.1 = step.1.symbol ∧ k.Stands depth pair.2 step.2) more steps

/-- A computation that succeeds with the property, or else meets a division by zero, which then
is one to be met. -/
def Comes {α : Type} (x : Except Failure α) (property : α → Prop) (zero : Prop) : Prop :=
  (∃ a, x = .ok a ∧ property a) ∨ (x = .error (.eval .divisionByZero) ∧ zero)

theorem Stands.mono {depth d : Nat} {t : Token} {r : Reduction} (h : k.Stands depth t r)
    (hd : d ≤ depth) : k.Stands d t r :=
  ⟨h.1, fun d' hd' => h.2 d' (Nat.le_trans hd' hd)⟩

theorem stands_operand (depth : Nat) {x : Float} {r : Reduction} (h : r.outcome = .ok x) :
    k.Stands depth (.operand x) r :=
  ⟨rfl, fun d _ => by rw [value, h]⟩

/-- A sequence that stands for a chain is worth the outcome of the chain. -/
theorem StandsForChain.value (ho : k.operators = .arithmetic) {depth d : Nat} {left : Reduction}
    {steps : List (Arithmetic × Reduction)} {tokens : List Token}
    (h : k.StandsForChain (depth + 1) left steps tokens) (hmax : depth ≤ k.maxDepth)
    (hd : d ≤ depth) : k.value d (.group tokens) = (Reduction.ofChain left steps).outcome := by
  obtain ⟨t, more, rfl, ht, hmore⟩ := h
  have hlinks : more.map (fun pair => (Token.operator pair.1, k.value (d + 1) pair.2)) =
      linksOf steps := by
    clear ht
    induction hmore with
    | nil => rfl
    | cons hp _ ih =>
      simp only [List.map_cons, linksOf, hp.1, hp.2.2 (d + 1) (by omega)] at ih ⊢
      rw [ih]
  rw [Token.alternation, Calculator.value, guarded, if_neg (by omega), links_pairs, hlinks,
    ht.2 (d + 1) (by omega)]
  cases hx : left.outcome with
  | ok x => exact reduce_linksOf ho hx steps
  | error e =>
    obtain ⟨rfl, hz⟩ := Reduction.outcome_eq_error hx
    rw [Reduction.outcome_of_dividesByZero (Reduction.dividesByZero_ofChain (.inl hz))]
    rfl

/-- Gathered, it is one token that stands for the chain. -/
theorem StandsForChain.gather (ho : k.operators = .arithmetic) {depth : Nat} {left : Reduction}
    {steps : List (Arithmetic × Reduction)} {tokens : List Token}
    (h : k.StandsForChain (depth + 1) left steps tokens) (hmax : depth ≤ k.maxDepth) :
    ∃ t, gather tokens = some t ∧ k.Stands depth t (.ofChain left steps) := by
  obtain ⟨t, more, ht, hleft, hmore⟩ := id h
  cases hmore with
  | nil =>
    refine ⟨t, by rw [ht]; rfl, ?_⟩
    rw [Reduction.ofChain_nil]
    exact hleft.mono (Nat.le_succ depth)
  | cons hp hmore =>
    exact ⟨.group tokens, by rw [ht]; rfl, rfl, fun d hd => h.value ho hmax hd⟩

/-- Negating a token gives a number for what it stands for. -/
theorem Stands.negate {depth : Nat} {t : Token} {r : Reduction} (h : k.Stands (depth + 1) t r) :
    k.negate depth t = (r.outcome.mapError Failure.eval).map fun x => .operand (-x) := by
  cases t with
  | operand x =>
    have hx := h.2 0 (by omega)
    rw [value] at hx
    rw [← hx]
    rfl
  | operator symbol => cases h.1
  | group tokens =>
    rw [Calculator.negate, h.2 (depth + 1) (by omega)]
    cases r.outcome <;> rfl

/-- A leading sign is folded into the first operand. -/
theorem StandsForChain.foldSign {depth : Nat} {left : Reduction}
    {steps : List (Arithmetic × Reduction)} {tokens : List Token}
    (h : k.StandsForChain (depth + 1) left steps tokens) (sign : Sign) :
    Comes (k.foldSign depth (.operator sign.operator.symbol :: tokens))
      (k.StandsForChain (depth + 1) (sign.apply left) steps) (left.dividesByZero = true) := by
  obtain ⟨t, more, rfl, ht, hmore⟩ := h
  cases sign with
  | plus => exact .inl ⟨_, rfl, t, more, rfl, ht, hmore⟩
  | minus =>
    show Comes (do
      return (← k.negate depth t) :: more.flatMap fun pair => [.operator pair.1, pair.2]) _ _
    rw [ht.negate]
    cases hx : left.outcome with
    | ok x =>
      refine .inl ⟨_, rfl, .operand (-x), more, rfl, stands_operand _ ?_, hmore⟩
      rw [Sign.apply, Reduction.outcome_negate, hx]
      rfl
    | error e =>
      obtain ⟨rfl, hz⟩ := Reduction.outcome_eq_error hx
      exact .inr ⟨rfl, hz⟩

theorem ends_numeric_of_blank {w tail : List Char} (hw : Blank w) (ht : Ends isNumeric tail) :
    Ends isNumeric (w ++ tail) := by
  cases w with
  | nil => exact ht
  | cons c w =>
    intro d hd
    cases hd
    cases hn : isNumeric c with
    | false => rfl
    | true =>
      have hb := hw c (by simp)
      rw [isBlank_of_isNumeric hn] at hb
      cases hb

theorem ends_symbol (op : Arithmetic) (tail : List Char) :
    Ends isBlank (op.symbol.toList ++ tail) ∧ Ends isNumeric (op.symbol.toList ++ tail) := by
  simp [Ends, Arithmetic.symbol_toList, op.not_blank_char, op.not_numeric_char]

/-- Behind blanks, the symbol of an operator is read as the operator. -/
theorem tokensFrom_operator (hk : k.rules = []) (ho : k.operators = .arithmetic) {c : Cursor}
    {w tail : List Char} {op : Arithmetic} (hw : Blank w)
    (hc : c.rest = w ++ op.symbol.toList ++ tail) :
    k.tokensFrom c = (do
      return .operator op.symbol :: (← k.tokensFrom (c.take (w ++ op.symbol.toList).length))) := by
  obtain ⟨hb, hn⟩ := ends_symbol op []
  rw [List.append_nil] at hb hn
  exact tokensFrom_symbol hk hw hb hn (ho ▸ OperatorTable.isLongest_arithmetic op tail) hc

mutual

/-- The text of an expression amounts to a token that stands for its reduction. -/
theorem normal?_expression (hk : k.rules = []) (ho : k.operators = .arithmetic) :
    ∀ (e : Expression) {text : List Char} {c : Cursor}, e.Written text →
    c.rest = text → c.depth + e.nesting ≤ k.maxDepth →
    Comes (k.normal? c) (fun t? => ∃ t, t? = some t ∧ k.Stands c.depth t e.reduction)
      (e.reduction.dividesByZero = true)
  | .plain s, _, c, .plain h, hc, hd => by
    rw [normal?, tokens, within, if_neg (by omega)]
    rcases tokensFrom_series hk ho s h hc hd with ⟨ts, hts, hstands⟩ | ⟨herr, hz⟩
    · obtain ⟨t, hg, ht⟩ := hstands.gather ho (by omega)
      refine .inl ⟨some t, ?_, t, rfl, ht⟩
      obtain ⟨u, more, rfl, hu, -⟩ := hstands
      have hf : k.foldSign c.depth (Token.alternation u more) = .ok (Token.alternation u more) := by
        cases u with
        | operator symbol => cases hu.1
        | operand | group => rfl
      rw [hts]
      simp only [bind, Except.bind, normalize, hf, hg]
      rfl
    · refine .inr ⟨?_, Reduction.dividesByZero_ofChain hz⟩
      rw [herr]
      rfl
  | .signed sign s, _, c, .signed hw h, hc, hd => by
    rw [normal?, tokens, within, if_neg (by omega), tokensFrom_operator hk ho hw hc]
    have hseries : Comes (k.tokensFrom (c.take _))
        (k.StandsForChain (c.depth + 1) s.first s.steps) _ :=
      tokensFrom_series hk ho s h (Cursor.take_append hc) hd
    rcases hseries with ⟨ts, hts, hstands⟩ | ⟨herr, hz⟩
    · rw [hts]
      rcases hstands.foldSign sign with ⟨ts', hf, hstands'⟩ | ⟨hf, hz⟩
      · obtain ⟨t, hg, ht⟩ := hstands'.gather ho (by omega)
        refine .inl ⟨some t, ?_, t, rfl, ht⟩
        simp only [bind, Except.bind, pure, Except.pure, normalize, hf, hg]
      · refine .inr ⟨?_, Reduction.dividesByZero_ofChain (.inl ?_)⟩
        · simp only [bind, Except.bind, pure, Except.pure, normalize, hf]
        · cases sign <;> exact hz
    · refine .inr ⟨?_, Reduction.dividesByZero_ofChain (hz.imp_left ?_)⟩
      · rw [herr]
        rfl
      · intro hz
        cases sign <;> exact hz

/-- The text of a series is read as tokens that stand for its chain. -/
theorem tokensFrom_series (hk : k.rules = []) (ho : k.operators = .arithmetic) :
    ∀ (s : Series) {text : List Char} {c : Cursor}, s.Written text →
    c.rest = text → c.depth + s.nesting ≤ k.maxDepth →
    Comes (k.tokensFrom c) (k.StandsForChain (c.depth + 1) s.first s.steps)
      (s.first.dividesByZero = true ∨ ∃ step ∈ s.steps, step.2.dividesByZero = true)
  | .last t, _, c, .last hw h hw', hc, hd => by
    have hend := ends_numeric_of_blank hw' (Ends.nil isNumeric)
    rw [List.append_nil] at hend
    rcases tokensFrom_operand hk ho t h hw hend hc hd with ⟨u, hu, hstands⟩ | ⟨herr, hz⟩
    · refine .inl ⟨[u], ?_, u, [], rfl, hstands, .nil⟩
      rw [hu, tokensFrom_blank hw' (Cursor.take_append hc)]
      rfl
    · exact .inr ⟨herr, .inl hz⟩
  | .link t op more, _, c, @Series.Written.link _ _ _ _ _ _ tail hw h hw' hm, hc, hd => by
    have hend := ends_numeric_of_blank hw' (ends_symbol op tail).2
    rw [← List.append_assoc] at hend
    simp only [Series.nesting] at hd
    rcases tokensFrom_operand hk ho t h hw hend hc (by omega) with ⟨u, hu, hstands⟩ | ⟨herr, hz⟩
    · have hrest := Cursor.take_append hc
      rw [hu, tokensFrom_operator hk ho hw' hrest]
      rcases tokensFrom_series hk ho more hm (Cursor.take_append hrest) (by simp; omega) with
        ⟨ts, hts, u', pairs, rfl, hu', hpairs⟩ | ⟨herr, hz⟩
      · refine .inl ⟨_, ?_, u, (op.symbol, u') :: pairs, rfl, hstands, .cons ⟨rfl, hu'⟩ hpairs⟩
        rw [hts]
        rfl
      · refine .inr ⟨?_, .inr ?_⟩
        · rw [herr]
          rfl
        · rcases hz with hz | ⟨step, hs, hz⟩
          · exact ⟨(op, more.first), by simp [Series.steps], hz⟩
          · exact ⟨step, by simp [Series.steps, hs], hz⟩
    · exact .inr ⟨herr, .inl hz⟩

/-- The text of an operand is read as one token that stands for it. -/
theorem tokensFrom_operand (hk : k.rules = []) (ho : k.operators = .arithmetic) :
    ∀ (t : Operand) {text w tail : List Char} {c : Cursor},
    t.Written text → Blank w → Ends isNumeric tail → c.rest = w ++ text ++ tail →
    c.depth + t.nesting ≤ k.maxDepth →
    (∃ u, k.tokensFrom c = (do return u :: (← k.tokensFrom (c.take (w ++ text).length))) ∧
      k.Stands (c.depth + 1) u t.reduction) ∨
    (k.tokensFrom c = .error (.eval .divisionByZero) ∧ t.reduction.dividesByZero = true)
  | .number n, _, w, tail, c, .number, hw, ht, hc, _ => by
    refine .inl ⟨.operand n.value, ?_, stands_operand _ rfl⟩
    rw [tokensFrom_number hk hw n.literal_ne_nil n.numeric ht hc, n.reads]
  | .group e, _, w, tail, c, .group h, hw, ht, hc, hd => by
    obtain ⟨inside, hi, hid, he⟩ :=
      tokensFrom_group hk hw ((Expression.Written.level e h).1.splitClose_group tail) hc
    simp only [Operand.nesting] at hd
    rcases normal?_expression hk ho e h hi (by omega) with ⟨_, hn, u, rfl, hstands⟩ | ⟨herr, hz⟩
    · refine .inl ⟨u, ?_, hid ▸ hstands⟩
      rw [he, hn]
      rfl
    · refine .inr ⟨?_, hz⟩
      rw [he, herr]
      rfl

end

end Calculator

/-! ## Whole expressions -/

namespace Calculator

theorem evaluate_of_not_mem (k : Calculator) {text : String} (h : '$' ∉ text.toList) :
    k.evaluate text = k.textValue text.toList := by
  rw [evaluate, evaluateWith, textValueWith, substitute_of_not_mem _ h]
  rfl

/-- Whatever the grammar writes is worth what it means. The only refusal is for a division by
zero among the operations of its reduction. -/
theorem evaluate_written (maxDepth : Nat) (e : Expression) (text : String)
    (hw : e.Written text.toList) (hd : e.nesting ≤ maxDepth) :
    ({ maxDepth } : Calculator).evaluate text =
      if e.reduction.dividesByZero then .error (.eval .divisionByZero)
      else .ok e.reduction.value := by
  have hdollar : '$' ∉ text.toList := by
    intro h
    exact absurd ((Expression.Written.level e hw).2 _ h) (by decide)
  rw [evaluate_of_not_mem _ hdollar, textValue]
  rcases normal?_expression (k := { maxDepth }) rfl rfl e (c := .whole text.toList 0) hw rfl
    (by simpa [Cursor.whole] using hd) with ⟨_, hn, t, rfl, hstands⟩ | ⟨herr, hz⟩
  · have ht : ({ maxDepth } : Calculator).token? text.toList = .ok (some t) := hn
    simp only [ht, bind, Except.bind, hstands.2 0 (Nat.zero_le _), Reduction.outcome]
    split <;> rfl
  · have ht : ({ maxDepth } : Calculator).token? text.toList =
        .error (.eval .divisionByZero) := herr
    rw [ht, if_pos hz]
    rfl

/-- The product is a rise, so the difference waits for all that follow it, the sum included. -/
theorem evaluate_written_signed_group : ∃ e : Expression,
    e.Written " -(1+2) - 3 * 4 + 5".toList ∧ e.nesting ≤ 1 ∧
      ({ maxDepth := 1 } : Calculator).evaluate " -(1+2) - 3 * 4 + 5" = .ok (-20) := by
  have hgroup : Operand.Written (.group (.plain (.link (.number (.ofDigit 1)) .add
      (.last (.number (.ofDigit 2)))))) "(1+2)".toList :=
    @Operand.Written.group _ "1+2".toList (.plain (@Series.Written.link _ _ _ [] _ [] _ (by decide)
      .number (by decide) (@Series.Written.last _ [] _ [] (by decide) .number (by decide))))
  have hlast : Series.Written (.last (.number (.ofDigit 5))) " 5".toList :=
    @Series.Written.last _ [' '] _ [] (by decide) .number (by decide)
  have hsum : Series.Written (.link (.number (.ofDigit 4)) .add _) " 4 + 5".toList :=
    @Series.Written.link _ _ _ [' '] _ [' '] _ (by decide) .number (by decide) hlast
  have hproduct : Series.Written (.link (.number (.ofDigit 3)) .mul _) " 3 * 4 + 5".toList :=
    @Series.Written.link _ _ _ [' '] _ [' '] _ (by decide) .number (by decide) hsum
  have hdifference : Series.Written (.link _ .sub _) "(1+2) - 3 * 4 + 5".toList :=
    @Series.Written.link _ _ _ [] _ [' '] _ (by decide) hgroup (by decide) hproduct
  have hw : Expression.Written (.signed .minus _) " -(1+2) - 3 * 4 + 5".toList :=
    @Expression.Written.signed _ _ [' '] _ (by decide) hdifference
  refine ⟨_, hw, by decide, ?_⟩
  rw [evaluate_written 1 _ _ hw (by decide)]
  decide +kernel

end Calculator

end Abacus
