import Abacus.Expression
import Abacus.Proofs.Occurrence
import Abacus.Proofs.Reduction
import Abacus.Proofs.SideBySide
import Abacus.Proofs.Substitution

/-!
# Calculators that agree

What a calculator makes of a text depends on the steps that it takes in the text, on what the
operators stand for that the steps come to, and on the limit. Two calculators that have the same of
these have the same outcome, and with a higher limit the outcome is the same unless it was the
limit that stopped the reading or the evaluation.
-/

namespace Abacus
open Text

namespace Calculator
open Token

variable {k k' : Calculator} {stops : Failure → Prop} {text : List Char}

/-! ## Limits -/

/-- The second limit is the first, or a higher one if a run is stopped by the first. -/
structure Roomier (stops : Failure → Prop) (k k' : Calculator) : Prop where
  le : k.maxDepth ≤ k'.maxDepth
  read : k.maxDepth < k'.maxDepth → stops (.read (.tooDeep k.maxDepth))
  eval : k.maxDepth < k'.maxDepth → stops (.eval (.tooDeep k.maxDepth))

theorem Roomier.of_eq (h : k.maxDepth = k'.maxDepth) : Roomier stops k k' where
  le := Nat.le_of_eq h
  read hlt := absurd h (Nat.ne_of_lt hlt)
  eval hlt := absurd h (Nat.ne_of_lt hlt)

/-- What is limited to some depth agrees with what is limited to the same or a greater one. -/
theorem limited_agree {ε α : Type} {stops : ε → Prop} {limit limit' : Nat} (tooDeep : Nat → ε)
    (hle : limit ≤ limit') (hstops : limit < limit' → stops (tooDeep limit)) (depth : Nat)
    {x y : Except ε α} (hxy : AgreeUnless stops x y) :
    AgreeUnless stops (if limit < depth then .error (tooDeep limit) else x)
      (if limit' < depth then .error (tooDeep limit') else y) := by
  by_cases hd : limit < depth
  · rw [if_pos hd]
    rcases Nat.eq_or_lt_of_le hle with rfl | hlt
    · rw [if_pos hd]
      exact .refl _
    · exact .left _ (hstops hlt)
  · rw [if_neg hd, if_neg (by omega)]
    exact hxy

theorem Roomier.within (h : Roomier stops k k') (depth : Nat) {x y : Except Failure (List Token)}
    (hxy : AgreeUnless stops x y) : AgreeUnless stops (k.within depth x) (k'.within depth y) := by
  rw [Calculator.within, Calculator.within]
  exact limited_agree (fun limit => .read (.tooDeep limit)) h.le h.read depth hxy

theorem Roomier.guarded (h : Roomier stops k k') (depth : Nat) {x y : Except EvalError Float}
    (hxy : AgreeUnless (fun e => stops (.eval e)) x y) :
    AgreeUnless (fun e => stops (.eval e)) (k.guarded depth x) (k'.guarded depth y) := by
  rw [Calculator.guarded, Calculator.guarded]
  exact limited_agree .tooDeep h.le h.eval depth hxy

/-! ## Evaluation -/

/-- The symbol stands for the same operation in both calculators, or for none. -/
def SameEntry (k k' : Calculator) (symbol : String) : Prop :=
  k.operators.get? symbol = k'.operators.get? symbol

theorem operator_eq_of_over {t : Token} (ht : t.Over (k.SameEntry k')) :
    k.operator t = k'.operator t := by
  cases t with
  | operand | group => rfl
  | operator symbol =>
    have hs : k.operators.get? symbol = k'.operators.get? symbol := over_operator_iff.mp ht
    rw [operator, operator, hs]

mutual

theorem Roomier.value_agree (h : Roomier stops k k') : ∀ (depth : Nat) (t : Token),
    t.Over (k.SameEntry k') →
      AgreeUnless (fun e => stops (.eval e)) (k.value depth t) (k'.value depth t)
  | _, .operand x, _ => by
    rw [value, value]
    exact .refl _
  | _, .operator symbol, _ => by
    rw [value, value]
    exact .refl _
  | depth, .group [], _ => by
    rw [value, value]
    exact h.guarded depth (.refl _)
  | depth, .group (first :: more), ht => by
    obtain ⟨hfirst, hmore⟩ := List.forall_mem_cons.mp (over_group_iff.mp ht)
    rw [value, value]
    refine h.guarded depth (.bind (h.value_agree (depth + 1) first hfirst) fun x _ => ?_)
    exact Chain.reduce_agree (h.links_agree (depth + 1) more hmore) x

theorem Roomier.links_agree (h : Roomier stops k k') : ∀ (depth : Nat) (ts : List Token),
    (∀ t ∈ ts, t.Over (k.SameEntry k')) →
      List.Forall₂ (Chain.AgreeingLink (fun e => stops (.eval e)) k.operator k'.operator)
        (k.links depth ts) (k'.links depth ts)
  | _, [], _ => by
    rw [links, links]
    exact .nil
  | _, [t], hts => by
    rw [links, links]
    exact .cons ⟨rfl, operator_eq_of_over (hts t (by simp)), .refl _⟩ .nil
  | depth, t :: right :: more, hts => by
    simp only [List.forall_mem_cons] at hts
    obtain ⟨ht, hright, hmore⟩ := hts
    rw [links, links]
    exact .cons ⟨rfl, operator_eq_of_over ht, h.value_agree depth right hright⟩
      (h.links_agree depth more hmore)

end

theorem value_congr (hlimit : k.maxDepth = k'.maxDepth) (depth : Nat) {t : Token}
    (ht : t.Over (k.SameEntry k')) : k.value depth t = k'.value depth t := by
  have hroom : Roomier (fun _ => False) k k' := .of_eq hlimit
  exact (hroom.value_agree depth t ht).eq_of_unstopped

/-! ## Reading -/

/-- Two calculators that take the same steps in a text, and find the same normal forms, read every
range of the text alike. -/
theorem Roomier.tokensFrom_agree (h : Roomier stops k k')
    (hstep : ∀ c, c.input = text → k.step c = k'.step c)
    (hnormal : ∀ c, c.input = text → ∀ ts, k.tokensFrom c = .ok ts →
      AgreeUnless stops (k.normalize c.depth ts) (k'.normalize c.depth ts))
    {c : Cursor} (hc : c.input = text) : AgreeUnless stops (k.tokensFrom c) (k'.tokensFrom c) := by
  -- each cursor belongs with itself, as long as it is in the text
  refine tokensFrom_together_eq (fun d d' => d = d' ∧ d.input = text) ?_ ?_ ⟨rfl, hc⟩
  · rintro d _ ⟨rfl, hd⟩
    rw [← hstep d hd]
    refine .refl (fun _ => rfl) (fun _ => rfl) _ (fun t after hs => ?_) fun opening inside after hs => ?_
    · exact ⟨rfl, (input_of_token hs).trans hd⟩
    · obtain ⟨hinside, hafter⟩ := input_of_group hs
      exact ⟨⟨rfl, hinside.trans hd⟩, rfl, hafter.trans hd⟩
  · rintro d _ ⟨rfl, hd⟩ hread
    refine AgreeUnless.bind (h.within _ hread) fun ts hts => ?_
    exact hnormal d hd ts (tokens_eq_ok_iff.mp hts).2

/-- The calculators take the same steps in the text, and the operators that the steps come to
stand for the same. -/
structure SameSteps (text : List Char) (k k' : Calculator) : Prop where
  step : ∀ c, c.input = text → k.step c = k'.step c
  entry : ∀ c, c.input = text → ∀ t after, k.step c = .token t after → t.Over (k.SameEntry k')

theorem SameSteps.normalize (h : SameSteps text k k') (hroom : Roomier stops k k') {c : Cursor}
    (hc : c.input = text) {ts : List Token} (hts : k.tokensFrom c = .ok ts) (depth : Nat) :
    AgreeUnless stops (k.normalize depth ts) (k'.normalize depth ts) :=
  normalize_agree fun t ht => hroom.value_agree _ t (over_tokensFrom h.entry hc hts t ht)

theorem SameSteps.tokens (h : SameSteps text k k') (hroom : Roomier stops k k') {c : Cursor}
    (hc : c.input = text) : AgreeUnless stops (k.tokens c) (k'.tokens c) :=
  hroom.within _ (hroom.tokensFrom_agree h.step (fun _ hd _ hts => h.normalize hroom hd hts _) hc)

theorem SameSteps.textValue (h : SameSteps text k k') (hroom : Roomier stops k k') :
    AgreeUnless stops (k.textValue text) (k'.textValue text) := by
  have hc : (Cursor.whole text 0).input = text := by simp [Cursor.whole, Cursor.input]
  have htoken : AgreeUnless stops (k.token? text) (k'.token? text) :=
    .bind (h.tokens hroom hc) fun ts hts => h.normalize hroom hc (tokens_eq_ok_iff.mp hts).2 0
  refine .bind htoken fun t? ht => ?_
  cases t? with
  | none => exact .refl _
  | some t =>
    obtain ⟨ts, hts, hnormal⟩ := exists_of_bind_eq_ok ht
    have hover := over_tokensFrom h.entry hc (tokens_eq_ok_iff.mp hts).2
    exact .mapError (hroom.value_agree 0 t (over_normalize hnormal hover))

/-! ## Expressions -/

section expressions
variable {β : Type} [Variables β]

/-- The text is what an expression becomes when its references are replaced. -/
def Becomes (expression : Option String) (bindings : β) (text : List Char) : Prop :=
  ∃ written, expression = some written ∧
    substitute (Variables.lookup bindings) written.toList = .ok text

theorem Becomes.eq_of_not_mem {written : String} {bindings : β} {text : List Char}
    (h : Becomes (some written) bindings text) (hw : '$' ∉ written.toList) :
    text = written.toList := by
  obtain ⟨_, ⟨⟩, htext⟩ := h
  rw [substitute_of_not_mem _ hw] at htext
  exact (Except.ok.inj htext).symm

/-- It is enough that the calculators take the same steps in the text that is read. -/
theorem Roomier.evaluateWith (hroom : Roomier stops k k') (expression : Option String)
    (bindings : β) (h : ∀ text, Becomes expression bindings text → SameSteps text k k') :
    AgreeUnless stops (k.evaluateWith expression bindings)
      (k'.evaluateWith expression bindings) := by
  cases expression with
  | none => exact .refl _
  | some written =>
    refine .bind (.refl _) fun text htext => ?_
    exact (h text ⟨written, rfl, eq_ok_of_mapError htext⟩).textValue hroom

/-- With the same limit the outcome is the same. -/
theorem evaluateWith_congr (hlimit : k.maxDepth = k'.maxDepth) (expression : Option String)
    (bindings : β) (h : ∀ text, Becomes expression bindings text → SameSteps text k k') :
    k.evaluateWith expression bindings = k'.evaluateWith expression bindings := by
  have hroom : Roomier (fun _ => False) k k' := .of_eq hlimit
  exact (hroom.evaluateWith expression bindings h).eq_of_unstopped

end expressions

end Calculator

end Abacus
