import Abacus.Evaluation
import Abacus.Proofs.Reduction

/-!
# Values of token sequences

A sequence of tokens has a value exactly if operands and registered operators alternate in it,
every operand has a value one level deeper, and the chain of these values has one.
-/

namespace Abacus

/-- The sequence of an operand and of pairs of an operator and its right operand. -/
def Token.alternation (first : Token) (more : List (String × Token)) : List Token :=
  first :: more.flatMap fun pair => [.operator pair.1, pair.2]

namespace Calculator

/-- An operand and pairs of an operator and its right operand, with what they stand for. -/
structure Resolved (k : Calculator) (depth : Nat) (first : Token) (more : List (String × Token))
    (x : Float) (steps : List (Operator × Float)) : Prop where
  operand : first.operator? = none
  value : k.value depth first = .ok x
  links : List.Forall₂ (fun pair step => k.operators.get? pair.1 = some step.1 ∧
    pair.2.operator? = none ∧ k.value depth pair.2 = .ok step.2) more steps

variable {k : Calculator} {depth : Nat}

theorem operator?_of_value {t : Token} {x : Float} (h : k.value depth t = .ok x) :
    t.operator? = none := by
  cases t with
  | operand => rfl
  | operator symbol => simp [Calculator.value] at h
  | group => rfl

theorem operator_eq_ok_iff {t : Token} {op : Operator} :
    k.operator t = .ok op ↔ ∃ symbol, t = .operator symbol ∧ k.operators.get? symbol = some op := by
  cases t with
  | operand => simp [operator]
  | group => simp [operator]
  | operator symbol =>
    cases hs : k.operators.get? symbol <;> simp [operator, hs]

theorem links_pairs (more : List (String × Token)) :
    k.links depth (more.flatMap fun pair => [.operator pair.1, pair.2]) =
      more.map fun pair => (.operator pair.1, k.value depth pair.2) := by
  induction more with
  | nil => simp [Calculator.links]
  | cons pair more ih => simp [Calculator.links, ih]

/-- Links that can all be taken come from pairs of an operator and an operand. -/
theorem pairs_of_resolves : ∀ {rest : List Token} {steps : List (Operator × Float)},
    List.Forall₂ (Chain.Resolves k.operator) (k.links depth rest) steps →
      ∃ more : List (String × Token), rest = (more.flatMap fun pair => [.operator pair.1, pair.2]) ∧
        List.Forall₂ (fun pair step => k.operators.get? pair.1 = some step.1 ∧
          pair.2.operator? = none ∧ k.value depth pair.2 = .ok step.2) more steps
  | [], _, h => by
    rw [Calculator.links] at h
    cases h
    exact ⟨[], rfl, .nil⟩
  | [t], _, h => by
    rw [Calculator.links] at h
    cases h with
    | cons hl _ => cases hl.2
  | t :: operand :: rest, _, h => by
    rw [Calculator.links] at h
    cases h with
    | @cons _ step _ steps hl hs =>
      obtain ⟨symbol, rfl, ho⟩ := operator_eq_ok_iff.mp hl.1
      obtain ⟨more, rfl, hm⟩ := pairs_of_resolves hs
      exact ⟨(symbol, operand) :: more, rfl, .cons ⟨ho, operator?_of_value hl.2, hl.2⟩ hm⟩

/-- A sequence of the right shape is worth what its chain is worth, errors included. -/
theorem value_alternation {first : Token} {more : List (String × Token)} {x : Float}
    {steps : List (Operator × Float)} (hd : depth ≤ k.maxDepth)
    (h : k.Resolved (depth + 1) first more x steps) :
    k.value depth (.group (Token.alternation first more)) =
      Chain.nest Operation.priority Operation.compute x steps := by
  have hr : List.Forall₂ (Chain.Resolves k.operator)
      (more.map fun pair => (.operator pair.1, k.value (depth + 1) pair.2)) steps := by
    refine List.forall₂_map_left_iff.mpr (h.links.imp ?_)
    intro pair step hp
    exact ⟨operator_eq_ok_iff.mpr ⟨pair.1, rfl, hp.1⟩, hp.2.2⟩
  rw [Token.alternation, Calculator.value, guarded, if_neg (Nat.not_lt.mpr hd), links_pairs, h.value,
    ← Chain.reduce_of_resolves hr]
  rfl

/-- A sequence that has a value is of the right shape. -/
theorem resolved_of_value {tokens : List Token} {v : Float}
    (h : k.value depth (.group tokens) = .ok v) :
    depth ≤ k.maxDepth ∧ ∃ first more x steps, tokens = Token.alternation first more ∧
      k.Resolved (depth + 1) first more x steps := by
  have hd : depth ≤ k.maxDepth := by
    refine Nat.le_of_not_lt fun hd => ?_
    cases tokens <;> simp [Calculator.value, guarded, hd] at h
  cases tokens with
  | nil => simp [Calculator.value, guarded, Nat.not_lt.mpr hd] at h
  | cons first rest =>
    rw [Calculator.value, guarded, if_neg (Nat.not_lt.mpr hd)] at h
    obtain ⟨x, hx, hv⟩ := exists_of_bind_eq_ok h
    obtain ⟨steps, hs⟩ := Chain.resolves_of_reduce hv
    obtain ⟨more, rfl, hm⟩ := pairs_of_resolves hs
    exact ⟨hd, first, more, x, steps, rfl, operator?_of_value hx, hx, hm⟩

/-- The value of any sequence of tokens. The tree says that every operand is used once and in
its place, and every operator is applied once. -/
theorem value_group_eq_ok_iff (k : Calculator) (depth : Nat) (tokens : List Token) (v : Float) :
    k.value depth (.group tokens) = .ok v ↔
      depth ≤ k.maxDepth ∧ ∃ first more x steps,
        tokens = Token.alternation first more ∧ k.Resolved (depth + 1) first more x steps ∧
        Chain.nest Operation.priority Operation.compute x steps = .ok v ∧
        ∃ tree : Chain.Tree Operator Float, tree.operands = x :: steps.map Prod.snd ∧
          tree.operations = steps.map Prod.fst ∧ tree.eval Operation.compute = .ok v := by
  constructor
  · intro h
    obtain ⟨hd, first, more, x, steps, rfl, hr⟩ := resolved_of_value h
    have hv : Chain.nest Operation.priority Operation.compute x steps = .ok v := by
      rw [← value_alternation hd hr, h]
    refine ⟨hd, first, more, x, steps, rfl, hr, hv,
      Chain.Tree.ofChain Operation.priority (.leaf x) steps, ?_, ?_, ?_⟩
    · rw [Chain.Tree.operands_ofChain]
      rfl
    · rw [Chain.Tree.operations_ofChain]
      rfl
    · rw [Chain.Tree.eval_ofChain]
      exact hv
  · rintro ⟨hd, first, more, x, steps, rfl, hr, hv, -⟩
    rw [value_alternation hd hr, hv]

end Calculator

end Abacus
