import Abacus.Expression
import Abacus.Proofs.Arithmetic
import Abacus.Proofs.SideBySide

/-!
# Reading and computing

What a text is read as does not depend on what the operators compute, but for one thing: a group
behind a leading minus is evaluated while the text is still being read. Of two calculators that
differ in nothing but what their operators compute, both report the same errors of reading, until
an operator of one of them refuses its operands in such a group.
-/

namespace Abacus
open Text

/-! ## Tokens -/

namespace Token

mutual

/-- The tokens differ at most in the numbers that they hold. -/
inductive SameShape : Token → Token → Prop
  | operand (x y : Float) : SameShape (.operand x) (.operand y)
  | operator (symbol : String) : SameShape (.operator symbol) (.operator symbol)
  | group {ts us : List Token} : SameShapes ts us → SameShape (.group ts) (.group us)

inductive SameShapes : List Token → List Token → Prop
  | nil : SameShapes [] []
  | cons {t u : Token} {ts us : List Token} : SameShape t u → SameShapes ts us →
      SameShapes (t :: ts) (u :: us)

end

mutual

theorem SameShape.refl : ∀ t : Token, SameShape t t
  | operand x => .operand x x
  | operator symbol => .operator symbol
  | group ts => .group (SameShapes.refl ts)

theorem SameShapes.refl : ∀ ts : List Token, SameShapes ts ts
  | [] => .nil
  | t :: ts => .cons (SameShape.refl t) (SameShapes.refl ts)

end

end Token

namespace Calculator
open Token

variable {k k' : Calculator}

/-- The calculators have the same symbols with the same priorities, the same rules and the same
limit, so that they differ at most in what their operators compute. -/
structure SameSyntax (k k' : Calculator) : Prop where
  priorities : ∀ symbol, (k.operators.get? symbol).map Operation.priority =
    (k'.operators.get? symbol).map Operation.priority
  rules : k.rules = k'.rules
  maxDepth : k.maxDepth = k'.maxDepth

/-- The error is an operator's answer to some operands. -/
def Refuses (k : Calculator) (e : EvalError) : Prop :=
  ∃ symbol op left right, k.operators.get? symbol = some op ∧ op.compute left right = .error e

/-- The operators of arithmetic refuse nothing but a quotient by zero. -/
theorem eq_divisionByZero_of_refuses (hk : k.operators = .arithmetic) {e : EvalError}
    (h : k.Refuses e) : e = .divisionByZero := by
  obtain ⟨symbol, op, left, right, ho, he⟩ := h
  rw [hk] at ho
  obtain ⟨op', -, rfl⟩ := OperatorTable.exists_of_get?_arithmetic ho
  have hc : op'.compute left right = .error e := he
  rw [Arithmetic.compute_eq] at hc
  split at hc
  · exact (Except.error.inj hc).symm
  · cases hc

/-- Evaluations side by side, which are stopped when an operator refuses. -/
abbrev EvalTogether {α β : Type} (k k' : Calculator) (results : α → β → Prop) :
    Except EvalError α → Except EvalError β → Prop :=
  SideBySide k.Refuses k'.Refuses (fun _ _ => True) results

theorem SameSyntax.refl (k : Calculator) : k.SameSyntax k := ⟨fun _ => rfl, rfl, rfl⟩

theorem SameSyntax.symm (h : k.SameSyntax k') : k'.SameSyntax k :=
  ⟨fun symbol => (h.priorities symbol).symm, h.rules.symm, h.maxDepth.symm⟩

/-! ## Evaluation -/

/-- Operators of one priority that come to values unless the calculator's operators refuse. -/
structure SameOperator (k k' : Calculator) (op op' : Operator) : Prop where
  priority : op.priority = op'.priority
  compute : ∀ x y x' y', k.EvalTogether k' (fun _ _ => True) (op.compute x y) (op'.compute x' y')

theorem SameSyntax.operator (h : k.SameSyntax k') {t u : Token} (ht : SameShape t u) :
    k.EvalTogether k' (k.SameOperator k') (k.operator t) (k'.operator u) := by
  cases ht with
  | operand => exact .error trivial
  | group => exact .error trivial
  | operator symbol =>
    have hp := h.priorities symbol
    cases ho : k.operators.get? symbol with
    | none =>
      cases ho' : k'.operators.get? symbol with
      | none => simpa only [Calculator.operator, ho, ho'] using .error trivial
      | some op' => simp [ho, ho'] at hp
    | some op =>
      cases ho' : k'.operators.get? symbol with
      | none => simp [ho, ho'] at hp
      | some op' =>
        simp only [ho, ho', Option.map_some, Option.some.injEq] at hp
        simp only [Calculator.operator, ho, ho']
        refine .ok ⟨hp, ?_⟩
        intro x y x' y'
        cases hx : op.compute x y with
        | error e => exact .left _ ⟨symbol, op, x, y, ho, hx⟩
        | ok v =>
          cases hx' : op'.compute x' y' with
          | error e => exact .right _ ⟨symbol, op', x', y', ho', hx'⟩
          | ok v' => exact .ok trivial

/-- Links with signs of one shape and operands that are evaluated side by side. -/
def SameLink (k k' : Calculator) (l l' : Token × Except EvalError Float) : Prop :=
  SameShape l.1 l'.1 ∧ k.EvalTogether k' (fun _ _ => True) l.2 l'.2

theorem SameSyntax.nextPriority (h : k.SameSyntax k')
    {links links' : List (Token × Except EvalError Float)}
    (hl : List.Forall₂ (k.SameLink k') links links') :
    k.EvalTogether k' (· = ·) (Chain.nextPriority k.operator links)
      (Chain.nextPriority k'.operator links') := by
  cases hl with
  | nil => exact .ok rfl
  | cons hl _ =>
    exact (h.operator hl.1).map fun op op' hop => congrArg some hop.priority

theorem SameSyntax.reduce (h : k.SameSyntax k')
    {links links' : List (Token × Except EvalError Float)}
    (hl : List.Forall₂ (k.SameLink k') links links') (x x' : Float) :
    k.EvalTogether k' (fun _ _ => True) (Chain.reduce k.operator x links)
      (Chain.reduce k'.operator x' links') := by
  induction hl generalizing x x' with
  | nil => exact .ok trivial
  | @cons l l' links links' hl hmore ih =>
    obtain ⟨sign, operand⟩ := l
    obtain ⟨sign', operand'⟩ := l'
    rw [Chain.reduce, Chain.reduce]
    refine (h.operator hl.1).bind fun op op' hop => ?_
    refine hl.2.bind fun right right' _ => ?_
    refine (h.nextPriority hmore).bind fun next next' hnext => ?_
    subst hnext
    rw [hop.priority]
    split
    · exact (ih right right').bind fun y y' _ => hop.compute x y x' y'
    · exact (hop.compute x right x' right').bind fun y y' _ => ih y y'

theorem SameSyntax.guarded (h : k.SameSyntax k') (depth : Nat) {x y : Except EvalError Float}
    (hxy : k.EvalTogether k' (fun _ _ => True) x y) :
    k.EvalTogether k' (fun _ _ => True) (k.guarded depth x) (k'.guarded depth y) := by
  rw [Calculator.guarded, Calculator.guarded, h.maxDepth]
  split
  · exact .error trivial
  · exact hxy

mutual

/-- Tokens of one shape are evaluated side by side. -/
theorem SameSyntax.value (h : k.SameSyntax k') : ∀ (t : Token) {u : Token}, SameShape t u →
    ∀ depth, k.EvalTogether k' (fun _ _ => True) (k.value depth t) (k'.value depth u)
  | .operand x, _, .operand _ y, depth => by
    rw [Calculator.value, Calculator.value]
    exact .ok trivial
  | .operator symbol, _, .operator _, depth => by
    rw [Calculator.value, Calculator.value]
    exact .error trivial
  | .group [], _, .group .nil, depth => by
    rw [Calculator.value, Calculator.value]
    exact h.guarded depth (.error trivial)
  | .group (first :: more), _, .group (.cons ht hmore), depth => by
    rw [Calculator.value, Calculator.value]
    refine h.guarded depth ?_
    exact (h.value first ht (depth + 1)).bind fun x x' _ =>
      h.reduce (h.links more hmore (depth + 1)) x x'

theorem SameSyntax.links (h : k.SameSyntax k') : ∀ (ts : List Token) {us : List Token},
    SameShapes ts us → ∀ depth,
      List.Forall₂ (k.SameLink k') (k.links depth ts) (k'.links depth us)
  | [], _, .nil, depth => by
    rw [Calculator.links, Calculator.links]
    exact .nil
  | [t], _, .cons ht .nil, depth => by
    rw [Calculator.links, Calculator.links]
    exact .cons ⟨ht, .error trivial⟩ .nil
  | _ :: right :: more, _, .cons ht (.cons hr hmore), depth => by
    rw [Calculator.links, Calculator.links]
    exact .cons ⟨ht, h.value right hr depth⟩ (h.links more hmore depth)

end

/-! ## Reading -/

/-- The same cause of reading, or any two of evaluation. -/
inductive SameCause : Failure → Failure → Prop
  | read (e : ReadError) : SameCause (.read e) (.read e)
  | eval (e e' : EvalError) : SameCause (.eval e) (.eval e')

/-- The cause is an operator's answer. -/
def RefusesWith (k : Calculator) (cause : Failure) : Prop := ∃ e, cause = .eval e ∧ k.Refuses e

/-- Readings side by side. -/
abbrev ReadTogether {α β : Type} (k k' : Calculator) (results : α → β → Prop) :
    Except Failure α → Except Failure β → Prop :=
  SideBySide k.RefusesWith k'.RefusesWith SameCause results

theorem ReadTogether.of_eval {α β : Type} {results : α → β → Prop} {x : Except EvalError α}
    {y : Except EvalError β} (h : k.EvalTogether k' results x y) :
    k.ReadTogether k' results (x.mapError .eval) (y.mapError .eval) :=
  h.mapError (fun e he => ⟨e, rfl, he⟩) (fun e he => ⟨e, rfl, he⟩) fun e e' _ => .eval e e'

theorem SameSyntax.negate (h : k.SameSyntax k') (depth : Nat) {t u : Token} (ht : SameShape t u) :
    k.ReadTogether k' SameShape (k.negate depth t) (k'.negate depth u) := by
  cases ht with
  | operand x y => exact .ok (.operand (-x) (-y))
  | operator symbol => exact .error (.read _)
  | @group ts us hts =>
    rw [Calculator.negate, Calculator.negate]
    exact (ReadTogether.of_eval (h.value (.group ts) (.group hts) (depth + 1))).bind
      fun x y _ => .ok (.operand (-x) (-y))

theorem SameSyntax.foldSign (h : k.SameSyntax k') (depth : Nat) {ts us : List Token}
    (hts : SameShapes ts us) :
    k.ReadTogether k' SameShapes (k.foldSign depth ts) (k'.foldSign depth us) := by
  cases hts with
  | nil => exact .ok .nil
  | @cons t u ts us ht hts =>
    cases ht with
    | operand x y => exact .ok (.cons (.operand x y) hts)
    | group hg => exact .ok (.cons (.group hg) hts)
    | operator symbol =>
      cases hts with
      | nil => exact .error (.read _)
      | cons ht hts =>
        rw [Calculator.foldSign, Calculator.foldSign]
        split
        · exact .error (.read _)
        · split
          · exact (h.negate depth ht).bind fun v v' hv => .ok (.cons hv hts)
          · exact .ok (.cons ht hts)

theorem gather_sameShape {ts us : List Token} (h : SameShapes ts us) :
    Option.Rel SameShape (gather ts) (gather us) := by
  cases h with
  | nil => exact .none
  | cons ht hts =>
    cases hts with
    | nil => exact .some ht
    | cons hu hts => exact .some (.group (.cons ht (.cons hu hts)))

theorem SameSyntax.normalize (h : k.SameSyntax k') (depth : Nat) {ts us : List Token}
    (hts : SameShapes ts us) :
    k.ReadTogether k' (Option.Rel SameShape) (k.normalize depth ts) (k'.normalize depth us) :=
  (h.foldSign depth hts).bind fun _ _ hr => .ok (gather_sameShape hr)

/-- Tables with the same data of a symbol's operation, if any, hold the symbol both or neither. -/
theorem contains_eq_of_map_eq {α : Type} {f : Operator → α} {symbol : String}
    (h : (k.operators.get? symbol).map f = (k'.operators.get? symbol).map f) :
    k.operators.contains symbol = k'.operators.contains symbol := by
  have hs := congrArg Option.isSome h
  simp only [Option.isSome_map] at hs
  exact hs

theorem SameSyntax.contains_eq (h : k.SameSyntax k') (symbol : String) :
    k.operators.contains symbol = k'.operators.contains symbol :=
  contains_eq_of_map_eq (h.priorities symbol)

/-- Calculators with the same symbols and rules see the same in front of a cursor. -/
theorem step_congr (hsymbols : ∀ symbol, k.operators.contains symbol = k'.operators.contains symbol)
    (hrules : k.rules = k'.rules) (c : Cursor) : k.step c = k'.step c := by
  have hm : ∀ text, k.operators.longestMatch text = k'.operators.longestMatch text :=
    OperatorTable.longestMatch_congr hsymbols
  simp only [step, stepAt, hrules, hm]

theorem SameSyntax.step_eq (h : k.SameSyntax k') (c : Cursor) : k.step c = k'.step c :=
  step_congr h.contains_eq h.rules c

theorem SameSyntax.within (h : k.SameSyntax k') (depth : Nat) {x y : Except Failure (List Token)}
    (hxy : k.ReadTogether k' SameShapes x y) :
    k.ReadTogether k' SameShapes (k.within depth x) (k'.within depth y) := by
  rw [Calculator.within, Calculator.within, h.maxDepth]
  split
  · exact .error (.read _)
  · exact hxy

/-- A range is read side by side. -/
theorem SameSyntax.tokensFrom (h : k.SameSyntax k') (c : Cursor) :
    k.ReadTogether k' SameShapes (k.tokensFrom c) (k'.tokensFrom c) := by
  refine tokensFrom_together Eq .nil .cons ?_ ?_ rfl
  · rintro d _ rfl
    rw [← h.step_eq d]
    exact .refl SameShape.refl .read _ (fun _ _ _ => rfl) fun _ _ _ _ => ⟨rfl, rfl⟩
  · rintro d _ rfl hread
    exact (h.within d.depth hread).bind fun ts us hts => h.normalize d.depth hts

/-- A whole text is read side by side. -/
theorem SameSyntax.token? (h : k.SameSyntax k') (text : List Char) :
    k.ReadTogether k' (Option.Rel SameShape) (k.token? text) (k'.token? text) :=
  (h.within 0 (h.tokensFrom (.whole text 0))).bind fun _ _ hts => h.normalize 0 hts

/-! ## Expressions -/

section expressions
variable {β : Type} [Variables β]

/-- What an expression is read as, before anything but the groups behind leading minuses is
evaluated. -/
def read (k : Calculator) (expression : Option String) (bindings : β) :
    Except Failure (Option Token) :=
  match expression with
  | none => .ok none
  | some text => do
    k.token? (← (substitute (Variables.lookup bindings) text.toList).mapError .read)

/-- Reading ends where an operator refuses its operands. -/
def RefusedReading (k : Calculator) (expression : Option String) (bindings : β) : Prop :=
  ∃ e, k.Refuses e ∧ k.read expression bindings = .error (.eval e)

/-- Reading comes first, and the token that is read is evaluated then. -/
theorem evaluateWith_eq (k : Calculator) (expression : Option String) (bindings : β) :
    k.evaluateWith expression bindings = (do
      match ← k.read expression bindings with
      | none => return 0.0
      | some token => (k.value 0 token).mapError .eval) := by
  cases expression with
  | none => rfl
  | some text =>
    rw [evaluateWith, textValueWith, read]
    cases (substitute (Variables.lookup bindings) text.toList).mapError Failure.read <;> rfl

theorem evaluateWith_eq_read_error_iff {expression : Option String} {bindings : β}
    {e : ReadError} : k.evaluateWith expression bindings = .error (.read e) ↔
      k.read expression bindings = .error (.read e) := by
  rw [evaluateWith_eq]
  cases k.read expression bindings with
  | error cause =>
    show Except.error cause = .error (.read e) ↔ Except.error cause = .error (.read e)
    simp
  | ok t? =>
    cases t? with
    | none => simp [bind, Except.bind, pure, Except.pure]
    | some t =>
      show (k.value 0 t).mapError Failure.eval = .error (.read e) ↔ _
      cases k.value 0 t with
      | error r => simp [Except.mapError]
      | ok x => simp [Except.mapError]

/-- An expression is read side by side. -/
theorem SameSyntax.read (h : k.SameSyntax k') (expression : Option String) (bindings : β) :
    k.ReadTogether k' (Option.Rel SameShape) (k.read expression bindings)
      (k'.read expression bindings) := by
  cases expression with
  | none => exact .ok .none
  | some text =>
    rw [Calculator.read, Calculator.read]
    cases substitute (Variables.lookup bindings) text.toList with
    | error e => exact .error (.read e)
    | ok text => exact h.token? text

/-- An error of reading in one is the same error in the other, unless an operator of the other
refuses before. -/
theorem SameSyntax.read_error (h : k.SameSyntax k') {expression : Option String} {bindings : β}
    {e : ReadError} (he : k.read expression bindings = .error (.read e)) :
    k'.read expression bindings = .error (.read e) ∨ k'.RefusedReading expression bindings := by
  have ht := h.read expression bindings
  rw [he] at ht
  generalize hy : k'.read expression bindings = y at ht
  cases ht with
  | error hc =>
    cases hc
    exact .inl rfl
  | left _ hr =>
    obtain ⟨r, hr, -⟩ := hr
    cases hr
  | right _ hr =>
    obtain ⟨r, rfl, hr⟩ := hr
    exact .inr ⟨r, hr, hy⟩

/-- Calculators that differ in nothing but what their operators compute report the same errors of
reading, exactly if it does not happen that in one of them an operator refuses its operands while
the expression is read, and the other reads on to an error. -/
theorem same_read_errors_iff (h : k.SameSyntax k') (expression : Option String) (bindings : β) :
    (∀ e, k.evaluateWith expression bindings = .error (.read e) ↔
      k'.evaluateWith expression bindings = .error (.read e)) ↔
    ¬((k.RefusedReading expression bindings ∧
        ∃ e, k'.evaluateWith expression bindings = .error (.read e)) ∨
      (k'.RefusedReading expression bindings ∧
        ∃ e, k.evaluateWith expression bindings = .error (.read e))) := by
  simp only [evaluateWith_eq_read_error_iff]
  constructor
  · rintro hiff (⟨⟨r, -, hr⟩, e, he⟩ | ⟨⟨r, -, hr⟩, e, he⟩)
    · rw [(hiff e).mpr he] at hr
      cases hr
    · rw [(hiff e).mp he] at hr
      cases hr
  · intro hno e
    constructor
    · intro he
      refine (h.read_error he).resolve_right fun hr => ?_
      exact hno (.inr ⟨hr, e, he⟩)
    · intro he
      refine (h.symm.read_error he).resolve_right fun hr => ?_
      exact hno (.inl ⟨hr, e, he⟩)

end expressions

/-- Another operation of the same priority changes no syntax. -/
theorem sameSyntax_withOperator {symbol : String} {op op' : Operator}
    (ho : k.operators.get? symbol = some op) (hp : op.priority = op'.priority) :
    k.SameSyntax (k.withOperator symbol op') := by
  refine ⟨fun other => ?_, rfl, rfl⟩
  rw [withOperator, OperatorTable.get?_insert]
  split
  · rename_i hs
    rw [hs.2, ho, Option.map_some, Option.map_some, hp]
  · rfl

/-- The calculator that leaves out divisors. -/
def undivided : Calculator :=
  ({} : Calculator).withOperator "/" ⟨Arithmetic.multiplicativePriority, fun left _ => .ok left⟩

theorem sameSyntax_undivided : ({} : Calculator).SameSyntax undivided :=
  sameSyntax_withOperator (OperatorTable.get?_arithmetic .div) rfl

theorem same_read_errors_iff_quotient : ({} : Calculator).SameSyntax undivided ∧
    ∀ e, ({} : Calculator).evaluateWith (some "(-(1/2)) )") ([] : List (String × Float)) =
        .error (.read e) ↔
      undivided.evaluateWith (some "(-(1/2)) )") ([] : List (String × Float)) =
        .error (.read e) := by
  refine ⟨sameSyntax_undivided, (same_read_errors_iff sameSyntax_undivided _ _).mpr ?_⟩
  have hread : ({} : Calculator).read (some "(-(1/2)) )") ([] : List (String × Float)) =
      .error (.read (.illegalText 9)) := by decide +kernel
  have hread' : undivided.read (some "(-(1/2)) )") ([] : List (String × Float)) =
      .error (.read (.illegalText 9)) := by decide +kernel
  rintro (⟨⟨r, -, hr⟩, -⟩ | ⟨⟨r, -, hr⟩, -⟩)
  · rw [hread] at hr
    cases hr
  · rw [hread'] at hr
    cases hr

/-- The quotient by zero in the group is refused before the parenthesis behind it is read. -/
theorem read_errors_differ : ({} : Calculator).SameSyntax undivided ∧
    ({} : Calculator).evaluateWith (some "(-(1/0)) )") ([] : List (String × Float)) =
      .error (.eval .divisionByZero) ∧
    undivided.evaluateWith (some "(-(1/0)) )") ([] : List (String × Float)) =
      .error (.read (.illegalText 9)) :=
  ⟨sameSyntax_undivided, by decide +kernel, by decide +kernel⟩

end Calculator

end Abacus
