import Abacus.Chain
import Abacus.Proofs.Outcome
import Mathlib.Data.List.Forall2

/-!
# Reduction by rises

A rise is a place in a chain where an operation is followed by one of strictly higher priority.
The chain up to its first rise is folded from the left, the chain behind it is a chain of its
own, and the operation at the rise joins the two values. `reduce_eq_ok_iff` says that the
reduction of a chain succeeds exactly if all its signs and operands do, and then with this value.
-/

namespace Abacus.Chain

variable {σ ε α β : Type}

/-! ## The reference -/

/-- The operation `op` gives way to the one that comes next. -/
def rises (priority : σ → Int) (op : σ) (more : List (σ × β)) : Bool :=
  more.head?.any fun next => priority op < priority next.1

/-- The steps before the first rise, the step at it and the steps behind it. -/
def firstRise (priority : σ → Int) :
    List (σ × β) → Option (List (σ × β) × (σ × β) × List (σ × β))
  | [] => none
  | step :: more =>
    if rises priority step.1 more then some ([], step, more)
    else (firstRise priority more).map fun p => (step :: p.1, p.2)

/-- The plain fold from the left. -/
def foldLeft {m : Type → Type} [Monad m] (apply : σ → β → β → m β) (left : β)
    (steps : List (σ × β)) : m β :=
  steps.foldlM (fun x step => apply step.1 x step.2) left

private theorem firstRise_length {priority : σ → Int} {steps before after : List (σ × β)}
    {step : σ × β} (h : firstRise priority steps = some (before, step, after)) :
    after.length < steps.length := by
  induction steps generalizing before with
  | nil => simp [firstRise] at h
  | cons s more ih =>
    rw [firstRise] at h
    split at h
    · cases h
      simp
    · obtain ⟨⟨b, t, a⟩, hp, he⟩ := Option.map_eq_some_iff.mp h
      cases he
      have := ih hp
      simp only [List.length_cons]
      omega

/-- The value of a chain by its rises. -/
def nest {m : Type → Type} [Monad m] (priority : σ → Int) (apply : σ → β → β → m β) (left : β)
    (steps : List (σ × β)) : m β :=
  match _h : firstRise priority steps with
  | none => foldLeft apply left steps
  | some (before, (op, right), after) => do
    let x ← foldLeft apply left before
    let y ← nest priority apply right after
    apply op x y
termination_by steps.length
decreasing_by exact firstRise_length _h

section nest
variable {m : Type → Type} [Monad m] (priority : σ → Int) (apply : σ → β → β → m β) (left : β)

theorem nest_of_none {steps : List (σ × β)} (h : firstRise priority steps = none) :
    nest priority apply left steps = foldLeft apply left steps := by
  rw [nest]
  split
  · rfl
  · rename_i hs
    rw [h] at hs
    cases hs

theorem nest_of_some {steps before after : List (σ × β)} {op : σ} {right : β}
    (h : firstRise priority steps = some (before, (op, right), after)) :
    nest priority apply left steps = (do
      let x ← foldLeft apply left before
      let y ← nest priority apply right after
      apply op x y) := by
  rw [nest]
  split
  · rename_i hs
    rw [h] at hs
    cases hs
  · rename_i hs
    rw [h] at hs
    cases hs
    rfl

@[simp] theorem nest_nil : nest priority apply left [] = pure left :=
  nest_of_none priority apply left rfl

variable [LawfulMonad m]

/-- One step of a chain: at a rise it waits for all that follow, else it is taken at once. -/
theorem nest_cons (op : σ) (right : β) (more : List (σ × β)) :
    nest priority apply left ((op, right) :: more) =
      if rises priority op more then (do
        let y ← nest priority apply right more
        apply op left y)
      else (do
        let x ← apply op left right
        nest priority apply x more) := by
  cases hr : rises priority op more with
  | true =>
    have h : firstRise priority ((op, right) :: more) = some ([], (op, right), more) := by
      simp [firstRise, hr]
    simp [nest_of_some priority apply left h, foldLeft]
  | false =>
    cases hm : firstRise priority more with
    | none =>
      have h : firstRise priority ((op, right) :: more) = none := by
        simp [firstRise, hr, hm]
      simp [nest_of_none priority apply _ h, nest_of_none priority apply _ hm, foldLeft]
    | some p =>
      obtain ⟨before, ⟨op', right'⟩, after⟩ := p
      have h : firstRise priority ((op, right) :: more) =
          some ((op, right) :: before, (op', right'), after) := by
        simp [firstRise, hr, hm]
      simp [nest_of_some priority apply _ h, nest_of_some priority apply _ hm, foldLeft]

end nest

/-! ## The reduction of a chain -/

/-- A link that can be taken: its sign stands for an operation and its operand has a value. -/
def Resolves (operation : σ → Except ε (Operation ε α)) (link : σ × Except ε α)
    (step : Operation ε α × α) : Prop :=
  operation link.1 = .ok step.1 ∧ link.2 = .ok step.2

theorem nextPriority_of_resolves {operation : σ → Except ε (Operation ε α)}
    {links : List (σ × Except ε α)} {steps : List (Operation ε α × α)}
    (h : List.Forall₂ (Resolves operation) links steps) :
    nextPriority operation links = .ok (steps.head?.map fun step => step.1.priority) := by
  cases h with
  | nil => rfl
  | cons hl _ => simp [nextPriority, hl.1, Except.map]

/-- A chain without an error in a sign or an operand is reduced as its rises say, the errors of
its operations included. -/
theorem reduce_of_resolves {operation : σ → Except ε (Operation ε α)}
    {links : List (σ × Except ε α)} {steps : List (Operation ε α × α)}
    (h : List.Forall₂ (Resolves operation) links steps) (left : α) :
    reduce operation left links = nest Operation.priority Operation.compute left steps := by
  induction h generalizing left with
  | nil => simp [reduce, pure, Except.pure]
  | @cons link step links steps hl hs ih =>
    obtain ⟨sign, operand⟩ := link
    obtain ⟨op, right⟩ := step
    obtain ⟨ho, hr⟩ := hl
    simp only at ho hr
    rw [nest_cons, reduce]
    simp only [ho, hr, nextPriority_of_resolves hs, bind, Except.bind, rises, Option.any_map, ih]
    rfl

/-- A chain that has a value has no error in a sign or an operand. -/
theorem resolves_of_reduce {operation : σ → Except ε (Operation ε α)} {left v : α}
    {links : List (σ × Except ε α)} (h : reduce operation left links = .ok v) :
    ∃ steps, List.Forall₂ (Resolves operation) links steps := by
  induction links generalizing left v with
  | nil => exact ⟨[], .nil⟩
  | cons link more ih =>
    obtain ⟨sign, operand⟩ := link
    rw [reduce] at h
    obtain ⟨op, ho, h⟩ := exists_of_bind_eq_ok h
    obtain ⟨right, hr, h⟩ := exists_of_bind_eq_ok h
    obtain ⟨next, -, h⟩ := exists_of_bind_eq_ok h
    have hmore : ∃ x y, reduce operation x more = .ok y := by
      split at h
      · obtain ⟨y, hy, -⟩ := exists_of_bind_eq_ok h
        exact ⟨right, y, hy⟩
      · obtain ⟨x, -, hx⟩ := exists_of_bind_eq_ok h
        exact ⟨x, v, hx⟩
    obtain ⟨x, y, hxy⟩ := hmore
    obtain ⟨steps, hs⟩ := ih hxy
    exact ⟨(op, right) :: steps, .cons ⟨ho, hr⟩ hs⟩

theorem reduce_eq_ok_iff (operation : σ → Except ε (Operation ε α)) (left v : α)
    (links : List (σ × Except ε α)) :
    reduce operation left links = .ok v ↔
      ∃ steps, List.Forall₂ (Resolves operation) links steps ∧
        nest Operation.priority Operation.compute left steps = .ok v := by
  constructor
  · intro h
    obtain ⟨steps, hs⟩ := resolves_of_reduce h
    exact ⟨steps, hs, by rw [← reduce_of_resolves hs left, h]⟩
  · rintro ⟨steps, hs, hv⟩
    rw [reduce_of_resolves hs left, hv]

/-- Where an error of a reduction comes from. -/
inductive Fault (operation : σ → Except ε (Operation ε α)) (links : List (σ × Except ε α)) :
    ε → Prop
  | sign {link : σ × Except ε α} {e : ε} : link ∈ links → operation link.1 = .error e →
      Fault operation links e
  | operand {link : σ × Except ε α} {op : Operation ε α} {e : ε} : link ∈ links →
      operation link.1 = .ok op → link.2 = .error e → Fault operation links e
  | refused {link : σ × Except ε α} {op : Operation ε α} {x y : α} {e : ε} : link ∈ links →
      operation link.1 = .ok op → op.compute x y = .error e → Fault operation links e

theorem Fault.cons {operation : σ → Except ε (Operation ε α)} {links : List (σ × Except ε α)}
    {e : ε} (h : Fault operation links e) (link : σ × Except ε α) :
    Fault operation (link :: links) e := by
  cases h with
  | sign hm he => exact .sign (List.mem_cons_of_mem _ hm) he
  | operand hm ho he => exact .operand (List.mem_cons_of_mem _ hm) ho he
  | refused hm ho he => exact .refused (List.mem_cons_of_mem _ hm) ho he

theorem fault_of_nextPriority {operation : σ → Except ε (Operation ε α)}
    {links : List (σ × Except ε α)} {e : ε} (h : nextPriority operation links = .error e) :
    Fault operation links e := by
  cases links with
  | nil => cases h
  | cons link more =>
    refine .sign List.mem_cons_self ?_
    cases ho : operation link.1 with
    | error e' => simpa [nextPriority, ho, Except.map] using h
    | ok op => simp [nextPriority, ho, Except.map] at h

theorem fault_of_reduce {operation : σ → Except ε (Operation ε α)} {left : α}
    {links : List (σ × Except ε α)} {e : ε} (h : reduce operation left links = .error e) :
    Fault operation links e := by
  induction links generalizing left with
  | nil => cases h
  | cons link more ih =>
    obtain ⟨sign, operand⟩ := link
    rw [reduce] at h
    rcases error_of_bind_eq_error h with ho | ⟨op, ho, h⟩
    · exact .sign List.mem_cons_self ho
    rcases error_of_bind_eq_error h with hr | ⟨right, -, h⟩
    · exact .operand List.mem_cons_self ho hr
    rcases error_of_bind_eq_error h with hn | ⟨next, -, h⟩
    · exact (fault_of_nextPriority hn).cons _
    split at h
    · rcases error_of_bind_eq_error h with hy | ⟨y, -, h⟩
      · exact (ih hy).cons _
      · exact .refused List.mem_cons_self ho h
    · rcases error_of_bind_eq_error h with hx | ⟨x, -, h⟩
      · exact .refused List.mem_cons_self ho hx
      · exact (ih h).cons _

/-! ## Chains that agree -/

section agreement
variable {stops : ε → Prop} {operation operation' : σ → Except ε (Operation ε α)}

/-- Links with one sign, which stands for the same operation, and with operands that agree. -/
structure AgreeingLink (stops : ε → Prop) (operation operation' : σ → Except ε (Operation ε α))
    (link link' : σ × Except ε α) : Prop where
  sign : link.1 = link'.1
  operation : operation link.1 = operation' link.1
  operand : AgreeUnless stops link.2 link'.2

theorem nextPriority_agree {links links' : List (σ × Except ε α)}
    (h : List.Forall₂ (AgreeingLink stops operation operation') links links') :
    nextPriority operation links = nextPriority operation' links' := by
  cases h with
  | nil => rfl
  | cons hl _ => rw [nextPriority, nextPriority, ← hl.sign, hl.operation]

/-- An operand that is stopped stops the reduction only when the reduction gets there. -/
theorem reduce_agree {links links' : List (σ × Except ε α)}
    (h : List.Forall₂ (AgreeingLink stops operation operation') links links') (left : α) :
    AgreeUnless stops (reduce operation left links) (reduce operation' left links') := by
  induction h generalizing left with
  | nil => exact .refl _
  | @cons link link' more more' hl hmore ih =>
    obtain ⟨sign, operand⟩ := link
    obtain ⟨sign', operand'⟩ := link'
    obtain ⟨hsign, hoperation, hoperand⟩ := hl
    obtain rfl : sign = sign' := hsign
    rw [reduce, reduce, ← hoperation, ← nextPriority_agree hmore]
    refine .bind (.refl _) fun op _ => ?_
    refine .bind hoperand fun right _ => ?_
    refine .bind (.refl _) fun next _ => ?_
    split
    · exact .bind (ih right) fun y _ => .refl _
    · exact .bind (.refl _) fun y _ => ih y

end agreement

/-! ## The tree of applications -/

/-- Operands joined by operations. -/
inductive Tree (σ α : Type) where
  | leaf (x : α)
  | node (op : σ) (left right : Tree σ α)

namespace Tree

/-- The operands from left to right. -/
def operands : Tree σ α → List α
  | leaf x => [x]
  | node _ l r => l.operands ++ r.operands

/-- The operations from left to right. -/
def operations : Tree σ α → List σ
  | leaf _ => []
  | node op l r => l.operations ++ op :: r.operations

def eval (compute : σ → α → α → Except ε α) : Tree σ α → Except ε α
  | leaf x => .ok x
  | node op l r => do compute op (← l.eval compute) (← r.eval compute)

/-- The tree that a chain is read as. -/
def ofChain (priority : σ → Int) (left : Tree σ α) (steps : List (σ × α)) : Tree σ α :=
  nest (m := Id) priority node left (steps.map fun step => (step.1, leaf step.2))

theorem ofChain_nil (priority : σ → Int) (left : Tree σ α) : ofChain priority left [] = left :=
  nest_nil (m := Id) priority node left

theorem ofChain_cons (priority : σ → Int) (left : Tree σ α) (op : σ) (x : α)
    (more : List (σ × α)) :
    ofChain priority left ((op, x) :: more) =
      if rises priority op more then node op left (ofChain priority (leaf x) more)
      else ofChain priority (node op left (leaf x)) more := by
  have hr : rises priority op (more.map fun step => (step.1, (leaf step.2 : Tree σ α))) =
      rises priority op more := by
    cases more <;> rfl
  rw [ofChain, List.map_cons, nest_cons, hr]
  rfl

theorem operands_ofChain (priority : σ → Int) (left : Tree σ α) (steps : List (σ × α)) :
    (ofChain priority left steps).operands = left.operands ++ steps.map Prod.snd := by
  induction steps generalizing left with
  | nil => simp [ofChain_nil]
  | cons step more ih =>
    rw [ofChain_cons]
    split <;> simp [operands, ih]

theorem operations_ofChain (priority : σ → Int) (left : Tree σ α) (steps : List (σ × α)) :
    (ofChain priority left steps).operations = left.operations ++ steps.map Prod.fst := by
  induction steps generalizing left with
  | nil => simp [ofChain_nil]
  | cons step more ih =>
    rw [ofChain_cons]
    split <;> simp [operations, ih]

/-- The tree has the value of the chain. -/
theorem eval_ofChain (priority : σ → Int) (compute : σ → α → α → Except ε α) (left : Tree σ α)
    (steps : List (σ × α)) :
    (ofChain priority left steps).eval compute =
      left.eval compute >>= fun x => nest priority compute x steps := by
  induction steps generalizing left with
  | nil => cases h : left.eval compute <;> simp [ofChain_nil, h, bind, Except.bind, pure, Except.pure]
  | cons step more ih =>
    obtain ⟨op, x⟩ := step
    rw [ofChain_cons]
    cases hr : rises priority op more with
    | true => simp [nest_cons, hr, eval, ih, bind, Except.bind]
    | false =>
      cases hl : left.eval compute with
      | error e => simp [eval, ih, hl, bind, Except.bind]
      | ok y => simp [nest_cons, hr, eval, ih, hl, bind, Except.bind]

end Tree

end Abacus.Chain
