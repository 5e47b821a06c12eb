import Abacus.Arithmetic
import Abacus.Proofs.Reduction

/-!
# Precedence

The conventional tree of a chain has at its root the last of the operations of lowest priority, and
what stands on either side of it is read in the same way. In a reduction an operation of higher
priority takes in all that follows, so the tree that it builds is the conventional one only if,
behind every rise, nothing binds as loosely as the operation before the rise.
-/

namespace Abacus.Chain

variable {σ ε α β : Type} {priority : σ → Int}

/-! ## The operation at the root -/

/-- The steps before the last of those of lowest priority, that step and the steps behind it. -/
def lastLowest (priority : σ → Int) :
    List (σ × β) → Option (List (σ × β) × (σ × β) × List (σ × β))
  | [] => none
  | step :: more =>
    match lastLowest priority more with
    | none => some ([], step, [])
    | some (before, low, after) =>
      if priority step.1 < priority low.1 then some ([], step, more)
      else some (step :: before, low, after)

/-- Steps parted at the last of those of lowest priority. -/
structure PartedAt (priority : σ → Int) (steps before : List (σ × β)) (low : σ × β)
    (after : List (σ × β)) : Prop where
  append : steps = before ++ low :: after
  before : ∀ step ∈ before, priority low.1 ≤ priority step.1
  after : ∀ step ∈ after, priority low.1 < priority step.1

theorem lastLowest_eq_none_iff {steps : List (σ × β)} :
    lastLowest priority steps = none ↔ steps = [] := by
  cases steps with
  | nil => simp [lastLowest]
  | cons step more =>
    simp only [lastLowest, reduceCtorEq, iff_false]
    split
    · simp
    · split <;> simp

theorem partedAt_of_lastLowest {steps before after : List (σ × β)} {low : σ × β}
    (h : lastLowest priority steps = some (before, low, after)) :
    PartedAt priority steps before low after := by
  induction steps generalizing before low after with
  | nil => simp [lastLowest] at h
  | cons step more ih =>
    rw [lastLowest] at h
    split at h
    · rename_i hmore
      cases h
      rw [lastLowest_eq_none_iff.mp hmore]
      exact ⟨rfl, by simp, by simp⟩
    · rename_i before' low' after' hmore
      obtain ⟨happend, hbefore, hafter⟩ := ih hmore
      split at h
      · rename_i hlt
        cases h
        -- whatever follows is no lower than the lowest that follows
        refine ⟨rfl, by simp, fun later hlater => ?_⟩
        rw [happend, List.mem_append, List.mem_cons] at hlater
        rcases hlater with hlater | rfl | hlater
        · have := hbefore later hlater
          omega
        · exact hlt
        · have := hafter later hlater
          omega
      · rename_i hle
        cases h
        refine ⟨by rw [happend, List.cons_append], ?_, hafter⟩
        simpa using ⟨Int.not_lt.mp hle, fun op x => hbefore (op, x)⟩

namespace Tree

/-! ## The conventional tree -/

/-- The tree of a chain as it is conventionally read: the root is the last operation of lowest
priority. -/
def conventional (priority : σ → Int) (x : α) (steps : List (σ × α)) : Tree σ α :=
  match _h : lastLowest priority steps with
  | none => leaf x
  | some (before, (op, y), after) =>
    node op (conventional priority x before) (conventional priority y after)
termination_by steps.length
decreasing_by
  all_goals
    have happend := (partedAt_of_lastLowest _h).append
    simp only [happend, List.length_append, List.length_cons]
    omega

/-- The operations to the left of another bind no looser than it, and those to its right tighter. -/
def Ordered (priority : σ → Int) : Tree σ α → Prop
  | leaf _ => True
  | node op l r => (∀ o ∈ l.operations, priority op ≤ priority o) ∧
      (∀ o ∈ r.operations, priority op < priority o) ∧ l.Ordered priority ∧ r.Ordered priority

theorem conventional_nil (x : α) : conventional priority x [] = leaf x := by
  rw [conventional]
  rfl

theorem conventional_of_lastLowest (x : α) {steps before after : List (σ × α)} {op : σ} {y : α}
    (h : lastLowest priority steps = some (before, (op, y), after)) :
    conventional priority x steps =
      node op (conventional priority x before) (conventional priority y after) := by
  rw [conventional]
  split <;> simp_all

/-- What the conventional tree is made of, and how it is ordered. -/
theorem conventional_spec (priority : σ → Int) (x : α) (steps : List (σ × α)) :
    (conventional priority x steps).operations = steps.map Prod.fst ∧
      (conventional priority x steps).operands = x :: steps.map Prod.snd ∧
      (conventional priority x steps).Ordered priority := by
  induction hn : steps.length using Nat.strongRecOn generalizing x steps with
  | ind n ih =>
  subst hn
  cases h : lastLowest priority steps with
  | none =>
    rw [lastLowest_eq_none_iff.mp h, conventional_nil]
    exact ⟨rfl, rfl, trivial⟩
  | some parts =>
    obtain ⟨before, ⟨op, y⟩, after⟩ := parts
    rw [conventional_of_lastLowest x h]
    obtain ⟨rfl, hbefore, hafter⟩ := partedAt_of_lastLowest h
    obtain ⟨hops, hxs, hordered⟩ := ih before.length (by simp) x before rfl
    obtain ⟨hops', hxs', hordered'⟩ := ih after.length (by simp; omega) y after rfl
    refine ⟨by simp [operations, hops, hops'], by simp [operands, hxs, hxs'], ?_, ?_, hordered,
      hordered'⟩
    · rw [hops]
      exact List.forall_mem_map.mpr hbefore
    · rw [hops']
      exact List.forall_mem_map.mpr hafter

theorem length_operands (t : Tree σ α) : t.operands.length = t.operations.length + 1 := by
  induction t with
  | leaf x => rfl
  | node op l r ihl ihr =>
    simp only [operands, operations, List.length_append, List.length_cons, ihl, ihr]
    omega

/-- Of trees with the same operations and operands in the same order, one at most is ordered. -/
theorem Ordered.unique {t u : Tree σ α} (ht : t.Ordered priority) (hu : u.Ordered priority)
    (hops : t.operations = u.operations) (hxs : t.operands = u.operands) : t = u := by
  induction t generalizing u with
  | leaf x =>
    cases u with
    | leaf y => simpa [operands] using hxs
    | node op l r => simp [operations] at hops
  | node op l r ihl ihr =>
    cases u with
    | leaf y => simp [operations] at hops
    | node op' l' r' =>
      obtain ⟨hl, hr, hlo, hro⟩ := ht
      obtain ⟨hl', hr', hlo', hro'⟩ := hu
      simp only [operations] at hops
      -- a root further to the right would be both no higher and higher than the other
      have hroots : l.operations = l'.operations ∧ op :: r.operations = op' :: r'.operations := by
        rcases List.append_eq_append_iff.mp hops with ⟨mid, hmid, hrest⟩ | ⟨mid, hmid, hrest⟩
        · cases mid with
          | nil => exact ⟨by simpa using hmid.symm, by simpa using hrest⟩
          | cons o mid =>
            obtain ⟨rfl, hmem⟩ := List.cons.inj hrest
            have := hl' op (by simp [hmid])
            have := hr op' (by simp [hmem])
            omega
        · cases mid with
          | nil => exact ⟨by simpa using hmid, by simpa using hrest.symm⟩
          | cons o mid =>
            obtain ⟨rfl, hmem⟩ := List.cons.inj hrest
            have := hl op' (by simp [hmid])
            have := hr' op (by simp [hmem])
            omega
      obtain ⟨hleft, hright⟩ := hroots
      simp only [List.cons.injEq] at hright
      obtain ⟨rfl, hright⟩ := hright
      have hlength : l.operands.length = l'.operands.length := by
        rw [length_operands, length_operands, hleft]
      obtain ⟨hxl, hxr⟩ := List.append_inj hxs hlength
      rw [ihl hlo hlo' hleft hxl, ihr hro hro' hright hxr]

/-- The conventional tree is the ordered tree of the chain. -/
theorem eq_conventional_iff {t : Tree σ α} {x : α} {steps : List (σ × α)}
    (hops : t.operations = steps.map Prod.fst) (hxs : t.operands = x :: steps.map Prod.snd) :
    t = conventional priority x steps ↔ t.Ordered priority := by
  obtain ⟨hops', hxs', hordered⟩ := conventional_spec priority x steps
  constructor
  · rintro rfl
    exact hordered
  · intro ht
    exact ht.unique hordered (hops.trans hops'.symm) (hxs.trans hxs'.symm)

end Tree

/-! ## The tree of a reduction -/

/-- Behind a rise all operations bind tighter than the one before it. -/
def Sustained (priority : σ → Int) (ops : List σ) : Prop :=
  ∀ before op next after, ops = before ++ op :: next :: after → priority op < priority next →
    ∀ later ∈ after, priority op < priority later

theorem sustained_singleton (op : σ) : Sustained priority [op] := by
  intro before op' next after he
  have := congrArg List.length he
  simp at this
  omega

theorem sustained_cons_iff {op next : σ} {more : List σ} :
    Sustained priority (op :: next :: more) ↔
      (priority op < priority next → ∀ later ∈ more, priority op < priority later) ∧
        Sustained priority (next :: more) := by
  constructor
  · intro h
    refine ⟨h [] op next more rfl, fun before op' next' after he => ?_⟩
    exact h (op :: before) op' next' after (by rw [he, List.cons_append])
  · rintro ⟨hfirst, hmore⟩ before op' next' after he
    cases before with
    | nil =>
      cases he
      exact hfirst
    | cons o before => exact hmore before op' next' after (List.cons.inj he).2

/-- A first operand in which nothing binds looser than the first step does not count. -/
theorem ordered_ofChain_iff {left : Tree σ α} {steps : List (σ × α)}
    (hleft : left.Ordered priority)
    (hfirst : ∀ step ∈ steps.head?, ∀ o ∈ left.operations, priority step.1 ≤ priority o) :
    (Tree.ofChain priority left steps).Ordered priority ↔
      Sustained priority (steps.map Prod.fst) := by
  induction steps generalizing left with
  | nil => simp [Tree.ofChain_nil, hleft, Sustained]
  | cons step more ih =>
    obtain ⟨op, x⟩ := step
    have hop : ∀ o ∈ left.operations, priority op ≤ priority o := hfirst _ rfl
    rw [Tree.ofChain_cons]
    cases more with
    | nil => simpa [rises, Tree.ofChain_nil, Tree.Ordered, Tree.operations, hleft,
        sustained_singleton] using hop
    | cons next more =>
      rw [List.map_cons, List.map_cons, sustained_cons_iff]
      by_cases hrise : priority op < priority next.1
      · have hrises : rises priority op (next :: more) = true := decide_eq_true hrise
        have hright := @ih (.leaf x) trivial (by simp [Tree.operations])
        rw [if_pos hrises, Tree.Ordered, hright, Tree.operations_ofChain]
        simp only [hleft, hrise, Tree.operations, List.nil_append, List.map_cons,
          List.forall_mem_cons, true_and, forall_const]
        exact and_iff_right hop
      · have hrises : ¬rises priority op (next :: more) = true := by simpa [rises] using hrise
        rw [if_neg hrises, ih]
        · simp [hrise]
        · exact ⟨hop, by simp [Tree.operations], hleft, trivial⟩
        · rintro _ ⟨⟩ o ho
          simp only [Tree.operations, List.mem_append, List.mem_singleton] at ho
          rcases ho with ho | rfl
          · have := hop o ho
            omega
          · exact Int.not_lt.mp hrise

/-- An operation that builds a node of a tree. -/
def free (priority : σ → Int) (sign : σ) : Except ε (Operation ε (Tree σ α)) :=
  .ok ⟨priority sign, fun left right => .ok (.node sign left right)⟩

/-- The reduction of a chain of trees is the tree that the chain is read as. -/
theorem reduce_free (left : Tree σ α) (steps : List (σ × α)) :
    reduce (free priority) left (steps.map fun step => (step.1, .ok (.leaf step.2))) =
      (.ok (Tree.ofChain priority left steps) : Except ε (Tree σ α)) := by
  induction steps generalizing left with
  | nil => simp [reduce, Tree.ofChain_nil]
  | cons step more ih =>
    have hnext : nextPriority (free priority : σ → Except ε (Operation ε (Tree σ α)))
        (more.map fun step => (step.1, .ok (.leaf step.2))) =
          .ok (more.head?.map fun step => priority step.1) := by
      cases more <;> rfl
    rw [List.map_cons, reduce, Tree.ofChain_cons]
    simp only [free, hnext, bind, Except.bind, ih, Option.any_map]
    cases hr : rises priority step.1 more <;> simp_all [rises]

/-- The reduction of a chain builds a tree, and builds the conventional one exactly if, behind every
operation that is followed by one of higher priority, all have a higher priority than it. -/
theorem reduce_conventional_iff (priority : σ → Int) (x : α) (steps : List (σ × α)) :
    ∃ tree : Tree σ α,
      reduce (free priority) (.leaf x) (steps.map fun step => (step.1, .ok (.leaf step.2))) =
        (.ok tree : Except ε (Tree σ α)) ∧
      (tree = Tree.conventional priority x steps ↔
        ∀ before op next after, steps.map Prod.fst = before ++ op :: next :: after →
          priority op < priority next → ∀ later ∈ after, priority op < priority later) := by
  refine ⟨_, reduce_free (.leaf x) steps, ?_⟩
  rw [Tree.eq_conventional_iff]
  · exact ordered_ofChain_iff trivial (by simp [Tree.operations])
  · rw [Tree.operations_ofChain]
    rfl
  · rw [Tree.operands_ofChain]
    rfl

/-- A sum behind a product stays outside of the difference before it. -/
example : Tree.conventional Arithmetic.priority 2 [(.sub, 3), (.mul, 4), (.add, 5)] =
    .node .add (.node .sub (.leaf 2) (.node .mul (.leaf 3) (.leaf 4))) (.leaf 5) := by
  cbv

end Abacus.Chain
