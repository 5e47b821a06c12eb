/-!
# Chains of binary operations

A chain is a value followed by links, each a sign that stands for an operation and the right
operand. It is reduced from the left. Only an operation that is followed by one of strictly
higher priority waits, and then for all that follows, not just for the operations of higher
priority.
-/
namespace Abacus

structure Operation (ε α : Type) where
  priority : Int
  compute : α → α → Except ε α

namespace Chain

variable {σ ε α : Type}

/-- The priority of the operation that comes next, if one does. -/
def nextPriority (operation : σ → Except ε (Operation ε α)) :
    List (σ × Except ε α) → Except ε (Option Int)
  | [] => .ok none
  | (sign, _) :: _ => (operation sign).map fun op => some op.priority

/-- An error in a link, be it of its sign or of its operand, counts when the reduction gets
there. -/
def reduce (operation : σ → Except ε (Operation ε α)) (left : α) :
    List (σ × Except ε α) → Except ε α
  | [] => .ok left
  | (sign, operand) :: more => do
    let op ← operation sign
    let right ← operand
    let next ← nextPriority operation more
    if next.any (op.priority < ·) then
      op.compute left (← reduce operation right more)
    else
      reduce operation (← op.compute left right) more

end Chain

end Abacus
