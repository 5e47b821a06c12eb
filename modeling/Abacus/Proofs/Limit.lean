import Abacus.Proofs.Agreement
import Abacus.Rule.Readings

/-!
# Higher limits

What the limit on nesting does not refuse, neither in reading nor in evaluation, has the same
outcome under every higher limit. This holds with any rules, which may build groups of their own
and may look at the depth that they stand at.
-/

namespace Abacus

/-- The limit on nesting is exceeded, in either phase. -/
inductive Failure.IsTooDeep : Failure → Prop
  | read (limit : Nat) : IsTooDeep (.read (.tooDeep limit))
  | eval (limit : Nat) : IsTooDeep (.eval (.tooDeep limit))

namespace Calculator

variable {limit limit' : Nat}

theorem sameSteps_withMaxDepth (k : Calculator) (limit limit' : Nat) (text : List Char) :
    SameSteps text (k.withMaxDepth limit) (k.withMaxDepth limit') where
  step _ _ := rfl
  entry _ _ _ _ _ _ _ := rfl

theorem roomier_withMaxDepth (k : Calculator) (h : limit ≤ limit') :
    Roomier Failure.IsTooDeep (k.withMaxDepth limit) (k.withMaxDepth limit') where
  le := h
  read _ := .read limit
  eval _ := .eval limit

/-- An outcome that is not owed to the limit, value or error, is that of all higher limits. -/
theorem evaluateWith_withMaxDepth_of_le {β : Type} [Variables β] (k : Calculator)
    (hle : limit ≤ limit') (expression : Option String) (bindings : β)
    (h : ∀ e, (k.withMaxDepth limit).evaluateWith expression bindings = .error e →
      ¬e.IsTooDeep) :
    (k.withMaxDepth limit').evaluateWith expression bindings =
      (k.withMaxDepth limit).evaluateWith expression bindings := by
  have hagree := (k.roomier_withMaxDepth hle).evaluateWith expression bindings
    fun text _ => k.sameSteps_withMaxDepth limit limit' text
  exact (hagree.eq h).symm

/-- The calculator for which a mark is the number one in three groups. -/
def wrapping : Calculator := { rules := [⟨(· = '#'), .nested 3⟩] }

/-- The three groups are left to evaluation, which comes to them behind the leading minus. -/
theorem evaluateWith_withMaxDepth_wrapping :
    (wrapping.withMaxDepth 2).evaluateWith (some "-(#) + 1/0") ([] : List (String × Float)) =
      .error (.eval (.tooDeep 2)) ∧
    (wrapping.withMaxDepth 3).evaluateWith (some "-(#) + 1/0") ([] : List (String × Float)) =
      .error (.eval .divisionByZero) ∧
    3 ≤ defaultMaxDepth ∧
    (wrapping.withMaxDepth defaultMaxDepth).evaluateWith (some "-(#) + 1/0")
      ([] : List (String × Float)) = .error (.eval .divisionByZero) := by
  have hrun : (wrapping.withMaxDepth 3).evaluateWith (some "-(#) + 1/0")
      ([] : List (String × Float)) = .error (.eval .divisionByZero) := by
    decide +kernel
  have hle : 3 ≤ defaultMaxDepth := by decide
  refine ⟨by decide +kernel, hrun, hle, ?_⟩
  rw [evaluateWith_withMaxDepth_of_le wrapping hle, hrun]
  intro e he
  rw [hrun] at he
  cases he
  rintro ⟨⟩

end Calculator

end Abacus
