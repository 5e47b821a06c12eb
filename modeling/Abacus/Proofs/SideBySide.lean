import Abacus.Proofs.Front
import Abacus.Proofs.Outcome

/-!
# Ranges read side by side

Where cursors that belong together lead to steps that do, ranges are read side by side: to tokens
that belong together, or to errors that do, unless one of the readings is stopped.
-/

namespace Abacus

/-- The steps come to tokens, to cursors and to causes that belong together. -/
inductive Step.Together (cursors : Cursor → Cursor → Prop) (tokens : Token → Token → Prop)
    (causes : Failure → Failure → Prop) : Step → Step → Prop
  | finished : Together cursors tokens causes .finished .finished
  | failed {cause cause' : ReadError} : causes (.read cause) (.read cause') →
      Together cursors tokens causes (.failed cause) (.failed cause')
  | token {t t' : Token} {after after' : Cursor} : tokens t t' → cursors after after' →
      Together cursors tokens causes (.token t after) (.token t' after')
  | group {opening opening' : Nat} {inside inside' after after' : Cursor} :
      causes (.read (.emptyGroup opening)) (.read (.emptyGroup opening')) →
      cursors inside inside' → cursors after after' →
      Together cursors tokens causes (.group opening inside after) (.group opening' inside' after')

section together
variable {cursors : Cursor → Cursor → Prop} {tokens : Token → Token → Prop}
  {causes : Failure → Failure → Prop}

/-- A step that two readings have in common. -/
theorem Step.Together.refl (ht : ∀ t, tokens t t) (hc : ∀ e, causes (.read e) (.read e)) (s : Step)
    (htoken : ∀ t after, s = .token t after → cursors after after)
    (hgroup : ∀ opening inside after, s = .group opening inside after →
      cursors inside inside ∧ cursors after after) : s.Together cursors tokens causes s := by
  cases s with
  | finished => exact .finished
  | failed cause => exact .failed (hc cause)
  | token t after => exact .token (ht t) (htoken t after rfl)
  | group opening inside after =>
    obtain ⟨hinside, hafter⟩ := hgroup opening inside after rfl
    exact .group (hc _) hinside hafter

namespace Calculator
variable {k k' : Calculator} {stops stops' : Failure → Prop}
  {results : List Token → List Token → Prop}

/-- A step taken together is a round of both readings or the end of both. -/
theorem tokensFrom_together (cursors : Cursor → Cursor → Prop) (hnil : results [] [])
    (hcons : ∀ {t u ts us}, tokens t u → results ts us → results (t :: ts) (u :: us))
    (hstep : ∀ c c', cursors c c' → (k.step c).Together cursors tokens causes (k'.step c'))
    (hnormal : ∀ c c', cursors c c' →
      SideBySide stops stops' causes results (k.tokensFrom c) (k'.tokensFrom c') →
      SideBySide stops stops' causes (Option.Rel tokens) (k.normal? c) (k'.normal? c'))
    {c c' : Cursor} (h : cursors c c') :
    SideBySide stops stops' causes results (k.tokensFrom c) (k'.tokensFrom c') := by
  induction hn : c.rest.length using Nat.strongRecOn generalizing c c' with
  | ind n ih =>
  subst hn
  have hshort := k.step_shorter c
  have hsteps := hstep c c' h
  generalize hs : k.step c = s at hshort hsteps
  generalize hs' : k'.step c' = s' at hsteps
  cases hsteps with
  | finished =>
    rw [tokensFrom_of_finished hs, tokensFrom_of_finished hs']
    exact .ok hnil
  | failed hcause =>
    rw [tokensFrom_of_failed hs, tokensFrom_of_failed hs']
    exact .error hcause
  | token ht hafter =>
    rw [tokensFrom_of_token hs, tokensFrom_of_token hs']
    exact (ih _ hshort hafter rfl).bind fun ts us hts => .ok (hcons ht hts)
  | group hempty hinside hafter =>
    rw [tokensFrom_of_group hs, tokensFrom_of_group hs']
    refine (hnormal _ _ hinside (ih _ hshort.1 hinside rfl)).bind fun t? u? htu => ?_
    cases htu with
    | none => exact .error hempty
    | some ht => exact (ih _ hshort.2 hafter rfl).bind fun ts us hts => .ok (hcons ht hts)

/-- Where the tokens that steps come to are the same, so are those of the ranges. -/
theorem tokensFrom_together_eq (cursors : Cursor → Cursor → Prop)
    (hstep : ∀ c c', cursors c c' → (k.step c).Together cursors Eq causes (k'.step c'))
    (hnormal : ∀ c c', cursors c c' →
      SideBySide stops stops' causes Eq (k.tokensFrom c) (k'.tokensFrom c') →
      SideBySide stops stops' causes Eq (k.normal? c) (k'.normal? c'))
    {c c' : Cursor} (h : cursors c c') :
    SideBySide stops stops' causes Eq (k.tokensFrom c) (k'.tokensFrom c') := by
  refine tokensFrom_together cursors rfl (congrArg₂ _) hstep (fun d d' hd hread => ?_) h
  refine (hnormal d d' hd hread).mono ?_
  rintro t? _ rfl
  cases t? with
  | none => exact .none
  | some t => exact .some rfl

end Calculator

end together

end Abacus
