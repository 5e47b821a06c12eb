import Abacus.Proofs.Normal
import Abacus.Proofs.Progress

/-!
# What occurs in what is read

What is read in a text is made of the tokens that steps in the text come to. Normal forms put tokens
into groups and evaluate some, so that a property which they keep is one of all that is read if it is
one of what the steps come to.
-/

namespace Abacus

/-! ## Tokens -/

namespace Token

variable {P : String → Prop} {t : Token} {ts us : List Token}

/-- A token occurs in itself and in the groups around it. -/
inductive Occurs (u : Token) : Token → Prop
  | here : Occurs u u
  | inside {t : Token} {ts : List Token} : t ∈ ts → Occurs u t → Occurs u (.group ts)

/-- All operators in a token have the property. -/
def Over (P : String → Prop) (t : Token) : Prop := ∀ symbol, Occurs (.operator symbol) t → P symbol

theorem over_operand (x : Float) : (operand x).Over P := by
  rintro symbol ⟨⟩

theorem over_operator_iff {symbol : String} : (operator symbol).Over P ↔ P symbol := by
  constructor
  · intro h
    exact h symbol .here
  · rintro h other ⟨⟩
    exact h

theorem over_group_iff : (group ts).Over P ↔ ∀ t ∈ ts, t.Over P := by
  constructor
  · intro h t ht symbol hs
    exact h symbol (.inside ht hs)
  · rintro h symbol ⟨⟩
    exact h _ ‹_› symbol ‹_›

theorem over_gather (h : Calculator.gather us = some t) : t.Over P ↔ ∀ u ∈ us, u.Over P := by
  match us with
  | [] => cases h
  | [u] =>
    cases h
    simp
  | _ :: _ :: _ =>
    cases h
    exact over_group_iff

end Token

namespace Calculator
open Token

variable {k : Calculator} {P : String → Prop} {c : Cursor} {text : List Char} {ts : List Token}

/-! ## Normal form -/

/-- A normal form has no operators that its sequence does not have. -/
theorem over_normalize {depth : Nat} {t : Token} (h : k.normalize depth ts = .ok (some t))
    (hts : ∀ u ∈ ts, u.Over P) : t.Over P := by
  obtain ⟨us, hf, hg⟩ := normalize_eq_ok_iff.mp h
  exact (over_gather hg).mpr ((foldSign_eq_ok_iff.mp hf).forall_mem over_operand hts)

/-! ## Reading -/

/-- What holds of the tokens that steps in a text come to, and is kept by normal forms, holds of all
tokens that are read in the text. -/
theorem forall_tokensFrom {Q : Token → Prop}
    (hstep : ∀ c, c.input = text → ∀ t after, k.step c = .token t after → Q t)
    (hnormal : ∀ depth ts t, k.normalize depth ts = .ok (some t) → (∀ u ∈ ts, Q u) → Q t)
    (hc : c.input = text) (h : k.tokensFrom c = .ok ts) : ∀ t ∈ ts, Q t := by
  induction hn : c.rest.length using Nat.strongRecOn generalizing c ts with
  | ind n ih =>
  subst hn
  rcases k.exists_stops_or_round c with ⟨outcome, hstops⟩ | ⟨p, after, hround⟩
  · rw [hstops.tokensFrom] at h
    cases hstops with
    | finished hs =>
      cases h
      simp
    | _ => cases h
  · obtain ⟨rest, hrest, rfl⟩ := hround.exists_tokensFrom h
    have hafter : after.input = text := hround.spec.1.input.trans hc
    refine List.forall_mem_cons.mpr ⟨?_, ih _ hround.shorter hafter hrest rfl⟩
    cases hround with
    | token hs => exact hstep c hc _ _ hs
    | @group opening inside _ t hs hn =>
      obtain ⟨inner, hinner, hfold⟩ := exists_of_bind_eq_ok hn
      have hshort := k.step_shorter c
      rw [hs] at hshort
      have hin : inside.input = text := (input_of_group hs).1.trans hc
      exact hnormal _ _ _ hfold (ih _ hshort.1 hin (tokens_eq_ok_iff.mp hinner).2 rfl)

theorem over_tokensFrom
    (hstep : ∀ c, c.input = text → ∀ t after, k.step c = .token t after → t.Over P)
    (hc : c.input = text) (h : k.tokensFrom c = .ok ts) : ∀ t ∈ ts, t.Over P :=
  forall_tokensFrom hstep (fun _ _ _ => over_normalize) hc h

end Calculator

end Abacus
