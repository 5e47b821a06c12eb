import Abacus.Proofs.Normal
import Abacus.Proofs.Phases
import Abacus.Proofs.Progress
import Abacus.Proofs.Sequence

/-!
# Where errors come from

An error has one of a few sources. In the evaluation of a sequence it is the limit, a missing
operand, a token that is out of place, an operand without a value, or an operator that refuses. In
the reading of a range it is what stands at some cursor of the loop over the range, or over the
range of a group in it.
-/

namespace Abacus

namespace Calculator

variable {k : Calculator} {depth : Nat} {ts : List Token}

/-! ## Evaluation -/

/-- Where an error in the evaluation of a sequence that stands at a depth comes from. -/
inductive Fault (k : Calculator) (depth : Nat) (ts : List Token) : EvalError → Prop
  | deep : k.maxDepth < depth → Fault k depth ts (.tooDeep k.maxDepth)
  | empty : ts = [] → Fault k depth ts (.missingOperand none)
  | last {symbol : String} : ts.getLast? = some (.operator symbol) →
      Fault k depth ts (.missingOperand (some symbol))
  | sign {t : Token} {e : EvalError} : t ∈ ts → k.operator t = .error e → Fault k depth ts e
  | operand {t : Token} {e : EvalError} : t ∈ ts → k.value (depth + 1) t = .error e →
      Fault k depth ts e
  | refused {e : EvalError} : k.Refuses e → Fault k depth ts e

theorem mem_of_mem_links : ∀ {ts : List Token} {link : Token × Except EvalError Float},
    link ∈ k.links depth ts → link.1 ∈ ts ∧
      (ts.getLast? = some link.1 ∧ link.2 = .error (.missingOperand link.1.operator?) ∨
        ∃ t ∈ ts, link.2 = k.value depth t)
  | [], _, h => by
    rw [links] at h
    cases h
  | [t], _, h => by
    rw [links] at h
    obtain rfl := List.mem_singleton.mp h
    exact ⟨List.mem_singleton_self t, .inl ⟨rfl, rfl⟩⟩
  | t :: right :: more, _, h => by
    rw [links] at h
    rcases List.mem_cons.mp h with rfl | h
    · exact ⟨List.mem_cons_self, .inr ⟨right, by simp, rfl⟩⟩
    · obtain ⟨hsign, ⟨hlast, hmissing⟩ | ⟨u, hu, he⟩⟩ := mem_of_mem_links h
      · refine ⟨by simp [hsign], .inl ⟨?_, hmissing⟩⟩
        simp [List.getLast?_cons, hlast]
      · exact ⟨by simp [hsign], .inr ⟨u, by simp [hu], he⟩⟩

theorem fault_of_value {e : EvalError} (h : k.value depth (.group ts) = .error e) :
    k.Fault depth ts e := by
  by_cases hdeep : k.maxDepth < depth
  · have he : e = .tooDeep k.maxDepth := by
      cases ts <;> simpa [value, guarded, hdeep, eq_comm] using h
    rw [he]
    exact .deep hdeep
  cases ts with
  | nil =>
    rw [value, guarded, if_neg hdeep] at h
    cases h
    exact .empty rfl
  | cons first more =>
    rw [value, guarded, if_neg hdeep] at h
    rcases error_of_bind_eq_error h with hfirst | ⟨x, -, h⟩
    · exact .operand List.mem_cons_self hfirst
    · cases Chain.fault_of_reduce h with
      | sign hm he => exact .sign (List.mem_cons_of_mem _ (mem_of_mem_links hm).1) he
      | operand hm ho he =>
        obtain ⟨-, ⟨hlast, hmissing⟩ | ⟨t, ht, hvalue⟩⟩ := mem_of_mem_links hm
        · obtain ⟨symbol, hsymbol, -⟩ := operator_eq_ok_iff.mp ho
          rw [hmissing, hsymbol] at he
          cases he
          refine .last ?_
          rw [List.getLast?_cons, hlast, hsymbol]
          rfl
        · exact .operand (List.mem_cons_of_mem _ ht) (hvalue ▸ he)
      | refused _ ho he =>
        obtain ⟨symbol, -, hs⟩ := operator_eq_ok_iff.mp ho
        exact .refused ⟨symbol, _, _, _, hs, he⟩

/-! ## Reading -/

/-- Where an error in reading a range comes from. -/
inductive Fails (k : Calculator) : Cursor → Failure → Prop
  | step {c : Cursor} {cause : ReadError} : k.step c = .failed cause → Fails k c (.read cause)
  | deep {c : Cursor} {opening : Nat} {inside after : Cursor} :
      k.step c = .group opening inside after → k.maxDepth < inside.depth →
      Fails k c (.read (.tooDeep k.maxDepth))
  | inside {c : Cursor} {opening : Nat} {inside after : Cursor} {cause : Failure} :
      k.step c = .group opening inside after → inside.depth ≤ k.maxDepth →
      Fails k inside cause → Fails k c cause
  | normal {c : Cursor} {opening : Nat} {inside after : Cursor} {ts : List Token}
      {cause : Failure} :
      k.step c = .group opening inside after → k.tokens inside = .ok ts →
      k.normalize inside.depth ts = .error cause → Fails k c cause
  | empty {c : Cursor} {opening : Nat} {inside after : Cursor} :
      k.step c = .group opening inside after → k.normal? inside = .ok none →
      Fails k c (.read (.emptyGroup opening))
  | later {c d : Cursor} {p : Piece} {cause : Failure} :
      k.Round c p d → Fails k d cause → Fails k c cause

theorem fails_of_tokensFrom {c : Cursor} {cause : Failure} (h : k.tokensFrom c = .error cause) :
    k.Fails c cause := by
  induction hn : c.rest.length using Nat.strongRecOn generalizing c cause with
  | ind n ih =>
  subst hn
  rcases k.exists_stops_or_round c with ⟨outcome, hstops⟩ | ⟨p, d, hround⟩
  · rw [hstops.tokensFrom] at h
    cases hstops with
    | finished _ => cases h
    | failed hs =>
      cases h
      exact .step hs
    | empty hs hnone =>
      cases h
      exact .empty hs hnone
    | @inside opening inside after _ hs herror =>
      cases h
      have hshort := k.step_shorter c
      rw [hs] at hshort
      rcases error_of_bind_eq_error herror with htokens | ⟨ts, hts, hnormal⟩
      · by_cases hdeep : k.maxDepth < inside.depth
        · rw [tokens, within, if_pos hdeep] at htokens
          cases htokens
          exact .deep hs hdeep
        · rw [tokens, within, if_neg hdeep] at htokens
          exact .inside hs (Nat.le_of_not_lt hdeep) (ih _ hshort.1 htokens rfl)
      · exact .normal hs hts hnormal
  · rw [hround.tokensFrom] at h
    cases hd : k.tokensFrom d with
    | ok ts =>
      rw [hd] at h
      cases h
    | error cause' =>
      rw [hd] at h
      cases h
      exact .later hround (ih _ hround.shorter hd rfl)

theorem error_of_textValue {text : List Char} {cause : Failure}
    (h : k.textValue text = .error cause) : k.Fails (.whole text 0) cause ∨ ∃ ts,
      k.tokens (.whole text 0) = .ok ts ∧ (k.normalize 0 ts = .error cause ∨
        ∃ t e, k.normalize 0 ts = .ok (some t) ∧ k.value 0 t = .error e ∧ cause = .eval e) := by
  rcases error_of_bind_eq_error h with htoken | ⟨t?, htoken, h⟩
  · rcases error_of_bind_eq_error htoken with htokens | ⟨ts, hts, hnormal⟩
    · have hdepth : ¬k.maxDepth < (Cursor.whole text 0).depth := Nat.not_lt_zero _
      rw [tokens, within, if_neg hdepth] at htokens
      exact .inl (fails_of_tokensFrom htokens)
    · exact .inr ⟨ts, hts, .inl hnormal⟩
  · obtain ⟨ts, hts, hnormal⟩ := exists_of_bind_eq_ok htoken
    cases t? with
    | none => cases h
    | some t =>
      obtain ⟨e, he, rfl⟩ := exists_of_mapError_eq_error h
      exact .inr ⟨ts, hts, .inr ⟨t, e, hnormal, he, rfl⟩⟩

end Calculator

end Abacus
