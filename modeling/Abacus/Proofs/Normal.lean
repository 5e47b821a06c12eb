import Abacus.Normal
import Abacus.Proofs.Outcome

/-!
# Sequences that have a normal form

What a sequence must be for its leading sign to be folded away, and what comes of it.
-/

namespace Abacus.Calculator

variable {k : Calculator} {depth : Nat} {t u : Token} {ts us : List Token}

/-- What can be negated is what has a value, and the opposite number comes of it. -/
theorem negate_eq_ok_iff :
    k.negate depth t = .ok u ↔ ∃ x, k.value (depth + 1) t = .ok x ∧ u = .operand (-x) := by
  cases t with
  | operand x =>
    rw [negate, value]
    constructor
    · intro h
      exact ⟨x, rfl, (Except.ok.inj h).symm⟩
    · rintro ⟨_, h, rfl⟩
      rw [Except.ok.inj h]
  | operator symbol =>
    rw [negate, value]
    simp
  | group tokens =>
    rw [negate]
    constructor
    · intro h
      obtain ⟨x, hx, h⟩ := exists_of_bind_eq_ok h
      exact ⟨x, eq_ok_of_mapError hx, (Except.ok.inj h).symm⟩
    · rintro ⟨x, hx, rfl⟩
      rw [hx]
      rfl

/-- What folding the leading sign away makes of a sequence: nothing else without a leading
operator, and of a sign and a token to follow that token, or the number opposite to its value. -/
inductive Folds (k : Calculator) (depth : Nat) : List Token → List Token → Prop
  | unsigned {ts : List Token} : (∀ symbol more, ts ≠ .operator symbol :: more) →
      Folds k depth ts ts
  | plus (first : Token) (more : List Token) :
      Folds k depth (.operator "+" :: first :: more) (first :: more)
  | minus {first : Token} {x : Float} (more : List Token) : k.value (depth + 1) first = .ok x →
      Folds k depth (.operator "-" :: first :: more) (.operand (-x) :: more)

theorem foldSign_eq_ok_iff : k.foldSign depth ts = .ok us ↔ k.Folds depth ts us := by
  constructor
  · intro h
    match ts with
    | [] | .operand _ :: _ | .group _ :: _ =>
      cases h
      exact .unsigned (by simp)
    | [.operator symbol] => cases h
    | .operator symbol :: first :: more =>
      rw [foldSign] at h
      split at h
      · cases h
      · rename_i hsign
        split at h
        · rename_i hminus
          subst hminus
          obtain ⟨u, hu, h⟩ := exists_of_bind_eq_ok h
          obtain ⟨x, hx, rfl⟩ := negate_eq_ok_iff.mp hu
          cases h
          exact .minus more hx
        · rename_i hminus
          obtain rfl : symbol = "+" := by simpa [isSign, hminus] using hsign
          cases h
          exact .plus first more
  · intro h
    cases h with
    | unsigned hne =>
      match ts with
      | [] | .operand _ :: _ | .group _ :: _ => rfl
      | .operator symbol :: more => exact absurd rfl (hne symbol more)
    | plus first more => rfl
    | minus more hx =>
      have hn := negate_eq_ok_iff.mpr ⟨_, hx, rfl⟩
      simp only [foldSign, isSign, hn]
      rfl

/-- Folding keeps what holds of all tokens, if it holds of numbers. -/
theorem Folds.forall_mem {Q : Token → Prop} (h : k.Folds depth ts us) (hnumber : ∀ x, Q (.operand x))
    (hts : ∀ t ∈ ts, Q t) : ∀ u ∈ us, Q u := by
  cases h with
  | unsigned => exact hts
  | plus first more => exact fun u hu => hts u (List.mem_cons_of_mem _ hu)
  | minus more hx =>
    intro u hu
    rcases List.mem_cons.mp hu with rfl | hu
    · exact hnumber _
    · exact hts u (by simp [hu])

theorem normalize_eq_ok_iff {t? : Option Token} : k.normalize depth ts = .ok t? ↔
    ∃ us, k.foldSign depth ts = .ok us ∧ gather us = t? := by
  constructor
  · intro h
    obtain ⟨us, hf, h⟩ := exists_of_bind_eq_ok h
    exact ⟨us, hf, Except.ok.inj h⟩
  · rintro ⟨us, hf, rfl⟩
    rw [normalize, hf]
    rfl

theorem eq_nil_of_gather (h : gather ts = none) : ts = [] := by
  match ts with
  | [] => rfl
  | [_] | _ :: _ :: _ => cases h

/-- Only of no tokens at all there is no token. -/
theorem eq_nil_of_normalize (h : k.normalize depth ts = .ok none) : ts = [] := by
  obtain ⟨us, hf, hg⟩ := normalize_eq_ok_iff.mp h
  obtain rfl := eq_nil_of_gather hg
  cases foldSign_eq_ok_iff.mp hf
  rfl

/-- A sequence has no normal form if its leading operator is refused, or if the token behind a
leading minus has no value. -/
theorem error_of_normalize {e : Failure} (h : k.normalize depth ts = .error e) :
    (∃ symbol, e = .read (.leadingOperator symbol)) ∨ ∃ first more cause,
      ts = .operator "-" :: first :: more ∧ k.value (depth + 1) first = .error cause ∧
        e = .eval cause := by
  rcases error_of_bind_eq_error h with h | ⟨us, -, h⟩
  · match ts with
    | [] | .operand _ :: _ | .group _ :: _ => cases h
    | [.operator symbol] =>
      cases h
      exact .inl ⟨symbol, rfl⟩
    | .operator symbol :: first :: more =>
      rw [foldSign] at h
      split at h
      · cases h
        exact .inl ⟨symbol, rfl⟩
      · split at h
        · rename_i hminus
          subst hminus
          rcases error_of_bind_eq_error h with h | ⟨u, -, h⟩
          · cases first with
            | operand x => cases h
            | operator symbol =>
              cases h
              exact .inl ⟨symbol, rfl⟩
            | group inner =>
              rcases error_of_bind_eq_error h with h | ⟨x, -, h⟩
              · obtain ⟨cause, hx, rfl⟩ := exists_of_mapError_eq_error h
                exact .inr ⟨_, more, cause, rfl, hx, rfl⟩
              · cases h
          · cases h
        · cases h
  · cases h

/-! ## Normal forms that agree -/

section agreement
variable {k' : Calculator} {depth' : Nat} {stops : Failure → Prop}

theorem negate_agree (h : AgreeUnless (fun e => stops (.eval e)) (k.value (depth + 1) t)
    (k'.value (depth' + 1) t)) : AgreeUnless stops (k.negate depth t) (k'.negate depth' t) := by
  cases t with
  | operand | operator => exact .refl _
  | group ts =>
    rw [negate, negate]
    exact .bind h.mapError fun x _ => .refl _

/-- Of a normal form, only the value of a group behind a leading minus is left to a calculator. -/
theorem normalize_agree (h : ∀ t ∈ ts, AgreeUnless (fun e => stops (.eval e))
    (k.value (depth + 1) t) (k'.value (depth' + 1) t)) :
    AgreeUnless stops (k.normalize depth ts) (k'.normalize depth' ts) := by
  have hfold : AgreeUnless stops (k.foldSign depth ts) (k'.foldSign depth' ts) := by
    match ts with
    | [] | .operand _ :: _ | .group _ :: _ | [.operator _] => exact .refl _
    | .operator symbol :: first :: more =>
      rw [foldSign, foldSign]
      split
      · exact .refl _
      · split
        · exact .bind (negate_agree (h first (by simp))) fun u _ => .refl _
        · exact .refl _
  exact .bind hfold fun us _ => .refl _

theorem normalize_congr (h : ∀ t ∈ ts, k.value (depth + 1) t = k'.value (depth' + 1) t) :
    k.normalize depth ts = k'.normalize depth' ts :=
  (normalize_agree fun t ht => .of_eq (h t ht)).eq_of_unstopped

end agreement

end Abacus.Calculator
