import Abacus.Proofs.Lexeme
import Abacus.Proofs.Outcome
import Abacus.Substitution

/-!
# What substitution does

A text is made of references and of characters that stay as they are. Substitution is taken apart
along these pieces, and at every character that belongs to no reference.
-/

namespace Abacus
open Text

/-- A text and what comes of it when its references are replaced by literals. -/
inductive Substitutes (lookup : String → Option Float) : List Char → List Char → Prop
  | nil : Substitutes lookup [] []
  | char {c : Char} {rest rest' : List Char} : c ≠ '$' ∨ Ends isNameChar rest →
      Substitutes lookup rest rest' → Substitutes lookup (c :: rest) (c :: rest')
  | reference {name rest rest' : List Char} {x : Float} : name ≠ [] →
      (∀ c ∈ name, isNameChar c = true) → Ends isNameChar rest →
      lookup (String.ofList name) = some x → x.isFinite = true → Substitutes lookup rest rest' →
      Substitutes lookup ('$' :: (name ++ rest)) (Double.literal x ++ rest')

variable {lookup : String → Option Float} {text text' rest rest' : List Char} {c : Char}

theorem finiteValue_eq_ok_iff {name : String} {x : Float} :
    finiteValue lookup name = .ok x ↔ lookup name = some x ∧ x.isFinite = true := by
  rw [finiteValue]
  cases lookup name with
  | none => simp
  | some y =>
    by_cases hy : y.isFinite = true
    · simp only [if_pos hy, Except.ok.injEq, Option.some.injEq]
      constructor
      · rintro rfl
        exact ⟨rfl, hy⟩
      · exact fun h => h.1
    · simp only [if_neg hy, Option.some.injEq]
      constructor
      · intro h
        cases h
      · rintro ⟨rfl, h⟩
        exact absurd h hy

theorem takeWhile_eq_nil_iff_ends {accepts : Char → Bool} :
    text.takeWhile accepts = [] ↔ Ends accepts text := by
  cases text with
  | nil => simp [Ends]
  | cons c text => cases hc : accepts c <;> simp [Ends, hc]

theorem substitute_char (h : c ≠ '$' ∨ Ends isNameChar rest) :
    substitute lookup (c :: rest) = (do return c :: (← substitute lookup rest)) := by
  rw [substitute, if_neg]
  rintro ⟨rfl, hname⟩
  exact hname (takeWhile_eq_nil_iff_ends.mpr (h.resolve_left fun h => h rfl))

theorem substitute_reference {name : List Char} (hne : name ≠ [])
    (hname : ∀ c ∈ name, isNameChar c = true) (hrest : Ends isNameChar rest) :
    substitute lookup ('$' :: (name ++ rest)) = (do
      let x ← finiteValue lookup (String.ofList name)
      return Double.literal x ++ (← substitute lookup rest)) := by
  rw [substitute]
  simp only [takeWhile_run hname hrest, dropWhile_run hname hrest]
  exact if_pos ⟨trivial, hne⟩

/-- What stands in front of all references is left as it is. -/
theorem substitute_front {front : List Char} (h : '$' ∉ front) (rest : List Char) :
    substitute lookup (front ++ rest) = (substitute lookup rest).map (front ++ ·) := by
  induction front with
  | nil =>
    rw [List.nil_append]
    cases substitute lookup rest <;> rfl
  | cons c front ih =>
    obtain ⟨hc, hfront⟩ := List.ne_and_not_mem_of_not_mem_cons h
    rw [List.cons_append, substitute_char (.inl (Ne.symm hc)), ih hfront]
    cases substitute lookup rest <;> rfl

/-- A text without references is left as it is. -/
theorem substitute_of_not_mem (lookup : String → Option Float) (h : '$' ∉ text) :
    substitute lookup text = .ok text := by
  have hfront := @substitute_front lookup text h []
  rw [substitute.eq_1] at hfront
  simpa [Except.map] using hfront

/-- Every text begins with a reference, with a character that is none of one, or not at all. -/
theorem exists_piece (text : List Char) : text = [] ∨
    (∃ c rest, text = c :: rest ∧ (c ≠ '$' ∨ Ends isNameChar rest)) ∨
    ∃ name rest, text = '$' :: (name ++ rest) ∧ name ≠ [] ∧ (∀ c ∈ name, isNameChar c = true) ∧
      Ends isNameChar rest := by
  cases text with
  | nil => exact .inl rfl
  | cons c text =>
    refine .inr ?_
    by_cases hc : c = '$'
    · subst hc
      obtain ⟨name, rest, rfl, hname, hrest⟩ := exists_run isNameChar text
      by_cases hne : name = []
      · subst hne
        exact .inl ⟨'$', rest, rfl, .inr hrest⟩
      · exact .inr ⟨name, rest, rfl, hne, hname, hrest⟩
    · exact .inl ⟨c, text, rfl, .inl hc⟩

theorem length_lt_reference (name rest : List Char) :
    rest.length < ('$' :: (name ++ rest)).length := by
  rw [List.length_cons, List.length_append]
  omega

theorem substitute_eq_ok_iff : substitute lookup text = .ok text' ↔ Substitutes lookup text text' := by
  constructor
  · intro h
    induction hn : text.length using Nat.strongRecOn generalizing text text' with
    | ind n ih =>
    subst hn
    rcases exists_piece text with rfl | ⟨c, rest, rfl, hc⟩ | ⟨name, rest, rfl, hne, hname, hrest⟩
    · rw [substitute] at h
      cases h
      exact .nil
    · rw [substitute_char hc] at h
      obtain ⟨rest', hr, h⟩ := exists_of_bind_eq_ok h
      cases h
      exact .char hc (ih _ (by simp) hr rfl)
    · rw [substitute_reference hne hname hrest] at h
      obtain ⟨x, hx, h⟩ := exists_of_bind_eq_ok h
      obtain ⟨rest', hr, h⟩ := exists_of_bind_eq_ok h
      cases h
      obtain ⟨hx, hfin⟩ := finiteValue_eq_ok_iff.mp hx
      exact .reference hne hname hrest hx hfin (ih _ (length_lt_reference name rest) hr rfl)
  · intro h
    induction h with
    | nil => rw [substitute]
    | char hc _ ih =>
      rw [substitute_char hc, ih]
      rfl
    | reference hne hname hrest hx hfin _ ih =>
      rw [substitute_reference hne hname hrest, finiteValue_eq_ok_iff.mpr ⟨hx, hfin⟩, ih]
      rfl

/-- Substitution fails for want of a finite value and for nothing else. -/
theorem error_of_substitute {e : ReadError} (h : substitute lookup text = .error e) :
    ∃ name, e = .undefinedVariable name ∨ e = .nonFiniteVariable name := by
  have finite : ∀ name, finiteValue lookup name = .error e →
      ∃ name, e = .undefinedVariable name ∨ e = .nonFiniteVariable name := by
    intro name h
    rw [finiteValue] at h
    split at h
    · cases h
      exact ⟨name, .inl rfl⟩
    · split at h
      · cases h
      · cases h
        exact ⟨name, .inr rfl⟩
  induction hn : text.length using Nat.strongRecOn generalizing text with
  | ind n ih =>
  subst hn
  rcases exists_piece text with rfl | ⟨c, rest, rfl, hc⟩ | ⟨name, rest, rfl, hne, hname, hrest⟩
  · rw [substitute] at h
    cases h
  · rw [substitute_char hc] at h
    rcases error_of_bind_eq_error h with h | ⟨_, -, h⟩
    · exact ih _ (by simp) h rfl
    · cases h
  · rw [substitute_reference hne hname hrest] at h
    rcases error_of_bind_eq_error h with h | ⟨_, -, h⟩
    · exact finite _ h
    rcases error_of_bind_eq_error h with h | ⟨_, -, h⟩
    · exact ih _ (length_lt_reference name rest) h rfl
    · cases h

/-! ## Characters that belong to no reference -/

theorem Text.Ends.append_cons {accepts : Char → Bool} (h : Ends accepts text) (hc : accepts c = false)
    (rest : List Char) : Ends accepts (text ++ c :: rest) :=
  h.append (by simpa [Ends] using hc)

/-- A character that is none of a name ends every reference before it. -/
theorem substitute_append (hdollar : c ≠ '$') (hname : isNameChar c = false) (text : List Char) :
    substitute lookup (text ++ c :: rest) = (do
      let front ← substitute lookup text
      return front ++ c :: (← substitute lookup rest)) := by
  induction hn : text.length using Nat.strongRecOn generalizing text with
  | ind n ih =>
  subst hn
  rcases exists_piece text with rfl | ⟨d, more, rfl, hd⟩ | ⟨name, more, rfl, hne, hrun, hmore⟩
  · rw [List.nil_append, substitute_char (.inl hdollar), substitute.eq_1]
    rfl
  · rw [List.cons_append, substitute_char (hd.imp_right (·.append_cons hname rest)),
      substitute_char hd, ih _ (by simp) more rfl]
    simp
  · rw [List.cons_append, List.append_assoc,
      substitute_reference hne hrun (hmore.append_cons hname rest),
      substitute_reference hne hrun hmore, ih _ (length_lt_reference name more) more rfl]
    simp

/-- Without values there are no references in a text that can be read. -/
theorem Substitutes.eq_of_none (h : Substitutes (fun _ => none) text text') : text' = text := by
  induction h with
  | nil => rfl
  | char _ _ ih => rw [ih]
  | reference _ _ _ hx => cases hx

/-- The text can be read without any values. -/
def ReferenceFree (text : List Char) : Prop := substitute (fun _ => none) text = .ok text

theorem referenceFree_append_iff (hdollar : c ≠ '$') (hname : isNameChar c = false) :
    ReferenceFree (text ++ c :: rest) ↔ ReferenceFree text ∧ ReferenceFree rest := by
  rw [ReferenceFree, substitute_append hdollar hname]
  constructor
  · intro h
    obtain ⟨text', ht, h⟩ := exists_of_bind_eq_ok h
    obtain ⟨rest', hr, -⟩ := exists_of_bind_eq_ok h
    obtain rfl := (substitute_eq_ok_iff.mp ht).eq_of_none
    obtain rfl := (substitute_eq_ok_iff.mp hr).eq_of_none
    exact ⟨ht, hr⟩
  · rintro ⟨ht, hr⟩
    rw [show substitute _ text = _ from ht, show substitute _ rest = _ from hr]
    rfl

end Abacus
