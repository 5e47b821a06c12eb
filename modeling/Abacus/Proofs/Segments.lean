import Abacus.Proofs.Substitution
import Mathlib.Data.List.Forall2

/-!
# The segments of a text

From the left a text is cut into references and other characters, in one way only. Substitution puts
a literal in the place of every reference and keeps the rest; the first reference that has no finite
value is its error. So texts can be substituted one by one, unless a reference lies across them.
-/

namespace Abacus
open Text

/-- A reference by its name, or a character that belongs to none. -/
inductive Segment where
  | char (c : Char)
  | reference (name : List Char)

/-- The name of a reference is not empty and goes on as far as there are characters of a name. A
mark without a name is a character like others. -/
inductive Cut : List Char → List Segment → Prop
  | nil : Cut [] []
  | char {c : Char} {rest : List Char} {ps : List Segment} : c ≠ '$' ∨ Ends isNameChar rest →
      Cut rest ps → Cut (c :: rest) (.char c :: ps)
  | reference {name rest : List Char} {ps : List Segment} : name ≠ [] →
      (∀ c ∈ name, isNameChar c = true) → Ends isNameChar rest → Cut rest ps →
      Cut ('$' :: (name ++ rest)) (.reference name :: ps)

namespace Cut

variable {text a b : List Char} {ps qs : List Segment}

theorem exists_cut (text : List Char) : ∃ ps, Cut text ps := by
  induction hn : text.length using Nat.strongRecOn generalizing text with
  | ind n ih =>
  subst hn
  rcases exists_piece text with rfl | ⟨c, rest, rfl, hc⟩ | ⟨name, rest, rfl, hne, hname, hrest⟩
  · exact ⟨[], .nil⟩
  · obtain ⟨ps, hps⟩ := ih rest.length (by simp) rest rfl
    exact ⟨_, .char hc hps⟩
  · obtain ⟨ps, hps⟩ := ih rest.length (length_lt_reference name rest) rest rfl
    exact ⟨_, .reference hne hname hrest hps⟩

/-- A text that begins with a name goes on with one. -/
theorem not_ends_name {name rest : List Char} (hne : name ≠ [])
    (hname : ∀ c ∈ name, isNameChar c = true) : ¬Ends isNameChar (name ++ rest) := by
  obtain ⟨c, more, rfl⟩ := List.exists_cons_of_ne_nil hne
  intro h
  have hc : isNameChar c = false := h c rfl
  simp [hname c (by simp)] at hc

theorem unique (h : Cut text ps) (h' : Cut text qs) : ps = qs := by
  induction h generalizing qs with
  | nil =>
    cases h'
    rfl
  | char hc _ ih =>
    cases h' with
    | char _ h' => rw [ih h']
    | reference hne hname _ _ =>
      exact absurd (hc.resolve_left fun h => h rfl) (not_ends_name hne hname)
  | @reference name rest _ hne hname hrest _ ih =>
    -- the text is generalized, as it begins with a mark in both cases
    generalize ht : '$' :: (name ++ rest) = text at h'
    cases h' with
    | nil => cases ht
    | char hc _ =>
      obtain ⟨rfl, rfl⟩ := List.cons.inj ht
      exact absurd (hc.resolve_left fun h => h rfl) (not_ends_name hne hname)
    | reference hne' hname' hrest' h' =>
      obtain ⟨rfl, rfl⟩ := run_inj hname hrest hname' hrest' (List.cons.inj ht).2
      rw [ih h']

end Cut

/-- A reference lies across two texts: a mark and perhaps some of the name end the first, and the
name goes on in the second. -/
def Across (a b : List Char) : Prop :=
  ∃ front name c rest, a = front ++ '$' :: name ∧ (∀ d ∈ name, isNameChar d = true) ∧
    b = c :: rest ∧ isNameChar c = true

theorem Across.append_left {a b : List Char} (h : Across a b) (front : List Char) :
    Across (front ++ a) b := by
  obtain ⟨front', name, c, rest, rfl, hname, hb, hc⟩ := h
  exact ⟨front ++ front', name, c, rest, by simp, hname, hb, hc⟩

/-- What is behind a reference or a mark in the first text does not go on with its name. -/
theorem ends_of_not_across {name rest b : List Char} (hname : ∀ c ∈ name, isNameChar c = true)
    (hrest : Ends isNameChar rest) (h : ¬Across ('$' :: (name ++ rest)) b) :
    Ends isNameChar (rest ++ b) := by
  cases rest with
  | cons d rest => exact hrest
  | nil =>
    intro c hc
    obtain ⟨more, rfl⟩ := List.head?_eq_some_iff.mp hc
    by_contra hchar
    exact h ⟨[], name, c, more, by simp, hname, rfl, by simpa using hchar⟩

/-- The segments of two texts are those of one, unless a reference lies across them. -/
theorem Cut.append {a b : List Char} {ps qs : List Segment} (ha : Cut a ps) (hb : Cut b qs)
    (h : ¬Across a b) : Cut (a ++ b) (ps ++ qs) := by
  induction ha with
  | nil => exact hb
  | @char c rest ps hc _ ih =>
    refine .char ?_ (ih fun hmore => h (hmore.append_left [c]))
    by_cases hdollar : c = '$'
    · subst hdollar
      have hends : Ends isNameChar rest := hc.resolve_left fun hne => hne rfl
      exact .inr (ends_of_not_across (List.forall_mem_nil _) hends h)
    · exact .inl hdollar
  | @reference name rest ps hne hname hrest _ ih =>
    rw [List.cons_append, List.append_assoc]
    refine .reference hne hname (ends_of_not_across hname hrest h) (ih fun hmore => ?_)
    exact h (hmore.append_left ('$' :: name))

/-! ## Substitution -/

namespace Segment

variable {lookup : String → Option Float} {p : Segment} {ps qs : List Segment} {part : List Char}
  {e : ReadError}

/-- What a segment is replaced by. -/
inductive Becomes (lookup : String → Option Float) : Segment → List Char → Prop
  | char (c : Char) : Becomes lookup (.char c) [c]
  | reference {name : List Char} {x : Float} : lookup (String.ofList name) = some x →
      x.isFinite = true → Becomes lookup (.reference name) (Double.literal x)

/-- The error of a reference that cannot be replaced. -/
inductive Fails (lookup : String → Option Float) : Segment → ReadError → Prop
  | undefinedVariable {name : List Char} : lookup (String.ofList name) = none →
      Fails lookup (.reference name) (.undefinedVariable (String.ofList name))
  | nonFiniteVariable {name : List Char} {x : Float} : lookup (String.ofList name) = some x →
      x.isFinite = false →
      Fails lookup (.reference name) (.nonFiniteVariable (String.ofList name))

/-- A segment with its reference replaced. -/
def replaced (lookup : String → Option Float) : Segment → Except ReadError (List Char)
  | char c => .ok [c]
  | reference name => (finiteValue lookup (String.ofList name)).map Double.literal

theorem replaced_eq_ok_iff : p.replaced lookup = .ok part ↔ p.Becomes lookup part := by
  cases p with
  | char c =>
    constructor
    · rintro ⟨⟩
      exact .char c
    · rintro ⟨⟩
      rfl
  | reference name =>
    rw [replaced]
    constructor
    · intro h
      cases hx : finiteValue lookup (String.ofList name) with
      | error cause => simp [hx, Except.map] at h
      | ok x =>
        obtain ⟨hlookup, hfin⟩ := finiteValue_eq_ok_iff.mp hx
        rw [hx] at h
        cases h
        exact .reference hlookup hfin
    · rintro (_ | ⟨hlookup, hfin⟩)
      rw [finiteValue_eq_ok_iff.mpr ⟨hlookup, hfin⟩]
      rfl

theorem replaced_eq_error_iff : p.replaced lookup = .error e ↔ p.Fails lookup e := by
  cases p with
  | char c =>
    constructor
    · rintro ⟨⟩
    · rintro ⟨⟩
  | reference name =>
    rw [replaced, finiteValue]
    constructor
    · intro h
      split at h
      · cases h
        exact .undefinedVariable ‹_›
      · split at h
        · cases h
        · cases h
          exact .nonFiniteVariable ‹_› (eq_false_of_ne_true ‹_›)
    · rintro (hnone | ⟨hsome, hfin⟩)
      · rw [hnone]
        rfl
      · simp [hsome, hfin, Except.map]

/-- Segments with their references replaced, joined again. -/
def replaceAll (lookup : String → Option Float) : List Segment → Except ReadError (List Char)
  | [] => .ok []
  | p :: ps => do return (← p.replaced lookup) ++ (← replaceAll lookup ps)

theorem replaceAll_append : replaceAll lookup (ps ++ qs) = (do
    let front ← replaceAll lookup ps
    return front ++ (← replaceAll lookup qs)) := by
  induction ps with
  | nil =>
    cases hq : replaceAll lookup qs <;> simp [replaceAll, hq, bind, Except.bind, pure, Except.pure]
  | cons p ps ih =>
    simp only [List.cons_append, replaceAll, ih, bind_assoc, pure_bind, List.append_assoc]

/-- All segments are replaced, or there is a first one that cannot be. -/
theorem replaceAll_eq_ok_iff {text : List Char} : replaceAll lookup ps = .ok text ↔
    ∃ parts, List.Forall₂ (Becomes lookup) ps parts ∧ text = parts.flatten := by
  induction ps generalizing text with
  | nil => simp [replaceAll, eq_comm]
  | cons p ps ih =>
    rw [replaceAll]
    constructor
    · intro h
      obtain ⟨part, hp, h⟩ := exists_of_bind_eq_ok h
      obtain ⟨rest, hps, h⟩ := exists_of_bind_eq_ok h
      obtain ⟨parts, hparts, rfl⟩ := ih.mp hps
      cases h
      exact ⟨part :: parts, .cons (replaced_eq_ok_iff.mp hp) hparts, rfl⟩
    · rintro ⟨_, _ | ⟨hp, hps⟩, rfl⟩
      rw [replaced_eq_ok_iff.mpr hp, ih.mpr ⟨_, hps, rfl⟩]
      rfl

theorem replaceAll_eq_error_iff : replaceAll lookup ps = .error e ↔
    ∃ before p after, ps = before ++ p :: after ∧ (∀ q ∈ before, ∃ part, q.Becomes lookup part) ∧
      p.Fails lookup e := by
  induction ps with
  | nil => simp [replaceAll]
  | cons p ps ih =>
    rw [replaceAll]
    constructor
    · intro h
      rcases error_of_bind_eq_error h with hp | ⟨part, hp, h⟩
      · exact ⟨[], p, ps, rfl, by simp, replaced_eq_error_iff.mp hp⟩
      rcases error_of_bind_eq_error h with hps | ⟨_, -, h⟩
      · obtain ⟨before, q, after, rfl, hbefore, hq⟩ := ih.mp hps
        refine ⟨p :: before, q, after, rfl, ?_, hq⟩
        exact List.forall_mem_cons.mpr ⟨⟨part, replaced_eq_ok_iff.mp hp⟩, hbefore⟩
      · cases h
    · rintro ⟨before, q, after, he, hbefore, hq⟩
      cases before with
      | nil =>
        cases he
        rw [replaced_eq_error_iff.mpr hq]
        rfl
      | cons r before =>
        cases he
        obtain ⟨⟨part, hp⟩, hbefore⟩ := List.forall_mem_cons.mp hbefore
        rw [replaced_eq_ok_iff.mpr hp, ih.mpr ⟨before, q, after, rfl, hbefore, hq⟩]
        rfl

end Segment

variable {lookup : String → Option Float} {text : List Char}

theorem substitute_of_cut {ps : List Segment} (h : Cut text ps) :
    substitute lookup text = Segment.replaceAll lookup ps := by
  induction h with
  | nil => rw [substitute, Segment.replaceAll]
  | char hc _ ih =>
    rw [substitute_char hc, ih]
    rfl
  | @reference name _ _ hne hname hrest _ ih =>
    rw [substitute_reference hne hname hrest, ih, Segment.replaceAll, Segment.replaced]
    cases finiteValue lookup (String.ofList name) <;> rfl

/-- A text has one cut. Substitution replaces its segments and joins them again, or fails as the first
of them that cannot be replaced. What comes of two texts is joined as they are, the error of the
left one first, unless a reference lies across them. -/
theorem substitute_cut (lookup : String → Option Float) (text : List Char) :
    ∃ ps, (∀ qs, Cut text qs ↔ qs = ps) ∧
      (∀ text', substitute lookup text = .ok text' ↔
        ∃ parts, List.Forall₂ (Segment.Becomes lookup) ps parts ∧ text' = parts.flatten) ∧
      (∀ e, substitute lookup text = .error e ↔
        ∃ before p after, ps = before ++ p :: after ∧
          (∀ q ∈ before, ∃ part, q.Becomes lookup part) ∧ p.Fails lookup e) ∧
      (∀ a b, text = a ++ b → ¬Across a b → substitute lookup text = (do
        let front ← substitute lookup a
        return front ++ (← substitute lookup b))) ∧
      ('$' ∉ text → substitute lookup text = .ok text) := by
  obtain ⟨ps, hps⟩ := Cut.exists_cut text
  have hunique : ∀ qs, Cut text qs ↔ qs = ps := by
    intro qs
    constructor
    · exact fun hqs => hqs.unique hps
    · rintro rfl
      exact hps
  refine ⟨ps, hunique, fun text' => ?_, fun e => ?_, ?_, substitute_of_not_mem lookup⟩
  · rw [substitute_of_cut hps, Segment.replaceAll_eq_ok_iff]
  · rw [substitute_of_cut hps, Segment.replaceAll_eq_error_iff]
  · rintro a b rfl hacross
    obtain ⟨as, ha⟩ := Cut.exists_cut a
    obtain ⟨bs, hb⟩ := Cut.exists_cut b
    rw [substitute_of_cut (ha.append hb hacross), substitute_of_cut ha, substitute_of_cut hb,
      Segment.replaceAll_append]

/-- A mark without a name stays, and so does what was put in. -/
example : substitute (fun name => if name = "x" then some (-2) else none) "$$x$é".toList =
    .ok "$(-2)$é".toList := by
  decide +kernel

end Abacus
