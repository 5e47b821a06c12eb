import Abacus.Proofs.Printed
import Abacus.Proofs.Segments

/-!
# Names of bindings and of references

A name on the command line is set off by blanks and an equals sign, and a name in a text by the
characters that go on with it. Both readings know the same names, so whatever is bound can be
referred to, and whatever is referred to can be bound.
-/

namespace Abacus
open Text

/-- The value of the name is asked for where some text is substituted: without any values, the text
is refused for it. -/
def Referable (name : String) : Prop :=
  ∃ text, substitute (fun _ => none) text = .error (.undefinedVariable name)

/-! ## References -/

variable {lookup : String → Option Float} {name rest : List Char}

theorem substitute_append_of_not_across {a b : List Char} (h : ¬Across a b) :
    substitute lookup (a ++ b) = (do
      let front ← substitute lookup a
      return front ++ (← substitute lookup b)) := by
  obtain ⟨ps, ha⟩ := Cut.exists_cut a
  obtain ⟨qs, hb⟩ := Cut.exists_cut b
  rw [substitute_of_cut (ha.append hb h), substitute_of_cut ha, substitute_of_cut hb,
    Segment.replaceAll_append]

/-- A mark begins a reference wherever it stands, and the reference ends with the name. -/
theorem IsName.substitute_eq (h : IsName name) (hrest : Ends isNameChar rest)
    (front : List Char) : substitute lookup (front ++ '$' :: (name ++ rest)) = (do
      let front ← substitute lookup front
      let x ← finiteValue lookup (String.ofList name)
      return front ++ Double.literal x ++ (← substitute lookup rest)) := by
  have hacross : ¬Across front ('$' :: (name ++ rest)) := by
    rintro ⟨_, _, c, _, -, -, ⟨⟩, hc⟩
    cases hc
  rw [substitute_append_of_not_across hacross, substitute_reference h.ne_nil h.characters hrest]
  simp only [bind_assoc, pure_bind, List.append_assoc]

/-- The references of a cut have names. -/
theorem Cut.isName {text : List Char} {ps : List Segment} (h : Cut text ps)
    (hmem : .reference name ∈ ps) : IsName name := by
  induction h with
  | nil => cases hmem
  | char _ _ ih =>
    rcases List.mem_cons.mp hmem with he | hmem
    · cases he
    · exact ih hmem
  | reference hne hname _ _ ih =>
    rcases List.mem_cons.mp hmem with he | hmem
    · cases he
      exact ⟨hne, hname⟩
    · exact ih hmem

/-- The names that are looked up are those that a text may have behind a mark. -/
theorem referable_iff {name : String} : Referable name ↔ IsName name.toList := by
  constructor
  · rintro ⟨text, h⟩
    obtain ⟨ps, hps⟩ := Cut.exists_cut text
    rw [substitute_of_cut hps, Segment.replaceAll_eq_error_iff] at h
    obtain ⟨before, p, after, rfl, -, hp⟩ := h
    cases hp with
    | undefinedVariable hnone =>
      rw [String.toList_ofList]
      exact hps.isName (by simp)
  · intro h
    refine ⟨'$' :: name.toList, ?_⟩
    have hread := @substitute_reference (fun _ => none) [] _ h.ne_nil h.characters (Ends.nil _)
    rw [List.append_nil, String.ofList_toList] at hread
    rw [hread]
    rfl

/-! ## Bindings -/

/-- A binding names what can be referred to. -/
theorem isName_of_binding {text name : String} {v : Float} (h : binding text = .ok (name, v)) :
    IsName name.toList := by
  rw [binding] at h
  split at h
  · cases h
  · simp only at h
    split at h
    · cases h
    · rename_i hvalid
      split at h
      · cases h
      · split at h
        · cases h
        · cases h
          rw [String.toList_ofList]
          simp only [Bool.or_eq_true, not_or, Bool.not_eq_true, Bool.not_eq_false',
            List.isEmpty_eq_false_iff, List.all_eq_true] at hvalid
          exact ⟨hvalid.1, hvalid.2⟩

/-- A name that is bound can be referred to, at any place and up to the first character that is
none of a name, and the reference has the value of the binding. A name that can be referred to can
be bound to what is printed for a finite value, with marks in front of it and blanks around it and
around the value. -/
theorem binding_names_referable :
    (∀ (text name : String) (v : Float), binding text = .ok (name, v) →
      name ≠ "" ∧ Referable name ∧
      (v.isFinite = true →
        ({} : Calculator).evaluateWith (some ("$" ++ name)) [(name, v)] = .ok v) ∧
      ∀ (lookup : String → Option Float) (front : List Char) (c : Char) (behind : List Char),
        isNameChar c = false →
          substitute lookup (front ++ '$' :: (name.toList ++ c :: behind)) = (do
            let front ← substitute lookup front
            let x ← finiteValue lookup name
            return front ++ Double.literal x ++ (← substitute lookup (c :: behind)))) ∧
    ∀ (name : String) (v : Float), Referable name → v.isFinite = true →
      ∀ w₁ w₂ w₃ w₄ : List Char, Blank w₁ → Blank w₂ → Blank w₃ → Blank w₄ → ∀ marks : Nat,
        binding (String.ofList (w₁ ++ (List.replicate marks '$' ++ name.toList) ++ w₂ ++
          '=' :: (w₃ ++ Double.write v ++ w₄))) = .ok (name, v) := by
  constructor
  · intro text name v h
    have hname := isName_of_binding h
    have hne : name ≠ "" := by
      rintro rfl
      exact hname.ne_nil rfl
    refine ⟨hne, referable_iff.mpr hname, fun hv => ?_, fun lookup front c behind hc => ?_⟩
    · have hlookup : Variables.lookup [(name, v)] (String.ofList name.toList) = some v := by
        show Variables.first? [(name, v)] (String.ofList name.toList) = some v
        simp [Variables.first?]
      have htext : "$" ++ name = String.ofList ('$' :: name.toList) := by
        simp
      have hvalue : ({} : Calculator).textValue (Double.literal v) = .ok v :=
        (Layout.amounts_literal OperatorTable.loneMinus_arithmetic hv (by decide)).textValue rfl
          OperatorTable.parenless_arithmetic
      rw [htext, Calculator.evaluateWith_reference hname.ne_nil hname.characters hlookup hv, hvalue]
    · have hends : Ends isNameChar (c :: behind) := by simpa [Ends] using hc
      have hread := @IsName.substitute_eq lookup _ _ hname hends front
      rwa [String.ofList_toList] at hread
  · intro name v hreferable hv w₁ w₂ w₃ w₄ hw₁ hw₂ hw₃ hw₄ marks
    have hbinding := (referable_iff.mp hreferable).binding_eq hv hw₁ hw₂ hw₃ hw₄ marks
    rwa [String.ofList_toList] at hbinding

/-- A value with a sign, with marks and blanks on the way to its name. -/
theorem binding_names_referable_signed : Referable "x_1" ∧ (-0.5 : Float).isFinite = true ∧
    binding "\u3000$$x_1 = -0.5\n" = .ok ("x_1", -0.5) ∧
    ({} : Calculator).evaluateWith (some "$x_1") [("x_1", (-0.5 : Float))] = .ok (-0.5) ∧
    substitute (Variables.lookup [("x_1", (-0.5 : Float))]) "$$x_1(x)".toList =
      .ok "$(-0.5)(x)".toList := by
  have hname : Referable "x_1" := ⟨"2*$x_1".toList, by decide +kernel⟩
  have hv : (-0.5 : Float).isFinite = true := by decide +kernel
  have hwrite : Double.write (-0.5) = "-0.5".toList := by decide +kernel
  have hbinding : binding "\u3000$$x_1 = -0.5\n" = .ok ("x_1", -0.5) := by
    have hbound := binding_names_referable.2 "x_1" (-0.5) hname hv ['\u3000'] [' '] [' '] ['\n']
      (by decide) (by decide) (by decide) (by decide) 2
    rw [hwrite] at hbound
    exact hbound
  obtain ⟨-, hreferable, hvalue, hread⟩ := binding_names_referable.1 _ _ _ hbinding
  have hsubstituted := hread (Variables.lookup [("x_1", (-0.5 : Float))]) ['$'] '(' ['x', ')']
    (by decide)
  refine ⟨hreferable, hv, hbinding, hvalue hv, hsubstituted.trans ?_⟩
  decide +kernel

end Abacus
