import Abacus.CommandLine.Binding
import Abacus.Proofs.Exchange
import Abacus.Proofs.Lines

/-!
# Printed values

What is printed for a finite value is an expression of that value, and so is its literal; a
reference to a variable that is bound to the value is one as well, also where the binding is made
from what was printed. A sign does not stay with its digits on the way: it is read as an operator,
and the normal form puts the two together again, at the top or in a group that is then no group any
more.
-/

namespace Abacus
open Text

/-! ## Signs in front of numerals -/

namespace Numeral

theorem decimalBits_le (digits : Nat) (e : Int) : decimalBits digits e ≤ Double.infinityBits := by
  unfold decimalBits
  split
  · exact Nat.zero_le _
  · split
    · exact Nat.le_refl _
    · split
      · exact Nat.zero_le _
      · exact Nat.min_le_right ..

/-- A minus in front of a finite numeral is the sign of its double. -/
theorem toFloat_negative {size : Magnitude} (h : (toFloat ⟨false, size⟩).isFinite = true) :
    toFloat ⟨true, size⟩ = -toFloat ⟨false, size⟩ := by
  cases size with
  | nan => exact absurd h (by decide +kernel)
  | infinite => exact absurd h (by decide +kernel)
  | decimal digits e =>
    have h : (Double.ofBits false (decimalBits digits e)).isFinite = true := h
    have hne : decimalBits digits e ≠ Double.infinityBits := by
      intro he
      rw [he] at h
      exact absurd h (by decide +kernel)
    exact (Double.neg_ofBits (Nat.lt_of_le_of_ne (decimalBits_le digits e) hne) false).symm

end Numeral

namespace Double

/-- A minus in front of digits that read as a finite double makes it the opposite. -/
theorem ofText?_negative {digits : List Char} {y : Float} (hrun : DigitRun digits)
    (hread : ofText? digits = some y) (hy : y.isFinite = true) :
    ofText? ('-' :: digits) = some (-y) := by
  obtain ⟨c, more, rfl, hc, -⟩ := hrun
  rw [ofText?, Numeral.ofText?, Numeral.splitSign_digit hc] at hread
  obtain ⟨n, hn, rfl⟩ := Option.map_eq_some_iff.mp hread
  obtain ⟨size, hsize, rfl⟩ := Option.map_eq_some_iff.mp hn
  have hsize : Numeral.magnitude? (c :: more) = some size := hsize
  have hnegative : Numeral.ofText? ('-' :: c :: more) = some ⟨true, size⟩ := by
    rw [Numeral.ofText?, Numeral.splitSign]
    simp only [hsize, Option.map_some]
  rw [ofText?, hnegative, Option.map_some, Numeral.toFloat_negative hy]

/-- What a finite double is written with reads back as the double. -/
theorem ofText?_write {v : Float} (hv : v.isFinite = true) : ofText? (write v) = some v := by
  obtain ⟨negative, bits, h, rfl⟩ := exists_eq_ofBits hv
  rw [write_ofBits h]
  cases negative with
  | false => exact ofText?_shortest h
  | true =>
    have hread := ofText?_negative (digitRun_shortest bits) (ofText?_shortest h)
      (isFinite_ofBits h false)
    rwa [neg_ofBits h] at hread

theorem not_blank_of_mem_write {v : Float} (hv : v.isFinite = true) :
    ∀ c ∈ write v, isBlank c = false := by
  obtain ⟨digits, y, hrun, -, hcases⟩ := exists_write hv
  have hdigits : ∀ c ∈ digits, isBlank c = false :=
    fun c hc => isBlank_of_isNumeric (hrun.isNumeric c hc)
  rcases hcases with ⟨-, hw, -⟩ | ⟨-, hw, -⟩
  · rwa [hw]
  · rw [hw]
    exact List.forall_mem_cons.mpr ⟨by decide, hdigits⟩

theorem write_ne_nil {v : Float} (hv : v.isFinite = true) : write v ≠ [] := by
  obtain ⟨digits, y, hrun, -, hcases⟩ := exists_write hv
  rcases hcases with ⟨-, hw, -⟩ | ⟨-, hw, -⟩
  · rw [hw]
    exact hrun.ne_nil
  · rw [hw]
    exact List.cons_ne_nil _ _

end Double

/-! ## Bindings -/

namespace Text

theorem splitAt?_append {c : Char} {left : List Char} (h : c ∉ left) (right : List Char) :
    splitAt? c (left ++ c :: right) = some (left, right) := by
  induction left with
  | nil => simp [splitAt?]
  | cons d left ih =>
    obtain ⟨hd, hleft⟩ := List.ne_and_not_mem_of_not_mem_cons h
    rw [List.cons_append, splitAt?, if_neg (Ne.symm hd), ih hleft]
    rfl

end Text

/-- A name: characters of names, and one at least. -/
structure IsName (name : List Char) : Prop where
  ne_nil : name ≠ []
  characters : ∀ c ∈ name, isNameChar c = true

variable {name : List Char}

/-- Marks in front of the name, and blanks around it and around the value, do not count. -/
theorem IsName.binding_eq (h : IsName name) {v : Float} (hv : v.isFinite = true)
    {w₁ w₂ w₃ w₄ : List Char} (hw₁ : Blank w₁) (hw₂ : Blank w₂) (hw₃ : Blank w₃) (hw₄ : Blank w₄)
    (marks : Nat) :
    binding (String.ofList (w₁ ++ (List.replicate marks '$' ++ name) ++ w₂ ++
      '=' :: (w₃ ++ Double.write v ++ w₄))) = .ok (String.ofList name, v) := by
  have hmarks : ∀ c ∈ List.replicate marks '$', (decide (c = '$')) = true := by
    intro c hc
    simpa using List.eq_of_mem_replicate hc
  have hends : Ends (fun c => decide (c = '$')) name := by
    intro c hc
    have hname := h.characters c (List.mem_of_mem_head? hc)
    refine decide_eq_false ?_
    rintro rfl
    cases hname
  have hseen : ∀ c ∈ List.replicate marks '$' ++ name, isBlank c = false := by
    intro c hc
    rcases List.mem_append.mp hc with hc | hc
    · rw [List.eq_of_mem_replicate hc]
      decide
    · exact isBlank_of_isNameChar (h.characters c hc)
  have hequals : '=' ∉ w₁ ++ (List.replicate marks '$' ++ name) ++ w₂ := by
    refine List.not_mem_append (List.not_mem_append (not_mem_run hw₁ (by decide))
      (List.not_mem_append (not_mem_run hmarks (by decide)) ?_)) (not_mem_run hw₂ (by decide))
    exact not_mem_run h.characters (by decide)
  have hvalid : (name.isEmpty || !name.all isNameChar) = false := by
    simpa [h.ne_nil] using h.characters
  have hwritten : (Double.write v).isEmpty = false := by
    simpa using Double.write_ne_nil hv
  rw [binding, String.toList_ofList, splitAt?_append hequals]
  simp only [trim_padded hw₁ hw₂ hseen, dropWhile_run hmarks hends, hvalid,
    trim_padded hw₃ hw₄ (Double.not_blank_of_mem_write hv), hwritten, Double.ofText?_write hv]
  rfl

/-- A value is bound to a name by what is printed for it. -/
theorem binding_write (hne : name ≠ []) (hname : ∀ c ∈ name, isNameChar c = true) {v : Float}
    (hv : v.isFinite = true) :
    binding (String.ofList (name ++ '=' :: Double.write v)) = .ok (String.ofList name, v) := by
  have hblank : Blank [] := by simp [Blank]
  simpa using IsName.binding_eq ⟨hne, hname⟩ hv hblank hblank hblank hblank 0

/-! ## Expressions -/

namespace Layout

variable {k : Calculator} {depth : Nat} {text : List Char} {v : Float}

/-- A group amounts to what its contents amount to. -/
theorem Amounts.group (h : Amounts k (depth + 1) text v) (hdepth : depth < k.maxDepth) :
    Amounts k depth ('(' :: (text ++ [')'])) v := by
  obtain ⟨l, ts, t, rfl, hy, hn, hv⟩ := h
  have hblank : Blank [] := by simp [Blank]
  have hone : k.normalize depth [t] = .ok (some t) := by
    refine Calculator.normalize_eq_ok_iff.mpr
      ⟨[t], Calculator.foldSign_eq_ok_iff.mpr (.unsigned ?_), rfl⟩
    rintro symbol more ⟨⟩
    cases Calculator.operator?_of_value (hv depth (Nat.le_succ depth))
  refine ⟨.group [] l (.blank []), [t], t, by simp [Layout.text], ?_, hone, ?_⟩
  · exact .group hblank hdepth hy hn (.blank hblank)
  · exact fun d hd => hv d (Nat.le_succ_of_le hd)

/-- The literal of a finite value amounts to it where there is room for a group. -/
theorem amounts_literal (hm : k.operators.LoneMinus) (hv : v.isFinite = true)
    (hdepth : depth < k.maxDepth) : Amounts k depth (Double.literal v) v := by
  rw [Double.literal]
  split
  · exact (amounts_write hm hv (depth + 1)).group hdepth
  · exact amounts_write hm hv depth

theorem Amounts.textValue (hk : k.rules = []) (hp : k.operators.Parenless)
    (h : Amounts k 0 text v) : k.textValue text = .ok v := by
  obtain ⟨l, ts, t, hl, hy, hn, hv⟩ := h
  exact (Calculator.textValue_eq_ok_iff hk hp).mpr
    ⟨l, ts, hl, hy, .inr ⟨t, hn, hv 0 (Nat.le_refl 0)⟩⟩

end Layout

namespace Calculator

variable {k : Calculator} {v : Float}

/-- A reference to a name has the value of its literal. -/
theorem evaluateWith_reference {β : Type} [Variables β] {bindings : β} {name : List Char}
    (hne : name ≠ []) (hname : ∀ c ∈ name, isNameChar c = true)
    (hlookup : Variables.lookup bindings (String.ofList name) = some v) (hv : v.isFinite = true) :
    k.evaluateWith (some (String.ofList ('$' :: name))) bindings =
      k.textValue (Double.literal v) := by
  have hsubstitute : substitute (Variables.lookup bindings) ('$' :: name) =
      .ok (Double.literal v) := by
    rw [← List.append_nil name, substitute_reference hne hname (Ends.nil _),
      finiteValue_eq_ok_iff.mpr ⟨hlookup, hv⟩, substitute.eq_1]
    show Except.ok (Double.literal v ++ []) = .ok (Double.literal v)
    rw [List.append_nil]
  rw [evaluateWith, textValueWith, String.toList_ofList, hsubstitute]
  rfl

/-- What is printed for a finite value has that value, down to the sign of a zero, as an
expression, as an operand's literal, as the value of a binding on the command line, and where a
variable stands for it. -/
theorem printed_value_returns {v : Float} (hv : v.isFinite = true) :
    ({} : Calculator).evaluate (String.ofList (Double.write v)) = .ok v ∧
    ({} : Calculator).evaluate (String.ofList (Double.literal v)) = .ok v ∧
    ∀ name : List Char, name ≠ [] → (∀ c ∈ name, isNameChar c = true) →
      binding (String.ofList (name ++ '=' :: Double.write v)) = .ok (String.ofList name, v) ∧
      ∀ (β : Type) [Variables β] (bindings : β),
        Variables.lookup bindings (String.ofList name) = some v →
        ({} : Calculator).evaluateWith (some (String.ofList ('$' :: name))) bindings = .ok v := by
  have hp := OperatorTable.parenless_arithmetic
  have hm := OperatorTable.loneMinus_arithmetic
  have hwrite : ({} : Calculator).textValue (Double.write v) = .ok v :=
    (Layout.amounts_write hm hv 0).textValue rfl hp
  have hliteral : ({} : Calculator).textValue (Double.literal v) = .ok v :=
    (Layout.amounts_literal hm hv (by decide)).textValue rfl hp
  refine ⟨?_, ?_, fun name hne hname => ⟨binding_write hne hname hv, ?_⟩⟩
  · refine evaluate_eq_ok_iff.mpr ?_
    rw [String.toList_ofList]
    exact ⟨substitute_of_not_mem _ (Double.dollar_not_mem_write hv), hwrite⟩
  · refine evaluate_eq_ok_iff.mpr ?_
    rw [String.toList_ofList]
    exact ⟨substitute_of_not_mem _ (Double.dollar_not_mem_literal hv), hliteral⟩
  · intro β _ bindings hlookup
    rw [evaluateWith_reference hne hname hlookup hv, hliteral]

/-- Of a zero with a sign, the sign is what is left of the text. -/
theorem printed_value_returns_signed_zero : (-0.0 : Float).isFinite = true ∧
    Double.write (-0.0) = "-0".toList ∧ Double.literal (-0.0) = "(-0)".toList ∧
    ({} : Calculator).evaluate "-0" = .ok (-0.0) ∧
    ({} : Calculator).evaluate "(-0)" = .ok (-0.0) ∧
    binding "zero=-0" = .ok ("zero", -0.0) ∧
    ({} : Calculator).evaluateWith (some "$zero") [("zero", (-0.0 : Float))] = .ok (-0.0) ∧
    (-0.0 : Float).toBits ≠ (0.0 : Float).toBits := by
  have hv : (-0.0 : Float).isFinite = true := by decide +kernel
  have hw : Double.write (-0.0) = "-0".toList := by decide +kernel
  have hl : Double.literal (-0.0) = "(-0)".toList := by decide +kernel
  obtain ⟨hwrite, hliteral, hname⟩ := printed_value_returns hv
  obtain ⟨hbinding, hreference⟩ := hname ['z', 'e', 'r', 'o'] (by decide)
    (List.all_eq_true.mp (by decide))
  have hlookup : Variables.lookup [("zero", (-0.0 : Float))] (String.ofList ['z', 'e', 'r', 'o']) =
      some (-0.0) := by decide +kernel
  have hpair : String.ofList (['z', 'e', 'r', 'o'] ++ '=' :: "-0".toList) = "zero=-0" := by decide
  have hzero : String.ofList ['z', 'e', 'r', 'o'] = "zero" := by decide
  have hdollar : String.ofList ['$', 'z', 'e', 'r', 'o'] = "$zero" := by decide
  have hreference := hreference _ _ hlookup
  rw [hw, String.ofList_toList] at hwrite
  rw [hl, String.ofList_toList] at hliteral
  rw [hw, hpair, hzero] at hbinding
  rw [hdollar] at hreference
  refine ⟨hv, hw, hl, hwrite, hliteral, hbinding, hreference, ?_⟩
  decide +kernel

end Calculator

end Abacus
