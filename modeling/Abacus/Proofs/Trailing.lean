import Abacus.Proofs.Place
import Abacus.Proofs.Shape

/-!
# Operators without an operand

Where there are no rules, all operators that are read are registered, and no group that is read is
empty. So evaluation misses an operand in one case only: a sequence ends with an operator. This
stands at the end of a range, in front of the parenthesis that closes a group or of nothing at all.
-/

namespace Abacus
open Text

/-- The symbol stands in the text with nothing but blanks between it and a closing parenthesis or
the end. -/
def Trails (text : List Char) (symbol : String) : Prop :=
  ∃ front w behind, text = front ++ symbol.toList ++ w ++ behind ∧ Blank w ∧
    ∀ c ∈ behind.head?, c = ')'

/-- An error of evaluation that a text can cause. An operand is missing only behind an operator
with the property. -/
def EvalError.Plain (P : String → Prop) : EvalError → Prop
  | .unknownOperator _ | .missingOperand none => False
  | .missingOperand (some symbol) => P symbol
  | _ => True

namespace Token

variable {P : String → Prop} {t : Token} {ts : List Token}

/-- If the sequence ends with an operator, this has the property. -/
def Trailing (P : String → Prop) (ts : List Token) : Prop :=
  ∀ symbol, ts.getLast? = some (.operator symbol) → P symbol

/-- The sequence has tokens, and ends with no operator but one with the property. -/
def Sound (P : String → Prop) (ts : List Token) : Prop := ts ≠ [] ∧ Trailing P ts

theorem trailing_nil : Trailing P [] := by
  rintro symbol ⟨⟩

theorem trailing_singleton_iff : Trailing P [t] ↔ ∀ symbol, t = .operator symbol → P symbol := by
  simp [Trailing]

/-- What is in front of a sequence that is not empty does not count. -/
theorem trailing_cons_iff (hts : ts ≠ []) : Trailing P (t :: ts) ↔ Trailing P ts := by
  rw [Trailing, List.getLast?_cons_of_ne_nil hts, Trailing]

end Token

namespace Calculator
open Token

variable {k : Calculator} {P : String → Prop} {depth : Nat} {c : Cursor} {ts us : List Token}
  {t : Token} {text : List Char}

/-! ## Evaluation -/

/-- A token whose operators are registered, and whose groups end well, is evaluated to no other
error than a text can cause. -/
theorem plain_of_value (hr : ∀ e, k.Refuses e → e.Plain P)
    (hover : t.Over fun symbol => k.operators.contains symbol = true)
    (hgroups : t.Groups (Sound P)) {e : EvalError} (h : k.value depth t = .error e) :
    e.Plain P := by
  induction hn : t.height using Nat.strongRecOn generalizing t depth with
  | ind n ih =>
  subst hn
  cases t with
  | operand x =>
    rw [value] at h
    cases h
  | operator symbol =>
    rw [value] at h
    cases h
    trivial
  | group ts =>
    obtain ⟨⟨hne, hlast⟩, hinside⟩ := groups_group_iff.mp hgroups
    have hover := over_group_iff.mp hover
    cases fault_of_value h with
    | deep => trivial
    | empty hnil => exact absurd hnil hne
    | last hl => exact hlast _ hl
    | @sign t _ ht he =>
      cases t with
      | operand | group =>
        cases he
        trivial
      | operator symbol =>
        have hcontains := over_operator_iff.mp (hover _ ht)
        obtain ⟨op, ho⟩ := Option.isSome_iff_exists.mp hcontains
        rw [operator, ho] at he
        cases he
    | @operand t _ ht he =>
      have hle := height_le_heights ht
      exact ih _ (by rw [height]; omega) (hover t ht) (hinside t ht) he rfl
    | refused he => exact hr _ he

/-! ## Normal form -/

theorem Folds.trailing (h : k.Folds depth ts us) (hts : Trailing P ts) : Trailing P us := by
  cases h with
  | unsigned => exact hts
  | plus first more => exact (trailing_cons_iff (List.cons_ne_nil _ _)).mp hts
  | @minus first x more _ =>
    cases more with
    | nil =>
      rintro symbol ⟨⟩
    | cons second more =>
      rw [trailing_cons_iff (List.cons_ne_nil _ _)] at hts ⊢
      exact (trailing_cons_iff (List.cons_ne_nil _ _)).mp hts

/-- A normal form ends as its sequence does. -/
theorem sound_normalize (h : k.normalize depth ts = .ok (some t))
    (hgroups : ∀ u ∈ ts, u.Groups (Sound P)) (hlast : Trailing P ts) :
    t.Groups (Sound P) ∧ Trailing P [t] := by
  obtain ⟨us, hf, hg⟩ := normalize_eq_ok_iff.mp h
  have hfolds := foldSign_eq_ok_iff.mp hf
  have hus := hfolds.trailing hlast
  have hmem := hfolds.forall_mem groups_operand hgroups
  refine ⟨(groups_gather_iff hg).mpr ⟨hmem, fun hlength => ⟨?_, hus⟩⟩, ?_⟩
  · exact List.ne_nil_of_length_pos (by omega)
  · match us with
    | [] => cases hg
    | [u] =>
      cases hg
      exact hus
    | _ :: _ :: _ =>
      cases hg
      rintro symbol ⟨⟩

/-! ## Reading -/

/-- The symbol is one of the calculator's, and trails in the text. -/
def Dangles (k : Calculator) (text : List Char) (symbol : String) : Prop :=
  k.operators.contains symbol = true ∧ Trails text symbol

/-- An operator with which a range ends trails in the text. -/
theorem dangles_of_step (hk : k.rules = []) (hc : c.Fenced) {symbol : String} {after : Cursor}
    (h : k.step c = .token (.operator symbol) after) (hafter : k.tokensFrom after = .ok []) :
    k.Dangles c.input symbol := by
  have hpasses := step_passes hk c
  rw [h] at hpasses
  cases hpasses with
  | @symbol w _ _ hw hsymbol hrest _ =>
    refine ⟨hsymbol, c.passed.reverse ++ w, after.rest, c.beyond, ?_,
      blank_of_tokensFrom hk hafter, hc⟩
    rw [Cursor.input, hrest]
    simp

/-- The groups that are read in a range end with no operator but one that trails in the text, and
so does the range. -/
theorem sound_tokensFrom (hk : k.rules = []) (hc : c.Fenced) (h : k.tokensFrom c = .ok ts) :
    (∀ t ∈ ts, t.Groups (Sound (k.Dangles c.input))) ∧ Trailing (k.Dangles c.input) ts := by
  induction hn : c.rest.length using Nat.strongRecOn generalizing c ts with
  | ind n ih =>
  subst hn
  rcases k.exists_stops_or_round c with ⟨outcome, hstops⟩ | ⟨p, after, hround⟩
  · rw [hstops.tokensFrom] at h
    cases hstops with
    | finished =>
      cases h
      exact ⟨by simp, trailing_nil⟩
    | _ => cases h
  · obtain ⟨rest, hrest, rfl⟩ := hround.exists_tokensFrom h
    obtain ⟨hgroups, hlast⟩ := ih _ hround.shorter (hround.fenced hc) hrest rfl
    rw [hround.spec.1.input] at hgroups hlast
    have hpiece : p.token.Groups (Sound (k.Dangles c.input)) ∧
        (rest = [] → Trailing (k.Dangles c.input) [p.token]) := by
      cases hround with
      | token hs =>
        refine ⟨step_ungrouped hk hs, fun hnil => trailing_singleton_iff.mpr ?_⟩
        rintro symbol rfl
        exact dangles_of_step hk hc hs (hnil ▸ hrest)
      | group hs hnorm =>
        obtain ⟨inner, hinner, hfold⟩ := exists_of_bind_eq_ok hnorm
        have hshort := k.step_shorter c
        rw [hs] at hshort
        have hin := ih _ hshort.1 (enclosed_of_group hs).fenced (tokens_eq_ok_iff.mp hinner).2 rfl
        rw [(input_of_group hs).1] at hin
        have hsound := sound_normalize hfold hin.1 hin.2
        exact ⟨hsound.1, fun _ => hsound.2⟩
    refine ⟨List.forall_mem_cons.mpr ⟨hpiece.1, hgroups⟩, ?_⟩
    by_cases hnil : rest = []
    · rw [hnil]
      exact hpiece.2 hnil
    · exact (trailing_cons_iff hnil).mpr hlast

theorem registered_tokensFrom (hk : k.rules = []) (h : k.tokensFrom c = .ok ts) :
    ∀ t ∈ ts, t.Over fun symbol => k.operators.contains symbol = true := by
  refine over_tokensFrom (fun d _ t after hs => ?_) rfl h
  have hpasses := step_passes hk d
  rw [hs] at hpasses
  cases hpasses with
  | number => exact over_operand _
  | symbol _ hsymbol => exact over_operator_iff.mpr hsymbol

/-! ## Errors -/

/-- An error that a text can cause where there are no rules. -/
def Causes (k : Calculator) (text : List Char) : Failure → Prop
  | .read e => ∀ index, e ≠ .stalledRule index
  | .eval e => e.Plain (k.Dangles text)

/-- No computation refuses its operands for an unknown operator or a missing operand. -/
def Forthright (k : Calculator) : Prop :=
  ∀ e, k.Refuses e → (∀ symbol, e ≠ .unknownOperator symbol) ∧ ∀ after, e ≠ .missingOperand after

theorem Forthright.plain (hr : k.Forthright) : ∀ e, k.Refuses e → e.Plain P := by
  intro e he
  obtain ⟨hu, hm⟩ := hr e he
  cases e with
  | unknownOperator symbol => exact absurd rfl (hu symbol)
  | missingOperand after => exact absurd rfl (hm after)
  | _ => trivial

theorem causes_of_normalize (hk : k.rules = []) (hr : k.Forthright) (hc : c.Fenced)
    (hts : k.tokens c = .ok ts) {cause : Failure} (h : k.normalize depth ts = .error cause) :
    k.Causes c.input cause := by
  have hts := (tokens_eq_ok_iff.mp hts).2
  rcases error_of_normalize h with ⟨symbol, rfl⟩ | ⟨first, more, e, rfl, he, rfl⟩
  · rintro index ⟨⟩
  · have hmem : first ∈ Token.operator "-" :: first :: more := by simp
    exact plain_of_value hr.plain (registered_tokensFrom hk hts first hmem)
      ((sound_tokensFrom hk hc hts).1 first hmem) he

theorem Fails.causes (hk : k.rules = []) (hr : k.Forthright) {cause : Failure}
    (h : k.Fails c cause) (hc : c.Fenced) : k.Causes c.input cause := by
  induction h with
  | @step c cause hs =>
    have hpasses := step_passes hk c
    rw [hs] at hpasses
    rintro index rfl
    cases hpasses
  | deep | empty =>
    rintro index ⟨⟩
  | inside hs _ _ ih =>
    rw [← (input_of_group hs).1]
    exact ih (enclosed_of_group hs).fenced
  | normal hs hts hnormal =>
    rw [← (input_of_group hs).1]
    exact causes_of_normalize hk hr (enclosed_of_group hs).fenced hts hnormal
  | later hround _ ih =>
    rw [← hround.spec.1.input]
    exact ih (hround.fenced hc)

theorem causes_of_textValue (hk : k.rules = []) (hr : k.Forthright) {cause : Failure}
    (h : k.textValue text = .error cause) : k.Causes text cause := by
  have hwhole := Cursor.fenced_whole text 0
  rw [← Cursor.input_whole text 0]
  rcases error_of_textValue h with hfails | ⟨ts, hts, hnormal | ⟨t, e, hnormal, he, rfl⟩⟩
  · exact hfails.causes hk hr hwhole
  · exact causes_of_normalize hk hr hwhole hts hnormal
  · have hts := (tokens_eq_ok_iff.mp hts).2
    have hsound := sound_tokensFrom hk hwhole hts
    exact plain_of_value hr.plain (over_normalize hnormal (registered_tokensFrom hk hts))
      (sound_normalize hnormal hsound.1 hsound.2).1 he

section expressions
variable {β : Type} [Variables β]

/-- Without rules no operator is ever unknown, no rule stalls, and no operand is missing but behind
an operator that trails in the text that is left when the variables have been replaced. -/
theorem evaluateWith_error_causes (k : Calculator) (hk : k.rules = []) (hr : k.Forthright)
    (expression : Option String) (bindings : β) {cause : Failure}
    (h : k.evaluateWith expression bindings = .error cause) :
    (∀ symbol, cause ≠ .eval (.unknownOperator symbol)) ∧
    cause ≠ .eval (.missingOperand none) ∧
    (∀ index, cause ≠ .read (.stalledRule index)) ∧
    ∀ symbol, cause = .eval (.missingOperand (some symbol)) →
      k.operators.contains symbol = true ∧
      ∃ text, substitute (Variables.lookup bindings) (expression.getD "").toList = .ok text ∧
        Trails text symbol := by
  cases hs : substitute (Variables.lookup bindings) (expression.getD "").toList with
  | ok text =>
    rw [evaluateWith_eq_textValue hs] at h
    have hcauses := causes_of_textValue hk hr h
    refine ⟨?_, ?_, ?_, ?_⟩
    · rintro symbol rfl
      exact hcauses
    · rintro rfl
      exact hcauses
    · rintro index rfl
      exact hcauses index rfl
    · rintro symbol rfl
      exact ⟨hcauses.1, text, rfl, hcauses.2⟩
  | error e =>
    obtain ⟨name, he⟩ := error_of_substitute hs
    obtain rfl := error_of_evaluateWith hs h
    rcases he with rfl | rfl <;> simp

end expressions

/-- A minus that is the last of its group but not of the text, in a group that is evaluated while
the text is read. -/
theorem evaluateWith_error_causes_negated : ({} : Calculator).rules = [] ∧
    ({} : Calculator).Forthright ∧
    ({} : Calculator).evaluateWith (some "-(2 * ($x - ) )") [("x", (-2 : Float))] =
      .error (.eval (.missingOperand (some "-"))) ∧
    Trails "-(2 * ((-2) - ) )".toList "-" := by
  have hr : ({} : Calculator).Forthright := by
    intro e he
    cases eq_divisionByZero_of_refuses rfl he
    simp
  have h : ({} : Calculator).evaluateWith (some "-(2 * ($x - ) )") [("x", (-2 : Float))] =
      .error (.eval (.missingOperand (some "-"))) := by decide +kernel
  have hs : substitute (Variables.lookup [("x", (-2 : Float))]) "-(2 * ($x - ) )".toList =
      .ok "-(2 * ((-2) - ) )".toList := by decide +kernel
  obtain ⟨-, -, -, hmissing⟩ := evaluateWith_error_causes _ rfl hr _ _ h
  obtain ⟨-, text, htext, htrails⟩ := hmissing "-" rfl
  cases hs.symm.trans htext
  exact ⟨rfl, hr, h, htrails⟩

end Calculator

end Abacus
