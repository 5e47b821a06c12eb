import Abacus.Proofs.Acceptance
import Abacus.Proofs.Occurrence

/-!
# Shape of the tree

The groups of the tree that a text is read into have two tokens at least, and begin with an
operand, unless somewhere a plus stands in front of an operator. The plus is dropped without a look
at what is behind it, so that the operator comes to lead, or to stand for the whole text.
-/

namespace Abacus

variable {P : List Token → Prop} {t u : Token} {ts us : List Token}

namespace Token

/-- All groups in a token have the property. -/
def Groups (P : List Token → Prop) (t : Token) : Prop := ∀ ts, Occurs (.group ts) t → P ts

theorem groups_operand (x : Float) : (operand x).Groups P := by
  rintro ts ⟨⟩

theorem groups_operator (symbol : String) : (operator symbol).Groups P := by
  rintro ts ⟨⟩

theorem groups_group_iff : (group ts).Groups P ↔ P ts ∧ ∀ t ∈ ts, t.Groups P := by
  constructor
  · intro h
    exact ⟨h ts .here, fun t ht us hus => h us (.inside ht hus)⟩
  · rintro ⟨hts, h⟩ us hus
    cases hus with
    | here => exact hts
    | inside ht hus => exact h _ ht us hus

/-- The sequence begins with an operator. -/
def Led (ts : List Token) : Prop := ∃ symbol, ts.head? = some (.operator symbol)

/-- The sequence begins with a plus and another operator. -/
def Plussed (ts : List Token) : Prop :=
  ∃ symbol more, ts = .operator "+" :: .operator symbol :: more

end Token

namespace Calculator

open Token

variable {k : Calculator} {depth : Nat}

/-! ## Normal form -/

/-- Gathering makes a group of several tokens, and no other. -/
theorem groups_gather_iff (h : gather us = some t) :
    t.Groups P ↔ (∀ u ∈ us, u.Groups P) ∧ (2 ≤ us.length → P us) := by
  match us with
  | [] => cases h
  | [u] =>
    cases h
    simp
  | u :: u' :: more =>
    cases h
    rw [groups_group_iff, and_comm]
    simp

/-- In a token that has a value no group has an operator in front. -/
theorem Worth.groups {t : Token} (h : k.Worth t) : t.Groups fun ts => ¬Led ts := by
  match t, h with
  | .operand x, _ => exact groups_operand x
  | .operator symbol, _ => exact groups_operator symbol
  | .group ts, h =>
    have ha := alternates_of_worth h
    have hmem : ∀ u ∈ ts, k.Worth u ∨ ∃ symbol, u = .operator symbol := by
      clear h
      induction ha with
      | last ht => simpa using .inl ht
      | link ht _ ih => simpa using ⟨.inl ht, ih⟩
    refine groups_group_iff.mpr ⟨?_, fun u hu => ?_⟩
    · obtain ⟨first, more, rfl, hfirst⟩ := ha.exists_cons
      rintro ⟨symbol, hhead⟩
      cases hhead
      cases hfirst.operator?
    · rcases hmem u hu with hworth | ⟨symbol, rfl⟩
      · have := List.sizeOf_lt_of_mem hu
        exact hworth.groups
      · exact groups_operator symbol
termination_by sizeOf t

/-- The normal form of a sequence begins with an operator only if this stood behind a plus. -/
theorem groups_normalize_iff (h : k.normalize depth ts = .ok (some t)) :
    (t.Groups fun us => ¬Led us) ↔
      (∀ u ∈ ts, u.Groups fun us => ¬Led us) ∧ ¬(2 < ts.length ∧ Plussed ts) := by
  obtain ⟨us, hf, hg⟩ := normalize_eq_ok_iff.mp h
  rw [groups_gather_iff hg]
  cases foldSign_eq_ok_iff.mp hf with
  | unsigned hne =>
    have hled : ¬Led ts := by
      rintro ⟨symbol, hhead⟩
      obtain ⟨more, rfl⟩ := List.head?_eq_some_iff.mp hhead
      exact hne symbol more rfl
    have hplussed : ¬Plussed ts := by
      rintro ⟨symbol, more, rfl⟩
      exact hne "+" _ rfl
    simp [hled, hplussed]
  | plus first more =>
    have hled : Led (first :: more) ↔ Plussed (.operator "+" :: first :: more) := by
      simp [Led, Plussed]
    have hlength : 2 ≤ (first :: more).length ↔ 2 < (Token.operator "+" :: first :: more).length :=
      Nat.succ_lt_succ_iff.symm
    have hall : (∀ u ∈ Token.operator "+" :: first :: more, u.Groups fun us => ¬Led us) ↔
        ∀ u ∈ first :: more, u.Groups fun us => ¬Led us :=
      List.forall_mem_cons.trans (and_iff_right (groups_operator "+"))
    rw [hled, hlength, hall, not_and]
  | @minus first x more hx =>
    have hfirst := Worth.groups ⟨_, _, hx⟩
    have hled : ¬Led (.operand (-x) :: more) := by simp [Led]
    have hplussed : ¬Plussed (.operator "-" :: first :: more) := by simp [Plussed]
    simp [hled, hplussed, groups_operator, groups_operand, hfirst]

/-- A normal form is an operator only if this stood alone behind a plus. -/
theorem operator?_normalize_iff (h : k.normalize depth ts = .ok (some t)) :
    t.operator? = none ↔ ¬(ts.length = 2 ∧ Plussed ts) := by
  constructor
  · rintro ht ⟨hlength, symbol, more, rfl⟩
    obtain rfl : more = [] := by simpa using hlength
    cases h
    cases ht
  · intro hno
    cases t with
    | operand | group => rfl
    | operator symbol =>
      obtain rfl := eq_of_normalize_operator h
      exact absurd ⟨rfl, symbol, [], rfl⟩ hno

theorem plural_normalize (h : k.normalize depth ts = .ok (some t))
    (hts : ∀ u ∈ ts, u.Groups (2 ≤ ·.length)) : t.Groups (2 ≤ ·.length) := by
  obtain ⟨us, hf, hg⟩ := normalize_eq_ok_iff.mp h
  exact (groups_gather_iff hg).mpr
    ⟨(foldSign_eq_ok_iff.mp hf).forall_mem groups_operand hts, id⟩

/-! ## Reading -/

/-- The range is that of a group which is read from the cursor on, or of a group in one. -/
inductive Opens (k : Calculator) : Cursor → Cursor → Prop
  | here {c : Cursor} {opening : Nat} {inside after : Cursor} :
      k.step c = .group opening inside after → Opens k c inside
  | deeper {c d : Cursor} {opening : Nat} {inside after : Cursor} :
      k.step c = .group opening inside after → Opens k inside d → Opens k c d
  | later {c d after : Cursor} {p : Piece} : k.Round c p after → Opens k after d → Opens k c d

variable {c d after : Cursor}

theorem not_opens_of_finished (h : k.step c = .finished) : ¬k.Opens c d := by
  intro ho
  cases ho with
  | here hs | deeper hs _ =>
    rw [h] at hs
    cases hs
  | later hround _ =>
    cases hround with
    | token hs | group hs _ =>
      rw [h] at hs
      cases hs

theorem opens_token_iff {t : Token} (h : k.step c = .token t after) :
    k.Opens c d ↔ k.Opens after d := by
  constructor
  · intro ho
    cases ho with
    | here hs | deeper hs _ =>
      rw [h] at hs
      cases hs
    | later hround ho =>
      cases hround with
      | token hs =>
        rw [h] at hs
        cases hs
        exact ho
      | group hs _ =>
        rw [h] at hs
        cases hs
  · exact .later (.token h)

theorem opens_group_iff {opening : Nat} {inside : Cursor} {t : Token}
    (h : k.step c = .group opening inside after) (ht : k.normal? inside = .ok (some t)) :
    k.Opens c d ↔ (d = inside ∨ k.Opens inside d) ∨ k.Opens after d := by
  constructor
  · intro ho
    cases ho with
    | here hs =>
      rw [h] at hs
      cases hs
      exact .inl (.inl rfl)
    | deeper hs ho =>
      rw [h] at hs
      cases hs
      exact .inl (.inr ho)
    | later hround ho =>
      cases hround with
      | token hs =>
        rw [h] at hs
        cases hs
      | group hs _ =>
        rw [h] at hs
        cases hs
        exact .inr ho
  · rintro ((rfl | ho) | ho)
    · exact .here h
    · exact .deeper h ho
    · exact .later (.group h ht) ho

/-- Of the range, which has more tokens than a plus and an operator, the operator is left first. -/
def KeepsOperator (k : Calculator) (c : Cursor) : Prop :=
  ∃ ts, k.tokens c = .ok ts ∧ 2 < ts.length ∧ Plussed ts

theorem step_ungrouped (hk : k.rules = []) {t : Token} (h : k.step c = .token t after) :
    t.Groups P := by
  have hpasses := step_passes hk c
  rw [h] at hpasses
  cases hpasses with
  | number => exact groups_operand _
  | symbol => exact groups_operator _

theorem plural_tokensFrom (hk : k.rules = []) (h : k.tokensFrom c = .ok ts) :
    ∀ t ∈ ts, t.Groups (2 ≤ ·.length) :=
  forall_tokensFrom (fun _ _ _ _ hs => step_ungrouped hk hs) (fun _ _ _ => plural_normalize) rfl h

theorem led_tokensFrom_iff (hk : k.rules = []) (h : k.tokensFrom c = .ok ts) :
    (∀ t ∈ ts, t.Groups fun us => ¬Led us) ↔ ∀ d, k.Opens c d → ¬k.KeepsOperator d := by
  induction hn : c.rest.length using Nat.strongRecOn generalizing c ts with
  | ind n ih =>
  subst hn
  rcases k.exists_stops_or_round c with ⟨outcome, hstops⟩ | ⟨p, after, hround⟩
  · rw [hstops.tokensFrom] at h
    cases hstops with
    | finished hs =>
      cases h
      simp [not_opens_of_finished hs]
    | _ => cases h
  · obtain ⟨rest, hrest, rfl⟩ := hround.exists_tokensFrom h
    have hled := ih _ hround.shorter hrest rfl
    cases hround with
    | token hs => simp [step_ungrouped hk hs, hled, opens_token_iff hs]
    | @group opening inside after t hs hn =>
      -- what is opened is this group, what is opened in it, and what is opened behind it
      obtain ⟨inner, hinner, hnormal⟩ := exists_of_bind_eq_ok hn
      have hshort := k.step_shorter c
      rw [hs] at hshort
      have hled' := ih _ hshort.1 (tokens_eq_ok_iff.mp hinner).2 rfl
      have hkeeps : k.KeepsOperator inside ↔ 2 < inner.length ∧ Plussed inner := by
        simp [KeepsOperator, hinner]
      simp only [List.forall_mem_cons, groups_normalize_iff hnormal, hled, hled', ← hkeeps,
        opens_group_iff hs hn]
      constructor
      · rintro ⟨⟨hdeeper, hhere⟩, hlater⟩ d ((rfl | hd) | hd)
        · exact hhere
        · exact hdeeper d hd
        · exact hlater d hd
      · intro hall
        exact ⟨⟨fun d hd => hall d (.inl (.inr hd)), hall _ (.inl (.inl rfl))⟩,
          fun d hd => hall d (.inr hd)⟩

/-- The groups of the tokens of a range are those that are opened in it, where they were not
evaluated. -/
theorem groups_tokensFrom (hk : k.rules = []) (h : k.tokensFrom c = .ok ts) :
    (∀ t ∈ ts, t.Groups (2 ≤ ·.length)) ∧
      ((∀ t ∈ ts, t.Groups fun us => ¬Led us) ↔ ∀ d, k.Opens c d → ¬k.KeepsOperator d) :=
  ⟨plural_tokensFrom hk h, led_tokensFrom_iff hk h⟩

/-- In the tree of a text, groups have two tokens at least. The tree is no operator and all groups
begin with an operand exactly if neither the text nor a group in it begins with a plus in front of
another operator, a group of these two apart: this one stands for the operator. -/
theorem token?_shape_iff (k : Calculator) (hk : k.rules = []) {text : List Char} {root : Token}
    (h : k.token? text = .ok (some root)) :
    (∀ ts, Occurs (.group ts) root → 2 ≤ ts.length) ∧
    ((root.operator? = none ∧ ∀ ts, Occurs (.group ts) root → ¬Led ts) ↔
      (∀ ts, k.tokens (.whole text 0) = .ok ts → ¬Plussed ts) ∧
        ∀ c, k.Opens (.whole text 0) c → ¬k.KeepsOperator c) := by
  obtain ⟨ts, hts, hnormal⟩ := exists_of_bind_eq_ok h
  obtain ⟨hplural, hled⟩ := groups_tokensFrom hk (tokens_eq_ok_iff.mp hts).2
  refine ⟨plural_normalize hnormal hplural, ?_⟩
  have hlength : Plussed ts → ts.length = 2 ∨ 2 < ts.length := by
    rintro ⟨symbol, more, rfl⟩
    simp only [List.length_cons]
    omega
  have hall := groups_normalize_iff hnormal
  rw [hled] at hall
  rw [operator?_normalize_iff hnormal, ← Groups, hall, hts]
  simp only [Except.ok.injEq, forall_eq']
  tauto

theorem token?_shape_iff_nested : ({} : Calculator).rules = [] ∧
    ({} : Calculator).token? "2 * (+(3 - 1))".toList = .ok (some
      (.group [.operand 2, .operator "*", .group [.operand 3, .operator "-", .operand 1]])) ∧
    (∀ ts, Occurs (.group ts) (.group [.operand 2, .operator "*",
        .group [.operand 3, .operator "-", .operand 1]]) → 2 ≤ ts.length) ∧
    ∀ c, ({} : Calculator).Opens (.whole "2 * (+(3 - 1))".toList 0) c →
      ¬({} : Calculator).KeepsOperator c := by
  have htree : ({} : Calculator).token? "2 * (+(3 - 1))".toList = .ok (some
      (.group [.operand 2, .operator "*", .group [.operand 3, .operator "-", .operand 1]])) := by
    decide +kernel
  obtain ⟨hplural, hled⟩ := token?_shape_iff {} rfl htree
  have hgroups : (Token.group [.operand 2, .operator "*",
      .group [.operand 3, .operator "-", .operand 1]]).Groups fun ts => ¬Led ts := by
    simp [groups_group_iff, groups_operand, groups_operator, Led]
  exact ⟨rfl, htree, hplural, (hled.mp ⟨rfl, hgroups⟩).2⟩

/-- The product is left in front of a group, and for a whole text. -/
theorem token?_led : ({} : Calculator).rules = [] ∧
    ({} : Calculator).token? "+* 3".toList = .ok (some (.group [.operator "*", .operand 3])) ∧
    Occurs (.group [.operator "*", .operand 3]) (.group [.operator "*", .operand 3]) ∧
    Led [.operator "*", .operand 3] ∧
    ({} : Calculator).token? "+*".toList = .ok (some (.operator "*")) :=
  ⟨rfl, by decide +kernel, .here, ⟨"*", rfl⟩, by decide +kernel⟩

end Calculator

end Abacus
