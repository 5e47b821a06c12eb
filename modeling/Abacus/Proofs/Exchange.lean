import Abacus.Expression
import Abacus.Proofs.Depth
import Abacus.Proofs.Literal
import Abacus.Proofs.Sequence
import Abacus.Proofs.Substitution

/-!
# Exchange of groups

A group counts for its value alone: where two groups are worth the same, one can stand in place of
the other in any text. Tokens that are worth the same are followed through the sequences that they
stand in, and layouts through the groups around the place.
-/

namespace Abacus
open Text

/-! ## Tokens that are worth the same -/

namespace Calculator

variable {k : Calculator} {depth : Nat} {t u : Token} {ts us : List Token}

/-- Down to a depth, the tokens have the same values, and they are operators alike. -/
structure Alike (k : Calculator) (depth : Nat) (t u : Token) : Prop where
  operator? : t.operator? = u.operator?
  value : ∀ d ≤ depth, ∀ x, k.value d t = .ok x ↔ k.value d u = .ok x

theorem Alike.refl (t : Token) : k.Alike depth t t := ⟨rfl, fun _ _ _ => Iff.rfl⟩

theorem Alike.symm (h : k.Alike depth t u) : k.Alike depth u t :=
  ⟨h.operator?.symm, fun d hd x => (h.value d hd x).symm⟩

theorem Alike.mono {d : Nat} (h : k.Alike depth t u) (hd : d ≤ depth) : k.Alike d t u :=
  ⟨h.operator?, fun d' hd' => h.value d' (Nat.le_trans hd' hd)⟩

theorem alike_of_value {x : Float} (ht : ∀ d ≤ depth, k.value d t = .ok x)
    (hu : ∀ d ≤ depth, k.value d u = .ok x) : k.Alike depth t u := by
  refine ⟨?_, fun d hd y => by rw [ht d hd, hu d hd]⟩
  rw [operator?_of_value (ht 0 (Nat.zero_le _)), operator?_of_value (hu 0 (Nat.zero_le _))]

theorem eq_operator_of_alike {symbol : String} (h : k.Alike depth (.operator symbol) u) :
    u = .operator symbol := by
  have hu := h.operator?
  cases u with
  | operand | group => cases hu
  | operator symbol' =>
    cases hu
    rfl

/-- A pair of an operator and its operand, and what they stand for. -/
private abbrev Pairs (k : Calculator) (depth : Nat) (pair : String × Token)
    (step : Operator × Float) : Prop :=
  k.operators.get? pair.1 = some step.1 ∧ pair.2.operator? = none ∧
    k.value depth pair.2 = .ok step.2

/-- What stands in place of pairs is pairs that stand for the same. -/
private theorem exists_pairs {more : List (String × Token)} {steps : List (Operator × Float)}
    (hlinks : List.Forall₂ (k.Pairs depth) more steps) {rest : List Token}
    (hrest : List.Forall₂ (k.Alike depth) (more.flatMap fun pair => [.operator pair.1, pair.2]) rest) :
    ∃ more' : List (String × Token),
      rest = (more'.flatMap fun pair => [.operator pair.1, pair.2]) ∧
        List.Forall₂ (k.Pairs depth) more' steps := by
  induction hlinks generalizing rest with
  | nil =>
    cases hrest
    exact ⟨[], rfl, .nil⟩
  | @cons pair step more steps hp _ ih =>
    cases hrest with
    | cons ho hrest =>
      cases hrest with
      | @cons _ operand _ rest ht hrest =>
        obtain ⟨more', rfl, hmore⟩ := ih hrest
        rw [eq_operator_of_alike ho]
        refine ⟨(pair.1, operand) :: more', rfl, .cons ⟨hp.1, ?_, ?_⟩ hmore⟩
        · rw [← ht.operator?, hp.2.1]
        · exact (ht.value depth (Nat.le_refl _) _).mp hp.2.2

theorem value_of_alike {d : Nat} {x : Float} (h : List.Forall₂ (k.Alike (depth + 1)) ts us)
    (hd : d ≤ depth) (hx : k.value d (.group ts) = .ok x) : k.value d (.group us) = .ok x := by
  obtain ⟨hmax, first, more, y, steps, rfl, hfirst, hy, hlinks⟩ := resolved_of_value hx
  rw [value_alternation hmax ⟨hfirst, hy, hlinks⟩] at hx
  cases h with
  | @cons _ first' _ rest ht hrest =>
    obtain ⟨more', rfl, hmore⟩ := exists_pairs hlinks
      (hrest.imp fun _ _ h => h.mono (Nat.succ_le_succ hd))
    have hresolved : k.Resolved (d + 1) first' more' y steps :=
      ⟨by rw [← ht.operator?, hfirst], (ht.value _ (Nat.succ_le_succ hd) _).mp hy, hmore⟩
    exact (value_alternation hmax hresolved).trans hx

theorem alike_group (h : List.Forall₂ (k.Alike (depth + 1)) ts us) :
    k.Alike depth (.group ts) (.group us) := by
  refine ⟨rfl, fun d hd x => ⟨value_of_alike h hd, value_of_alike ?_ hd⟩⟩
  exact (h.imp fun _ _ h => h.symm).flip

theorem forall₂_alike_refl (ts : List Token) : List.Forall₂ (k.Alike depth) ts ts :=
  List.forall₂_same.mpr fun t _ => .refl t

theorem Folds.alike {rs : List Token} (h : k.Folds depth ts rs)
    (hts : List.Forall₂ (k.Alike (depth + 1)) ts us) :
    ∃ rs', k.Folds depth us rs' ∧ List.Forall₂ (k.Alike (depth + 1)) rs rs' := by
  cases h with
  | unsigned hne =>
    refine ⟨us, .unsigned ?_, hts⟩
    rintro symbol more rfl
    cases hts with
    | @cons t _ ts _ ht hmore => exact hne symbol ts (by rw [eq_operator_of_alike ht.symm])
  | plus first more =>
    cases hts with
    | cons ho hmore =>
      cases hmore with
      | cons hf hmore =>
        rw [eq_operator_of_alike ho]
        exact ⟨_, .plus _ _, .cons hf hmore⟩
  | minus more hx =>
    cases hts with
    | cons ho hmore =>
      cases hmore with
      | cons hf hmore =>
        rw [eq_operator_of_alike ho]
        exact ⟨_, .minus _ ((hf.value _ (Nat.le_refl _) _).mp hx), .cons (.refl _) hmore⟩

/-- Sequences of tokens that are alike are normalized to tokens that are alike. -/
theorem normalize_alike (hts : List.Forall₂ (k.Alike (depth + 1)) ts us)
    (h : k.normalize depth ts = .ok (some t)) :
    ∃ u, k.normalize depth us = .ok (some u) ∧ k.Alike depth t u := by
  obtain ⟨rs, hf, hg⟩ := normalize_eq_ok_iff.mp h
  obtain ⟨rs', hf', hrs⟩ := (foldSign_eq_ok_iff.mp hf).alike hts
  have hnormal : ∀ u, gather rs' = some u → k.normalize depth us = .ok (some u) :=
    fun u hu => normalize_eq_ok_iff.mpr ⟨rs', foldSign_eq_ok_iff.mpr hf', hu⟩
  cases hrs with
  | nil => cases hg
  | cons hfirst hmore =>
    cases hmore with
    | nil =>
      cases hg
      exact ⟨_, hnormal _ rfl, hfirst.mono (Nat.le_succ _)⟩
    | cons hnext hmore =>
      cases hg
      exact ⟨_, hnormal _ rfl, alike_group (.cons hfirst (.cons hnext hmore))⟩

end Calculator

/-! ## Texts with an opening parenthesis in them -/

section place
variable {front behind behind' : List Char}

theorem Text.Ends.exchange {accepts : Char → Bool} {c : Char}
    (h : Ends accepts (front ++ c :: behind)) : Ends accepts (front ++ c :: behind') := by
  cases front with
  | nil => exact h
  | cons d front => exact h

/-- What is behind an opening parenthesis does not count for the longest symbol before it. -/
theorem OperatorTable.IsLongest.exchange {t : OperatorTable} (hp : t.Parenless) {symbol : String}
    (h : t.IsLongest symbol (front ++ '(' :: behind)) :
    t.IsLongest symbol (front ++ '(' :: behind') := by
  refine ⟨h.1, ?_, fun other ho hother => h.2.2 other ho ?_⟩
  · exact (prefix_append_cons_iff (hp _ h.1).1).mpr ((prefix_append_cons_iff (hp _ h.1).1).mp h.2.1)
  · exact (prefix_append_cons_iff (hp _ ho).1).mpr ((prefix_append_cons_iff (hp _ ho).1).mp hother)

end place

/-! ## Layouts -/

namespace Layout

variable {k : Calculator} {depth : Nat} {v : Float}

theorem text_group (w : List Char) (body rest : Layout) :
    (group w body rest).text = w ++ '(' :: (body.text ++ ')' :: rest.text) := by
  simp [text]

/-- The text, as it stands at a depth, amounts to a token that is worth a number there and
everywhere above. -/
def Amounts (k : Calculator) (depth : Nat) (text : List Char) (v : Float) : Prop :=
  ∃ (l : Layout) (ts : List Token) (t : Token), l.text = text ∧ l.Yields k depth ts ∧
    k.normalize depth ts = .ok (some t) ∧ ∀ d ≤ depth, k.value d t = .ok v

theorem Amounts.level (hp : k.operators.Parenless) {text : List Char} (h : Amounts k depth text v) :
    Level text := by
  obtain ⟨l, ts, t, rfl, hy, -⟩ := h
  exact hy.level hp

/-- The depth of a place does not change with level text in front. -/
private theorem count_of_level {piece more : List Char} (hpiece : Level piece) {d : Nat}
    (h : more.count '(' + depth = more.count ')' + d) :
    (piece ++ more).count '(' + depth = (piece ++ more).count ')' + d := by
  have := hpiece.count_eq
  rw [List.count_append, List.count_append]
  omega

/-- One level text in parentheses takes the place of another, where both amount to the same at the
depth of the place. The depth is the number of parentheses that are open in front of it. -/
theorem Yields.exchange (hp : k.operators.Parenless) {inside inside' : List Char}
    (hlevel : Level inside) {l : Layout} {ts : List Token} (h : l.Yields k depth ts)
    {front behind : List Char} (hl : l.text = front ++ '(' :: (inside ++ ')' :: behind))
    (hsame : ∀ d, front.count '(' + depth = front.count ')' + d →
      Amounts k (d + 1) inside v ∧ Amounts k (d + 1) inside' v) :
    ∃ (l' : Layout) (ts' : List Token), l'.text = front ++ '(' :: (inside' ++ ')' :: behind) ∧
      l'.Yields k depth ts' ∧ List.Forall₂ (k.Alike (depth + 1)) ts ts' := by
  induction h generalizing front behind with
  | @blank depth w hw =>
    have hmem : '(' ∈ w := by
      rw [show w = _ from hl]
      simp
    exact absurd hmem (not_mem_run hw (by decide))
  | @number depth w literal rest x ts hw hne hl' ht hx _ ih =>
    have hmem : '(' ∉ w ++ literal :=
      List.not_mem_append (not_mem_run hw (by decide)) (not_mem_run hl' (by decide))
    obtain ⟨more, rfl, hrest⟩ := exists_of_append_eq hmem hl
    have hpiece : Level (w ++ literal) := hw.level.append (level_of_numeric hl')
    obtain ⟨rest', ts', htext, hy, halike⟩ :=
      ih hrest fun d hd => hsame d (count_of_level hpiece hd)
    rw [hrest] at ht
    refine ⟨.number w literal rest', _, by simp [text, htext], ?_, .cons (.refl _) halike⟩
    exact .number hw hne hl' (htext ▸ ht.exchange) hx hy
  | @symbol depth w s rest ts hw hb hn hs _ ih =>
    obtain ⟨ho, hc⟩ := hp _ hs.1
    have hmem : '(' ∉ w ++ s.toList := List.not_mem_append (not_mem_run hw (by decide)) ho
    obtain ⟨more, rfl, hrest⟩ := exists_of_append_eq hmem hl
    have hpiece : Level (w ++ s.toList) := hw.level.append (Level.of_parenless ho hc)
    obtain ⟨rest', ts', htext, hy, halike⟩ :=
      ih hrest fun d hd => hsame d (count_of_level hpiece hd)
    rw [hrest, ← List.append_assoc] at hs
    refine ⟨.symbol w s rest', _, by simp [text, htext], ?_, .cons (.refl _) halike⟩
    refine .symbol hw hb hn ?_ hy
    rw [htext, ← List.append_assoc]
    exact hs.exchange hp
  | @group depth w body rest inner t ts hw hlt hb hn hy ihb ih =>
    have hmem : '(' ∉ w := not_mem_run hw (by decide)
    have hbl := hb.level hp
    rw [text_group] at hl
    obtain ⟨more, rfl, hrest⟩ := exists_of_append_eq hmem hl
    cases more with
    | nil =>
      -- the place is this group
      have hcontents : body.text ++ ')' :: rest.text = inside ++ ')' :: behind :=
        (List.cons.inj hrest).2
      have hsplit := hbl.splitClose_group rest.text
      rw [hcontents, hlevel.splitClose_group] at hsplit
      obtain ⟨hbody, rfl⟩ := Prod.mk.inj (Option.some.inj hsplit)
      obtain ⟨⟨l₁, ts₁, t₁, hl₁, hy₁, hn₁, hv₁⟩, ⟨l₂, ts₂, t₂, hl₂, hy₂, hn₂, hv₂⟩⟩ :=
        hsame depth (count_of_level hw.level rfl)
      obtain ⟨rfl, rfl⟩ := hb.unique hp hy₁ (hbody.symm.trans hl₁.symm)
      rw [hn] at hn₁
      cases hn₁
      refine ⟨.group w l₂ rest, t₂ :: ts, by simp [text_group, hl₂], .group hw hlt hy₂ hn₂ hy, ?_⟩
      exact .cons (Calculator.alike_of_value hv₁ hv₂) (Calculator.forall₂_alike_refl ts)
    | cons c more =>
      obtain ⟨rfl, hmore⟩ := List.cons.inj hrest
      rcases hbl.exists_group hlevel hmore with ⟨tail, hbody, rfl⟩ | ⟨tail, rfl, htail⟩
      · -- the place is inside this group
        have hplace : ∀ d, more.count '(' + (depth + 1) = more.count ')' + d →
            Amounts k (d + 1) inside v ∧ Amounts k (d + 1) inside' v :=
          fun d hd => hsame d (count_of_level hw.level (by simp; omega))
        obtain ⟨body', inner', htext, hy', halike⟩ := ihb hbody hplace
        obtain ⟨t', hn', ht'⟩ := Calculator.normalize_alike halike hn
        refine ⟨.group w body' rest, t' :: ts, by simp [text_group, htext], .group hw hlt hy' hn' hy, ?_⟩
        exact .cons ht' (Calculator.forall₂_alike_refl ts)
      · -- the place is behind this group
        have hplace : ∀ d, tail.count '(' + depth = tail.count ')' + d →
            Amounts k (d + 1) inside v ∧ Amounts k (d + 1) inside' v := by
          intro d hd
          have := count_of_level (hw.level.append hbl.group) hd
          exact hsame d (by simpa using this)
        obtain ⟨rest', ts', htext, hy', halike⟩ := ih htail hplace
        refine ⟨.group w body rest', t :: ts', by simp [text_group, htext], ?_, .cons (.refl _) halike⟩
        exact .group hw hlt hb hn hy'

theorem amounts_write (hm : k.operators.LoneMinus) (hv : v.isFinite = true) (depth : Nat) :
    Amounts k depth (Double.write v) v := by
  obtain ⟨l, ts, hl, hy⟩ := exists_yields_write hm hv
  refine ⟨l, ts, .operand v, hl, (hy depth).1, (hy depth).2, fun d _ => ?_⟩
  rw [Calculator.value]

/-- A text that amounts to a token at the top amounts to the same at any depth that leaves room
for its groups. -/
theorem Yields.amounts {l : Layout} {ts : List Token} {t : Token} (h : l.Yields k 0 ts)
    (hn : k.normalize 0 ts = .ok (some t)) (hv : k.value 0 t = .ok v)
    (hdepth : depth + l.height ≤ k.maxDepth) : Amounts k depth l.text v := by
  have hts := h.heights_le
  have ht := Calculator.height_normalize hn
  refine ⟨l, ts, t, rfl, h.depth (Nat.zero_le _) hdepth, ?_, ?_⟩
  · rwa [k.normalize_depth ts 0 depth (by omega) (by omega)] at hn
  · intro d hd
    rwa [k.value_depth t 0 d (by omega) (by omega)] at hv

end Layout

/-! ## Values -/

namespace Calculator

variable {k : Calculator} {v w : Float}

theorem textValue_eq_ok_iff_closed (hk : k.rules = []) {text : List Char} :
    k.textValue text = .ok w ↔ ∃ (l : Layout) (ts : List Token), l.text = text ∧ l.Closed ∧
      l.Yields k 0 ts ∧ ((k.normalize 0 ts = .ok none ∧ w = 0.0) ∨
        ∃ t, k.normalize 0 ts = .ok (some t) ∧ k.value 0 t = .ok w) := by
  constructor
  · intro h
    obtain ⟨t?, ht, h⟩ := exists_of_bind_eq_ok h
    obtain ⟨l, ts, hl, hclosed, hy, hn⟩ := exists_closed_of_token? hk ht
    refine ⟨l, ts, hl, hclosed, hy, ?_⟩
    cases t? with
    | none =>
      cases h
      exact .inl ⟨hn, rfl⟩
    | some t => exact .inr ⟨t, hn, eq_ok_of_mapError h⟩
  · rintro ⟨l, ts, rfl, hclosed, hy, h⟩
    rw [textValue, token?_of_closed hk hclosed hy]
    rcases h with ⟨hn, rfl⟩ | ⟨t, hn, hv⟩
    · rw [hn]
      rfl
    · rw [hn]
      show (k.value 0 t).mapError Failure.eval = _
      rw [hv]
      rfl

theorem textValue_eq_ok_iff (hk : k.rules = []) (hp : k.operators.Parenless) {text : List Char} :
    k.textValue text = .ok w ↔ ∃ (l : Layout) (ts : List Token), l.text = text ∧ l.Yields k 0 ts ∧
      ((k.normalize 0 ts = .ok none ∧ w = 0.0) ∨
        ∃ t, k.normalize 0 ts = .ok (some t) ∧ k.value 0 t = .ok w) := by
  rw [textValue_eq_ok_iff_closed hk]
  constructor
  · rintro ⟨l, ts, hl, -, hy, h⟩
    exact ⟨l, ts, hl, hy, h⟩
  · rintro ⟨l, ts, hl, hy, h⟩
    exact ⟨l, ts, hl, hy.closed hp, hy, h⟩

/-- The value of a text is kept when what stands in a group is exchanged for what amounts to the
same at that place. -/
theorem textValue_exchange (hk : k.rules = []) (hp : k.operators.Parenless)
    {front inside inside' behind : List Char} (hlevel : Level inside)
    (hsame : ∀ d, front.count '(' = front.count ')' + d →
      Layout.Amounts k (d + 1) inside v ∧ Layout.Amounts k (d + 1) inside' v)
    (h : k.textValue (front ++ '(' :: (inside ++ ')' :: behind)) = .ok w) :
    k.textValue (front ++ '(' :: (inside' ++ ')' :: behind)) = .ok w := by
  obtain ⟨l, ts, hl, hy, hts⟩ := (textValue_eq_ok_iff hk hp).mp h
  obtain ⟨l', ts', hl', hy', halike⟩ := hy.exchange hp hlevel hl hsame
  refine (textValue_eq_ok_iff hk hp).mpr ⟨l', ts', hl', hy', ?_⟩
  rcases hts with ⟨hn, rfl⟩ | ⟨t, hn, hv⟩
  · obtain rfl := eq_nil_of_normalize hn
    cases halike
    exact .inl ⟨hn, rfl⟩
  · obtain ⟨t', hn', ht'⟩ := normalize_alike halike hn
    exact .inr ⟨t', hn', (ht'.value 0 (Nat.le_refl _) w).mp hv⟩

theorem evaluate_eq_ok_iff {text : String} : k.evaluate text = .ok w ↔
    ReferenceFree text.toList ∧ k.textValue text.toList = .ok w := by
  rw [evaluate, evaluateWith, textValueWith]
  constructor
  · intro h
    obtain ⟨text', ht, h⟩ := exists_of_bind_eq_ok h
    have ht := eq_ok_of_mapError ht
    obtain rfl := (substitute_eq_ok_iff.mp ht).eq_of_none
    exact ⟨ht, h⟩
  · rintro ⟨ht, h⟩
    have ht : substitute (Variables.lookup ([] : List (String × Float))) text.toList =
        .ok text.toList := ht
    rw [ht]
    exact h

private theorem toList_group (front inside behind : String) :
    (front ++ "(" ++ inside ++ ")" ++ behind).toList =
      front.toList ++ '(' :: (inside.toList ++ ')' :: behind.toList) := by
  simp

/-- A text without references stays so when what stands in a group is exchanged. -/
theorem referenceFree_group_iff {front inside behind : List Char} :
    ReferenceFree (front ++ '(' :: (inside ++ ')' :: behind)) ↔
      ReferenceFree front ∧ ReferenceFree inside ∧ ReferenceFree behind := by
  rw [referenceFree_append_iff (by decide) (by decide),
    referenceFree_append_iff (by decide) (by decide)]

/-- What stands in a group counts for its value alone. In any text, a group whose contents have a
finite value can be exchanged for that value, written out, as long as nothing in the text is
nested too deep. -/
theorem evaluate_group_iff_literal (k : Calculator) (hk : k.rules = [])
    (hp : k.operators.Parenless) (hm : k.operators.LoneMinus) {front inside behind : String}
    {v : Float} (hblank : ¬Blank inside.toList) (hinside : k.evaluate inside = .ok v)
    (hv : v.isFinite = true)
    (hnest : NestsWithin k.maxDepth (front ++ "(" ++ inside ++ ")" ++ behind).toList) (w : Float) :
    k.evaluate (front ++ "(" ++ inside ++ ")" ++ behind) = .ok w ↔
      k.evaluate (front ++ "(" ++ String.ofList (Double.write v) ++ ")" ++ behind) = .ok w := by
  obtain ⟨hfree, hvalue⟩ := evaluate_eq_ok_iff.mp hinside
  obtain ⟨l, ts, hl, hy, hts⟩ := (textValue_eq_ok_iff hk hp).mp hvalue
  obtain ⟨t, hn, ht⟩ : ∃ t, k.normalize 0 ts = .ok (some t) ∧ k.value 0 t = .ok v := by
    refine hts.resolve_left ?_
    rintro ⟨hn, -⟩
    obtain rfl := eq_nil_of_normalize hn
    cases hy with
    | blank hw =>
      rw [← hl] at hblank
      exact hblank hw
  have hlit : ReferenceFree (Double.write v) :=
    substitute_of_not_mem _ (Double.dollar_not_mem_write hv)
  rw [toList_group] at hnest
  have hsame : ∀ d, front.toList.count '(' = front.toList.count ')' + d →
      Layout.Amounts k (d + 1) inside.toList v ∧ Layout.Amounts k (d + 1) (Double.write v) v := by
    intro d hd
    obtain ⟨deepest, hdeepest, hcount⟩ := hy.exists_deepest hp
    rw [hl] at hdeepest
    have hprefix : front.toList ++ '(' :: deepest <+:
        front.toList ++ '(' :: (inside.toList ++ ')' :: behind.toList) :=
      (List.prefix_append_right_inj _).mpr
        (List.cons_prefix_cons.mpr ⟨rfl, hdeepest.trans (List.prefix_append ..)⟩)
    have hroom := hnest _ hprefix
    simp only [List.count_append, List.count_cons_self] at hroom
    rw [List.count_cons_of_ne (by decide)] at hroom
    rw [← hl]
    exact ⟨hy.amounts hn ht (by omega), Layout.amounts_write hm hv _⟩
  have hlevel : Level inside.toList := hl ▸ hy.level hp
  have hlevel' : Level (Double.write v) := (Layout.amounts_write hm hv 0).level hp
  rw [evaluate_eq_ok_iff, evaluate_eq_ok_iff, toList_group, toList_group, String.toList_ofList,
    referenceFree_group_iff, referenceFree_group_iff]
  constructor
  · rintro ⟨⟨hfront, -, hbehind⟩, h⟩
    exact ⟨⟨hfront, hlit, hbehind⟩, textValue_exchange hk hp hlevel hsame h⟩
  · rintro ⟨⟨hfront, -, hbehind⟩, h⟩
    exact ⟨⟨hfront, hfree, hbehind⟩,
      textValue_exchange hk hp hlevel' (fun d hd => (hsame d hd).symm) h⟩

theorem evaluate_group_iff_literal_negative : ({} : Calculator).rules = [] ∧
    ({} : Calculator).operators.Parenless ∧ ({} : Calculator).operators.LoneMinus ∧
    ¬Blank "3-5".toList ∧ ({} : Calculator).evaluate "3-5" = .ok (-2) ∧
    (-2 : Float).isFinite = true ∧
    NestsWithin ({} : Calculator).maxDepth ("2*(1-" ++ "(" ++ "3-5" ++ ")" ++ ")^2").toList ∧
    (({} : Calculator).evaluate ("2*(1-" ++ "(" ++ "3-5" ++ ")" ++ ")^2") = .ok 36 ↔
      ({} : Calculator).evaluate
        ("2*(1-" ++ "(" ++ String.ofList (Double.write (-2)) ++ ")" ++ ")^2") = .ok 36) := by
  have hp := OperatorTable.parenless_arithmetic
  have hm := OperatorTable.loneMinus_arithmetic
  have hblank : ¬Blank "3-5".toList := by decide
  have hinside : ({} : Calculator).evaluate "3-5" = .ok (-2) := by decide +kernel
  have hnest : NestsWithin ({} : Calculator).maxDepth
      ("2*(1-" ++ "(" ++ "3-5" ++ ")" ++ ")^2").toList := by decide +kernel
  exact ⟨rfl, hp, hm, hblank, hinside, rfl, hnest,
    evaluate_group_iff_literal {} rfl hp hm hblank hinside rfl hnest 36⟩

end Calculator

end Abacus
