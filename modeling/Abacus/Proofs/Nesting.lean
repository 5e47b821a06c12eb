import Abacus.Proofs.Depth
import Abacus.Proofs.Failure
import Abacus.Proofs.Substitution
import Mathlib.Data.List.MinMax
import Mathlib.Order.Nat

/-!
# Two accounts of nesting

The limit is looked at twice. Reading counts the parentheses that are open around a range, and
evaluation counts the groups that are left around a token, which may be fewer. What reading has let
pass is never refused by evaluation, and reading refuses nothing but a text in which more groups
than the limit are open at once.
-/

namespace Abacus
open Text

/-! ## Texts -/

/-- How many groups of a text are open at once, at most. -/
def nesting (text : List Char) : Nat :=
  (text.inits.map fun front => front.count '(' - front.count ')').foldr max 0

theorem nesting_le_iff {text : List Char} {limit : Nat} :
    nesting text ≤ limit ↔ NestsWithin limit text := by
  constructor
  · intro h front hf
    have hle : front.count '(' - front.count ')' ≤ nesting text :=
      List.le_max_of_le (List.mem_map.mpr ⟨front, (List.mem_inits ..).mpr hf, rfl⟩) (Nat.le_refl _)
    omega
  · intro h
    refine List.max_le_of_forall_le _ _ fun n hn => ?_
    obtain ⟨front, hf, rfl⟩ := List.mem_map.mp hn
    have := h front ((List.mem_inits ..).mp hf)
    omega

namespace NestsWithin
variable {n : Nat} {text more : List Char}

theorem mono {m : Nat} (h : NestsWithin m text) (hm : m ≤ n) : NestsWithin n text := by
  intro front hf
  have := h front hf
  omega

theorem of_not_mem (h : '(' ∉ text) : NestsWithin n text := by
  intro front hf
  have : front.count '(' = 0 := List.count_eq_zero.mpr fun hmem => h (hf.subset hmem)
  omega

/-- Behind a text that closes as many groups as it opens, another one begins anew. -/
theorem append (h : NestsWithin n text) (hcount : text.count ')' = text.count '(')
    (hmore : NestsWithin n more) : NestsWithin n (text ++ more) := by
  intro front hf
  rcases List.prefix_or_prefix_of_prefix hf (List.prefix_append text more) with hf' | ⟨rest, rfl⟩
  · exact h front hf'
  · have := hmore rest ((List.prefix_append_right_inj text).mp hf)
    rw [List.count_append, List.count_append]
    omega

theorem group (h : NestsWithin n text) : NestsWithin (n + 1) ('(' :: (text ++ [')'])) := by
  intro front hf
  cases front with
  | nil => simp
  | cons c front =>
    obtain ⟨rfl, hfront⟩ := List.cons_prefix_cons.mp hf
    rcases List.prefix_concat_iff.mp hfront with rfl | hfront
    · have := h text (List.prefix_refl text)
      simp
      omega
    · have := h front hfront
      simp
      omega

end NestsWithin

/-- A layout has no more groups open at once than there are one in another. -/
theorem Layout.Yields.nestsWithin {k : Calculator} (hp : k.operators.Parenless) {depth : Nat}
    {l : Layout} {ts : List Token} (h : l.Yields k depth ts) : NestsWithin l.height l.text := by
  have plain : ∀ {piece text : List Char} {n : Nat}, '(' ∉ piece → ')' ∉ piece →
      NestsWithin n text → NestsWithin n (piece ++ text) := by
    intro piece text n ho hc htext
    refine (NestsWithin.of_not_mem ho).append ?_ htext
    rw [List.count_eq_zero.mpr ho, List.count_eq_zero.mpr hc]
  induction h with
  | blank hw => exact .of_not_mem (not_mem_run hw (by decide))
  | number hw _ hl _ _ _ ih =>
    exact plain (List.not_mem_append (not_mem_run hw (by decide)) (not_mem_run hl (by decide)))
      (List.not_mem_append (not_mem_run hw (by decide)) (not_mem_run hl (by decide))) ih
  | symbol hw _ _ hs _ ih =>
    obtain ⟨ho, hc⟩ := hp _ hs.1
    exact plain (List.not_mem_append (not_mem_run hw (by decide)) ho)
      (List.not_mem_append (not_mem_run hw (by decide)) hc) ih
  | @group _ w body rest _ _ _ hw _ hb _ _ ihb ih =>
    have hgroup := (ihb.group.mono (Nat.le_max_left _ rest.height)).append
      (hb.level hp).group.count_eq (ih.mono (Nat.le_max_right (body.height + 1) _))
    rw [text, List.append_assoc]
    exact plain (not_mem_run hw (by decide)) (not_mem_run hw (by decide)) hgroup

/-! ## Tokens -/

namespace Calculator
open Token

variable {k : Calculator} {c : Cursor} {ts : List Token} {limit : Nat}

/-- What has been read leaves room for its groups. -/
theorem height_le_of_tokens (hk : k.rules = []) (h : k.tokens c = .ok ts) :
    c.depth + heights ts ≤ k.maxDepth := by
  obtain ⟨hd, h⟩ := tokens_eq_ok_iff.mp h
  obtain ⟨l, -, hy⟩ := Layout.exists_yields hk h
  have := hy.heights_le
  have := hy.height_le hd
  omega

theorem operator_ne_tooDeep (t : Token) : k.operator t ≠ .error (.tooDeep limit) := by
  cases t with
  | operand | group => simp [operator]
  | operator symbol => cases hs : k.operators.get? symbol <;> simp [operator, hs]

/-- Where there is room for its groups, a token is not refused for them. -/
theorem value_ne_tooDeep (hr : ∀ limit, ¬k.Refuses (.tooDeep limit)) {t : Token} {depth : Nat}
    (hroom : depth + t.height ≤ k.maxDepth + 1) : k.value depth t ≠ .error (.tooDeep limit) := by
  induction hn : t.height using Nat.strongRecOn generalizing t depth with
  | ind n ih =>
  subst hn
  intro h
  cases t with
  | operand x =>
    rw [value] at h
    cases h
  | operator symbol =>
    rw [value] at h
    cases h
  | group ts =>
    rw [height] at hroom
    cases fault_of_value h with
    | deep hd => omega
    | sign _ he => exact operator_ne_tooDeep _ he
    | operand ht he =>
      have hle := height_le_heights ht
      exact ih _ (by rw [height]; omega) (by omega) rfl he
    | refused he => exact hr _ he

theorem normalize_ne_tooDeep (hr : ∀ limit, ¬k.Refuses (.tooDeep limit)) {depth : Nat}
    (hroom : depth + heights ts ≤ k.maxDepth) :
    k.normalize depth ts ≠ .error (.eval (.tooDeep limit)) := by
  intro h
  rcases error_of_normalize h with ⟨symbol, he⟩ | ⟨first, more, cause, rfl, hx, he⟩
  · cases he
  · cases he
    refine value_ne_tooDeep hr ?_ hx
    have hmem : first ∈ Token.operator "-" :: first :: more := by simp
    have := height_le_heights hmem
    omega

/-! ## Reading -/

theorem Fails.ne_tooDeep (hk : k.rules = []) (hr : ∀ limit, ¬k.Refuses (.tooDeep limit))
    {cause : Failure} (h : k.Fails c cause) : cause ≠ .eval (.tooDeep limit) := by
  induction h with
  | step | deep | empty => simp
  | inside _ _ _ ih | later _ _ ih => exact ih
  | normal _ hts hnormal =>
    rintro rfl
    exact normalize_ne_tooDeep hr (height_le_of_tokens hk hts) hnormal

/-- A round of the loop closes as many groups as it opens. -/
theorem Round.exists_piece (hk : k.rules = []) (hp : k.operators.Parenless) {d : Cursor}
    {p : Piece} (h : k.Round c p d) :
    ∃ piece, c.rest = piece ++ d.rest ∧ piece.count ')' = piece.count '(' := by
  have hpasses := step_passes hk c
  cases h with
  | token hs =>
    rw [hs] at hpasses
    cases hpasses with
    | number hw hl hc _ => exact ⟨_, hc, (hw.level.append (level_of_numeric hl)).count_eq⟩
    | symbol hw hsymbol hc _ =>
      obtain ⟨ho, hp⟩ := hp _ hsymbol
      exact ⟨_, hc, (hw.level.append (Level.of_parenless ho hp)).count_eq⟩
  | @group _ inside _ _ hs _ =>
    rw [hs] at hpasses
    cases hpasses with
    | group hw hsplit hc _ _ =>
      refine ⟨_, hc, ?_⟩
      have hcount := hw.level.count_eq
      have htotal := (closes_of_splitClose hsplit).total
      simp
      omega

/-- A range is refused for its groups only if more of them are open at once than the limit. -/
theorem Fails.exists_front (hk : k.rules = []) (hp : k.operators.Parenless) {cause : Failure}
    (h : k.Fails c cause) (hcause : cause = .read (.tooDeep limit)) : ∃ front, front <+: c.rest ∧
      front.count ')' + k.maxDepth < front.count '(' + c.depth := by
  -- what stands in front of the contents of a group, and the depth that it leads to
  have opened : ∀ {c inside after : Cursor} {opening : Nat} {front : List Char},
      k.step c = .group opening inside after → front <+: inside.rest →
      ∃ w, Blank w ∧ inside.depth = c.depth + 1 ∧ w ++ '(' :: front <+: c.rest := by
    intro c inside after opening front hs hfront
    have hpasses := step_passes hk c
    rw [hs] at hpasses
    cases hpasses with
    | @group w _ _ _ hw hsplit hc hd _ =>
      refine ⟨w, hw, hd, ?_⟩
      rw [hc, List.append_assoc, List.prefix_append_right_inj, List.cons_append,
        List.prefix_cons_inj, List.append_assoc]
      exact hfront.trans (List.prefix_append ..)
  induction h with
  | @step c cause hs =>
    have hpasses := step_passes hk c
    cases hcause
    rw [hs] at hpasses
    cases hpasses
  | empty => cases hcause
  | normal _ _ hnormal =>
    rcases error_of_normalize hnormal with ⟨symbol, he⟩ | ⟨_, _, _, _, _, he⟩
    · rw [hcause] at he
      cases he
    · rw [hcause] at he
      cases he
  | deep hs hdeep =>
    obtain ⟨w, hw, hd, hfront⟩ := opened hs List.nil_prefix
    refine ⟨_, hfront, ?_⟩
    have := hw.level.count_eq
    simp
    omega
  | inside hs _ _ ih =>
    obtain ⟨front, hf, hlt⟩ := ih hcause
    obtain ⟨w, hw, hd, hfront⟩ := opened hs hf
    refine ⟨_, hfront, ?_⟩
    have := hw.level.count_eq
    simp
    omega
  | later hround _ ih =>
    obtain ⟨front, hf, hlt⟩ := ih hcause
    obtain ⟨piece, hpiece, hcount⟩ := hround.exists_piece hk hp
    have hdepth := hround.spec.1.depth
    refine ⟨piece ++ front, ?_, ?_⟩
    · rwa [hpiece, List.prefix_append_right_inj]
    · simp only [List.count_append]
      omega

/-! ## Expressions -/

theorem textValue_ne_tooDeep (hk : k.rules = []) (hr : ∀ limit, ¬k.Refuses (.tooDeep limit))
    (text : List Char) : k.textValue text ≠ .error (.eval (.tooDeep limit)) := by
  intro h
  rcases error_of_textValue h with hfails | ⟨ts, hts, hnormal | ⟨t, e, hnormal, he, hcause⟩⟩
  · exact hfails.ne_tooDeep hk hr rfl
  · exact normalize_ne_tooDeep hr (height_le_of_tokens hk hts) hnormal
  · cases hcause
    have hts := height_le_of_tokens hk hts
    have ht := height_normalize hnormal
    exact value_ne_tooDeep hr (by omega) he

theorem nestsWithin_of_textValue (hk : k.rules = []) (hp : k.operators.Parenless)
    {text : List Char} {v : Float} (h : k.textValue text = .ok v) :
    NestsWithin k.maxDepth text := by
  obtain ⟨t?, ht, -⟩ := exists_of_bind_eq_ok h
  obtain ⟨ts, hts, -⟩ := exists_of_bind_eq_ok ht
  obtain ⟨l, hl, hy⟩ := Layout.exists_yields hk (tokens_eq_ok_iff.mp hts).2
  have hheight : 0 + l.height ≤ k.maxDepth := hy.height_le (Nat.zero_le _)
  have hl : l.text = text := hl
  exact hl ▸ (hy.nestsWithin hp).mono (by omega)

theorem textValue_ne_tooDeep_of_nestsWithin (hk : k.rules = []) (hp : k.operators.Parenless)
    {text : List Char} (h : NestsWithin k.maxDepth text) :
    k.textValue text ≠ .error (.read (.tooDeep limit)) := by
  intro herror
  rcases error_of_textValue herror with hfails | ⟨ts, -, hnormal | ⟨_, _, -, -, hcause⟩⟩
  · obtain ⟨front, hfront, hlt⟩ := hfails.exists_front hk hp rfl
    have hle := h front hfront
    have hdepth : (Cursor.whole text 0).depth = 0 := rfl
    omega
  · rcases error_of_normalize hnormal with ⟨symbol, he⟩ | ⟨_, _, _, _, _, he⟩ <;> cases he
  · cases hcause

theorem textValue_nil (k : Calculator) : k.textValue [] = .ok 0.0 := by
  have hblank : Blank [] := by simp [Blank]
  have hts : k.tokens (.whole [] 0) = .ok [] :=
    tokens_eq_ok_iff.mpr ⟨Nat.zero_le _, tokensFrom_blank hblank rfl⟩
  rw [textValue, token?, hts]
  rfl

section expressions
variable {β : Type} [Variables β] {expression : Option String} {bindings : β}

theorem evaluateWith_eq_textValue {text : List Char}
    (h : substitute (Variables.lookup bindings) (expression.getD "").toList = .ok text) :
    k.evaluateWith expression bindings = k.textValue text := by
  cases expression with
  | none =>
    have hnil : substitute (Variables.lookup bindings) [] = .ok text := h
    rw [substitute] at hnil
    cases hnil
    exact k.textValue_nil.symm
  | some source =>
    have hsource : substitute (Variables.lookup bindings) source.toList = .ok text := h
    rw [evaluateWith, textValueWith, hsource]
    rfl

theorem error_of_evaluateWith {e : ReadError} {cause : Failure}
    (hs : substitute (Variables.lookup bindings) (expression.getD "").toList = .error e)
    (h : k.evaluateWith expression bindings = .error cause) : cause = .read e := by
  cases expression with
  | none => cases h
  | some source =>
    have hs : substitute (Variables.lookup bindings) source.toList = .error e := hs
    rw [evaluateWith, textValueWith, hs] at h
    cases h
    rfl

/-- The limit is reported for the parentheses of a text and for nothing else. Evaluation never
reports it, not even where a leading minus has a group evaluated while the text is read; a text
that has a value is nested within it; and a text that is nested within it is not refused for it. -/
theorem nesting_accounts_agree (k : Calculator) (hk : k.rules = []) (hp : k.operators.Parenless)
    (hr : ∀ limit, ¬k.Refuses (.tooDeep limit)) (expression : Option String) (bindings : β) :
    (∀ limit, k.evaluateWith expression bindings ≠ .error (.eval (.tooDeep limit))) ∧
    ∀ text, substitute (Variables.lookup bindings) (expression.getD "").toList = .ok text →
      ((∃ v, k.evaluateWith expression bindings = .ok v) → nesting text ≤ k.maxDepth) ∧
      (nesting text ≤ k.maxDepth →
        ∀ limit, k.evaluateWith expression bindings ≠ .error (.read (.tooDeep limit))) := by
  constructor
  · intro limit h
    cases expression with
    | none => cases h
    | some source =>
      rcases error_of_bind_eq_error h with hs | ⟨text, -, h⟩
      · obtain ⟨e, -, he⟩ := exists_of_mapError_eq_error hs
        cases he
      · exact textValue_ne_tooDeep hk hr text h
  · intro text hs
    rw [evaluateWith_eq_textValue hs, nesting_le_iff]
    constructor
    · rintro ⟨v, hv⟩
      exact nestsWithin_of_textValue hk hp hv
    · intro h limit
      exact textValue_ne_tooDeep_of_nestsWithin hk hp h

end expressions

/-- At the limit, with a group behind a minus. -/
theorem nesting_accounts_agree_negated :
    ({ maxDepth := 3 } : Calculator).rules = [] ∧
    ({ maxDepth := 3 } : Calculator).operators.Parenless ∧
    (∀ limit, ¬({ maxDepth := 3 } : Calculator).Refuses (.tooDeep limit)) ∧
    ({ maxDepth := 3 } : Calculator).evaluateWith (some "(-(1+(2*3))) * $x") [("x", (-2 : Float))] =
      .ok 14 ∧
    nesting "(-(1+(2*3))) * (-2)".toList ≤ 3 ∧
    ∀ limit, ({ maxDepth := 3 } : Calculator).evaluateWith (some "(-(1+(2*3))) * $x")
        [("x", (-2 : Float))] ≠ .error (.eval (.tooDeep limit)) ∧
      ({ maxDepth := 3 } : Calculator).evaluateWith (some "(-(1+(2*3))) * $x")
        [("x", (-2 : Float))] ≠ .error (.read (.tooDeep limit)) := by
  have hp : ({ maxDepth := 3 } : Calculator).operators.Parenless :=
    OperatorTable.parenless_arithmetic
  have hr : ∀ limit, ¬({ maxDepth := 3 } : Calculator).Refuses (.tooDeep limit) := by
    intro limit h
    cases eq_divisionByZero_of_refuses rfl h
  have hv : ({ maxDepth := 3 } : Calculator).evaluateWith (some "(-(1+(2*3))) * $x")
      [("x", (-2 : Float))] = .ok 14 := by decide +kernel
  have hs : substitute (Variables.lookup [("x", (-2 : Float))]) "(-(1+(2*3))) * $x".toList =
      .ok "(-(1+(2*3))) * (-2)".toList := by decide +kernel
  obtain ⟨heval, hread⟩ :=
    nesting_accounts_agree _ rfl hp hr (some "(-(1+(2*3))) * $x") [("x", (-2 : Float))]
  have hnest := (hread _ hs).1 ⟨14, hv⟩
  exact ⟨rfl, hp, hr, hv, hnest, fun limit => ⟨heval limit, (hread _ hs).2 hnest limit⟩⟩

end Calculator

end Abacus
