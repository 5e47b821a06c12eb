import Abacus.Proofs.Depth
import Abacus.Proofs.Literal
import Abacus.Proofs.Shape

/-!
# Displayed tokens

The text of a token is laid out as the token is built: a number or an operator is a lexeme, and a
group is a group, with a blank between the tokens in it. The sign of a number is a lexeme of its own,
which the normal form folds back into the number where it leads. So a token is read from its own
text again, unless a number with a sign stands behind another token.
-/

namespace Abacus
open Text

namespace Token

/-- A token that its text tells. Its numbers are finite and its operators those of arithmetic. Its
groups have two tokens at least, the first of which is no operator and is the only one that may be a
number with a sign. -/
structure Canonical (t : Token) : Prop where
  operators : t.Over fun symbol => OperatorTable.arithmetic.contains symbol = true
  finite : ∀ x, Occurs (.operand x) t → x.isFinite = true
  plural : t.Groups (2 ≤ ·.length)
  unled : t.Groups fun ts => ¬Led ts
  unsigned : t.Groups fun ts => ∀ x, .operand x ∈ ts.tail → Double.isNegative x = false

variable {t : Token} {ts : List Token}

theorem Canonical.of_mem (h : (group ts).Canonical) (ht : t ∈ ts) : t.Canonical where
  operators := over_group_iff.mp h.operators t ht
  finite x hx := h.finite x (.inside ht hx)
  plural := (groups_group_iff.mp h.plural).2 t ht
  unled := (groups_group_iff.mp h.unled).2 t ht
  unsigned := (groups_group_iff.mp h.unsigned).2 t ht

theorem canonical_operand {x : Float} (hx : x.isFinite = true) : (operand x).Canonical where
  operators := over_operand x
  finite := by
    rintro _ ⟨⟩
    exact hx
  plural := groups_operand x
  unled := groups_operand x
  unsigned := groups_operand x

theorem canonical_operator {symbol : String}
    (hs : OperatorTable.arithmetic.contains symbol = true) : (operator symbol).Canonical where
  operators := over_operator_iff.mpr hs
  finite := by rintro _ ⟨⟩
  plural := groups_operator symbol
  unled := groups_operator symbol
  unsigned := groups_operator symbol

theorem canonical_group_iff : (group ts).Canonical ↔ (∀ t ∈ ts, t.Canonical) ∧ 2 ≤ ts.length ∧
    ¬Led ts ∧ ∀ x, .operand x ∈ ts.tail → Double.isNegative x = false := by
  constructor
  · intro h
    exact ⟨fun t ht => h.of_mem ht, h.plural ts .here, h.unled ts .here, h.unsigned ts .here⟩
  · rintro ⟨h, hlen, hled, hsign⟩
    refine ⟨over_group_iff.mpr fun t ht => (h t ht).operators, ?_,
      groups_group_iff.mpr ⟨hlen, fun t ht => (h t ht).plural⟩,
      groups_group_iff.mpr ⟨hled, fun t ht => (h t ht).unled⟩,
      groups_group_iff.mpr ⟨hsign, fun t ht => (h t ht).unsigned⟩⟩
    rintro x (_ | ⟨ht, hx⟩)
    exact (h _ ht).finite x hx

theorem text_group_cons (first : Token) (more : List Token) :
    (group (first :: more)).text.toList =
      '(' :: (first.text.toList ++ (spaced more).toList ++ [')']) := by
  simp [text]

end Token

namespace Layout
open Token

variable {k : Calculator} {depth : Nat} {t : Token} {ts : List Token} {x : Float}

/-- Wherever the token may stand behind blanks, its text is read as the token. -/
def Shows (k : Calculator) (depth : Nat) (t : Token) : Prop :=
  ∀ (w : List Char) (l : Layout) (ts : List Token), Blank w → Ends isNumeric l.text →
    l.Yields k depth ts →
      ∃ l' : Layout, l'.text = w ++ t.text.toList ++ l.text ∧ l'.Yields k depth (t :: ts)

theorem shows_operand (hx : x.isFinite = true) (hs : Double.isNegative x = false) :
    Shows k depth (.operand x) := by
  intro w l ts hw hl hy
  obtain ⟨digits, y, hrun, hread, ⟨-, hwrite, rfl⟩ | ⟨hneg, -, -⟩⟩ := Double.exists_write hx
  · exact ⟨.number w digits l, by simp [Layout.text, Token.text, hwrite],
      .number hw hrun.ne_nil hrun.isNumeric hl hread hy⟩
  · simp [hs] at hneg

theorem shows_operator (ho : k.operators = .arithmetic) {symbol : String}
    (hs : OperatorTable.arithmetic.contains symbol = true) : Shows k depth (.operator symbol) := by
  intro w l ts hw hl hy
  obtain ⟨op, rfl⟩ := OperatorTable.contains_arithmetic_iff.mp hs
  refine ⟨.symbol w op.symbol l, rfl, .symbol hw ?_ ?_ ?_ hy⟩
  · simpa [Arithmetic.symbol_toList, Ends] using op.not_blank_char
  · simpa [Arithmetic.symbol_toList, Ends] using op.not_numeric_char
  · rw [ho]
    exact OperatorTable.isLongest_arithmetic op _

/-- Behind another token, tokens are read from their texts with blanks between. -/
theorem exists_yields_spaced (h : ∀ t ∈ ts, Shows k depth t) : ∃ l : Layout,
    l.text = (spaced ts).toList ∧ Ends isNumeric l.text ∧ l.Yields k depth ts := by
  induction ts with
  | nil => exact ⟨.blank [], by simp [text, spaced], Ends.nil _, .blank (by simp [Blank])⟩
  | cons t ts ih =>
    obtain ⟨hfirst, hmore⟩ := List.forall_mem_cons.mp h
    obtain ⟨l, hl, hends, hy⟩ := ih hmore
    obtain ⟨l', hl', hy'⟩ := hfirst [' '] l ts (by simp [Blank]; decide) hends hy
    refine ⟨l', by rw [hl', hl, spaced]; simp, ?_, hy'⟩
    rw [hl']
    simp [Ends]
    decide

/-- In front of others, a number may have a sign, which is read as a token of its own and goes back
to the number. -/
theorem exists_yields_first (hm : k.operators.LoneMinus) (hnot : t.operator? = none)
    (hfinite : ∀ x, t = .operand x → x.isFinite = true)
    (hshows : (∀ x, t ≠ .operand x) → Shows k depth t) {l : Layout} (hends : Ends isNumeric l.text)
    (hy : l.Yields k depth ts) : ∃ (l' : Layout) (us : List Token),
      l'.text = t.text.toList ++ l.text ∧ l'.Yields k depth us ∧
        k.normalize depth us = .ok (Calculator.gather (t :: ts)) := by
  cases t with
  | operator => cases hnot
  | group =>
    obtain ⟨l', hl', hy'⟩ := hshows (by simp) [] l ts (by simp [Blank]) hends hy
    exact ⟨l', _, hl', hy', rfl⟩
  | operand x =>
    obtain ⟨l', first, hl', hread⟩ := exists_yields_write_append hm (hfinite x rfl) hends
    obtain ⟨hy', hn⟩ := hread depth ts hy
    exact ⟨l', first ++ ts, by simp [hl', Token.text], hy', hn⟩

/-- A group with room for it is read from its text if each token in it is, but for a sign of the
first. -/
theorem shows_group (hm : k.operators.LoneMinus) (hdepth : depth < k.maxDepth) (hlen : 2 ≤ ts.length)
    (hled : ¬Led ts) (hfinite : ∀ x, .operand x ∈ ts → x.isFinite = true)
    (hshows : ∀ t ∈ ts, (∀ x, t = .operand x → t ∈ ts.tail) → Shows k (depth + 1) t) :
    Shows k depth (.group ts) := by
  intro w l us hw hends hy
  match ts with
  | first :: second :: more =>
    have hmore : ∀ t ∈ second :: more, Shows k (depth + 1) t := by
      intro t ht
      exact hshows t (List.mem_cons_of_mem _ ht) fun _ _ => ht
    obtain ⟨behind, hbehind, hbehind', hys⟩ := exists_yields_spaced hmore
    have hfirst : (∀ x, first ≠ .operand x) → Shows k (depth + 1) first := by
      intro hne
      exact hshows first (by simp) fun x hx => absurd hx (hne x)
    have hnot : first.operator? = none := by
      cases first with
      | operator symbol => exact absurd ⟨symbol, rfl⟩ hled
      | operand | group => rfl
    obtain ⟨body, inner, hbody, hyb, hn⟩ := exists_yields_first hm hnot
      (fun x hx => hfinite x (by simp [hx])) hfirst hbehind' hys
    refine ⟨.group w body l, ?_, .group hw hdepth hyb hn hy⟩
    simp [text, text_group_cons, hbody, hbehind]

end Layout

namespace Token

/-- A canonical token without a sign is read from its text wherever there is room for it. -/
theorem Canonical.shows {k : Calculator} (ho : k.operators = .arithmetic) {depth : Nat} {t : Token}
    (h : t.Canonical) (hs : ∀ x, t = .operand x → Double.isNegative x = false)
    (hdepth : depth + t.height ≤ k.maxDepth) : Layout.Shows k depth t := by
  induction hn : t.height using Nat.strongRecOn generalizing t depth with
  | ind n ih =>
  subst hn
  cases t with
  | operand x => exact Layout.shows_operand (h.finite x .here) (hs x rfl)
  | operator symbol => exact Layout.shows_operator ho (h.operators symbol .here)
  | group ts =>
    rw [height] at hdepth ih
    have hm : k.operators.LoneMinus := ho ▸ OperatorTable.loneMinus_arithmetic
    refine Layout.shows_group hm (by omega) (h.plural ts .here) (h.unled ts .here)
      (fun x hx => h.finite x (.inside hx .here)) fun t ht hsign => ?_
    have hle := height_le_heights ht
    refine ih _ (by omega) (h.of_mem ht) ?_ (by omega) rfl
    rintro x rfl
    exact h.unsigned ts .here x (hsign x rfl)

end Token

namespace Calculator
open Token

/-- A number or a group that is canonical is read from its own text, if the limit leaves room for
the groups in it. Its numbers are read bit for bit. -/
theorem token?_text {k : Calculator} (hk : k.rules = []) (ho : k.operators = .arithmetic) {t : Token}
    (hnot : t.operator? = none) (h : t.Canonical) (hdepth : t.height ≤ k.maxDepth) :
    k.token? t.text.toList = .ok (some t) := by
  have hp : k.operators.Parenless := ho ▸ OperatorTable.parenless_arithmetic
  have hm : k.operators.LoneMinus := ho ▸ OperatorTable.loneMinus_arithmetic
  have hempty : (Layout.blank []).Yields k 0 [] := .blank (by simp [Blank])
  obtain ⟨l, us, hl, hy, hn⟩ := Layout.exists_yields_first hm hnot
    (fun x hx => h.finite x (hx ▸ .here))
    (fun hne => h.shows ho (fun x hx => absurd hx (hne x)) (by omega)) (Ends.nil _) hempty
  simp only [Layout.text, List.append_nil] at hl
  rw [← hl, token?_of_closed hk (hy.closed hp) hy, hn]
  rfl

theorem token?_text_nested :
    (Token.group [.operand (-1), .operator "-",
      .group [.operand (-0), .operator "^", .operand 0.5]]).text = "(-1 - (-0 ^ 0.5))" ∧
    (Token.group [.operand (-1), .operator "-",
      .group [.operand (-0), .operator "^", .operand 0.5]]).Canonical ∧
    (Token.group [.operand (-1), .operator "-",
      .group [.operand (-0), .operator "^", .operand 0.5]]).height = 2 ∧
    ({ maxDepth := 2 } : Calculator).token? "(-1 - (-0 ^ 0.5))".toList =
      .ok (some (.group [.operand (-1), .operator "-",
        .group [.operand (-0), .operator "^", .operand 0.5]])) := by
  have hfinite : ∀ x ∈ [-1, -0, (0.5 : Float)], x.isFinite = true := by decide +kernel
  have hinner : (Token.group [.operand (-0), .operator "^", .operand 0.5]).Canonical := by
    refine canonical_group_iff.mpr ⟨?_, by decide, by simp [Led], ?_⟩
    · simpa using ⟨canonical_operand (hfinite (-0) (by simp)), canonical_operator (by decide),
        canonical_operand (hfinite 0.5 (by simp))⟩
    · simp
      decide +kernel
  have ht : (Token.group [.operand (-1), .operator "-",
      .group [.operand (-0), .operator "^", .operand 0.5]]).Canonical := by
    refine canonical_group_iff.mpr ⟨?_, by decide, by simp [Led], by simp⟩
    simpa using ⟨canonical_operand (hfinite (-1) (by simp)), canonical_operator (by decide), hinner⟩
  have htext : (Token.group [.operand (-1), .operator "-",
      .group [.operand (-0), .operator "^", .operand 0.5]]).text = "(-1 - (-0 ^ 0.5))" := by
    decide +kernel
  refine ⟨htext, ht, by decide, ?_⟩
  rw [← htext]
  exact token?_text rfl rfl rfl ht (by decide)

end Calculator

end Abacus
