import Abacus.Proofs.Exchange

/-!
# Texts in parentheses

Parentheses around a text that has a value enclose the whole of it exactly if its own parentheses
balance, and then they change nothing. Its parentheses are those of groups, and balance, where no
symbol has one in it. A symbol may have one behind its first character, though: it is read as a
part of the symbol, while the search for the end of a group counts it.
-/

namespace Abacus
open Text

/-! ## Room -/

/-- Behind so many open groups, the text closes no more than these, and no more than `limit` are
open at once. -/
structure Continues (opened limit : Nat) (text : List Char) : Prop where
  closes : ∀ front, front <+: text → front.count ')' ≤ front.count '(' + opened
  opens : ∀ front, front <+: text → front.count '(' + opened ≤ front.count ')' + limit

namespace Continues
variable {opened limit : Nat} {piece text : List Char}

theorem behind (h : Continues opened limit (piece ++ text)) :
    Continues (opened + piece.count '(' - piece.count ')') limit text := by
  have hpiece := h.closes piece (List.prefix_append ..)
  constructor
  · intro front hf
    have := h.closes (piece ++ front) ((List.prefix_append_right_inj piece).mpr hf)
    simp only [List.count_append] at this
    omega
  · intro front hf
    have := h.opens (piece ++ front) ((List.prefix_append_right_inj piece).mpr hf)
    simp only [List.count_append] at this
    omega

/-- The contents of a group have room for one group less. -/
theorem inside {body after : List Char}
    (h : Continues opened (limit + 1) ('(' :: (body ++ ')' :: after))) (hbody : Closes 0 body) :
    Continues 0 limit body := by
  refine ⟨hbody.front, fun front hf => ?_⟩
  have := h.opens ('(' :: front)
    (List.cons_prefix_cons.mpr ⟨rfl, hf.trans (List.prefix_append ..)⟩)
  simp at this
  omega

theorem pos_limit (h : Continues opened limit ('(' :: text)) : 0 < limit := by
  have := h.opens ['('] (List.cons_prefix_cons.mpr ⟨rfl, List.nil_prefix⟩)
  simp at this
  omega

end Continues

/-- There are no more groups of a closed layout one in another than are open at once. -/
theorem Layout.Closed.height_le {l : Layout} (hclosed : l.Closed) {opened limit : Nat}
    (h : Continues opened limit l.text) : l.height ≤ limit := by
  induction l generalizing opened limit with
  | blank w => exact Nat.zero_le _
  | number w literal rest ih => exact ih hclosed h.behind
  | symbol w s rest ih => exact ih hclosed h.behind
  | group w body rest ihb ih =>
    obtain ⟨hsplit, hcb, hcr⟩ := hclosed
    have hrest := ih hcr h.behind
    rw [text_group] at h
    obtain ⟨n, rfl⟩ := Nat.exists_eq_add_one.mpr h.behind.pos_limit
    have hbody := ihb hcb (h.behind.inside (closes_of_splitClose hsplit))
    exact Nat.max_le.mpr ⟨Nat.succ_le_succ hbody, hrest⟩

/-! ## Enclosed texts -/

section enclosed
variable {k : Calculator} {ts : List Token} {t : Token}

/-- A text whose parentheses balance is, in parentheses, one group. -/
theorem Layout.Closed.enclose {l : Layout} (hclosed : l.Closed) (hy : l.Yields k 0 ts)
    (hn : k.normalize 0 ts = .ok (some t)) (hcloses : Closes 0 l.text)
    (hnest : NestsWithin k.maxDepth ('(' :: (l.text ++ [')']))) :
    (group [] l (.blank [])).Closed ∧ (group [] l (.blank [])).Yields k 0 [t] := by
  have hpos : 1 ≤ k.maxDepth := by
    simpa using hnest ['('] (List.cons_prefix_cons.mpr ⟨rfl, List.nil_prefix⟩)
  have hroom : Continues 0 (k.maxDepth - 1) l.text := by
    refine ⟨hcloses.front, fun front hf => ?_⟩
    have := hnest ('(' :: front) (List.cons_prefix_cons.mpr ⟨rfl, hf.trans (List.prefix_append ..)⟩)
    simp at this
    omega
  have hheight := hclosed.height_le hroom
  have hheights := hy.heights_le
  have hblank : Blank [] := by simp [Blank]
  refine ⟨⟨hcloses.splitClose_eq _, hclosed, trivial⟩, ?_⟩
  refine .group hblank hpos (hy.depth (Nat.zero_le _) (by omega)) ?_ (.blank hblank)
  rwa [k.normalize_depth ts 0 (0 + 1) (by omega) (by omega)] at hn

namespace Calculator

/-- Where a text in parentheses is read as one group, its own parentheses balance. -/
theorem closes_of_tokens (hk : k.rules = []) {text : List Char}
    (h : k.tokens (.whole ('(' :: (text ++ [')'])) 0) = .ok [t]) : Closes 0 text := by
  have hts := (tokens_eq_ok_iff.mp h).2
  have hblank : Blank [] := by simp [Blank]
  have hrest : (Cursor.whole ('(' :: (text ++ [')'])) 0).rest = [] ++ '(' :: (text ++ [')']) := rfl
  cases hsplit : splitClose '(' ')' 0 (text ++ [')']) with
  | none =>
    rw [tokensFrom_unclosed hk hblank hsplit hrest] at hts
    cases hts
  | some p =>
    obtain ⟨body, after⟩ := p
    have happend := splitClose_append hsplit
    rw [happend] at hsplit
    have hgroup : (Cursor.whole ('(' :: (text ++ [')'])) 0).rest =
        [] ++ '(' :: (body ++ [')']) ++ after := by
      rw [hrest, happend]
      simp
    obtain ⟨inside, -, -, he⟩ := tokensFrom_group hk hblank hsplit hgroup
    rw [he] at hts
    obtain ⟨t?, -, hts⟩ := exists_of_bind_eq_ok hts
    cases t? with
    | none => cases hts
    | some u =>
      obtain ⟨rest, hr, hts⟩ := exists_of_bind_eq_ok hts
      cases hts
      have hafter := blank_of_tokensFrom hk hr
      rw [Cursor.take_append hgroup] at hafter
      -- the last character is a parenthesis, so it is the one that closes the group
      rcases List.eq_nil_or_concat after with rfl | ⟨init, c, rfl⟩
      · obtain rfl := List.append_cancel_right happend
        exact closes_of_splitClose hsplit
      · have hlast : text ++ [')'] = (body ++ ')' :: init) ++ [c] := by
          rw [happend]
          simp
        obtain rfl : ')' = c := List.head_eq_of_cons_eq (List.append_inj_right' hlast rfl)
        exact absurd (by simp) (not_mem_run hafter (by decide : isBlank ')' = false))

/-- Parentheses around a text that has a value are read as one group around it exactly if its own
parentheses balance, as they do where no symbol has one in it; and then the value stays. -/
theorem evaluate_enclosed (k : Calculator) (hk : k.rules = []) {text : String} {v : Float}
    (hblank : ¬Blank text.toList) (hv : k.evaluate text = .ok v)
    (hnest : NestsWithin k.maxDepth ("(" ++ text ++ ")").toList) :
    (k.operators.Parenless → Closes 0 text.toList) ∧
    ((∃ t, k.tokens (.whole ("(" ++ text ++ ")").toList 0) = .ok [t]) ↔ Closes 0 text.toList) ∧
    (Closes 0 text.toList → k.evaluate ("(" ++ text ++ ")") = .ok v) := by
  have htext : ("(" ++ text ++ ")").toList = '(' :: (text.toList ++ [')']) := by simp
  rw [htext] at hnest ⊢
  obtain ⟨hfree, hvalue⟩ := evaluate_eq_ok_iff.mp hv
  obtain ⟨l, ts, hl, hclosed, hy, hts⟩ := (textValue_eq_ok_iff_closed hk).mp hvalue
  obtain ⟨t, hn, ht⟩ : ∃ t, k.normalize 0 ts = .ok (some t) ∧ k.value 0 t = .ok v := by
    refine hts.resolve_left ?_
    rintro ⟨hn, -⟩
    obtain rfl := eq_nil_of_normalize hn
    obtain ⟨w, hw, rfl⟩ := hy.eq_blank
    exact hblank (hl ▸ hw)
  rw [← hl] at hnest ⊢
  have hgroup : (Layout.group [] l (.blank [])).text = '(' :: (l.text ++ [')']) := by
    simp [Layout.text]
  have hempty : ReferenceFree [] := substitute_of_not_mem _ (by simp)
  have hone : k.normalize 0 [t] = .ok (some t) := by
    refine normalize_eq_ok_iff.mpr ⟨[t], foldSign_eq_ok_iff.mpr (.unsigned ?_), rfl⟩
    rintro symbol more ⟨⟩
    cases operator?_of_value ht
  refine ⟨fun hp => (hy.level hp).closes, ⟨?_, fun hcloses => ⟨t, ?_⟩⟩, fun hcloses => ?_⟩
  · rintro ⟨u, hu⟩
    exact closes_of_tokens hk hu
  · obtain ⟨hcg, hyg⟩ := hclosed.enclose hy hn hcloses hnest
    exact tokens_eq_ok_iff.mpr ⟨Nat.zero_le _, hcg.tokensFrom hk hyg hgroup.symm rfl⟩
  · obtain ⟨hcg, hyg⟩ := hclosed.enclose hy hn hcloses hnest
    refine evaluate_eq_ok_iff.mpr ⟨?_, ?_⟩
    · rw [htext, ← List.nil_append ('(' :: _), ← List.append_nil [')']]
      exact referenceFree_group_iff.mpr ⟨hempty, hfree, hempty⟩
    · rw [htext, ← hl, ← hgroup]
      exact (textValue_eq_ok_iff_closed hk).mpr
        ⟨_, [t], rfl, hcg, hyg, .inr ⟨t, hone, ht⟩⟩

end Calculator

end enclosed

namespace Calculator

/-- The calculator in which a symbol puts the digits of two numbers together. -/
def joining (symbol : String) : Calculator :=
  ({} : Calculator).withOperator symbol ⟨50, fun left right => .ok (left * 10 + right)⟩

/-- The parentheses of the symbol are a pair. -/
theorem evaluate_enclosed_paired : (joining "<()>").rules = [] ∧ ¬Blank "1 <()> 2".toList ∧
    (joining "<()>").evaluate "1 <()> 2" = .ok 12 ∧
    NestsWithin (joining "<()>").maxDepth ("(" ++ "1 <()> 2" ++ ")").toList ∧
    Closes 0 "1 <()> 2".toList ∧ (joining "<()>").evaluate ("(" ++ "1 <()> 2" ++ ")") = .ok 12 := by
  have hblank : ¬Blank "1 <()> 2".toList := by decide
  have hv : (joining "<()>").evaluate "1 <()> 2" = .ok 12 := by decide +kernel
  have hnest : NestsWithin (joining "<()>").maxDepth ("(" ++ "1 <()> 2" ++ ")").toList := by
    decide +kernel
  have hcloses : Closes 0 "1 <()> 2".toList :=
    closes_of_splitClose (by decide :
      splitClose '(' ')' 0 "1 <()> 2)".toList = some ("1 <()> 2".toList, []))
  exact ⟨rfl, hblank, hv, hnest, hcloses,
    (evaluate_enclosed _ rfl hblank hv hnest).2.2 hcloses⟩

/-- The group ends in the middle of the symbol, and what is left there is no operator. -/
theorem evaluate_not_enclosed : (joining "<)").rules = [] ∧ ¬Blank "1<)2".toList ∧
    (joining "<)").evaluate "1<)2" = .ok 12 ∧
    NestsWithin (joining "<)").maxDepth ("(" ++ "1<)2" ++ ")").toList ∧
    (joining "<)").evaluate ("(" ++ "1<)2" ++ ")") = .error (.read (.illegalText 2)) := by
  refine ⟨rfl, by decide, ?_, ?_, ?_⟩ <;> decide +kernel

end Calculator

end Abacus
