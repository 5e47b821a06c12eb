import Abacus.Expression
import Abacus.Proofs.Depth
import Abacus.Proofs.Literal
import Abacus.Proofs.Reference

/-!
# Replacing references

Where references are apart from what is around them, a text in which they are replaced by literals
is read as the text itself is read when each of them is one token. The two readings go on side by
side, and a literal is all that they ever differ in.
-/

namespace Abacus
open Text

/-! ## Literals -/

namespace Double
variable {x : Float}

theorem literal_of_negative (h : isNegative x = true) : literal x = '(' :: (write x ++ [')']) := by
  rw [literal, if_pos h]
  rfl

theorem literal_of_not_negative (h : isNegative x = false) : literal x = write x := by
  rw [literal, h]
  rfl

theorem level_write (hx : x.isFinite = true) : Level (write x) := by
  obtain ⟨digits, y, hrun, -, ⟨-, hw, -⟩ | ⟨-, hw, -⟩⟩ := exists_write hx
  · rw [hw]
    exact level_of_numeric hrun.isNumeric
  · have hminus : Level ['-'] := .of_parenless (by decide) (by decide)
    rw [hw]
    exact hminus.append (level_of_numeric hrun.isNumeric)

theorem level_literal (hx : x.isFinite = true) : Level (literal x) := by
  cases hneg : isNegative x with
  | false =>
    rw [literal_of_not_negative hneg]
    exact level_write hx
  | true =>
    rw [literal_of_negative hneg]
    exact (level_write hx).group

theorem literal_eq_cons (hx : x.isFinite = true) :
    ∃ c more, literal x = c :: more ∧ (c = '(' ∨ c.isDigit = true) := by
  obtain ⟨digits, y, ⟨c, more, rfl, hc, -⟩, -, ⟨hneg, hw, -⟩ | ⟨hneg, hw, -⟩⟩ := exists_write hx
  · exact ⟨c, more, by rw [literal, hneg, hw]; rfl, .inr hc⟩
  · exact ⟨'(', _, by rw [literal, hneg]; rfl, .inl rfl⟩

end Double

namespace Calculator
variable {k : Calculator} {c : Cursor} {w tail : List Char} {x : Float}

/-- A literal is read as its value, wherever it stands. One with a sign is a group. -/
theorem tokensFrom_literal (hk : k.rules = []) (hp : k.operators.Parenless)
    (hm : k.operators.LoneMinus) (hw : Blank w) (hx : x.isFinite = true) (ht : Ends isNumeric tail)
    (hdepth : Double.isNegative x = true → c.depth < k.maxDepth)
    (hc : c.rest = w ++ Double.literal x ++ tail) :
    k.tokensFrom c =
      (do return .operand x :: (← k.tokensFrom (c.take (w ++ Double.literal x).length))) := by
  obtain ⟨digits, y, hrun, hread, ⟨hneg, hwrite, rfl⟩ | ⟨hneg, -, -⟩⟩ := Double.exists_write hx
  · rw [Double.literal_of_not_negative hneg, hwrite] at hc ⊢
    rw [tokensFrom_number hk hw hrun.ne_nil hrun.isNumeric ht hc, hread]
  · obtain ⟨l, ts, hl, hy⟩ := Layout.exists_yields_write hm hx
    obtain ⟨hyields, hnormal⟩ := hy (c.depth + 1)
    rw [Double.literal_of_negative hneg] at hc ⊢
    obtain ⟨inside, hi, hid, he⟩ :=
      tokensFrom_group hk hw ((Double.level_write hx).splitClose_group tail) hc
    have hin : k.normal? inside = .ok (some (.operand x)) := by
      have htokens : k.tokens inside = .ok ts := by
        have := hdepth hneg
        exact tokens_eq_ok_iff.mpr ⟨by omega, hyields.tokensFrom hk hp (hi.trans hl.symm) hid⟩
      rw [normal?, htokens, hid]
      exact hnormal
    rw [he, hin]
    rfl

/-- At the limit the group of a literal with a sign is one too many. -/
theorem tokensFrom_literal_deep (hk : k.rules = []) (hw : Blank w) (hx : x.isFinite = true)
    (hneg : Double.isNegative x = true) (hdepth : k.maxDepth ≤ c.depth)
    (hc : c.rest = w ++ Double.literal x ++ tail) :
    k.tokensFrom c = .error (.read (.tooDeep k.maxDepth)) := by
  rw [Double.literal_of_negative hneg] at hc
  obtain ⟨inside, -, hid, he⟩ :=
    tokensFrom_group hk hw ((Double.level_write hx).splitClose_group tail) hc
  have hin : k.normal? inside = .error (.read (.tooDeep k.maxDepth)) := by
    rw [normal?, tokens, within, if_pos (by omega)]
    rfl
  rw [he, hin]
  rfl

/-- Where the limit is not exceeded, a literal is read as its value or is one group too many. -/
theorem tokensFrom_literal_within (hk : k.rules = []) (hp : k.operators.Parenless)
    (hm : k.operators.LoneMinus) (hw : Blank w) (hx : x.isFinite = true) (ht : Ends isNumeric tail)
    (hdepth : c.depth ≤ k.maxDepth) (hc : c.rest = w ++ Double.literal x ++ tail) :
    k.tokensFrom c =
      if Double.isNegative x = true ∧ c.depth = k.maxDepth then .error (.read (.tooDeep k.maxDepth))
      else (do return .operand x :: (← k.tokensFrom (c.take (w ++ Double.literal x).length))) := by
  split
  · rename_i hdeep
    exact tokensFrom_literal_deep hk hw hx hdeep.1 (by omega) hc
  · rename_i hroom
    refine tokensFrom_literal hk hp hm hw hx ht (fun hneg => ?_) hc
    exact Nat.lt_of_le_of_ne hdepth fun hlimit => hroom ⟨hneg, hlimit⟩

end Calculator

/-! ## Texts -/

theorem level_reference {name : List Char} (hname : ∀ c ∈ name, isNameChar c = true) :
    Level ('$' :: name) := by
  refine .of_parenless ?_ ?_
  · simpa using not_mem_run hname (by decide)
  · simpa using not_mem_run hname (by decide)

namespace Substitutes
variable {lookup : String → Option Float} {t : OperatorTable}
  {text text' piece name rest : List Char} {c : Char}

/-! ### What comes of a text that begins with some piece -/

theorem of_char (hc : c ≠ '$' ∨ Ends isNameChar rest) (h : Substitutes lookup (c :: rest) text') :
    ∃ rest', text' = c :: rest' ∧ Substitutes lookup rest rest' := by
  have h := substitute_eq_ok_iff.mpr h
  rw [substitute_char hc] at h
  obtain ⟨rest', hr, h⟩ := exists_of_bind_eq_ok h
  cases h
  exact ⟨rest', rfl, substitute_eq_ok_iff.mp hr⟩

theorem of_append (hpiece : '$' ∉ piece) (h : Substitutes lookup (piece ++ rest) text') :
    ∃ rest', text' = piece ++ rest' ∧ Substitutes lookup rest rest' := by
  induction piece generalizing text' with
  | nil => exact ⟨text', rfl, h⟩
  | cons c piece ih =>
    rw [List.mem_cons, not_or] at hpiece
    obtain ⟨more, rfl, hmore⟩ := h.of_char (.inl (Ne.symm hpiece.1))
    obtain ⟨rest', rfl, hr⟩ := ih hpiece.2 hmore
    exact ⟨rest', rfl, hr⟩

theorem of_reference (hne : name ≠ []) (hname : ∀ c ∈ name, isNameChar c = true)
    (hrest : Ends isNameChar rest) (h : Substitutes lookup ('$' :: (name ++ rest)) text') :
    ∃ x rest', lookup (String.ofList name) = some x ∧ x.isFinite = true ∧
      text' = Double.literal x ++ rest' ∧ Substitutes lookup rest rest' := by
  have h := substitute_eq_ok_iff.mpr h
  rw [substitute_reference hne hname hrest] at h
  obtain ⟨x, hx, h⟩ := exists_of_bind_eq_ok h
  obtain ⟨rest', hr, h⟩ := exists_of_bind_eq_ok h
  cases h
  obtain ⟨hx, hfin⟩ := finiteValue_eq_ok_iff.mp hx
  exact ⟨x, rest', hx, hfin, rfl, substitute_eq_ok_iff.mp hr⟩

/-! ### What is looked for in a text -/

/-- No run goes on into the text, unless into a literal. -/
theorem ends {accepts : Char → Bool} (h : Substitutes lookup text text')
    (hends : Ends accepts text) (hfirst : ∀ r ∈ Reference.all text, r.front ≠ []) :
    Ends accepts text' := by
  cases h with
  | nil | char => exact hends
  | @reference name rest _ _ hne hname hrest =>
    exact absurd rfl (hfirst ⟨[], name, rest⟩ (Reference.mem_all_iff.mpr ⟨rfl, hne, hname, hrest⟩))

theorem prefix_iff (h : Substitutes lookup text text')
    (hpiece : ∀ c ∈ piece, c ≠ '$' ∧ c ≠ '(' ∧ c.isDigit = false) :
    piece <+: text ↔ piece <+: text' := by
  induction h generalizing piece with
  | nil => exact Iff.rfl
  | char _ _ ih =>
    cases piece with
    | nil => simp
    | cons d piece =>
      rw [List.cons_prefix_cons, List.cons_prefix_cons,
        ih fun c hc => hpiece c (List.mem_cons_of_mem d hc)]
  | reference _ _ _ _ hx _ _ =>
    obtain ⟨c, more, hl, hc⟩ := Double.literal_eq_cons hx
    cases piece with
    | nil => simp
    | cons d piece =>
      obtain ⟨hdollar, hopen, hdigit⟩ := hpiece d List.mem_cons_self
      rw [hl, List.cons_append, List.cons_prefix_cons, List.cons_prefix_cons]
      constructor
      · exact fun h => absurd h.1 hdollar
      · rintro ⟨rfl, -⟩
        rcases hc with rfl | hc
        · exact absurd rfl hopen
        · rw [hc] at hdigit
          cases hdigit

theorem longestMatch_eq (hp : t.Parenless) (hu : t.Unmixed) (h : Substitutes lookup text text') :
    t.longestMatch text' = t.longestMatch text := by
  have hsame : ∀ symbol, t.contains symbol = true →
      (symbol.toList <+: text' ↔ symbol.toList <+: text) := by
    intro symbol hs
    refine (h.prefix_iff fun c hc => ?_).symm
    obtain ⟨hdollar, hdigit⟩ := hu symbol hs c hc
    refine ⟨hdollar, ?_, hdigit⟩
    rintro rfl
    exact (hp symbol hs).1 hc
  refine Option.ext fun symbol => ?_
  rw [OperatorTable.longestMatch_eq_some_iff, OperatorTable.longestMatch_eq_some_iff]
  refine and_congr_right fun hs => and_congr (hsame symbol hs) (forall_congr' fun other => ?_)
  exact forall_congr' fun ho => imp_congr_left (hsame other ho)

/-- Contents of a group and what follows them, and what comes of both. -/
def Parts (lookup : String → Option Float) (p p' : List Char × List Char) : Prop :=
  Substitutes lookup p.1 p'.1 ∧ Substitutes lookup p.2 p'.2

/-- A piece in front of where the search for the end of a group goes on. -/
private theorem parts_append {rest' piece' : List Char} {nested : Nat}
    (hpiece : ∀ inside inside', (Ends isNameChar rest → Ends isNameChar inside) →
      Substitutes lookup inside inside' → Substitutes lookup (piece ++ inside) (piece' ++ inside'))
    (h : Option.Rel (Parts lookup) (splitClose '(' ')' nested rest)
      (splitClose '(' ')' nested rest')) :
    Option.Rel (Parts lookup) ((splitClose '(' ')' nested rest).map fun p => (piece ++ p.1, p.2))
      ((splitClose '(' ')' nested rest').map fun p => (piece' ++ p.1, p.2)) := by
  generalize hp : splitClose '(' ')' nested rest = p at h
  generalize splitClose '(' ')' nested rest' = p' at h
  cases h with
  | none => exact .none
  | @some p p' h =>
    refine .some ⟨hpiece p.1 p'.1 (fun hends c hc => hends c ?_) h.1, h.2⟩
    rw [splitClose_append hp, List.head?_append, Option.mem_def.mp hc]
    rfl

/-- Both texts have a group closed, or neither has, and the parts correspond. -/
theorem splitClose_rel (h : Substitutes lookup text text') (nested : Nat) :
    Option.Rel (Parts lookup) (splitClose '(' ')' nested text)
      (splitClose '(' ')' nested text') := by
  induction h generalizing nested with
  | nil => exact .none
  | @char c rest rest' hc hrest ih =>
    have hchar : ∀ inside inside', (Ends isNameChar rest → Ends isNameChar inside) →
        Substitutes lookup inside inside' →
        Substitutes lookup ([c] ++ inside) ([c] ++ inside') :=
      fun _ _ hends h => .char (hc.imp_right hends) h
    by_cases hclose : c = ')'
    · subst hclose
      cases nested with
      | zero =>
        rw [splitClose_closing, splitClose_closing]
        exact .some ⟨.nil, hrest⟩
      | succ nested =>
        rw [splitClose_closing_succ, splitClose_closing_succ]
        exact parts_append hchar (ih nested)
    · by_cases hopen : c = '('
      · subst hopen
        rw [splitClose_opening (by decide), splitClose_opening (by decide)]
        exact parts_append hchar (ih (nested + 1))
      · rw [splitClose_cons hopen hclose, splitClose_cons hopen hclose]
        exact parts_append hchar (ih nested)
  | reference hne hname hends hlookup hx _ ih =>
    rw [← List.cons_append, level_reference hname, Double.level_literal hx]
    refine parts_append (fun _ _ hends' h => ?_) (ih nested)
    exact .reference hne hname (hends' hends) hlookup hx h

theorem splitClose_some {nested : Nat} {inside after : List Char}
    (h : Substitutes lookup text text')
    (hsplit : splitClose '(' ')' nested text = some (inside, after)) :
    ∃ inside' after', splitClose '(' ')' nested text' = some (inside', after') ∧
      Substitutes lookup inside inside' ∧ Substitutes lookup after after' := by
  have hrel := h.splitClose_rel nested
  rw [hsplit] at hrel
  generalize splitClose '(' ')' nested text' = parts at hrel
  cases hrel with
  | some hparts => exact ⟨_, _, rfl, hparts⟩

theorem splitClose_none {nested : Nat} (h : Substitutes lookup text text')
    (hsplit : splitClose '(' ')' nested text = none) :
    splitClose '(' ')' nested text' = none := by
  have hrel := h.splitClose_rel nested
  rw [hsplit] at hrel
  generalize splitClose '(' ')' nested text' = parts at hrel
  cases hrel
  rfl

end Substitutes

/-! ## Reading side by side -/

/-- Cursors before a text and before what comes of it, at the same depth. -/
structure Parallel (k : Calculator) (lookup : String → Option Float) (c c' : Cursor) : Prop where
  rest : Substitutes lookup c.rest c'.rest
  depth : c'.depth = c.depth
  fit : Reference.AllFit k lookup c.depth c.rest

/-- Steps to the same token and to cursors that are side by side again, or to the same error. -/
inductive Step.Corresponds (k : Calculator) (lookup : String → Option Float) : Step → Step → Prop
  | finished : Corresponds k lookup .finished .finished
  | failed {cause cause' : ReadError} : cause.unplaced = cause'.unplaced →
      Corresponds k lookup (.failed cause) (.failed cause')
  | token (t : Token) {after after' : Cursor} : Parallel k lookup after after' →
      Corresponds k lookup (.token t after) (.token t after')
  | group {opening opening' : Nat} {inside inside' after after' : Cursor} :
      Parallel k lookup inside inside' → Parallel k lookup after after' →
      Corresponds k lookup (.group opening inside after) (.group opening' inside' after')

namespace Parallel
variable {k : Calculator} {lookup : String → Option Float} {c c' : Cursor}

/-- Behind a text that closes what it opens the cursors are side by side again. -/
theorem take {piece piece' tail tail' : List Char} (h : Parallel k lookup c c')
    (hcount : piece.count ')' = piece.count '(') (ht : Substitutes lookup tail tail')
    (hc : c.rest = piece ++ tail) (hc' : c'.rest = piece' ++ tail') :
    Parallel k lookup (c.take piece.length) (c'.take piece'.length) where
  rest := by rwa [Cursor.take_append hc, Cursor.take_append hc']
  depth := h.depth
  fit := by
    have hfit := h.fit
    rw [hc, ← List.append_nil tail] at hfit
    rw [Cursor.take_append hc]
    exact hfit.part (Ends.nil _) (by rw [Cursor.take_depth]; omega)

private theorem opened_eq (w body tail : List Char) :
    w ++ '(' :: (body ++ [')']) ++ tail = w ++ ['('] ++ (body ++ ')' :: tail) := by
  simp

/-- Inside a group the cursors are side by side, one level deeper. -/
theorem inside {w body tail : List Char} {d d' : Cursor} (h : Parallel k lookup c c')
    (hw : Blank w) (hc : c.rest = w ++ '(' :: (body ++ [')']) ++ tail)
    (hbody : Substitutes lookup body d'.rest) (hd : d.rest = body) (hdepth : d.depth = c.depth + 1)
    (hdepth' : d'.depth = c'.depth + 1) : Parallel k lookup d d' where
  rest := by rwa [hd]
  depth := by rw [hdepth, hdepth', h.depth]
  fit := by
    have hfit := h.fit
    have hcount : (w ++ ['(']).count '(' + c.depth = (w ++ ['(']).count ')' + (c.depth + 1) := by
      have := hw.level.count_eq
      simp
      omega
    rw [hc, opened_eq] at hfit
    rw [hd, hdepth]
    exact hfit.part (by simp [Ends]; decide) hcount

/-- A mark alone is one in both texts. -/
theorem mark {w tail : List Char} (h : Parallel k lookup c c') (hw : Blank w)
    (ht : Ends isNameChar tail) (hc : c.rest = w ++ '$' :: tail) :
    ∃ tail', c'.rest = w ++ '$' :: tail' := by
  have hs := h.rest
  rw [hc] at hs
  obtain ⟨more, hc', hmore⟩ := hs.of_append (not_mem_run hw (by decide))
  obtain ⟨tail', rfl, -⟩ := hmore.of_char (.inr ht)
  exact ⟨tail', hc'⟩

/-- For a reference there is a literal, and behind both the cursors are side by side again. -/
theorem reference {w name tail : List Char} (h : Parallel k lookup c c') (hw : Blank w)
    (hne : name ≠ []) (hname : ∀ c ∈ name, isNameChar c = true) (ht : Ends isNameChar tail)
    (hc : c.rest = w ++ '$' :: (name ++ tail)) : ∃ x tail', lookup (String.ofList name) = some x ∧
      x.isFinite = true ∧ c'.rest = w ++ Double.literal x ++ tail' ∧ Ends isNumeric tail' ∧
      Parallel k lookup (c.take (w ++ '$' :: name).length)
        (c'.take (w ++ Double.literal x).length) := by
  have hs := h.rest
  rw [hc] at hs
  obtain ⟨more, hc', hmore⟩ := hs.of_append (not_mem_run hw (by decide))
  obtain ⟨x, tail', hx, hfin, rfl, htail⟩ := hmore.of_reference hne hname ht
  have hfits : Reference.Fits k lookup c.depth ⟨w, name, tail⟩ :=
    h.fit _ (Reference.mem_all_iff.mpr ⟨hc.symm, hne, hname, ht⟩)
  have hlevel : Level (w ++ '$' :: name) := hw.level.append (level_reference hname)
  rw [← List.append_assoc] at hc'
  refine ⟨x, tail', hx, hfin, hc', htail.ends (hfits.ends_behind ht) hfits.apart, ?_⟩
  exact h.take hlevel.count_eq htail (by simp [hc]) hc'

variable (hk : k.rules = []) (hp : k.operators.Parenless) (hu : k.operators.Unmixed)
include hk hp hu

/-- Away from marks, the calculator takes corresponding steps. -/
theorem step (h : Parallel k lookup c c') (hmark : ¬c.AtMark) :
    (k.step c).Corresponds k lookup (k.step c') := by
  have hf := exists_front k.operators c.rest
  have hs := h.rest
  generalize hc : c.rest = text at hf hs
  have hblank : ∀ {w : List Char}, Blank w → '$' ∉ w := fun hw => not_mem_run hw (by decide)
  cases hf with
  | blank hw =>
    rw [← List.append_nil text] at hs
    obtain ⟨_, hc', hnil⟩ := hs.of_append (hblank hw)
    cases hnil
    rw [List.append_nil] at hc'
    rw [Calculator.step_blank hw hc, Calculator.step_blank hw hc']
    exact .finished
  | @number w literal tail hw hne hl ht =>
    have hdollar : '$' ∉ w ++ literal :=
      List.not_mem_append (hblank hw) (not_mem_run hl (by decide))
    obtain ⟨tail', hc', htail⟩ := hs.of_append hdollar
    have ht' : Ends isNumeric tail' := htail.ends ht ((hc ▸ h.fit).front_ne_nil hne hl)
    rw [Calculator.step_number hk hw hne hl ht hc, Calculator.step_number hk hw hne hl ht' hc']
    cases Double.ofText? literal with
    | none => exact .failed rfl
    | some x => exact .token _ (h.take (hw.level.append (level_of_numeric hl)).count_eq htail hc hc')
  | @symbol w tail s hw hb hn hlong =>
    have hsymbol : '$' ∉ s.toList := fun hd => (hu s hlong.1 _ hd).1 rfl
    rw [List.append_assoc] at hs
    obtain ⟨more, hc', hmore⟩ := hs.of_append (hblank hw)
    have hlong' := hmore.longestMatch_eq hp hu
    obtain ⟨tail', rfl, htail⟩ := hmore.of_append hsymbol
    rw [OperatorTable.longestMatch_eq_some_iff.mpr hlong] at hlong'
    have hlong' := OperatorTable.longestMatch_eq_some_iff.mp hlong'
    rw [← List.append_assoc] at hc'
    rw [Calculator.step_symbol hk hw hb hn hlong hc, Calculator.step_symbol hk hw hb hn hlong' hc']
    obtain ⟨ho, hclose⟩ := hp s hlong.1
    exact .token _ (h.take (hw.level.append (.of_parenless ho hclose)).count_eq htail hc hc')
  | @group w body tail hw hsplit =>
    have hcount : (w ++ '(' :: (body ++ [')'])).count ')' =
        (w ++ '(' :: (body ++ [')'])).count '(' := by
      have := hw.level.count_eq
      have := (closes_of_splitClose hsplit).total
      simp
      omega
    rw [opened_eq] at hs
    obtain ⟨more, hc', hmore⟩ := hs.of_append (List.not_mem_append (hblank hw) (by decide))
    obtain ⟨body', tail', hsplit', hbody', htail⟩ := hmore.splitClose_some hsplit
    obtain rfl := splitClose_append hsplit'
    replace hc' : c'.rest = w ++ '(' :: (body' ++ [')']) ++ tail' := by simpa using hc'
    obtain ⟨d, hd, hdepth, hstep⟩ := Calculator.step_group hk hw hsplit hc
    obtain ⟨d', hd', hdepth', hstep'⟩ := Calculator.step_group hk hw hsplit' hc'
    rw [hstep, hstep']
    refine .group (h.inside hw hc ?_ hd hdepth hdepth') (h.take hcount htail hc hc')
    rwa [hd']
  | @unclosed w tail hw hsplit =>
    obtain ⟨more, hc', hmore⟩ := hs.of_append (hblank hw)
    obtain ⟨tail', rfl, htail⟩ := hmore.of_char (.inl (by decide))
    have hsplit' := htail.splitClose_none hsplit
    rw [Calculator.step_unclosed hk hw hsplit hc, Calculator.step_unclosed hk hw hsplit' hc']
    exact .failed rfl
  | @illegal w tail ch hw hb hn hparen hnone =>
    have hch : ch ≠ '$' := by
      rintro rfl
      exact hmark ⟨w, tail, hw, hc⟩
    obtain ⟨more, hc', hmore⟩ := hs.of_append (hblank hw)
    have hnone' := hmore.longestMatch_eq hp hu
    obtain ⟨tail', rfl, -⟩ := hmore.of_char (.inl hch)
    rw [hnone] at hnone'
    rw [Calculator.step_illegal hk hw hb hn hparen hnone hc,
      Calculator.step_illegal hk hw hb hn hparen hnone' hc']
    exact .failed rfl

end Parallel

namespace Calculator

section sides
variable {k : Calculator} {lookup : String → Option Float} {c c' : Cursor}

theorem sameOutcome_normal? (hd : c'.depth = c.depth)
    (h : SameOutcome ((k.withReferences lookup).tokensFrom c) (k.tokensFrom c')) :
    SameOutcome ((k.withReferences lookup).normal? c) (k.normal? c') := by
  rw [normal?, normal?, tokens, tokens, hd]
  refine .bind ?_ fun ts => ?_
  · show SameOutcome (k.within c.depth _) (k.within c.depth _)
    rw [within, within]
    split
    · exact .refl _
    · exact h
  · rw [normalize_withReferences]
    exact .refl _

variable (hk : k.rules = []) (hp : k.operators.Parenless) (hm : k.operators.LoneMinus)
  (hu : k.operators.Unmixed)
include hk hp hm hu

/-- At a mark, the one calculator takes a step to the value and the other reads the literal. A mark
alone is an error in both texts. -/
theorem tokensFrom_mark (h : Parallel k lookup c c') (hmark : c.AtMark) :
    (∃ index index', (k.withReferences lookup).step c = .failed (.illegalText index) ∧
      k.tokensFrom c' = .error (.read (.illegalText index'))) ∨
    ∃ x after after', (k.withReferences lookup).step c = .token (.operand x) after ∧
      k.tokensFrom c' = (do return .operand x :: (← k.tokensFrom after')) ∧
      Parallel k lookup after after' := by
  obtain ⟨w, tail, hw, hc⟩ := hmark
  obtain ⟨name, rest, rfl, hname, hrest⟩ := exists_run isNameChar tail
  have hstep := step_mark hk lookup hw hname hrest hc
  by_cases hne : name = []
  · subst hne
    obtain ⟨rest', hc'⟩ := h.mark hw hrest hc
    rw [if_pos rfl] at hstep
    exact .inl ⟨_, _, hstep, tokensFrom_illegal hk hw (by decide) (by decide) (by decide)
      (hu.longestMatch_mark rest') hc'⟩
  · obtain ⟨x, rest', hx, hfin, hc', hrest', hafter⟩ := h.reference hw hne hname hrest hc
    have hroom : Double.isNegative x = true → c'.depth < k.maxDepth := by
      intro hneg
      obtain ⟨y, hy, -, hdepth⟩ :=
        (h.fit ⟨w, name, rest⟩ (Reference.mem_all_iff.mpr ⟨hc.symm, hne, hname, hrest⟩)).value
      obtain rfl : x = y := Option.some.inj (hx.symm.trans hy)
      have hlt : c.depth + w.count '(' < w.count ')' + k.maxDepth := hdepth hneg
      have := hw.level.count_eq
      have := h.depth
      omega
    rw [if_neg hne, finiteValue_eq_ok_iff.mpr ⟨hx, hfin⟩] at hstep
    exact .inr ⟨x, _, _, hstep, tokensFrom_literal hk hp hm hw hfin hrest' hroom hc', hafter⟩

/-- Side by side, the same tokens are read to the end, or the same error is met. -/
theorem sameOutcome_tokensFrom (h : Parallel k lookup c c') :
    SameOutcome ((k.withReferences lookup).tokensFrom c) (k.tokensFrom c') := by
  induction hn : c.rest.length using Nat.strongRecOn generalizing c c' with
  | ind n ih =>
  subst hn
  have hshort := (k.withReferences lookup).step_shorter c
  by_cases hmark : c.AtMark
  · rcases tokensFrom_mark hk hp hm hu h hmark with
      ⟨index, index', hstep, htokens⟩ | ⟨x, after, after', hstep, htokens, hafter⟩
    · rw [tokensFrom_of_failed hstep, htokens]
      exact .of_unplaced rfl
    · rw [hstep] at hshort
      rw [tokensFrom_of_token hstep, htokens]
      exact .bind (ih _ hshort hafter rfl) fun ts => .refl _
  · have hcorr := h.step hk hp hu hmark
    rw [← step_withReferences hk lookup hmark] at hcorr
    generalize hs : (k.withReferences lookup).step c = s at hshort hcorr
    generalize hs' : k.step c' = s' at hcorr
    cases hcorr with
    | finished =>
      rw [tokensFrom_of_finished hs, tokensFrom_of_finished hs']
      exact .refl _
    | failed hcause =>
      rw [tokensFrom_of_failed hs, tokensFrom_of_failed hs']
      exact .of_unplaced hcause
    | token t hafter =>
      rw [tokensFrom_of_token hs, tokensFrom_of_token hs']
      exact .bind (ih _ hshort hafter rfl) fun ts => .refl _
    | group hinside hafter =>
      rw [tokensFrom_of_group hs, tokensFrom_of_group hs']
      refine .bind (sameOutcome_normal? hinside.depth (ih _ hshort.1 hinside rfl)) fun t? => ?_
      cases t? with
      | none => exact .of_unplaced rfl
      | some t => exact .bind (ih _ hshort.2 hafter rfl) fun ts => .refl _

/-- The same value comes of a text and of what its references are replaced by, or the same error. -/
theorem sameOutcome_textValue {text text' : List Char} (hs : Substitutes lookup text text')
    (hfit : Reference.AllFit k lookup 0 text) :
    SameOutcome ((k.withReferences lookup).textValue text) (k.textValue text') := by
  have hwhole : Parallel k lookup (.whole text 0) (.whole text' 0) := ⟨hs, rfl, hfit⟩
  have hread : SameOutcome ((k.withReferences lookup).token? text) (k.token? text') :=
    sameOutcome_normal? rfl (sameOutcome_tokensFrom hk hp hm hu hwhole)
  refine .bind hread fun t? => ?_
  cases t? with
  | none => exact .refl _
  | some t =>
    show SameOutcome (((k.withReferences lookup).value 0 t).mapError _) _
    rw [value_withReferences]
    exact .refl _

end sides

/-- Variables stand for operands. A text whose references are replaced by literals before it is
read comes to the same as if each reference were read as its value. -/
theorem evaluateWith_sameOutcome_withReferences {β : Type} [Variables β] (k : Calculator)
    (hk : k.rules = []) (hp : k.operators.Parenless) (hm : k.operators.LoneMinus)
    (hu : k.operators.Unmixed) (bindings : β) (text : String)
    (hfit : Reference.AllFit k (Variables.lookup bindings) 0 text.toList) :
    SameOutcome (k.evaluateWith (some text) bindings)
      ((k.withReferences (Variables.lookup bindings)).textValue text.toList) := by
  have hvalues : ∀ r ∈ Reference.all text.toList,
      ∃ x ∈ Variables.lookup bindings (String.ofList r.name), x.isFinite = true := by
    intro r hr
    obtain ⟨x, hx, hfin, -⟩ := (hfit r hr).value
    exact ⟨x, hx, hfin⟩
  obtain ⟨text', hs⟩ := Reference.exists_substitutes hvalues
  rw [evaluateWith, textValueWith, substitute_eq_ok_iff.mpr hs]
  exact (sameOutcome_textValue hk hp hm hu hs hfit).symm

theorem evaluateWith_sameOutcome_withReferences_signed : ({} : Calculator).rules = [] ∧
    ({} : Calculator).operators.Parenless ∧ ({} : Calculator).operators.LoneMinus ∧
    ({} : Calculator).operators.Unmixed ∧
    Reference.AllFit {} (Variables.lookup [("x", (-3 : Float)), ("y", -0.0)]) 0
      "-$x*(2-$y)".toList ∧
    (({} : Calculator).withReferences (Variables.lookup [("x", (-3 : Float)), ("y", -0.0)])).textValue
      "-$x*(2-$y)".toList = .ok 6 ∧
    SameOutcome
      (({} : Calculator).evaluateWith (some "-$x*(2-$y)") [("x", (-3 : Float)), ("y", -0.0)])
      ((({} : Calculator).withReferences
        (Variables.lookup [("x", (-3 : Float)), ("y", -0.0)])).textValue "-$x*(2-$y)".toList) := by
  have hp := OperatorTable.parenless_arithmetic
  have hm := OperatorTable.loneMinus_arithmetic
  have hu := OperatorTable.unmixed_arithmetic
  have hfit : Reference.AllFit {} (Variables.lookup [("x", (-3 : Float)), ("y", -0.0)]) 0
      "-$x*(2-$y)".toList := by decide +kernel
  have hvalue : (({} : Calculator).withReferences
      (Variables.lookup [("x", (-3 : Float)), ("y", -0.0)])).textValue "-$x*(2-$y)".toList =
        .ok 6 := by decide +kernel
  exact ⟨rfl, hp, hm, hu, hfit, hvalue,
    evaluateWith_sameOutcome_withReferences {} rfl hp hm hu _ _ hfit⟩

end Calculator

end Abacus
