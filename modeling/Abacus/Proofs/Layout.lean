import Abacus.Proofs.Arithmetic
import Abacus.Proofs.Front
import Abacus.Proofs.Outcome
import Abacus.Proofs.Range

/-!
# Layouts

A layout divides a text into blanks and lexemes, the contents of a group being divided in their
turn. It yields tokens by rules that say of each lexeme, where it stands, what it must be. A range
is read as some tokens exactly if it has a layout that yields them, and there is only one.
-/

namespace Abacus
open Text

/-- Blanks in front of every lexeme and at the end. -/
inductive Layout where
  | blank (w : List Char)
  | number (w literal : List Char) (rest : Layout)
  | symbol (w : List Char) (s : String) (rest : Layout)
  | group (w : List Char) (body rest : Layout)

namespace Layout

/-- The text that is laid out: all the pieces, in order. -/
def text : Layout → List Char
  | blank w => w
  | number w literal rest => w ++ literal ++ rest.text
  | symbol w s rest => w ++ s.toList ++ rest.text
  | group w body rest => w ++ '(' :: (body.text ++ [')']) ++ rest.text

/-- The tokens of a layout whose text stands `depth` groups deep. A number is a whole run of
numeric characters and reads as a double; a symbol is the longest there is and begins neither
like a blank nor like a number; a group is within the limit and its contents amount to a token. -/
inductive Yields (k : Calculator) : Nat → Layout → List Token → Prop
  | blank {depth : Nat} {w : List Char} : Blank w → Yields k depth (.blank w) []
  | number {depth : Nat} {w literal : List Char} {rest : Layout} {x : Float} {ts : List Token} :
      Blank w → literal ≠ [] → (∀ c ∈ literal, isNumeric c = true) → Ends isNumeric rest.text →
      Double.ofText? literal = some x → Yields k depth rest ts →
      Yields k depth (.number w literal rest) (.operand x :: ts)
  | symbol {depth : Nat} {w : List Char} {s : String} {rest : Layout} {ts : List Token} :
      Blank w → Ends isBlank s.toList → Ends isNumeric s.toList →
      k.operators.IsLongest s (s.toList ++ rest.text) → Yields k depth rest ts →
      Yields k depth (.symbol w s rest) (.operator s :: ts)
  | group {depth : Nat} {w : List Char} {body rest : Layout} {inner : List Token} {t : Token}
      {ts : List Token} :
      Blank w → depth < k.maxDepth → Yields k (depth + 1) body inner →
      k.normalize (depth + 1) inner = .ok (some t) → Yields k depth rest ts →
      Yields k depth (.group w body rest) (t :: ts)

/-- The parenthesis behind the contents of a group is the one that the search for it finds. A
symbol with a parenthesis in it could come before. -/
def Closed : Layout → Prop
  | blank _ => True
  | number _ _ rest | symbol _ _ rest => rest.Closed
  | group _ body rest =>
    splitClose '(' ')' 0 (body.text ++ ')' :: rest.text) = some (body.text, rest.text) ∧
      body.Closed ∧ rest.Closed

end Layout

namespace Layout

variable {k : Calculator} {depth : Nat}

/-- Where no symbol contains a parenthesis, all parentheses are those of groups. -/
theorem Yields.level (hp : k.operators.Parenless) {l : Layout} {ts : List Token}
    (h : l.Yields k depth ts) : Level l.text := by
  induction h with
  | blank hw => exact hw.level
  | number hw _ hl _ _ _ ih => exact (hw.level.append (level_of_numeric hl)).append ih
  | symbol hw _ _ hs _ ih =>
    obtain ⟨ho, hc⟩ := hp _ hs.1
    exact (hw.level.append (Level.of_parenless ho hc)).append ih
  | group hw _ _ _ _ ihb ih => exact (hw.level.append ihb.group).append ih

theorem Yields.eq_blank {l : Layout} (h : l.Yields k depth []) : ∃ w, Blank w ∧ l = .blank w := by
  cases h with
  | blank hw => exact ⟨_, hw, rfl⟩

theorem Yields.closed (hp : k.operators.Parenless) {l : Layout} {ts : List Token}
    (h : l.Yields k depth ts) : l.Closed := by
  induction h with
  | blank _ => trivial
  | number _ _ _ _ _ _ ih => exact ih
  | symbol _ _ _ _ _ ih => exact ih
  | @group _ _ body rest _ _ _ _ _ hbody _ _ ihb ih =>
    exact ⟨(hbody.level hp).splitClose_group rest.text, ihb, ih⟩

/-- What a closed layout yields is what is read. -/
theorem Closed.tokensFrom (hk : k.rules = []) {l : Layout} (hclosed : l.Closed) {ts : List Token}
    (h : l.Yields k depth ts) {c : Cursor} (hc : c.rest = l.text) (hd : c.depth = depth) :
    k.tokensFrom c = .ok ts := by
  induction h generalizing c with
  | blank hw => exact Calculator.tokensFrom_blank hw hc
  | number hw hne hl ht hx _ ih =>
    rw [Calculator.tokensFrom_number hk hw hne hl ht hc, hx]
    simp only [ih hclosed (Cursor.take_append hc) hd]
    rfl
  | symbol hw hb hn hs _ ih =>
    rw [Calculator.tokensFrom_symbol hk hw hb hn hs hc, ih hclosed (Cursor.take_append hc) hd]
    rfl
  | @group _ w body rest inner t ts hw hlt hbody hnorm _ ihb ih =>
    obtain ⟨hsplit, hcb, hcr⟩ := hclosed
    obtain ⟨inside, hi, hid, he⟩ := Calculator.tokensFrom_group hk hw hsplit hc
    have hin : k.normal? inside = .ok (some t) := by
      have hin : k.tokens inside = .ok inner :=
        Calculator.tokens_eq_ok_iff.mpr ⟨by omega, ihb hcb hi (by omega)⟩
      rw [Calculator.normal?, hin, hid, hd]
      exact hnorm
    rw [he, hin, ih hcr (Cursor.take_append hc) hd]
    rfl

theorem Yields.tokensFrom (hk : k.rules = []) (hp : k.operators.Parenless) {l : Layout}
    {ts : List Token} (h : l.Yields k depth ts) {c : Cursor} (hc : c.rest = l.text)
    (hd : c.depth = depth) : k.tokensFrom c = .ok ts :=
  (h.closed hp).tokensFrom hk h hc hd

/-- What is read has a closed layout that yields it. -/
theorem exists_closed (hk : k.rules = []) {c : Cursor} {ts : List Token}
    (h : k.tokensFrom c = .ok ts) :
    ∃ l : Layout, l.text = c.rest ∧ l.Closed ∧ l.Yields k c.depth ts := by
  induction hn : c.rest.length using Nat.strongRecOn generalizing c ts with
  | ind n ih =>
  have hf := exists_front k.operators c.rest
  generalize hc : c.rest = text at hf
  subst hn
  cases hf with
  | blank hw =>
    rw [Calculator.tokensFrom_blank hw hc] at h
    cases h
    exact ⟨.blank _, rfl, trivial, .blank hw⟩
  | @number w literal tail hw hne hl ht =>
    rw [Calculator.tokensFrom_number hk hw hne hl ht hc] at h
    cases hx : Double.ofText? literal with
    | none => simp [hx] at h
    | some x =>
      simp only [hx] at h
      obtain ⟨rest, hr, h⟩ := exists_of_bind_eq_ok h
      cases h
      have hrest := Cursor.take_append hc
      have hlt : tail.length < c.rest.length := by
        have := List.length_pos_iff.mpr hne
        simp only [hc, List.length_append]
        omega
      obtain ⟨l, hl', hlc, hy⟩ := ih _ hlt hr (by rw [hrest])
      refine ⟨.number w literal l, by rw [Layout.text, hl', hrest], hlc, ?_⟩
      exact .number hw hne hl (by rwa [hl', hrest]) hx hy
  | @symbol w tail s hw hb hn hs =>
    rw [Calculator.tokensFrom_symbol hk hw hb hn hs hc] at h
    obtain ⟨rest, hr, h⟩ := exists_of_bind_eq_ok h
    cases h
    have hrest := Cursor.take_append hc
    have hlt : tail.length < c.rest.length := by
      have := List.length_pos_iff.mpr
        (OperatorTable.longestMatch_ne_nil (OperatorTable.longestMatch_eq_some_iff.mpr hs))
      simp only [hc, List.length_append]
      omega
    obtain ⟨l, hl', hlc, hy⟩ := ih _ hlt hr (by rw [hrest])
    refine ⟨.symbol w s l, by rw [Layout.text, hl', hrest], hlc, ?_⟩
    exact .symbol hw hb hn (by rwa [hl', hrest]) hy
  | @group w body tail hw hsplit =>
    obtain ⟨inside, hi, hid, he⟩ := Calculator.tokensFrom_group hk hw hsplit hc
    rw [he] at h
    obtain ⟨t?, hnormal, h⟩ := exists_of_bind_eq_ok h
    obtain ⟨inner, hin, hnorm⟩ := exists_of_bind_eq_ok hnormal
    have hrest := Cursor.take_append hc
    have hlt : body.length < c.rest.length ∧ tail.length < c.rest.length := by
      simp only [hc, List.length_append, List.length_cons]
      omega
    cases t? with
    | none => cases h
    | some t =>
      obtain ⟨rest, hr, h⟩ := exists_of_bind_eq_ok h
      cases h
      obtain ⟨hmax, hin⟩ := Calculator.tokens_eq_ok_iff.mp hin
      rw [hid] at hmax hnorm
      obtain ⟨lb, hlb, hbc, hyb⟩ := ih _ hlt.1 hin (by rw [hi])
      obtain ⟨l, hl', hlc, hy⟩ := ih _ hlt.2 hr (by rw [hrest])
      refine ⟨.group w lb l, by rw [Layout.text, hlb, hl', hi, hrest], ⟨?_, hbc, hlc⟩, ?_⟩
      · rwa [hlb, hl', hi, hrest]
      exact .group hw (by omega) (hid ▸ hyb) hnorm hy
  | unclosed hw hsplit =>
    rw [Calculator.tokensFrom_unclosed hk hw hsplit hc] at h
    cases h
  | illegal hw hb hn hp hs =>
    rw [Calculator.tokensFrom_illegal hk hw hb hn hp hs hc] at h
    cases h

theorem exists_yields (hk : k.rules = []) {c : Cursor} {ts : List Token}
    (h : k.tokensFrom c = .ok ts) : ∃ l : Layout, l.text = c.rest ∧ l.Yields k c.depth ts := by
  obtain ⟨l, hl, -, hy⟩ := exists_closed hk h
  exact ⟨l, hl, hy⟩

/-! ## Uniqueness -/

/-- The blanks in front. -/
def lead : Layout → List Char
  | blank w | number w _ _ | symbol w _ _ | group w _ _ => w

/-- The text behind the blanks in front. -/
def core : Layout → List Char
  | blank _ => []
  | number _ literal rest => literal ++ rest.text
  | symbol _ s rest => s.toList ++ rest.text
  | group _ body rest => '(' :: (body.text ++ ')' :: rest.text)

/-- The class of the first character behind the blanks, if there is one. -/
def head : Layout → Option (Option Lexeme)
  | blank _ => none
  | number _ _ _ => some (some .numeric)
  | symbol _ _ _ => some none
  | group _ _ _ => some (some .opening)

theorem text_eq (l : Layout) : l.text = l.lead ++ l.core := by
  cases l <;> simp [text, lead, core]

private theorem ofChar?_symbol {s : String} {c : Char} {more : List Char} (hs : isSymbol s = true)
    (hc : s.toList = c :: more) (hb : isBlank c = false) (hn : isNumeric c = false) :
    Lexeme.ofChar? c = none := by
  simp only [isSymbol, hc, Bool.and_eq_true, bne_iff_ne, ne_eq] at hs
  simp [Lexeme.ofChar?, hb, hn, hs.1, hs.2]

/-- The first character behind the blanks is no blank, and tells the lexeme. -/
theorem Yields.head_eq {l : Layout} {ts : List Token} (h : l.Yields k depth ts) :
    Blank l.lead ∧ Ends isBlank l.core ∧ l.core.head?.map Lexeme.ofChar? = l.head := by
  cases h with
  | blank hw => exact ⟨hw, by simp [core, Ends], rfl⟩
  | @number _ w literal rest _ _ hw hne hl _ _ _ =>
    obtain ⟨c, more, rfl⟩ := List.exists_cons_of_ne_nil hne
    have hc : isNumeric c = true := hl c (by simp)
    have hb := isBlank_of_isNumeric hc
    exact ⟨hw, by simpa [core, Ends] using hb,
      by simp [core, head, Lexeme.ofChar?_eq_numeric_iff, hc, hb]⟩
  | @symbol _ w s rest _ hw hb hn hs _ =>
    obtain ⟨c, more, hc⟩ := List.exists_cons_of_ne_nil
      (OperatorTable.longestMatch_ne_nil (OperatorTable.longestMatch_eq_some_iff.mpr hs))
    rw [hc] at hb hn
    have := ofChar?_symbol (OperatorTable.isSymbol_of_contains hs.1) hc (hb c rfl) (hn c rfl)
    exact ⟨hw, by simpa [core, Ends, hc] using hb, by simp [core, head, hc, this]⟩
  | group hw _ _ _ _ =>
    exact ⟨hw, by simp [core, Ends]; decide, by simp [core, head]; decide⟩

/-- Two layouts of one text begin with the same blanks and the same kind of lexeme. -/
theorem Yields.same_front {l l' : Layout} {ts ts' : List Token} (h : l.Yields k depth ts)
    (h' : l'.Yields k depth ts') (he : l.text = l'.text) :
    l.lead = l'.lead ∧ l.core = l'.core ∧ l.head = l'.head := by
  obtain ⟨hw, hb, hh⟩ := h.head_eq
  obtain ⟨hw', hb', hh'⟩ := h'.head_eq
  obtain ⟨hlead, hcore⟩ := run_inj hw hb hw' hb' (by rw [← text_eq, ← text_eq, he])
  exact ⟨hlead, hcore, by rw [← hh, ← hh', hcore]⟩

/-- A text has at most one closed layout that yields tokens, and it yields them alone. -/
theorem Closed.unique {l l' : Layout} {ts ts' : List Token} (hclosed : l.Closed)
    (hclosed' : l'.Closed) (h : l.Yields k depth ts) (h' : l'.Yields k depth ts')
    (he : l.text = l'.text) : l = l' ∧ ts = ts' := by
  induction h generalizing l' ts' with
  | blank hw =>
    obtain ⟨hlead, -, hhead⟩ := (Yields.blank hw).same_front h' he
    cases h' with
    | blank _ => exact ⟨congrArg Layout.blank hlead, rfl⟩
    | _ => cases hhead
  | number hw hne hl ht hx hy ih =>
    obtain ⟨hlead, hcore, hhead⟩ := (Yields.number hw hne hl ht hx hy).same_front h' he
    cases h' with
    | number _ _ hl' ht' hx' hy' =>
      simp only [Closed] at hclosed hclosed'
      obtain ⟨rfl, hrest⟩ := run_inj hl ht hl' ht' hcore
      obtain ⟨rfl, rfl⟩ := ih hclosed hclosed' hy' hrest
      rw [hx] at hx'
      cases hx'
      simp only [lead] at hlead
      subst hlead
      exact ⟨rfl, rfl⟩
    | _ => cases hhead
  | symbol hw hb hn hs hy ih =>
    obtain ⟨hlead, hcore, hhead⟩ := (Yields.symbol hw hb hn hs hy).same_front h' he
    cases h' with
    | symbol _ _ _ hs' hy' =>
      simp only [Closed] at hclosed hclosed'
      simp only [core] at hcore
      rw [hcore] at hs
      obtain rfl := hs.unique hs'
      obtain ⟨rfl, rfl⟩ := ih hclosed hclosed' hy' (List.append_cancel_left hcore)
      simp only [lead] at hlead
      subst hlead
      exact ⟨rfl, rfl⟩
    | _ => cases hhead
  | @group _ w body rest inner t ts hw hd hb hn hy ihb ih =>
    obtain ⟨hlead, hcore, hhead⟩ := (Yields.group hw hd hb hn hy).same_front h' he
    cases h' with
    | group _ _ hb' hn' hy' =>
      obtain ⟨hsplit, hcb, hcr⟩ := hclosed
      obtain ⟨hsplit', hcb', hcr'⟩ := hclosed'
      simp only [core, List.cons.injEq, true_and] at hcore
      rw [hcore, hsplit'] at hsplit
      obtain ⟨hbody, hrest⟩ := Prod.mk.inj (Option.some.inj hsplit)
      obtain ⟨rfl, rfl⟩ := ihb hcb hcb' hb' hbody.symm
      obtain ⟨rfl, rfl⟩ := ih hcr hcr' hy' hrest.symm
      rw [hn] at hn'
      cases hn'
      simp only [lead] at hlead
      subst hlead
      exact ⟨rfl, rfl⟩
    | _ => cases hhead

theorem Yields.unique (hp : k.operators.Parenless) {l l' : Layout} {ts ts' : List Token}
    (h : l.Yields k depth ts) (h' : l'.Yields k depth ts') (he : l.text = l'.text) :
    l = l' ∧ ts = ts' :=
  (h.closed hp).unique (h'.closed hp) h h' he

end Layout

namespace Calculator

/-- A whole text amounts to what the tokens of its closed layout amount to. -/
theorem token?_of_closed {k : Calculator} (hk : k.rules = []) {l : Layout} {ts : List Token}
    (hclosed : l.Closed) (hy : l.Yields k 0 ts) : k.token? l.text = k.normalize 0 ts := by
  have hts : k.tokens (.whole l.text 0) = .ok ts :=
    tokens_eq_ok_iff.mpr ⟨Nat.zero_le _, hclosed.tokensFrom hk hy rfl rfl⟩
  rw [token?, hts]
  rfl

theorem exists_closed_of_token? {k : Calculator} (hk : k.rules = []) {text : List Char}
    {t? : Option Token} (h : k.token? text = .ok t?) : ∃ (l : Layout) (ts : List Token),
      l.text = text ∧ l.Closed ∧ l.Yields k 0 ts ∧ k.normalize 0 ts = .ok t? := by
  obtain ⟨ts, hts, hn⟩ := exists_of_bind_eq_ok h
  obtain ⟨l, hl, hclosed, hy⟩ := Layout.exists_closed hk (tokens_eq_ok_iff.mp hts).2
  exact ⟨l, ts, hl, hclosed, hy, hn⟩

theorem blank_of_tokensFrom {k : Calculator} (hk : k.rules = []) {c : Cursor}
    (h : k.tokensFrom c = .ok []) : Blank c.rest := by
  obtain ⟨l, hl, hy⟩ := Layout.exists_yields hk h
  obtain ⟨w, hw, rfl⟩ := hy.eq_blank
  exact hl ▸ hw

/-- The tokens of a range between two characters of a text, whatever stands before and behind it,
are those of its one layout, whose pieces are all of the range. -/
theorem tokens_range_eq_ok_iff (k : Calculator) (hk : k.rules = []) (hp : k.operators.Parenless)
    (before inside behind : List Char) (depth : Nat) (ts : List Token) :
    k.tokens (.ofRange (before ++ inside ++ behind) (byteLength before)
        (byteLength (before ++ inside)) depth) = .ok ts ↔
      depth ≤ k.maxDepth ∧ ∃ l : Layout, (l.text = inside ∧ l.Yields k depth ts) ∧
        ∀ l' ts', l'.text = inside → l'.Yields k depth ts' → l' = l ∧ ts' = ts := by
  rw [Cursor.ofRange_append, tokens_eq_ok_iff]
  constructor
  · rintro ⟨hd, h⟩
    obtain ⟨l, hl, hy⟩ := Layout.exists_yields hk h
    refine ⟨hd, l, ⟨hl, hy⟩, ?_⟩
    intro l' ts' hl' hy'
    exact hy'.unique hp hy (hl'.trans hl.symm)
  · rintro ⟨hd, l, ⟨hl, hy⟩, -⟩
    exact ⟨hd, hy.tokensFrom hk hp hl.symm rfl⟩

theorem tokens_range_eq_ok_iff_nested : ({} : Calculator).rules = [] ∧
    ({} : Calculator).operators.Parenless ∧ ∃ l : Layout,
      (l.text = "(1+2)* 3".toList ∧
        l.Yields {} 1 [.group [.operand 1, .operator "+", .operand 2], .operator "*", .operand 3]) ∧
      ∀ l' ts', l'.text = "(1+2)* 3".toList → l'.Yields {} 1 ts' → l' = l ∧
        ts' = [.group [.operand 1, .operator "+", .operand 2], .operator "*", .operand 3] := by
  have hread : ({} : Calculator).tokens (.ofRange ("é(".toList ++ "(1+2)* 3".toList ++ [')'])
      (byteLength "é(".toList) (byteLength ("é(".toList ++ "(1+2)* 3".toList)) 1) =
        .ok [.group [.operand 1, .operator "+", .operand 2], .operator "*", .operand 3] := by
    decide +kernel
  have hp := OperatorTable.parenless_arithmetic
  exact ⟨rfl, hp, ((tokens_range_eq_ok_iff {} rfl hp _ _ _ 1 _).mp hread).2⟩

end Calculator

end Abacus
