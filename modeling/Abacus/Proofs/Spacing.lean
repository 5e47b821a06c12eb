import Abacus.Expression
import Abacus.Proofs.Depth
import Abacus.Proofs.Substitution

/-!
# Spacing

Where no symbol contains a blank, blanks between lexemes count for nothing. More of them, put in
around the lexemes of a layout at any depth, make another layout that yields the same tokens: no run
and no symbol goes on over a blank, and a blank is no parenthesis.
-/

namespace Abacus
open Text

/-- No symbol contains a blank. -/
def OperatorTable.Blankless (t : OperatorTable) : Prop :=
  ∀ symbol, t.contains symbol = true → ∀ c ∈ symbol.toList, isBlank c = false

theorem OperatorTable.blankless_arithmetic : arithmetic.Blankless := by
  intro symbol hs c hc
  obtain ⟨op, rfl⟩ := contains_arithmetic_iff.mp hs
  rw [op.symbol_toList] at hc
  rw [List.mem_singleton.mp hc]
  exact op.not_blank_char

/-- Blanks put in behind the lexeme in front and before the next one. -/
def Text.Padded (w w' : List Char) : Prop := ∃ v v', Blank v ∧ Blank v' ∧ w' = v ++ w ++ v'

theorem Text.Padded.blank {w w' : List Char} (h : Padded w w') (hw : Blank w) : Blank w' := by
  obtain ⟨v, v', hv, hv', rfl⟩ := h
  exact (hv.append hw).append hv'

/-! ## What a text begins with -/

/-- Whatever begins the second text and contains no blank begins the first. -/
def Leads (text text' : List Char) : Prop :=
  ∀ piece, (∀ c ∈ piece, isBlank c = false) → piece <+: text' → piece <+: text

namespace Leads

variable {text text' w w' : List Char}

theorem refl (text : List Char) : Leads text text := fun _ _ h => h

theorem append (h : Leads text text') (front : List Char) :
    Leads (front ++ text) (front ++ text') := by
  induction front with
  | nil => exact h
  | cons c front ih =>
    intro piece hpiece hfront
    cases piece with
    | nil => exact List.nil_prefix
    | cons d piece =>
      obtain ⟨rfl, hmore⟩ := List.cons_prefix_cons.mp hfront
      exact List.cons_prefix_cons.mpr ⟨rfl, ih piece (List.forall_mem_cons.mp hpiece).2 hmore⟩

theorem append_blank (h : Leads text text') (hw : Blank w) : Leads text (w ++ text') := by
  cases w with
  | nil => exact h
  | cons c w =>
    intro piece hpiece hfront
    cases piece with
    | nil => exact List.nil_prefix
    | cons d piece =>
      obtain ⟨rfl, -⟩ := List.cons_prefix_cons.mp hfront
      have hblank := hw d (by simp)
      simp [hpiece d (by simp)] at hblank

theorem padded (h : Leads text text') (hw : Padded w w') : Leads (w ++ text) (w' ++ text') := by
  obtain ⟨v, v', hv, hv', rfl⟩ := hw
  have hpadded := ((h.append_blank hv').append w).append_blank hv
  simpa using hpadded

/-- A run of characters none of which is blank ends where it did. -/
theorem ends {accepts : Char → Bool} (h : Leads text text')
    (ha : ∀ c, accepts c = true → isBlank c = false) (he : Ends accepts text) :
    Ends accepts text' := by
  intro c hc
  obtain ⟨rest, rfl⟩ := List.head?_eq_some_iff.mp hc
  cases haccepts : accepts c with
  | false => rfl
  | true =>
    obtain ⟨rest', rfl⟩ := h [c] (by simpa using ha c haccepts) ⟨rest, rfl⟩
    simp [Ends, haccepts] at he

/-- The longest symbol stays the longest. -/
theorem isLongest {t : OperatorTable} (h : Leads text text') (ht : t.Blankless) {symbol : String}
    (hs : t.IsLongest symbol (symbol.toList ++ text)) :
    t.IsLongest symbol (symbol.toList ++ text') := by
  refine ⟨hs.1, List.prefix_append _ _, fun other ho hother => ?_⟩
  exact hs.2.2 other ho (h.append symbol.toList other.toList (ht other ho) hother)

end Leads

/-! ## Parentheses -/

/-- Only the parentheses of a text count for how many groups it closes. -/
theorem closes_filter_iff {keeps : Char → Bool} (ho : keeps '(' = true) (hc : keeps ')' = true)
    {nested : Nat} {text : List Char} : Closes nested (text.filter keeps) ↔ Closes nested text := by
  have hopening : ∀ text : List Char, (text.filter keeps).count '(' = text.count '(' :=
    fun _ => List.count_filter ho
  have hclosing : ∀ text : List Char, (text.filter keeps).count ')' = text.count ')' :=
    fun _ => List.count_filter hc
  constructor
  · intro h
    refine ⟨?_, fun front hfront => ?_⟩
    · rw [← hopening, ← hclosing]
      exact h.total
    · rw [← hopening, ← hclosing]
      exact h.front _ (hfront.filter keeps)
  · intro h
    refine ⟨?_, fun front hfront => ?_⟩
    · rw [hopening, hclosing]
      exact h.total
    · obtain ⟨front', hfront', rfl⟩ := List.prefix_filter_iff.mp hfront
      rw [hopening, hclosing]
      exact h.front front' hfront'

/-! ## Layouts -/

namespace Layout

/-- The layouts have the same lexemes, and the second has blanks put in around them. -/
inductive Spaced : Layout → Layout → Prop
  | blank {w w' : List Char} : Padded w w' → Spaced (.blank w) (.blank w')
  | number {w w' : List Char} {rest rest' : Layout} (literal : List Char) : Padded w w' →
      Spaced rest rest' → Spaced (.number w literal rest) (.number w' literal rest')
  | symbol {w w' : List Char} {rest rest' : Layout} (s : String) : Padded w w' →
      Spaced rest rest' → Spaced (.symbol w s rest) (.symbol w' s rest')
  | group {w w' : List Char} {body body' rest rest' : Layout} : Padded w w' →
      Spaced body body' → Spaced rest rest' → Spaced (.group w body rest) (.group w' body' rest')

namespace Spaced

variable {k : Calculator} {l l' : Layout}

theorem leads (h : l.Spaced l') {behind behind' : List Char} (hb : Leads behind behind') :
    Leads (l.text ++ behind) (l'.text ++ behind') := by
  induction h generalizing behind behind' with
  | blank hw => exact hb.padded hw
  | number literal hw _ ih =>
    have hrest := ((ih hb).append literal).padded hw
    simpa [text] using hrest
  | symbol s hw _ ih =>
    have hrest := ((ih hb).append s.toList).padded hw
    simpa [text] using hrest
  | group hw _ _ ihb ih =>
    have hrest := ((ihb ((ih hb).append [')'])).append ['(']).padded hw
    simpa [text] using hrest

theorem leads_text (h : l.Spaced l') : Leads l.text l'.text := by
  simpa using h.leads (.refl [])

/-- But for blanks the text is the same. -/
theorem filter_text (h : l.Spaced l') :
    l'.text.filter (fun c => !isBlank c) = l.text.filter fun c => !isBlank c := by
  have hpadded : ∀ {w w' : List Char}, Padded w w' →
      w'.filter (fun c => !isBlank c) = w.filter fun c => !isBlank c := by
    rintro w _ ⟨v, v', hv, hv', rfl⟩
    have hnone : ∀ {v : List Char}, Blank v → v.filter (fun c => !isBlank c) = [] := by
      intro v hv
      exact List.filter_eq_nil_iff.mpr fun c hc => by simp [hv c hc]
    simp [hnone hv, hnone hv']
  induction h with
  | blank hw => exact hpadded hw
  | number literal hw _ ih => simp only [text, List.filter_append, hpadded hw, ih]
  | symbol s hw _ ih => simp only [text, List.filter_append, hpadded hw, ih]
  | group hw _ _ ihb ih =>
    simp only [text, List.filter_append, List.filter_cons, hpadded hw, ihb, ih]

theorem closed (h : l.Spaced l') (hl : l.Closed) : l'.Closed := by
  induction h with
  | blank => trivial
  | number _ _ _ ih => exact ih hl
  | symbol _ _ _ ih => exact ih hl
  | group _ hbody _ ihb ih =>
    obtain ⟨hsplit, hcb, hcr⟩ := hl
    have hfilter : ∀ text : List Char,
        Closes 0 (text.filter fun c => !isBlank c) ↔ Closes 0 text :=
      fun _ => closes_filter_iff (by decide) (by decide)
    have hcloses := closes_of_splitClose hsplit
    rw [← hfilter, ← hbody.filter_text, hfilter] at hcloses
    exact ⟨hcloses.splitClose_eq _, ihb hcb, ih hcr⟩

theorem yields (h : l.Spaced l') (hs : k.operators.Blankless) {depth : Nat} {ts : List Token}
    (hy : l.Yields k depth ts) : l'.Yields k depth ts := by
  induction h generalizing depth ts with
  | blank hw =>
    cases hy with
    | blank hblank => exact .blank (hw.blank hblank)
  | number literal hw hrest ih =>
    cases hy with
    | number hblank hne hl ht hx hy =>
      have ht' := hrest.leads_text.ends (fun _ => isBlank_of_isNumeric) ht
      exact .number (hw.blank hblank) hne hl ht' hx (ih hy)
  | symbol s hw hrest ih =>
    cases hy with
    | symbol hblank hb hn hlong hy =>
      exact .symbol (hw.blank hblank) hb hn (hrest.leads_text.isLongest hs hlong) (ih hy)
  | group hw _ _ ihb ih =>
    cases hy with
    | group hblank hd hbody hn hy =>
      exact .group (hw.blank hblank) hd (ihb hbody) hn (ih hy)

end Spaced

/-- The layout that a text is read by. -/
def Reads (k : Calculator) (text : List Char) (l : Layout) : Prop :=
  l.text = text ∧ l.Closed ∧ ∃ ts, l.Yields k 0 ts

theorem Reads.unique {k : Calculator} {text : List Char} {l l' : Layout} (h : Reads k text l)
    (h' : Reads k text l') : l = l' := by
  obtain ⟨hl, hclosed, ts, hy⟩ := h
  obtain ⟨hl', hclosed', ts', hy'⟩ := h'
  exact (hclosed.unique hclosed' hy hy' (hl.trans hl'.symm)).1

end Layout

namespace Calculator

variable {k : Calculator} {text : List Char}

theorem token?_of_spaced (hk : k.rules = []) (hs : k.operators.Blankless) {l l' : Layout}
    (h : l.Reads k text) (hspaced : l.Spaced l') : k.token? l'.text = k.token? text := by
  obtain ⟨rfl, hclosed, ts, hy⟩ := h
  rw [token?_of_closed hk hclosed hy,
    token?_of_closed hk (hspaced.closed hclosed) (hspaced.yields hs hy)]

/-- Blanks put in around the lexemes of a text that can be read, each of them at any depth, change
neither the token that it amounts to nor its value, errors of evaluation included. -/
theorem token?_spaced (k : Calculator) (hk : k.rules = []) (hs : k.operators.Blankless)
    {text : List Char} {t? : Option Token} (h : k.token? text = .ok t?) :
    ∃ l : Layout, (∀ l', l'.Reads k text ↔ l' = l) ∧ ∀ l', l.Spaced l' →
      k.token? l'.text = .ok t? ∧ k.textValue l'.text = k.textValue text ∧
      ('$' ∉ text → k.evaluate (String.ofList l'.text) = k.evaluate (String.ofList text)) := by
  obtain ⟨l, ts, hl, hclosed, hy, -⟩ := exists_closed_of_token? hk h
  have hreads : l.Reads k text := ⟨hl, hclosed, ts, hy⟩
  refine ⟨l, fun l' => ⟨fun hl' => hl'.unique hreads, ?_⟩, fun l' hspaced => ?_⟩
  · rintro rfl
    exact hreads
  · have htoken : k.token? l'.text = k.token? text := token?_of_spaced hk hs hreads hspaced
    have hvalue : k.textValue l'.text = k.textValue text := by
      rw [textValue, textValue, htoken]
    refine ⟨htoken.trans h, hvalue, fun hdollar => ?_⟩
    have hdollar' : '$' ∉ l'.text := by
      intro hmem
      have hseen : '$' ∈ l'.text.filter fun c => !isBlank c :=
        List.mem_filter.mpr ⟨hmem, by decide⟩
      rw [hspaced.filter_text, hl] at hseen
      exact hdollar (List.mem_filter.mp hseen).1
    rw [evaluate, evaluate, evaluateWith, evaluateWith, textValueWith, textValueWith,
      String.toList_ofList, String.toList_ofList, substitute_of_not_mem _ hdollar,
      substitute_of_not_mem _ hdollar']
    exact hvalue

/-- Blanks of several kinds, outside of a group and in it. -/
theorem token?_spaced_group : ({} : Calculator).rules = [] ∧
    ({} : Calculator).operators.Blankless ∧
    ({} : Calculator).token? "2*(3)".toList =
      .ok (some (.group [.operand 2, .operator "*", .operand 3])) ∧
    ({} : Calculator).token? "\u30002 *\t(\u00a03\n) ".toList =
      .ok (some (.group [.operand 2, .operator "*", .operand 3])) := by
  have hs : ({} : Calculator).operators.Blankless := OperatorTable.blankless_arithmetic
  have hread : ({} : Calculator).token? "2*(3)".toList =
      .ok (some (.group [.operand 2, .operator "*", .operand 3])) := by decide +kernel
  obtain ⟨l, hl, hspaced⟩ := token?_spaced {} rfl hs hread
  have hthree : (Layout.number [] ['3'] (.blank [])).Yields {} 1 [.operand 3] :=
    .number (by decide) (by decide) (List.all_eq_true.mp (by decide)) (by decide)
      (by decide +kernel) (.blank (by decide))
  have hgroup : (Layout.group [] (.number [] ['3'] (.blank [])) (.blank [])).Yields {} 0
      [.operand 3] :=
    .group (by decide) (by decide) hthree rfl (.blank (by decide))
  have htimes := Layout.Yields.symbol (w := []) (by decide) (by decide) (by decide)
    (OperatorTable.isLongest_arithmetic .mul _) hgroup
  have hreads : (Layout.number [] ['2'] (.symbol [] "*" (.group [] (.number [] ['3'] (.blank []))
      (.blank [])))).Reads {} "2*(3)".toList := by
    refine ⟨by decide, ⟨by decide, trivial, trivial⟩, [.operand 2, .operator "*", .operand 3], ?_⟩
    exact .number (by decide) (by decide) (List.all_eq_true.mp (by decide)) (by decide)
      (by decide +kernel) htimes
  obtain rfl := (hl _).mp hreads
  have hpadded : ∀ v : List Char, Blank v → Padded [] v :=
    fun v hv => ⟨v, [], hv, by decide, by simp⟩
  have hinserted := hspaced (.number ['\u3000'] ['2'] (.symbol [' '] "*" (.group ['\t']
    (.number ['\u00a0'] ['3'] (.blank ['\n'])) (.blank [' '])))) (.number _ (hpadded _ (by decide))
      (.symbol _ (hpadded _ (by decide)) (.group (hpadded _ (by decide))
        (.number _ (hpadded _ (by decide)) (.blank (hpadded _ (by decide))))
        (.blank (hpadded _ (by decide))))))
  exact ⟨rfl, hs, hread, hinserted.1⟩

end Calculator

end Abacus
