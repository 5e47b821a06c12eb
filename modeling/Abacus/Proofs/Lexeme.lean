import Abacus.Balance
import Abacus.Lexeme
import Abacus.Operator
import Mathlib.Data.List.Basic

/-!
# Runs, longest symbols and level texts

What the reading of a text looks for, said without the search: where a run of characters ends,
which symbol is the longest, and which texts leave the nesting of parentheses as it is.
-/

namespace Abacus

namespace Text

/-- Nothing but blanks. -/
def Blank (text : List Char) : Prop := ∀ c ∈ text, isBlank c = true

instance (text : List Char) : Decidable (Blank text) :=
  List.decidableBAll (fun c => isBlank c = true) text

theorem Blank.reverse {w : List Char} (h : Blank w) : Blank w.reverse :=
  fun c hc => h c (List.mem_reverse.mp hc)

theorem Blank.append {w w' : List Char} (h : Blank w) (h' : Blank w') : Blank (w ++ w') :=
  fun c hc => (List.mem_append.mp hc).elim (h c) (h' c)

/-- No run of accepted characters goes on into the text. -/
def Ends (accepts : Char → Bool) (text : List Char) : Prop :=
  ∀ c ∈ text.head?, accepts c = false

instance (accepts : Char → Bool) : (text : List Char) → Decidable (Ends accepts text)
  | [] => isTrue (by simp [Ends])
  | c :: _ => decidable_of_iff (accepts c = false) (by simp [Ends])

variable {accepts : Char → Bool} {run run' rest rest' : List Char}

theorem Ends.nil (accepts : Char → Bool) : Ends accepts [] := by
  intro c hc
  cases hc

theorem Ends.append (h : Ends accepts run) (hrest : Ends accepts rest) :
    Ends accepts (run ++ rest) := by
  cases run with
  | nil => exact hrest
  | cons c run => exact h

theorem takeWhile_run (hrun : ∀ c ∈ run, accepts c = true) (hrest : Ends accepts rest) :
    (run ++ rest).takeWhile accepts = run := by
  rw [List.takeWhile_append_of_pos hrun]
  cases rest with
  | nil => simp
  | cons c rest => simp [hrest c rfl]

theorem dropWhile_run (hrun : ∀ c ∈ run, accepts c = true) (hrest : Ends accepts rest) :
    (run ++ rest).dropWhile accepts = rest := by
  have h := List.takeWhile_append_dropWhile (p := accepts) (l := run ++ rest)
  rw [takeWhile_run hrun hrest] at h
  exact List.append_cancel_left h

/-- What is not accepted is not in a run. -/
theorem not_mem_run {c : Char} (hrun : ∀ d ∈ run, accepts d = true) (hc : accepts c = false) :
    c ∉ run := by
  intro h
  rw [hrun c h] at hc
  cases hc

/-- A run and the rest it ends before are determined by the text. -/
theorem run_inj (hrun : ∀ c ∈ run, accepts c = true) (hrest : Ends accepts rest)
    (hrun' : ∀ c ∈ run', accepts c = true) (hrest' : Ends accepts rest')
    (h : run ++ rest = run' ++ rest') : run = run' ∧ rest = rest' := by
  have hw : run = run' := by
    rw [← takeWhile_run hrun hrest, h, takeWhile_run hrun' hrest']
  subst hw
  exact ⟨rfl, List.append_cancel_left h⟩

theorem exists_run (accepts : Char → Bool) (text : List Char) :
    ∃ run rest, text = run ++ rest ∧ (∀ c ∈ run, accepts c = true) ∧ Ends accepts rest := by
  induction text with
  | nil => exact ⟨[], [], rfl, by simp, by simp [Ends]⟩
  | cons c text ih =>
    cases hc : accepts c with
    | false => exact ⟨[], c :: text, rfl, by simp, by simp [Ends, hc]⟩
    | true =>
      obtain ⟨run, rest, rfl, hrun, hrest⟩ := ih
      exact ⟨c :: run, rest, rfl, by simpa [hc] using hrun, hrest⟩

/-- The characters of ASCII that are seen are not blank. -/
theorem isBlank_of_visible {c : Char} (h : 33 ≤ c.toNat ∧ c.toNat ≤ 126) : isBlank c = false := by
  simp only [isBlank, blankRanges, List.any_cons, List.any_nil, Bool.or_false, Bool.or_eq_false_iff,
    Bool.and_eq_false_iff, decide_eq_false_iff_not]
  omega

theorem isBlank_of_isNumeric {c : Char} (h : isNumeric c = true) : isBlank c = false := by
  refine isBlank_of_visible ?_
  simp only [isNumeric, Bool.or_eq_true, decide_eq_true_eq] at h
  rcases h with (h | rfl) | rfl
  · simp only [Char.isDigit, Bool.and_eq_true, decide_eq_true_eq, ge_iff_le,
      UInt32.le_iff_toNat_le] at h
    have hdigit : 48 ≤ c.toNat ∧ c.toNat ≤ 57 := h
    omega
  · decide
  · decide

theorem isBlank_of_isNameChar {c : Char} (h : isNameChar c = true) : isBlank c = false := by
  refine isBlank_of_visible ?_
  have h : (c.isUpper || c.isLower || c.isDigit || c = '_') = true := h
  simp only [Bool.or_eq_true, decide_eq_true_eq] at h
  rcases h with ((h | h) | h) | rfl
  · have hupper : 65 ≤ c.toNat ∧ c.toNat ≤ 90 := of_decide_eq_true h
    omega
  · obtain ⟨hlow, hhigh⟩ := Bool.and_eq_true_iff.mp h
    have hlower : 97 ≤ c.toNat ∧ c.toNat ≤ 122 := ⟨of_decide_eq_true hlow, of_decide_eq_true hhigh⟩
    omega
  · obtain ⟨hlow, hhigh⟩ := Bool.and_eq_true_iff.mp h
    have hdigit : 48 ≤ c.toNat ∧ c.toNat ≤ 57 := ⟨of_decide_eq_true hlow, of_decide_eq_true hhigh⟩
    omega
  · decide

end Text

namespace Lexeme

theorem ofChar?_eq_blank_iff {c : Char} : ofChar? c = some .blank ↔ Text.isBlank c = true := by
  unfold ofChar?
  cases Text.isBlank c <;> cases Text.isNumeric c <;> simp
  split <;> simp

theorem ofChar?_eq_numeric_iff {c : Char} :
    ofChar? c = some .numeric ↔ Text.isNumeric c = true ∧ Text.isBlank c = false := by
  unfold ofChar?
  cases Text.isBlank c <;> cases Text.isNumeric c <;> simp
  split <;> simp

theorem ofChar?_eq_opening_iff {c : Char} : ofChar? c = some .opening ↔ c = '(' := by
  constructor
  · unfold ofChar?
    cases Text.isBlank c <;> cases Text.isNumeric c <;> simp
  · rintro rfl
    decide

end Lexeme

namespace OperatorTable

/-- The longest symbol of the table with which a text begins. -/
def IsLongest (t : OperatorTable) (symbol : String) (text : List Char) : Prop :=
  t.contains symbol = true ∧ symbol.toList <+: text ∧
    ∀ other, t.contains other = true → other.toList <+: text →
      other.toList.length ≤ symbol.toList.length

variable {t : OperatorTable} {symbol : String} {text : List Char}

theorem contains_iff_mem : t.contains symbol = true ↔ symbol ∈ t.entries.map Prod.fst := by
  simp only [contains, get?, Option.isSome_map, List.find?_isSome, List.mem_map, beq_iff_eq]

theorem isSymbol_of_contains (h : t.contains symbol = true) : isSymbol symbol = true := by
  obtain ⟨e, he, rfl⟩ := List.mem_map.mp (contains_iff_mem.mp h)
  exact t.symbols e he

/-- A text begins with one symbol of a length at most. -/
theorem eq_of_length {a b : String} (ha : a.toList <+: text) (hb : b.toList <+: text)
    (h : a.toList.length = b.toList.length) : a = b := by
  have hs : a.toList = b.toList := by
    rw [List.prefix_iff_eq_take.mp ha, List.prefix_iff_eq_take.mp hb, h]
  exact String.toList_inj.mp hs

theorem IsLongest.unique {other : String} (h : t.IsLongest symbol text)
    (h' : t.IsLongest other text) : symbol = other :=
  eq_of_length h.2.1 h'.2.1 (Nat.le_antisymm (h'.2.2 _ h.1 h.2.1) (h.2.2 _ h'.1 h'.2.1))

/-- Of two symbols with which a text begins, the one with more bytes has no fewer characters. -/
theorem length_le_of_bytes {a b : String} (ha : a.toList <+: text) (hb : b.toList <+: text)
    (h : a.utf8ByteSize ≤ b.utf8ByteSize) : a.toList.length ≤ b.toList.length := by
  by_contra hlt
  obtain ⟨more, hm⟩ := List.prefix_of_prefix_length_le hb ha (by omega)
  have hne : more ≠ [] := by
    rintro rfl
    simp [← hm] at hlt
  have hs : a = b ++ String.ofList more := by
    rw [← String.toList_inj, String.toList_append, String.toList_ofList, hm]
  have hz : (String.ofList more).utf8ByteSize ≠ 0 := by
    simpa using hne
  rw [hs, String.utf8ByteSize_append] at h
  omega

theorem longestMatch_eq_some_iff : t.longestMatch text = some symbol ↔ t.IsLongest symbol text := by
  have longest : ∀ {s}, t.longestMatch text = some s → t.IsLongest s text := by
    intro s h
    obtain ⟨hm, hp⟩ := longestOf_eq_some h
    refine ⟨contains_iff_mem.mpr hm, hp, fun other ho hpo => length_le_of_bytes hpo hp ?_⟩
    obtain ⟨s', hs', hle⟩ := le_longestOf (contains_iff_mem.mp ho) hpo
    rw [longestMatch, hs'] at h
    cases h
    exact hle
  constructor
  · exact longest
  · intro h
    obtain ⟨s, hs, -⟩ := le_longestOf (contains_iff_mem.mp h.1) h.2.1
    rw [h.unique (longest hs)]
    exact hs

theorem longestMatch_eq_none_iff : t.longestMatch text = none ↔
    ∀ symbol, t.contains symbol = true → ¬symbol.toList <+: text := by
  constructor
  · intro h symbol hs hfront
    obtain ⟨s, hlong, -⟩ := le_longestOf (contains_iff_mem.mp hs) hfront
    rw [longestMatch, hlong] at h
    cases h
  · intro h
    refine Option.eq_none_iff_forall_ne_some.mpr fun symbol hs => ?_
    have hlong := longestMatch_eq_some_iff.mp hs
    exact h symbol hlong.1 hlong.2.1

/-- Only the symbols of a table count for what is the longest. -/
theorem longestMatch_congr {t' : OperatorTable}
    (h : ∀ symbol, t.contains symbol = t'.contains symbol) (text : List Char) :
    t.longestMatch text = t'.longestMatch text := by
  refine Option.ext fun symbol => ?_
  rw [longestMatch_eq_some_iff, longestMatch_eq_some_iff]
  simp only [IsLongest, h]

/-- A symbol begins with none of the parentheses, so none is found before one. -/
theorem longestMatch_parenthesis {c : Char} (hc : c = '(' ∨ c = ')') (rest : List Char) :
    t.longestMatch (c :: rest) = none := by
  cases hs : t.longestMatch (c :: rest) with
  | none => rfl
  | some s =>
    obtain ⟨hm, more, hmore⟩ := longestOf_eq_some hs
    have hsym := isSymbol_of_contains (contains_iff_mem.mpr hm)
    obtain ⟨d, ds, hd⟩ := List.exists_cons_of_ne_nil (longestMatch_ne_nil hs)
    rw [hd] at hmore
    cases hmore
    rcases hc with rfl | rfl <;> simp [isSymbol, hd] at hsym

/-- No symbol of the table contains a parenthesis. -/
def Parenless (t : OperatorTable) : Prop :=
  ∀ symbol, t.contains symbol = true → '(' ∉ symbol.toList ∧ ')' ∉ symbol.toList

theorem Parenless.insert {op : Operator} (h : t.Parenless) (ho : '(' ∉ symbol.toList)
    (hc : ')' ∉ symbol.toList) : (t.insert symbol op).Parenless := by
  intro other hother
  rw [contains, get?_insert] at hother
  split at hother
  · rename_i hs
    rw [hs.2]
    exact ⟨ho, hc⟩
  · exact h other hother

/-- Of the symbols of the table the minus, and it alone, begins with a minus. -/
def LoneMinus (t : OperatorTable) : Prop :=
  ∀ symbol, (t.contains symbol = true ∧ symbol.toList.head? = some '-') ↔ symbol = "-"

/-- Before whatever is no part of it, the minus is the longest symbol. -/
theorem LoneMinus.isLongest (h : t.LoneMinus) (rest : List Char) :
    t.IsLongest "-" ("-".toList ++ rest) := by
  refine ⟨((h "-").mpr rfl).1, List.prefix_append .., ?_⟩
  intro other ho hother
  by_cases hnil : other.toList = []
  · rw [hnil]
    exact Nat.zero_le _
  · obtain ⟨c, more, hs⟩ := List.exists_cons_of_ne_nil hnil
    rw [hs] at hother
    obtain ⟨rfl, -⟩ := List.cons_prefix_cons.mp hother
    obtain rfl := (h other).mp ⟨ho, by rw [hs]; rfl⟩
    exact Nat.le_refl _

/-- No symbol of the table contains what a reference or a number begins with. -/
def Unmixed (t : OperatorTable) : Prop :=
  ∀ symbol, t.contains symbol = true → ∀ c ∈ symbol.toList, c ≠ '$' ∧ c.isDigit = false

theorem Unmixed.longestMatch_mark (h : t.Unmixed) (rest : List Char) :
    t.longestMatch ('$' :: rest) = none := by
  cases hs : t.longestMatch ('$' :: rest) with
  | none => rfl
  | some symbol =>
    have hlong := longestMatch_eq_some_iff.mp hs
    obtain ⟨c, more, hc⟩ := List.exists_cons_of_ne_nil (longestMatch_ne_nil hs)
    have hfront := hlong.2.1
    rw [hc] at hfront
    obtain ⟨rfl, -⟩ := List.cons_prefix_cons.mp hfront
    exact absurd rfl (h symbol hlong.1 '$' (by simp [hc])).1

end OperatorTable

/-! ## A character that is none of a piece -/

section piece
variable {piece rest front behind : List Char}

/-- What comes first in a text goes before a character that is none of it. -/
theorem exists_of_append_eq {c : Char} (hc : c ∉ piece) (h : piece ++ rest = front ++ c :: behind) :
    ∃ more, front = piece ++ more ∧ rest = more ++ c :: behind := by
  rcases List.append_eq_append_iff.mp h with ⟨more, rfl, hmore⟩ | ⟨more, rfl, hmore⟩
  · exact ⟨more, rfl, hmore⟩
  · cases more with
    | nil => exact ⟨[], by simp, hmore.symm⟩
    | cons d more =>
      obtain ⟨rfl, -⟩ := List.cons.inj hmore
      simp at hc

theorem prefix_append_cons_iff {c : Char} (hc : c ∉ piece) :
    piece <+: front ++ c :: behind ↔ piece <+: front := by
  constructor
  · rintro ⟨rest, hrest⟩
    obtain ⟨more, rfl, -⟩ := exists_of_append_eq hc hrest
    exact List.prefix_append ..
  · exact fun h => h.trans (List.prefix_append ..)

end piece

/-! ## The closing bracket -/

section splitClose
variable {α : Type} [DecidableEq α] {opening closing : α} {nested : Nat} {text rest : List α}

theorem splitClose_closing : splitClose opening closing 0 (closing :: rest) = some ([], rest) := by
  simp [splitClose]

theorem splitClose_closing_succ : splitClose opening closing (nested + 1) (closing :: rest) =
    (splitClose opening closing nested rest).map fun p => (closing :: p.1, p.2) := by
  simp [splitClose]

theorem splitClose_opening (h : opening ≠ closing) :
    splitClose opening closing nested (opening :: rest) =
      (splitClose opening closing (nested + 1) rest).map fun p => (opening :: p.1, p.2) := by
  simp [splitClose, h]

theorem splitClose_cons {x : α} (ho : x ≠ opening) (hc : x ≠ closing) :
    splitClose opening closing nested (x :: rest) =
      (splitClose opening closing nested rest).map fun p => (x :: p.1, p.2) := by
  simp [splitClose, ho, hc]

/-- Where there is none of the brackets the search goes on behind. -/
theorem splitClose_append_of_not_mem (ho : opening ∉ text) (hc : closing ∉ text) :
    splitClose opening closing nested (text ++ rest) =
      (splitClose opening closing nested rest).map fun p => (text ++ p.1, p.2) := by
  induction text with
  | nil => simp
  | cons x text ih =>
    simp only [List.mem_cons, not_or] at ho hc
    rw [List.cons_append, splitClose_cons (Ne.symm ho.1) (Ne.symm hc.1), ih ho.2 hc.2,
      Option.map_map]
    rfl

end splitClose

/-! ## Level texts -/

/-- The parentheses of a level text balance, so the one that closes a group is behind it. -/
def Level (text : List Char) : Prop :=
  ∀ nested rest, splitClose '(' ')' nested (text ++ rest) =
    (splitClose '(' ')' nested rest).map fun p => (text ++ p.1, p.2)

namespace Level

theorem append {a b : List Char} (ha : Level a) (hb : Level b) : Level (a ++ b) := by
  intro nested rest
  rw [List.append_assoc, ha, hb, Option.map_map]
  simp [Function.comp_def]

theorem of_parenless {text : List Char} (ho : '(' ∉ text) (hc : ')' ∉ text) : Level text :=
  fun _ _ => splitClose_append_of_not_mem ho hc

theorem group {body : List Char} (h : Level body) : Level ('(' :: (body ++ [')'])) := by
  intro nested rest
  rw [List.cons_append, List.append_assoc, splitClose, if_neg (by simp)]
  simp [h (nested + 1), splitClose, Function.comp_def]

/-- A group with level contents is closed right behind them. -/
theorem splitClose_group {body : List Char} (h : Level body) (rest : List Char) :
    splitClose '(' ')' 0 (body ++ ')' :: rest) = some (body, rest) := by
  rw [h]
  simp [splitClose]

end Level

theorem Text.Blank.level {w : List Char} (hw : Blank w) : Level w :=
  Level.of_parenless (not_mem_run hw (by decide)) (not_mem_run hw (by decide))

theorem Text.level_of_numeric {literal : List Char} (hl : ∀ c ∈ literal, isNumeric c = true) :
    Level literal :=
  Level.of_parenless (not_mem_run hl (by decide)) (not_mem_run hl (by decide))

end Abacus
