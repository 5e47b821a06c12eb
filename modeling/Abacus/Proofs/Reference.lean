import Abacus.Proofs.Agreement

/-!
# References

The references of a text, and a rule that reads each of them as one token. With the rule a text is
read as it stands, and none of its references is ever replaced by text.
-/

namespace Abacus
open Text

/-! ## The references of a text -/

/-- A reference in a text: what is in front of it, its name and what is behind it. -/
structure Reference where
  front : List Char
  name : List Char
  behind : List Char

namespace Reference

/-- The text that the reference is in. -/
def text (r : Reference) : List Char := r.front ++ '$' :: (r.name ++ r.behind)

/-- All references of a text. -/
def all : List Char → List Reference
  | [] => []
  | c :: text =>
    let later := (all text).map fun r => { r with front := c :: r.front }
    if c = '$' ∧ text.takeWhile isNameChar ≠ [] then
      ⟨[], text.takeWhile isNameChar, text.dropWhile isNameChar⟩ :: later
    else later

/-- What a reference must be for its literal to stand for its value. The value is finite, and the
literal does not run into what is next to it. The literal of a value with a sign is a group, which
must be within the limit. -/
structure Fits (k : Calculator) (lookup : String → Option Float) (depth : Nat) (r : Reference) :
    Prop where
  value : ∃ x ∈ lookup (String.ofList r.name), x.isFinite = true ∧
    (Double.isNegative x = true → depth + r.front.count '(' < r.front.count ')' + k.maxDepth)
  before : r.front.getLast?.any isNumeric = false
  behind : r.behind.head? ≠ some '.'
  apart : ∀ next ∈ all r.behind, next.front ≠ []

instance (k : Calculator) (lookup : String → Option Float) (depth : Nat) (r : Reference) :
    Decidable (r.Fits k lookup depth) :=
  decidable_of_iff ((∃ x ∈ lookup (String.ofList r.name), x.isFinite = true ∧
      (Double.isNegative x = true → depth + r.front.count '(' < r.front.count ')' + k.maxDepth)) ∧
    r.front.getLast?.any isNumeric = false ∧ r.behind.head? ≠ some '.' ∧
    ∀ next ∈ all r.behind, next.front ≠ [])
    ⟨fun ⟨hv, hb, hp, ha⟩ => ⟨hv, hb, hp, ha⟩, fun ⟨hv, hb, hp, ha⟩ => ⟨hv, hb, hp, ha⟩⟩

/-- All references of a text that stands so deep fit. -/
def AllFit (k : Calculator) (lookup : String → Option Float) (depth : Nat) (text : List Char) :
    Prop :=
  ∀ r ∈ all text, r.Fits k lookup depth

instance (k : Calculator) (lookup : String → Option Float) (depth : Nat) (text : List Char) :
    Decidable (AllFit k lookup depth text) :=
  inferInstanceAs (Decidable (∀ r ∈ all text, r.Fits k lookup depth))

variable {r : Reference} {text front piece behind : List Char}

theorem mem_all_cons_iff {c : Char} : r ∈ all (c :: text) ↔
    (c = '$' ∧ text.takeWhile isNameChar ≠ [] ∧
      r = ⟨[], text.takeWhile isNameChar, text.dropWhile isNameChar⟩) ∨
    ∃ later ∈ all text, { later with front := c :: later.front } = r := by
  rw [all]
  split
  · rename_i h
    rw [List.mem_cons, List.mem_map]
    simp only [h.1, h.2, true_and, ne_eq, not_false_eq_true]
  · rename_i h
    rw [List.mem_map]
    exact ⟨.inr, fun hr => hr.resolve_left fun hr => h ⟨hr.1, hr.2.1⟩⟩

/-- The references of a text are its parts that begin with a mark and go on with a whole name. -/
theorem mem_all_iff : r ∈ all text ↔ r.text = text ∧ r.name ≠ [] ∧
    (∀ c ∈ r.name, isNameChar c = true) ∧ Ends isNameChar r.behind := by
  induction text generalizing r with
  | nil => simp [all, Reference.text]
  | cons c text ih =>
    rw [mem_all_cons_iff]
    constructor
    · rintro (⟨rfl, hne, rfl⟩ | ⟨later, hl, rfl⟩)
      · obtain ⟨name, behind, rfl, hname, hbehind⟩ := exists_run isNameChar text
        rw [takeWhile_run hname hbehind] at hne ⊢
        rw [dropWhile_run hname hbehind]
        exact ⟨rfl, hne, hname, hbehind⟩
      · obtain ⟨ht, h⟩ := ih.mp hl
        exact ⟨by rw [← ht]; rfl, h⟩
    · obtain ⟨front, name, behind⟩ := r
      rintro ⟨ht, hne, hname, hbehind⟩
      cases front with
      | nil =>
        obtain ⟨rfl, rfl⟩ := List.cons.inj ht
        rw [takeWhile_run hname hbehind, dropWhile_run hname hbehind]
        exact .inl ⟨rfl, hne, rfl⟩
      | cons d front =>
        obtain ⟨rfl, hrest⟩ :=
          List.cons.inj (ht : d :: Reference.text ⟨front, name, behind⟩ = c :: text)
        exact .inr ⟨⟨front, name, behind⟩, ih.mpr ⟨hrest, hne, hname, hbehind⟩, rfl⟩

/-- A reference of a part is one of the whole text. -/
theorem mem_all_append (front : List Char) (h : r ∈ all piece) (hb : Ends isNameChar behind) :
    ⟨front ++ r.front, r.name, r.behind ++ behind⟩ ∈ all (front ++ (piece ++ behind)) := by
  obtain ⟨rfl, hne, hname, hend⟩ := mem_all_iff.mp h
  exact mem_all_iff.mpr ⟨by simp [Reference.text], hne, hname, hend.append hb⟩

theorem mem_all_append_left (front : List Char) (h : r ∈ all piece) :
    { r with front := front ++ r.front } ∈ all (front ++ piece) := by
  simpa using mem_all_append front h (Ends.nil _)

variable {k : Calculator} {lookup : String → Option Float} {depth d : Nat}

/-- In a part of a text the references fit at the depth of the part. -/
theorem AllFit.part (h : AllFit k lookup depth (front ++ (piece ++ behind)))
    (hb : Ends isNameChar behind) (hd : front.count '(' + depth = front.count ')' + d) :
    AllFit k lookup d piece := by
  intro r hr
  have hfits := h _ (mem_all_append front hr hb)
  obtain ⟨x, hx, hfin, hdepth⟩ := hfits.value
  refine ⟨⟨x, hx, hfin, fun hneg => ?_⟩, ?_, fun hc => ?_, fun next hnext hf => ?_⟩
  · have hroom := hdepth hneg
    rw [List.count_append, List.count_append] at hroom
    omega
  · have hbefore := hfits.before
    rw [List.getLast?_append] at hbefore
    cases hlast : r.front.getLast? with
    | none => rfl
    | some c => rwa [hlast] at hbefore
  · exact hfits.behind (by simp [List.head?_append, hc])
  · exact hfits.apart _ (mem_all_append [] hnext hb) hf

/-- No reference follows a number directly. -/
theorem AllFit.front_ne_nil {literal : List Char}
    (h : AllFit k lookup depth (front ++ literal ++ piece)) (hne : literal ≠ [])
    (hl : ∀ c ∈ literal, isNumeric c = true) : ∀ r ∈ all piece, r.front ≠ [] := by
  intro r hr hfront
  have hbefore := (h _ (mem_all_append_left (front ++ literal) hr)).before
  obtain ⟨more, last, rfl⟩ := (List.eq_nil_or_concat literal).resolve_left hne
  have hlast : isNumeric last = false := by simpa [hfront] using hbefore
  rw [hl last (by simp)] at hlast
  cases hlast

/-- Where all references are bound to finite values, they can be replaced. -/
theorem exists_substitutes
    (h : ∀ r ∈ all text, ∃ x ∈ lookup (String.ofList r.name), x.isFinite = true) :
    ∃ text', Substitutes lookup text text' := by
  induction hn : text.length using Nat.strongRecOn generalizing text with
  | ind n ih =>
  subst hn
  -- a reference behind the first piece is one of the whole text
  have hrest : ∀ piece rest : List Char, text = piece ++ rest → ∀ r ∈ all rest,
      ∃ x ∈ lookup (String.ofList r.name), x.isFinite = true := by
    rintro piece rest rfl r hr
    exact h { r with front := piece ++ r.front } (mem_all_append_left piece hr)
  rcases exists_piece text with rfl | ⟨c, rest, rfl, hc⟩ | ⟨name, rest, rfl, hne, hname, hends⟩
  · exact ⟨[], .nil⟩
  · obtain ⟨rest', hr⟩ := ih rest.length (by simp) (hrest [c] rest rfl) rfl
    exact ⟨c :: rest', .char hc hr⟩
  · obtain ⟨x, hx, hfin⟩ := h ⟨[], name, rest⟩ (mem_all_iff.mpr ⟨rfl, hne, hname, hends⟩)
    obtain ⟨rest', hr⟩ := ih rest.length (length_lt_reference name rest)
      (hrest ('$' :: name) rest rfl) rfl
    exact ⟨_, .reference hne hname hends hx hfin hr⟩

theorem exists_later (hpiece : '$' ∉ piece) (h : r ∈ all (piece ++ text)) :
    ∃ later ∈ all text, later.name = r.name := by
  induction piece generalizing r with
  | nil => exact ⟨r, h, rfl⟩
  | cons c piece ih =>
    rw [List.mem_cons, not_or] at hpiece
    rcases mem_all_cons_iff.mp h with ⟨rfl, -⟩ | ⟨later, hl, rfl⟩
    · exact absurd rfl hpiece.1
    · obtain ⟨later', hl', he⟩ := ih hpiece.2 hl
      exact ⟨later', hl', he⟩

/-- Of a text that can be replaced, all references are bound to finite values. -/
theorem exists_of_substitutes {text' : List Char} (h : Substitutes lookup text text') :
    ∀ r ∈ all text, ∃ x ∈ lookup (String.ofList r.name), x.isFinite = true := by
  induction h with
  | nil => simp [all]
  | char hc _ ih =>
    intro r hr
    rcases mem_all_cons_iff.mp hr with ⟨rfl, hne, -⟩ | ⟨later, hl, rfl⟩
    · exact absurd (takeWhile_eq_nil_iff_ends.mpr (hc.resolve_left fun h => h rfl)) hne
    · exact ih later hl
  | reference hne hname hends hx hfin _ ih =>
    intro r hr
    rcases mem_all_cons_iff.mp hr with ⟨-, -, rfl⟩ | ⟨later, hl, rfl⟩
    · rw [takeWhile_run hname hends]
      exact ⟨_, hx, hfin⟩
    · obtain ⟨later', hl', he⟩ := exists_later (not_mem_run hname (by decide)) hl
      obtain ⟨x, hx, hfin⟩ := ih later' hl'
      rw [he] at hx
      exact ⟨x, hx, hfin⟩

/-- No number goes on behind a reference. -/
theorem Fits.ends_behind (h : r.Fits k lookup depth) (hb : Ends isNameChar r.behind) :
    Ends isNumeric r.behind := by
  intro c hc
  have hname : isNameChar c = false := hb c hc
  have hpoint : c ≠ '.' := by
    rintro rfl
    exact h.behind hc
  simp only [isNameChar, Char.isAlphanum, Bool.or_eq_false_iff] at hname
  have he : c ≠ 'e' := by
    rintro rfl
    exact absurd hname.1.1 (by decide)
  simp [isNumeric, hname.1.2, hpoint, he]

end Reference

/-! ## The rule -/

/-- The value of the reference ahead. A mark without a name is no reference. -/
def Scan.reference (lookup : String → Option Float) : Scan Token := do
  let index ← ask Cursor.index
  discard bump
  let name ← eatWhile isNameChar
  if name = [] then .fail (.illegalText index)
  else match finiteValue lookup (String.ofList name) with
    | .ok x => return .operand x
    | .error cause => .fail cause

def Rule.reference (lookup : String → Option Float) : Rule where
  accepts c := c = '$'
  read := .reference lookup

/-- The calculator that reads references. -/
def Calculator.withReferences (k : Calculator) (lookup : String → Option Float) : Calculator :=
  k.withRule (.reference lookup) none

/-- The next character that is no blank is the mark of a reference. -/
def Cursor.AtMark (c : Cursor) : Prop := ∃ w rest, Blank w ∧ c.rest = w ++ '$' :: rest

variable {lookup : String → Option Float} {c : Cursor} {name rest : List Char}

theorem Scan.run_reference (lookup : String → Option Float)
    (hname : ∀ c ∈ name, isNameChar c = true) (hrest : Ends isNameChar rest)
    (hc : c.rest = '$' :: (name ++ rest)) :
    (Scan.reference lookup).run c =
      if name = [] then .error (.illegalText c.index)
      else (finiteValue lookup (String.ofList name)).map fun x =>
        (.operand x, c.take ('$' :: name).length) := by
  have hrun : (c.take 1).run isNameChar = name := by
    rw [Cursor.run, Cursor.take_rest, hc]
    exact takeWhile_run hname hrest
  have hread : (Scan.reference lookup).run c =
      Scan.run (if (c.take 1).run isNameChar = [] then .fail (.illegalText c.index)
        else match finiteValue lookup (String.ofList ((c.take 1).run isNameChar)) with
          | .ok x => .done (.operand x)
          | .error cause => .fail cause)
        ((c.take 1).take ((c.take 1).run isNameChar).length) := rfl
  rw [hread, hrun, Cursor.take_take]
  by_cases hne : name = []
  · rw [if_pos hne, if_pos hne]
    rfl
  · rw [if_neg hne, if_neg hne, List.length_cons, Nat.add_comm]
    cases finiteValue lookup (String.ofList name) <;> rfl

namespace Calculator

/-! ### The value of tokens -/

section values
variable (k : Calculator) (rules : List Rule)

/-- Rules count for reading alone. -/
theorem value_rules (t : Token) (depth : Nat) :
    ({ k with rules := rules } : Calculator).value depth t = k.value depth t := by
  have hlimit : ({ k with rules := rules } : Calculator).maxDepth = k.maxDepth := rfl
  exact value_congr hlimit depth fun _ _ => rfl

theorem normalize_rules (ts : List Token) (depth : Nat) :
    ({ k with rules := rules } : Calculator).normalize depth ts = k.normalize depth ts :=
  normalize_congr fun t _ => value_rules k rules t (depth + 1)

theorem value_withReferences (t : Token) (depth : Nat) :
    (k.withReferences lookup).value depth t = k.value depth t := value_rules k _ t depth

theorem normalize_withReferences (ts : List Token) (depth : Nat) :
    (k.withReferences lookup).normalize depth ts = k.normalize depth ts :=
  normalize_rules k _ ts depth

end values

/-! ### Steps -/

section steps
variable {k : Calculator} {w : List Char} (hk : k.rules = [])
include hk

theorem find?_withReferences (ch : Char) : Rule.find? (k.withReferences lookup).rules ch =
    if ch = '$' then some (.reference lookup) else none := by
  have hrules : (k.withReferences lookup).rules = [.reference lookup] := by
    rw [withReferences, withRule, hk]
    rfl
  rw [hrules]
  by_cases hch : ch = '$' <;> simp [Rule.find?, Rule.reference, hch]

/-- Away from marks the rule changes nothing. -/
theorem step_withReferences (lookup : String → Option Float) (hmark : ¬c.AtMark) :
    (k.withReferences lookup).step c = k.step c := by
  obtain ⟨w, rest, hc, hw, hb⟩ := exists_run isBlank c.rest
  rw [step_eq_stepAt hw rest hb hc, step_eq_stepAt hw rest hb hc, stepAt, stepAt, Cursor.peek,
    Cursor.take_append hc]
  cases rest with
  | nil => rfl
  | cons ch rest =>
    have hch : ch ≠ '$' := by
      rintro rfl
      exact hmark ⟨w, rest, hw, hc⟩
    have hnone : Rule.find? k.rules ch = none := by
      rw [hk]
      rfl
    simp only [List.head?_cons, find?_withReferences hk, if_neg hch, hnone]
    rfl

/-- What the rule reads at a mark. -/
theorem step_mark (lookup : String → Option Float) (hw : Blank w)
    (hname : ∀ c ∈ name, isNameChar c = true) (hrest : Ends isNameChar rest)
    (hc : c.rest = w ++ '$' :: (name ++ rest)) :
    (k.withReferences lookup).step c =
      if name = [] then .failed (.illegalText (c.take w.length).index)
      else match finiteValue lookup (String.ofList name) with
        | .ok x => .token (.operand x) (c.take (w ++ '$' :: name).length)
        | .error cause => .failed cause := by
  have hmark : (c.take w.length).rest = '$' :: (name ++ rest) := Cursor.take_append hc
  have hread := Scan.run_reference lookup hname hrest hmark
  have hstep : (k.withReferences lookup).step c =
      (Rule.reference lookup).step (c.take w.length) := by
    rw [step_eq_stepAt hw _ (by simp [Ends]; decide) hc, stepAt, Cursor.peek, hmark]
    simp only [List.head?_cons, find?_withReferences hk, if_true]
  rw [hstep]
  by_cases hne : name = []
  · rw [if_pos hne] at hread ⊢
    rw [Rule.step, Rule.reference, hread]
  · rw [if_neg hne] at hread ⊢
    cases hx : finiteValue lookup (String.ofList name) with
    | error cause =>
      rw [hx] at hread
      rw [Rule.step, Rule.reference, hread]
      rfl
    | ok x =>
      rw [hx] at hread
      have hne : (c.take w.length).rest ≠ [] := by
        rw [hmark]
        exact List.cons_ne_nil _ _
      rw [Rule.step_of_run hread, if_pos (Cursor.index_lt_take (by simp) hne), Cursor.take_take,
        ← List.length_append]

end steps

end Calculator

end Abacus
