import Abacus.Chain
import Abacus.Error

/-!
# Operator tables

A table gives operator symbols their operations. A symbol is not empty and does not begin with a
parenthesis, so that neither the end of a text nor a group can be taken for an operator, and a
table holds each symbol once.
-/
namespace Abacus

/-- An operation on doubles, which may refuse its operands. -/
abbrev Operator := Operation EvalError Float

/-- What may be an operator's symbol. -/
def isSymbol (s : String) : Bool :=
  match s.toList with
  | [] => false
  | c :: _ => c != '(' && c != ')'

structure OperatorTable where
  entries : List (String × Operator)
  symbols : ∀ e ∈ entries, isSymbol e.1
  distinct : (entries.map Prod.fst).Nodup

namespace OperatorTable

def empty : OperatorTable := ⟨[], by simp, by simp⟩

/-- The table with one more operation, or another one for its symbol. What is no symbol leaves
the table as it is. -/
def insert (t : OperatorTable) (symbol : String) (op : Operator) : OperatorTable :=
  if h : isSymbol symbol then
    { entries := (symbol, op) :: t.entries.filter (·.1 != symbol)
      symbols := by
        intro e he
        rcases List.mem_cons.1 he with rfl | he
        · exact h
        · exact t.symbols e (List.mem_filter.1 he).1
      distinct := by
        rw [List.map_cons, List.nodup_cons]
        refine ⟨?_, (List.filter_sublist.map _).nodup t.distinct⟩
        intro hm
        obtain ⟨e, he, rfl⟩ := List.mem_map.1 hm
        simpa using (List.mem_filter.1 he).2 }
  else t

/-- An insertion, with the answer whether the symbol was accepted. -/
def register (t : OperatorTable) (symbol : String) (op : Operator) : Bool × OperatorTable :=
  (isSymbol symbol, t.insert symbol op)

def get? (t : OperatorTable) (symbol : String) : Option Operator :=
  (t.entries.find? (·.1 == symbol)).map Prod.snd

@[simp] theorem get?_empty (symbol : String) : empty.get? symbol = none := rfl

/-- An insertion is seen at its own symbol, if it is one, and nowhere else. -/
theorem get?_insert (t : OperatorTable) (symbol other : String) (op : Operator) :
    (t.insert symbol op).get? other =
      if isSymbol symbol = true ∧ other = symbol then some op else t.get? other := by
  unfold insert get?
  split
  · rename_i h
    by_cases ho : other = symbol
    · simp [h, ho]
    · have hs : (symbol == other) = false := by simpa using Ne.symm ho
      have hf : (t.entries.filter (·.1 != symbol)).find? (·.1 == other) =
          t.entries.find? (·.1 == other) := by
        rw [List.find?_filter]
        congr 1
        funext e
        by_cases he : e.1 = other <;> simp [he, ho]
      simp [hs, ho, hf]
  · rename_i h
    simp [h]

def contains (t : OperatorTable) (symbol : String) : Bool := (t.get? symbol).isSome

def size (t : OperatorTable) : Nat := t.entries.length

/-- The longest of some symbols with which a text begins. -/
def longestOf (text : List Char) : List String → Option String
  | [] => none
  | s :: more =>
    if s.toList.isPrefixOf text then
      match longestOf text more with
      | some t => if t.utf8ByteSize < s.utf8ByteSize then some s else some t
      | none => some s
    else longestOf text more

def longestMatch (t : OperatorTable) (text : List Char) : Option String :=
  longestOf text (t.entries.map Prod.fst)

/-- What is found is one of the symbols, and the text begins with it. -/
theorem longestOf_eq_some {text : List Char} {symbols : List String} {s : String}
    (h : longestOf text symbols = some s) : s ∈ symbols ∧ s.toList <+: text := by
  induction symbols generalizing s with
  | nil => simp [longestOf] at h
  | cons u more ih =>
    rw [longestOf] at h
    split at h
    · rename_i hu
      have hu' : u.toList <+: text := List.isPrefixOf_iff_prefix.1 hu
      split at h
      · rename_i t ht
        split at h
        · cases h; exact ⟨List.mem_cons_self, hu'⟩
        · cases h; exact ⟨List.mem_cons_of_mem _ (ih ht).1, (ih ht).2⟩
      · cases h; exact ⟨List.mem_cons_self, hu'⟩
    · exact ⟨List.mem_cons_of_mem _ (ih h).1, (ih h).2⟩

/-- No symbol with which the text begins is longer than the one found, and one is found if
there is any. -/
theorem le_longestOf {text : List Char} {symbols : List String} {u : String} (hu : u ∈ symbols)
    (hp : u.toList <+: text) :
    ∃ s, longestOf text symbols = some s ∧ u.utf8ByteSize ≤ s.utf8ByteSize := by
  induction symbols with
  | nil => simp at hu
  | cons v more ih =>
    rw [longestOf]
    rcases List.mem_cons.1 hu with rfl | hu
    · rw [if_pos (List.isPrefixOf_iff_prefix.2 hp)]
      split
      · rename_i t ht
        split
        · exact ⟨_, rfl, Nat.le_refl _⟩
        · exact ⟨t, rfl, by omega⟩
      · exact ⟨_, rfl, Nat.le_refl _⟩
    · obtain ⟨s, hs, hle⟩ := ih hu
      rw [hs]
      split
      · simp only
        split
        · exact ⟨v, rfl, by omega⟩
        · exact ⟨s, rfl, hle⟩
      · exact ⟨s, rfl, hle⟩

/-- A symbol that is found has a first character. -/
theorem longestMatch_ne_nil {t : OperatorTable} {text : List Char} {s : String}
    (h : t.longestMatch text = some s) : s.toList ≠ [] := by
  intro hs
  obtain ⟨e, he, rfl⟩ := List.mem_map.1 (longestOf_eq_some h).1
  have := t.symbols e he
  simp [isSymbol, hs] at this

end OperatorTable

end Abacus
