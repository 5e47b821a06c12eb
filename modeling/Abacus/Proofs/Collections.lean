import Abacus.Proofs.Reference
import Mathlib.Data.List.Nodup
import Std.Data.HashMap
import Std.Data.TreeMap

/-!
# Collections of variables

Of a collection only the values count whose names the text refers to. A list has for a name the
first value that it was given and a map the last, so that pairs which give no name two values can be
put into a collection of any kind and in any order.
-/

namespace Abacus
open Text

/-! ## Names that are referred to -/

/-- The text refers to the name. -/
def Refers (text : List Char) (name : String) : Prop :=
  ∃ r ∈ Reference.all text, String.ofList r.name = name

instance (text : List Char) (name : String) : Decidable (Refers text name) :=
  inferInstanceAs (Decidable (∃ r ∈ Reference.all text, String.ofList r.name = name))

/-- What a part at the end refers to, the whole text refers to. -/
theorem Refers.append {text : List Char} {name : String} (h : Refers text name)
    (front : List Char) : Refers (front ++ text) name := by
  obtain ⟨r, hr, rfl⟩ := h
  exact ⟨_, Reference.mem_all_append_left front hr, rfl⟩

variable {lookup lookup' : String → Option Float} {text : List Char}

theorem finiteValue_congr {name : String} (h : lookup name = lookup' name) :
    finiteValue lookup name = finiteValue lookup' name := by
  rw [finiteValue, finiteValue, h]

/-- Values of other names do not matter. -/
theorem substitute_congr (h : ∀ name, Refers text name → lookup name = lookup' name) :
    substitute lookup text = substitute lookup' text := by
  induction hn : text.length using Nat.strongRecOn generalizing text with
  | ind n ih =>
  subst hn
  -- a name behind the first piece is one of the whole text
  have hbehind : ∀ piece rest : List Char, text = piece ++ rest →
      ∀ name, Refers rest name → lookup name = lookup' name := by
    rintro piece rest rfl name hname
    exact h name (hname.append piece)
  rcases exists_piece text with rfl | ⟨c, rest, rfl, hc⟩ | ⟨name, rest, rfl, hne, hname, hrest⟩
  · rw [substitute, substitute]
  · rw [substitute_char hc, substitute_char hc,
      ih rest.length (by simp) (hbehind [c] rest rfl) rfl]
  · have hfirst : Refers ('$' :: (name ++ rest)) (String.ofList name) :=
      ⟨⟨[], name, rest⟩, Reference.mem_all_iff.mpr ⟨rfl, hne, hname, hrest⟩, rfl⟩
    rw [substitute_reference hne hname hrest, substitute_reference hne hname hrest,
      finiteValue_congr (h _ hfirst),
      ih rest.length (length_lt_reference name rest) (hbehind ('$' :: name) rest rfl) rfl]

/-! ## Collections -/

namespace Variables

/-- A value in a list is that of a pair. -/
theorem mem_of_first? {pairs : List (String × Float)} {name : String} {x : Float}
    (h : first? pairs name = some x) : (name, x) ∈ pairs := by
  obtain ⟨p, hp, rfl⟩ := Option.map_eq_some_iff.mp h
  have hname : p.1 = name := by simpa using List.find?_some hp
  rw [← hname]
  exact List.mem_of_find?_eq_some hp

theorem isSome_first? (pairs : List (String × Float)) (name : String) :
    (first? pairs name).isSome = (pairs.map Prod.fst).contains name := by
  rw [Bool.eq_iff_iff]
  simp [first?]

end Variables

/-- A collection of one of the kinds that can be asked for names. -/
inductive Collection where
  | list (pairs : List (String × Float))
  | array (pairs : Array (String × Float))
  | vector {n : Nat} (pairs : Vector (String × Float) n)
  | hashMap (map : Std.HashMap String Float)
  | treeMap (map : Std.TreeMap String Float)
  | optionMap (map : Std.HashMap String (Option Float))

namespace Collection
open Variables (first?)

instance : Variables Collection where
  lookup
    | list pairs => Variables.lookup pairs
    | array pairs => Variables.lookup pairs
    | vector pairs => Variables.lookup pairs
    | hashMap map => Variables.lookup map
    | treeMap map => Variables.lookup map
    | optionMap map => Variables.lookup map

/-- Some pairs in a collection of every kind, put in one after the other. -/
def allOf (pairs : List (String × Float)) : List Collection :=
  [list pairs, array pairs.toArray, vector ⟨pairs.toArray, rfl⟩, hashMap (.ofList pairs),
    treeMap (.ofList pairs), optionMap (.ofList (pairs.map fun p => (p.1, some p.2)))]

variable {pairs pairs' : List (String × Float)} {name : String}

theorem first?_eq_findSome? (pairs : List (String × Float)) (name : String) :
    first? pairs name = pairs.findSome? fun p => if p.1 = name then some p.2 else none := by
  rw [first?]
  induction pairs with
  | nil => rfl
  | cons p pairs ih => by_cases hp : p.1 = name <;> simp [hp, ih]

theorem first?_map_some (pairs : List (String × Float)) (name : String) :
    ((pairs.map fun p => (p.1, some p.2)).findSome? fun p =>
      if p.1 = name then some p.2 else none).join = first? pairs name := by
  rw [first?_eq_findSome?]
  induction pairs with
  | nil => rfl
  | cons p pairs ih => by_cases hp : p.1 = name <;> simp [hp, ih]

/-- The first pair with a name counts in a list, and the last one in a map. -/
theorem lookup_of_mem_allOf {c : Collection} (h : c ∈ allOf pairs) (name : String) :
    Variables.lookup c name = first? pairs name ∨
      Variables.lookup c name = first? pairs.reverse name := by
  simp only [allOf, List.mem_cons, List.not_mem_nil, or_false] at h
  rcases h with rfl | rfl | rfl | rfl | rfl | rfl
  · exact .inl rfl
  · exact .inl rfl
  · exact .inl rfl
  · refine .inr ?_
    show (Std.HashMap.ofList pairs)[name]? = _
    rw [Std.HashMap.ofList_eq_insertMany_empty, Std.HashMap.getElem?_insertMany_list]
    simp [first?_eq_findSome?]
  · refine .inr ?_
    show (Std.TreeMap.ofList pairs)[name]? = _
    rw [Std.TreeMap.ofList_eq_insertMany_empty, Std.TreeMap.getElem?_insertMany_list]
    simp [first?_eq_findSome?]
  · refine .inr ?_
    show (Std.HashMap.ofList (pairs.map fun p => (p.1, some p.2)))[name]?.join = _
    rw [Std.HashMap.ofList_eq_insertMany_empty, Std.HashMap.getElem?_insertMany_list,
      ← first?_map_some]
    simp [List.map_reverse]

/-- The pairs give the name one value at most. -/
def Settled (pairs : List (String × Float)) (name : String) : Prop :=
  ∀ x y, (name, x) ∈ pairs → (name, y) ∈ pairs → x = y

theorem first?_eq_some_iff (h : Settled pairs name) {x : Float} :
    first? pairs name = some x ↔ (name, x) ∈ pairs := by
  constructor
  · exact Variables.mem_of_first?
  · intro hx
    cases hf : first? pairs name with
    | none =>
      have hnone := List.find?_eq_none.mp (Option.map_eq_none_iff.mp hf) _ hx
      simp at hnone
    | some y => rw [h x y hx (Variables.mem_of_first? hf)]

/-- In every kind of collection a name has the one value that it is given. -/
theorem lookup_eq_some_iff (h : Settled pairs name) {c : Collection} (hc : c ∈ allOf pairs)
    {x : Float} : Variables.lookup c name = some x ↔ (name, x) ∈ pairs := by
  rcases lookup_of_mem_allOf hc name with hlookup | hlookup
  · rw [hlookup, first?_eq_some_iff h]
  · have hback : Settled pairs.reverse name := by
      intro x y hx hy
      exact h x y (List.mem_reverse.mp hx) (List.mem_reverse.mp hy)
    rw [hlookup, first?_eq_some_iff hback, List.mem_reverse]

theorem settled_of_nodup (h : (pairs.map Prod.fst).Nodup) (name : String) :
    Settled pairs name := by
  intro x y hx hy
  exact congrArg Prod.snd (List.inj_on_of_nodup_map h hx hy rfl)

end Collection

/-! ## Expressions -/

namespace Calculator

variable {β γ : Type} [Variables β] [Variables γ]

theorem evaluateWith_of_lookup (k : Calculator) {expression : Option String} {bindings : β}
    {bindings' : γ} (h : ∀ name, Refers (expression.getD "").toList name →
      Variables.lookup bindings name = Variables.lookup bindings' name) :
    k.evaluateWith expression bindings = k.evaluateWith expression bindings' := by
  cases expression with
  | none => rfl
  | some text =>
    have hsame : substitute (Variables.lookup bindings) text.toList =
        substitute (Variables.lookup bindings') text.toList := substitute_congr h
    rw [evaluateWith, evaluateWith, textValueWith, textValueWith, hsame]

/-- Two collections, of whatever kinds, lead to the same outcome if they agree on the names that the
expression refers to. So pairs with different names lead to one outcome in all kinds of collections
and in any order, and with any more pairs that have names which it does not refer to. -/
theorem evaluateWith_referenced (k : Calculator) (expression : Option String) :
    (∀ (β γ : Type) [Variables β] [Variables γ] (bindings : β) (bindings' : γ),
      (∀ name, Refers (expression.getD "").toList name →
        Variables.lookup bindings name = Variables.lookup bindings' name) →
      k.evaluateWith expression bindings = k.evaluateWith expression bindings') ∧
    ∀ pairs added pairs' : List (String × Float), (pairs.map Prod.fst).Nodup →
      (∀ p ∈ added, ¬Refers (expression.getD "").toList p.1) → pairs'.Perm (pairs ++ added) →
      ∀ c ∈ Collection.allOf pairs, ∀ c' ∈ Collection.allOf pairs',
        k.evaluateWith expression c' = k.evaluateWith expression c := by
  refine ⟨fun β γ _ _ bindings bindings' h => k.evaluateWith_of_lookup h, ?_⟩
  intro pairs added pairs' hnodup hadded hperm c hc c' hc'
  refine k.evaluateWith_of_lookup fun name hname => ?_
  -- what is added says nothing of this name
  have hmem : ∀ x, (name, x) ∈ pairs' ↔ (name, x) ∈ pairs := by
    intro x
    rw [hperm.mem_iff, List.mem_append]
    exact or_iff_left fun hx => hadded _ hx hname
  have hsettled := Collection.settled_of_nodup hnodup name
  have hsettled' : Collection.Settled pairs' name := by
    intro x y hx hy
    exact hsettled x y ((hmem x).mp hx) ((hmem y).mp hy)
  refine Option.ext fun x => ?_
  rw [Collection.lookup_eq_some_iff hsettled' hc', Collection.lookup_eq_some_iff hsettled hc, hmem]

/-- A longer name and a value that is no number, in front of the pairs that count. -/
theorem evaluateWith_referenced_map :
    ([("x", (2 : Float)), ("y", 3)].map Prod.fst).Nodup ∧
    (∀ p ∈ [("xy", Double.nan)], ¬Refers "$x*$y".toList p.1) ∧
    [("xy", Double.nan), ("y", (3 : Float)), ("x", 2)].Perm
      ([("x", (2 : Float)), ("y", 3)] ++ [("xy", Double.nan)]) ∧
    ({} : Calculator).evaluateWith (some "$x*$y") [("x", (2 : Float)), ("y", 3)] = .ok 6 ∧
    ({} : Calculator).evaluateWith (some "$x*$y")
      (Std.HashMap.ofList [("xy", Double.nan), ("y", (3 : Float)), ("x", 2)]) = .ok 6 := by
  have hnodup : ([("x", (2 : Float)), ("y", 3)].map Prod.fst).Nodup := by decide
  have hadded : ∀ p ∈ [("xy", Double.nan)], ¬Refers "$x*$y".toList p.1 := by decide +kernel
  have hperm : [("xy", Double.nan), ("y", (3 : Float)), ("x", 2)].Perm
      ([("x", (2 : Float)), ("y", 3)] ++ [("xy", Double.nan)]) :=
    (List.reverse_perm _).symm
  have hvalue : ({} : Calculator).evaluateWith (some "$x*$y") [("x", (2 : Float)), ("y", 3)] =
      .ok 6 := by decide +kernel
  have hsame := (evaluateWith_referenced {} (some "$x*$y")).2 _ _ _ hnodup hadded hperm
    (.list [("x", 2), ("y", 3)]) (by simp [Collection.allOf])
    (.hashMap (.ofList [("xy", Double.nan), ("y", 3), ("x", 2)])) (by simp [Collection.allOf])
  exact ⟨hnodup, hadded, hperm, hvalue, hsame.trans hvalue⟩

end Calculator

end Abacus
