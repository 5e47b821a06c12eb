import Abacus.Proofs.Registration
import Mathlib.Data.Finset.Card
import Mathlib.Data.Finset.Dedup

/-!
# Tables by their insertions

A table is made by insertions, some of which are refused. Of the others it keeps the last one for
each symbol, and all that can be asked of it is answered from these. The order in which its entries
stand shows nowhere.
-/

namespace Abacus
open Registration

/-- Not empty, and with no parenthesis in front. -/
def Acceptable (symbol : String) : Prop :=
  symbol ≠ "" ∧ ¬['('] <+: symbol.toList ∧ ¬[')'] <+: symbol.toList

instance : DecidablePred Acceptable :=
  fun _ => inferInstanceAs (Decidable (_ ∧ _))

theorem isSymbol_iff {symbol : String} : isSymbol symbol = true ↔ Acceptable symbol := by
  rw [Acceptable, ne_eq, ← String.toList_eq_nil_iff, isSymbol]
  cases symbol.toList with
  | nil => simp
  | cons c rest => simp [List.cons_prefix_cons, @eq_comm _ c]

/-! ## Insertions that count -/

namespace Registration
variable {rs : List Registration} {symbol : String} {op : Operator}

theorem last?_eq_none_iff :
    last? rs symbol = none ↔ (Acceptable symbol → ∀ r ∈ rs, r.1 ≠ symbol) := by
  simp only [last?, Option.map_eq_none_iff, List.getLast?_eq_none_iff, List.filter_eq_nil_iff,
    Bool.and_eq_true, beq_iff_eq, isSymbol_iff]
  constructor
  · rintro h hsymbol r hr rfl
    exact h r hr ⟨hsymbol, rfl⟩
  · rintro h r hr ⟨hsymbol, rfl⟩
    exact h hsymbol r hr rfl

/-- Behind the insertion that counts there is no other one of the symbol. -/
theorem last?_eq_some_iff : last? rs symbol = some op ↔ Acceptable symbol ∧
    ∃ before after, rs = before ++ (symbol, op) :: after ∧ ∀ r ∈ after, r.1 ≠ symbol := by
  induction rs with
  | nil => simp [last?]
  | cons r rs ih =>
    simp only [last?_cons, isSymbol_iff, Option.or_eq_some_iff, ih, last?_eq_none_iff]
    constructor
    · rintro (⟨hsymbol, before, after, rfl, hafter⟩ | ⟨hlater, hr⟩)
      · exact ⟨hsymbol, r :: before, after, rfl, hafter⟩
      · obtain ⟨⟨hsymbol, rfl⟩, hop⟩ := Option.ite_none_right_eq_some.mp hr
        cases hop
        exact ⟨hsymbol, [], rs, rfl, hlater hsymbol⟩
    · rintro ⟨hsymbol, before, after, heq, hafter⟩
      cases before with
      | nil =>
        cases heq
        exact .inr ⟨fun _ => hafter, if_pos ⟨hsymbol, rfl⟩⟩
      | cons r' before =>
        cases heq
        exact .inl ⟨hsymbol, before, after, rfl, hafter⟩

end Registration

namespace OperatorTable
variable {t t' : OperatorTable} {symbol : String} {text : List Char}

theorem register_refused {op : Operator} (h : (t.register symbol op).1 = false) :
    (t.register symbol op).2 = t :=
  dif_neg (Bool.eq_false_iff.mp h)

/-- The table is made by the insertions. Those of arithmetic come in front, where it starts from
arithmetic. -/
inductive Made : OperatorTable → List Registration → Prop
  | empty : Made .empty []
  | arithmetic : Made .arithmetic builtins
  | register {t : OperatorTable} {rs : List Registration} (symbol : String) (op : Operator) :
      Made t rs → Made (t.register symbol op).2 (rs ++ [(symbol, op)])

theorem get?_register_snd {rs : List Registration} {op : Operator} {symbol : String}
    (h : ∀ other, t.get? other = last? rs other) (other : String) :
    (t.register symbol op).2.get? other = last? (rs ++ [(symbol, op)]) other := by
  rw [register, get?_insert, last?_append, last?_cons, ← h other]
  split <;> rfl

/-- A table answers with the insertions that count. -/
theorem Made.get?_eq {rs : List Registration} (h : Made t rs) (symbol : String) :
    t.get? symbol = last? rs symbol := by
  induction h generalizing symbol with
  | empty => rfl
  | arithmetic => exact (Calculator.last?_builtins symbol).symm
  | register inserted op _ ih => exact get?_register_snd ih symbol

variable {rs : List Registration}

theorem Made.contains_iff (h : Made t rs) : t.contains symbol = true ↔
    Acceptable symbol ∧ symbol ∈ rs.map Prod.fst := by
  rw [contains, h.get?_eq, Option.isSome_iff_ne_none, ne_eq, last?_eq_none_iff]
  simp only [Classical.not_imp, not_forall, not_not, List.mem_map]

theorem Made.size_eq (h : Made t rs) :
    t.size = ((rs.map Prod.fst).toFinset.filter Acceptable).card := by
  rw [size, ← List.length_map Prod.fst, ← List.toFinset_card_of_nodup t.distinct]
  congr 1
  ext symbol
  rw [List.mem_toFinset, ← contains_iff_mem, h.contains_iff, Finset.mem_filter,
    List.mem_toFinset, and_comm]

/-! ## The longest symbol -/

theorem longestMatch_eq_some_iff_bytes : t.longestMatch text = some symbol ↔
    t.contains symbol = true ∧ symbol.toList <+: text ∧
      ∀ other, t.contains other = true → other.toList <+: text → other ≠ symbol →
        other.utf8ByteSize < symbol.utf8ByteSize := by
  rw [longestMatch_eq_some_iff, IsLongest]
  refine and_congr_right fun _ => and_congr_right fun hfront => ?_
  constructor
  · intro hlong other hother hfront' hne
    by_contra hle
    -- as many characters at least, so the same ones
    have hlength := length_le_of_bytes hfront hfront' (Nat.not_lt.mp hle)
    exact hne (eq_of_length hfront' hfront (Nat.le_antisymm (hlong other hother hfront') hlength))
  · intro hbytes other hother hfront'
    by_cases heq : other = symbol
    · rw [heq]
    · exact length_le_of_bytes hfront' hfront (hbytes other hother hfront' heq).le

/-- What a table answers is decided by the insertions that count, which are those of acceptable
symbols, each the last one of its own. It is their symbols that the longest one is among, and where
their entries stand decides nothing. -/
theorem represents_insertions {t : OperatorTable} {rs : List Registration} (h : Made t rs) :
    (∀ symbol op, ((t.register symbol op).1 = true ↔ Acceptable symbol) ∧
      ((t.register symbol op).1 = false → (t.register symbol op).2 = t)) ∧
    (∀ e ∈ t.entries, Acceptable e.1) ∧
    (∀ symbol op, t.get? symbol = some op ↔ Acceptable symbol ∧
      ∃ before after, rs = before ++ (symbol, op) :: after ∧ ∀ r ∈ after, r.1 ≠ symbol) ∧
    t.size = ((rs.map Prod.fst).toFinset.filter Acceptable).card ∧
    (t.entries.map Prod.fst).Nodup ∧
    (∀ symbol op, (symbol, op) ∈ t.entries ↔ t.get? symbol = some op) ∧
    (∀ symbol, t.contains symbol = true ↔ ∃ op, t.get? symbol = some op) ∧
    ∀ t' : OperatorTable, t'.entries.Perm t.entries → ∀ text,
      (∀ symbol, t'.longestMatch text = some symbol ↔
        t.contains symbol = true ∧ symbol.toList <+: text ∧
          ∀ other, t.contains other = true → other.toList <+: text → other ≠ symbol →
            other.utf8ByteSize < symbol.utf8ByteSize) ∧
      (t'.longestMatch text = none ↔
        ∀ symbol, t.contains symbol = true → ¬symbol.toList <+: text) := by
  refine ⟨fun symbol op => ⟨isSymbol_iff, register_refused⟩,
    fun e he => isSymbol_iff.mp (t.symbols e he), fun symbol op => ?_, h.size_eq, t.distinct,
    fun symbol op => get?_eq_some_iff.symm, fun symbol => Option.isSome_iff_exists,
    fun t' hperm text => ?_⟩
  · rw [h.get?_eq, last?_eq_some_iff]
  · have hcontains : ∀ symbol, t'.contains symbol = t.contains symbol := by
      intro symbol
      rw [contains, contains, get?_perm hperm]
    rw [longestMatch_congr hcontains]
    exact ⟨fun symbol => longestMatch_eq_some_iff_bytes, longestMatch_eq_none_iff⟩

open Calculator in
theorem represents_insertions_overwritten :
    ∃ t, Made t (builtins ++ [("*", maximum.2)] ++ [("(*", minimum.2)] ++ [("*÷", minimum.2)]) ∧
      t.get? "*" = some maximum.2 ∧ t.contains "(*" = false ∧ t.size = 7 ∧
      t.longestMatch "*÷2".toList = some "*÷" ∧ t.longestMatch "÷2".toList = none := by
  obtain ⟨t, hmade⟩ : ∃ t, Made t
      (builtins ++ [("*", maximum.2)] ++ [("(*", minimum.2)] ++ [("*÷", minimum.2)]) :=
    ⟨_, ((Made.arithmetic.register _ _).register _ _).register _ _⟩
  obtain ⟨-, -, hget, hsize, -, -, hcontains, hlongest⟩ := represents_insertions hmade
  have hsymbols : ∀ symbol, t.contains symbol = true →
      symbol ∈ ["+", "-", "*", "/", "%", "^", "*", "(*", "*÷"] :=
    fun symbol h => (hmade.contains_iff.mp h).2
  have hpair : t.get? "*÷" = some minimum.2 :=
    (hget _ _).mpr ⟨by decide, _, [], rfl, by decide⟩
  refine ⟨t, hmade, (hget _ _).mpr ⟨by decide, builtins, _, rfl, by decide⟩, ?_, ?_, ?_, ?_⟩
  · refine Bool.eq_false_iff.mpr fun h => ?_
    obtain ⟨op, hop⟩ := (hcontains _).mp h
    exact absurd ((hget _ _).mp hop).1 (by decide)
  · rw [hsize]
    decide
  · have hshorter : ∀ other ∈ ["+", "-", "*", "/", "%", "^", "*", "(*", "*÷"], other ≠ "*÷" →
        other.utf8ByteSize < "*÷".utf8ByteSize := by decide
    exact ((hlongest t (.refl _) _).1 _).mpr ⟨(hcontains _).mpr ⟨_, hpair⟩, by decide,
      fun other h _ hne => hshorter other (hsymbols other h) hne⟩
  · have hnone : ∀ symbol ∈ ["+", "-", "*", "/", "%", "^", "*", "(*", "*÷"],
        ¬symbol.toList <+: "÷2".toList := by decide
    exact (hlongest t (.refl _) _).2.mpr fun symbol h => hnone symbol (hsymbols symbol h)

end OperatorTable
end Abacus
