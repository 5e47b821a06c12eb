import Abacus.Proofs.Agreement
import Abacus.Proofs.Phases
import Abacus.Proofs.Sequence
import Mathlib.Data.List.Nodup

/-!
# Registration of operators

Of the operators that are registered one after the other, only the last accepted one for each
symbol counts, and of their priorities only which of two is higher. A reduction compares priorities
and does nothing else with them, and the order of the table's entries decides nothing, as there is
one longest symbol at most.
-/

namespace Abacus

/-! ## Chains -/

namespace Chain

variable {σ ε α : Type} {operation operation' : σ → Except ε (Operation ε α)}

/-- The signs stand for the same computations, with priorities in the same order. -/
structure Agree (operation operation' : σ → Except ε (Operation ε α)) : Prop where
  compute : ∀ sign, (operation sign).map Operation.compute = (operation' sign).map Operation.compute
  order : ∀ {sign next : σ} {op op₂ op' op₂' : Operation ε α}, operation sign = .ok op →
    operation next = .ok op₂ → operation' sign = .ok op' → operation' next = .ok op₂' →
    (op.priority < op₂.priority ↔ op'.priority < op₂'.priority)

theorem Agree.cases (h : Agree operation operation') (sign : σ) :
    (∃ e, operation sign = .error e ∧ operation' sign = .error e) ∨
    ∃ op op', operation sign = .ok op ∧ operation' sign = .ok op' ∧ op.compute = op'.compute := by
  have hc := h.compute sign
  cases ho : operation sign with
  | error e =>
    cases ho' : operation' sign with
    | error e' =>
      rw [ho, ho'] at hc
      cases hc
      exact .inl ⟨e, rfl, rfl⟩
    | ok op' =>
      rw [ho, ho'] at hc
      cases hc
  | ok op =>
    cases ho' : operation' sign with
    | error e' =>
      rw [ho, ho'] at hc
      cases hc
    | ok op' =>
      rw [ho, ho'] at hc
      exact .inr ⟨op, op', rfl, rfl, Except.ok.inj hc⟩

/-- An operation waits for the next one in both reductions or in none. -/
theorem Agree.waits (h : Agree operation operation') {sign : σ} {op op' : Operation ε α}
    (ho : operation sign = .ok op) (ho' : operation' sign = .ok op')
    (more : List (σ × Except ε α)) :
    (nextPriority operation more).map (·.any (op.priority < ·)) =
      (nextPriority operation' more).map (·.any (op'.priority < ·)) := by
  match more with
  | [] => rfl
  | (next, _) :: _ =>
    rw [nextPriority, nextPriority]
    rcases h.cases next with ⟨e, hn, hn'⟩ | ⟨op₂, op₂', hn, hn', -⟩
    · rw [hn, hn']
      rfl
    · rw [hn, hn']
      have horder := h.order ho hn ho' hn'
      simp [Except.map, horder]

theorem reduce_cons (operation : σ → Except ε (Operation ε α)) (left : α) (sign : σ)
    (operand : Except ε α) (more : List (σ × Except ε α)) :
    reduce operation left ((sign, operand) :: more) = (do
      let op ← operation sign
      let right ← operand
      if ← (nextPriority operation more).map (·.any (op.priority < ·)) then
        op.compute left (← reduce operation right more)
      else
        reduce operation (← op.compute left right) more) := by
  rw [reduce]
  cases operation sign with
  | error => rfl
  | ok op =>
    cases operand with
    | error => rfl
    | ok right => cases nextPriority operation more <;> rfl

theorem Agree.reduce_eq (h : Agree operation operation') (left : α)
    (links : List (σ × Except ε α)) :
    reduce operation left links = reduce operation' left links := by
  induction links generalizing left with
  | nil => rfl
  | cons link more ih =>
    obtain ⟨sign, operand⟩ := link
    rw [reduce_cons, reduce_cons]
    rcases h.cases sign with ⟨e, ho, ho'⟩ | ⟨op, op', ho, ho', hc⟩
    · rw [ho, ho']
      rfl
    · simp only [ho, ho', bind, Except.bind, h.waits ho ho', hc, ih]

end Chain

/-! ## Tables -/

/-- The same symbols have operations, with the same computations and with priorities in the same
order. -/
structure SameOperations (lookup lookup' : String → Option Operator) : Prop where
  compute : ∀ symbol, (lookup symbol).map Operation.compute = (lookup' symbol).map Operation.compute
  order : ∀ {symbol next : String} {op op₂ op' op₂' : Operator}, lookup symbol = some op →
    lookup next = some op₂ → lookup' symbol = some op' → lookup' next = some op₂' →
    (op.priority < op₂.priority ↔ op'.priority < op₂'.priority)

theorem SameOperations.refl (lookup : String → Option Operator) : SameOperations lookup lookup := by
  refine ⟨fun _ => rfl, fun ho hn ho' hn' => ?_⟩
  rw [ho] at ho'
  rw [hn] at hn'
  cases ho'
  cases hn'
  exact Iff.rfl

theorem OperatorTable.get?_eq_some_iff {t : OperatorTable} {symbol : String} {op : Operator} :
    t.get? symbol = some op ↔ (symbol, op) ∈ t.entries := by
  rw [get?, Option.map_eq_some_iff]
  constructor
  · rintro ⟨e, he, rfl⟩
    obtain rfl : e.1 = symbol := by simpa using List.find?_some he
    exact List.mem_of_find?_eq_some he
  · intro hm
    have hsome : (t.entries.find? (·.1 == symbol)).isSome = true :=
      List.find?_isSome.mpr ⟨(symbol, op), hm, beq_self_eq_true symbol⟩
    obtain ⟨e, he⟩ := Option.isSome_iff_exists.mp hsome
    have hs : e.1 = symbol := by simpa using List.find?_some he
    obtain rfl := List.inj_on_of_nodup_map t.distinct (List.mem_of_find?_eq_some he) hm hs
    exact ⟨_, he, rfl⟩

/-- The order of the entries counts for nothing. -/
theorem OperatorTable.get?_perm {t t' : OperatorTable} (h : t.entries.Perm t'.entries) :
    t.get? = t'.get? := by
  funext symbol
  apply Option.ext
  intro op
  rw [get?_eq_some_iff, get?_eq_some_iff]
  exact h.mem_iff

namespace Calculator

variable {k k' : Calculator}

/-- The calculators differ at most in numbers for priorities that are in the same order. -/
structure SameTable (k k' : Calculator) : Prop where
  operations : SameOperations k.operators.get? k'.operators.get?
  rules : k.rules = k'.rules
  maxDepth : k.maxDepth = k'.maxDepth

theorem SameTable.contains_eq (h : k.SameTable k') (symbol : String) :
    k.operators.contains symbol = k'.operators.contains symbol :=
  contains_eq_of_map_eq (h.operations.compute symbol)

/-! ## Evaluation -/

theorem SameTable.agree (h : k.SameTable k') : Chain.Agree k.operator k'.operator := by
  constructor
  · intro t
    cases t with
    | operand | group => rfl
    | operator symbol =>
      have hc := h.operations.compute symbol
      rw [operator, operator]
      cases ho : k.operators.get? symbol <;> cases ho' : k'.operators.get? symbol <;>
        simp_all [Except.map]
  · intro t u op op₂ op' op₂' ho hn ho' hn'
    obtain ⟨symbol, rfl, hsymbol⟩ := operator_eq_ok_iff.mp ho
    obtain ⟨next, rfl, hnext⟩ := operator_eq_ok_iff.mp hn
    obtain ⟨_, ⟨⟩, hsymbol'⟩ := operator_eq_ok_iff.mp ho'
    obtain ⟨_, ⟨⟩, hnext'⟩ := operator_eq_ok_iff.mp hn'
    exact h.operations.order hsymbol hnext hsymbol' hnext'

theorem SameTable.guarded_eq (h : k.SameTable k') (depth : Nat) (x : Except EvalError Float) :
    k.guarded depth x = k'.guarded depth x := by
  rw [guarded, guarded, h.maxDepth]

mutual

theorem SameTable.value_eq (h : k.SameTable k') : ∀ (depth : Nat) (t : Token),
    k.value depth t = k'.value depth t
  | _, .operand x => by
    rw [value, value]
  | _, .operator symbol => by
    rw [value, value]
  | depth, .group [] => by
    rw [value, value, h.guarded_eq]
  | depth, .group (first :: more) => by
    rw [value, value, h.guarded_eq, h.value_eq (depth + 1) first, h.links_eq (depth + 1) more]
    simp only [h.agree.reduce_eq]

theorem SameTable.links_eq (h : k.SameTable k') : ∀ (depth : Nat) (ts : List Token),
    k.links depth ts = k'.links depth ts
  | _, [] => by
    rw [links, links]
  | _, [t] => by
    rw [links, links]
  | depth, t :: right :: more => by
    rw [links, links, h.value_eq depth right, h.links_eq depth more]

end

/-! ## Reading -/

theorem SameTable.normalize_eq (h : k.SameTable k') (depth : Nat) (ts : List Token) :
    k.normalize depth ts = k'.normalize depth ts :=
  normalize_congr fun t _ => h.value_eq (depth + 1) t

theorem SameTable.within_eq (h : k.SameTable k') (depth : Nat) (x : Except Failure (List Token)) :
    k.within depth x = k'.within depth x := by
  rw [within, within, h.maxDepth]

theorem SameTable.tokensFrom_eq (h : k.SameTable k') (c : Cursor) :
    k.tokensFrom c = k'.tokensFrom c := by
  have hroom : Roomier (fun _ => False) k k' := .of_eq h.maxDepth
  have hnormal : ∀ d : Cursor, d.input = c.input → ∀ ts, k.tokensFrom d = .ok ts →
      AgreeUnless (fun _ => False) (k.normalize d.depth ts) (k'.normalize d.depth ts) :=
    fun d _ ts _ => .of_eq (h.normalize_eq d.depth ts)
  exact (hroom.tokensFrom_agree (fun d _ => step_congr h.contains_eq h.rules d) hnormal
    rfl).eq_of_unstopped

theorem SameTable.token?_eq (h : k.SameTable k') (text : List Char) :
    k.token? text = k'.token? text := by
  simp only [token?, tokens, h.tokensFrom_eq, h.within_eq, h.normalize_eq]

/-- Such calculators have the same outcome for every expression. -/
theorem SameTable.evaluateWith_eq {β : Type} [Variables β] (h : k.SameTable k')
    (expression : Option String) (bindings : β) :
    k.evaluateWith expression bindings = k'.evaluateWith expression bindings := by
  cases expression with
  | none => rfl
  | some text =>
    simp only [evaluateWith, textValueWith, textValue, h.token?_eq, h.value_eq]

end Calculator

/-! ## Registrations -/

/-- A symbol and the operation that is registered for it. -/
abbrev Registration := String × Operator

namespace Registration

variable {rs : List Registration} {symbol : String}

/-- What is registered from the start. -/
def builtins : List Registration := Arithmetic.all.map fun op => (op.symbol, op.operator)

/-- The operation that was last accepted for a symbol. -/
def last? (rs : List Registration) (symbol : String) : Option Operator :=
  (rs.filter fun r => isSymbol r.1 && r.1 == symbol).getLast?.map Prod.snd

/-- The operation that a symbol has in the end, after so many registrations. -/
def final? (rs : List Registration) : String → Option Operator := last? (builtins ++ rs)

theorem last?_append (rs rs' : List Registration) (symbol : String) :
    last? (rs ++ rs') symbol = (last? rs' symbol).or (last? rs symbol) := by
  simp only [last?, List.filter_append, List.getLast?_append, Option.map_or]

theorem last?_cons (r : Registration) (rs : List Registration) (symbol : String) :
    last? (r :: rs) symbol =
      (last? rs symbol).or (if isSymbol r.1 = true ∧ symbol = r.1 then some r.2 else none) := by
  have hiff : (isSymbol r.1 && r.1 == symbol) = true ↔ isSymbol r.1 = true ∧ symbol = r.1 := by
    rw [Bool.and_eq_true, beq_iff_eq, @eq_comm _ r.1]
  rw [← List.singleton_append, last?_append]
  simp only [last?, List.filter_cons, List.filter_nil, hiff]
  split <;> rfl

theorem mem_of_last? {op : Operator} (h : last? rs symbol = some op) : (symbol, op) ∈ rs := by
  obtain ⟨r, hr, rfl⟩ := Option.map_eq_some_iff.mp h
  obtain ⟨hm, ha⟩ := List.mem_filter.mp (List.mem_of_getLast? hr)
  obtain rfl : r.1 = symbol := by simpa using (Bool.and_eq_true_iff.mp ha).2
  exact hm

/-- Operations changed without a look at their symbols are changed in the end. -/
theorem last?_map (f : Operator → Operator) (rs : List Registration) (symbol : String) :
    last? (rs.map (Prod.map id f)) symbol = (last? rs symbol).map f := by
  simp only [last?, List.filter_map, List.getLast?_map, Option.map_map]
  rfl

/-! What is registered in another order, again, or in vain, is the same in the end. -/

section final
variable (before between after : List Registration) {r r' : Registration}

theorem final?_swap (h : r.1 ≠ r'.1) :
    final? (before ++ r :: r' :: after) = final? (before ++ r' :: r :: after) := by
  funext symbol
  simp only [final?, last?_append, last?_cons]
  by_cases hr : symbol = r.1
  · have hr' : symbol ≠ r'.1 := hr ▸ h
    simp [hr']
  · simp [hr]

theorem final?_overwritten (h : r.1 = r'.1) :
    final? (before ++ r :: (between ++ r' :: after)) =
      final? (before ++ (between ++ r' :: after)) := by
  funext symbol
  simp only [final?, last?_append, last?_cons, h]
  by_cases hr : isSymbol r'.1 = true ∧ symbol = r'.1
  · simp [hr]
  · simp [hr]

theorem final?_refused (h : isSymbol r.1 = false) :
    final? (before ++ r :: after) = final? (before ++ after) := by
  funext symbol
  simp [final?, last?_append, last?_cons, h]

end final

/-- The registrations with other priorities, those from the start included. -/
def rescaled (f : Int → Int) (rs : List Registration) : List Registration :=
  (builtins ++ rs).map (Prod.map id fun op => { op with priority := f op.priority })

theorem final?_rescaled (f : Int → Int) (rs : List Registration) (symbol : String) :
    final? (rescaled f rs) symbol =
      (final? rs symbol).map fun op => { op with priority := f op.priority } := by
  rw [final?, last?_append, rescaled, last?_map, final?, last?_append]
  cases last? rs symbol with
  | some op => rfl
  | none =>
    cases last? builtins symbol with
    | some op => rfl
    | none => rfl

/-- Of two registered priorities, those from the start included, the higher stays the higher. -/
def KeepsOrder (f : Int → Int) (rs : List Registration) : Prop :=
  ∀ r ∈ builtins ++ rs, ∀ r' ∈ builtins ++ rs, r.2.priority < r'.2.priority →
    f r.2.priority < f r'.2.priority

theorem sameOperations_rescaled {f : Int → Int} (hf : KeepsOrder f rs) :
    SameOperations (final? rs) (final? (rescaled f rs)) := by
  constructor
  · intro symbol
    rw [final?_rescaled, Option.map_map]
    rfl
  · intro symbol next op op₂ op' op₂' ho hn ho' hn'
    rw [final?_rescaled, ho] at ho'
    rw [final?_rescaled, hn] at hn'
    cases ho'
    cases hn'
    have hup : op.priority < op₂.priority → f op.priority < f op₂.priority :=
      hf _ (mem_of_last? ho) _ (mem_of_last? hn)
    have hdown : op₂.priority < op.priority → f op₂.priority < f op.priority :=
      hf _ (mem_of_last? hn) _ (mem_of_last? ho)
    show op.priority < op₂.priority ↔ f op.priority < f op₂.priority
    rcases Int.lt_trichotomy op.priority op₂.priority with hlt | heq | hgt
    · exact iff_of_true hlt (hup hlt)
    · simp [heq]
    · have := hdown hgt
      exact iff_of_false (by omega) (by omega)

end Registration

open Registration

namespace Calculator

/-- The calculator after more registrations, one after the other. -/
def withOperators (k : Calculator) (rs : List Registration) : Calculator :=
  rs.foldl (fun k r => k.withOperator r.1 r.2) k

/-- The calculator after registrations from the start. -/
def register (rs : List Registration) : Calculator := withOperators {} rs

/-- The table has for a symbol what was last accepted for it, or else what it had. -/
theorem get?_withOperators (k : Calculator) (rs : List Registration) (symbol : String) :
    (k.withOperators rs).operators.get? symbol =
      (last? rs symbol).or (k.operators.get? symbol) := by
  induction rs generalizing k with
  | nil => rfl
  | cons r rs ih =>
    have hcons : k.withOperators (r :: rs) = (k.withOperator r.1 r.2).withOperators rs := rfl
    rw [hcons, ih, last?_cons, withOperator, OperatorTable.get?_insert]
    split <;> cases last? rs symbol <;> rfl

theorem last?_builtins (symbol : String) :
    last? builtins symbol = OperatorTable.arithmetic.get? symbol :=
  Option.or_none.symm.trans (get?_withOperators { operators := .empty } builtins symbol).symm

theorem get?_register (rs : List Registration) : (register rs).operators.get? = final? rs := by
  funext symbol
  rw [register, get?_withOperators, final?, last?_append, last?_builtins]

/-- No expression tells the calculators after the registrations apart, whatever order the entries
of their tables are in. -/
def Indistinguishable (rs rs' : List Registration) : Prop :=
  ∀ (t t' : OperatorTable) (rules : List Rule) (maxDepth : Nat),
    t.entries.Perm (register rs).operators.entries →
    t'.entries.Perm (register rs').operators.entries →
    ∀ (β : Type) [Variables β] (expression : Option String) (bindings : β),
      ({ operators := t, rules, maxDepth } : Calculator).evaluateWith expression bindings =
        ({ operators := t', rules, maxDepth } : Calculator).evaluateWith expression bindings

theorem indistinguishable_of_final? {rs rs' : List Registration}
    (h : SameOperations (final? rs) (final? rs')) : Indistinguishable rs rs' := by
  intro t t' rules maxDepth ht ht' β _ expression bindings
  have hsame : SameOperations t.get? t'.get? := by
    rwa [OperatorTable.get?_perm ht, OperatorTable.get?_perm ht', get?_register, get?_register]
  have htable : SameTable { operators := t, rules, maxDepth }
      { operators := t', rules, maxDepth } := ⟨hsame, rfl, rfl⟩
  exact htable.evaluateWith_eq expression bindings

theorem indistinguishable_of_final?_eq {rs rs' : List Registration} (h : final? rs = final? rs') :
    Indistinguishable rs rs' :=
  indistinguishable_of_final? (h ▸ .refl _)

/-- Registrations that come to the same operations in the end, with priorities in the same order,
are not told apart. So neither are registrations of two symbols in either order, with and without
one that is overwritten later or refused, and with priorities on another scale. -/
theorem indistinguishable_registrations :
    (∀ rs rs' : List Registration, SameOperations (final? rs) (final? rs') →
      Indistinguishable rs rs') ∧
    (∀ (before after : List Registration) (r r' : Registration), r.1 ≠ r'.1 →
      Indistinguishable (before ++ r :: r' :: after) (before ++ r' :: r :: after)) ∧
    (∀ (before between after : List Registration) (r r' : Registration), r.1 = r'.1 →
      Indistinguishable (before ++ r :: (between ++ r' :: after))
        (before ++ (between ++ r' :: after))) ∧
    (∀ (before after : List Registration) (r : Registration), isSymbol r.1 = false →
      Indistinguishable (before ++ r :: after) (before ++ after)) ∧
    ∀ (rs : List Registration) (f : Int → Int), KeepsOrder f rs →
      Indistinguishable rs (rescaled f rs) := by
  refine ⟨fun _ _ => indistinguishable_of_final?, ?_, ?_, ?_, ?_⟩
  · exact fun before after _ _ h => indistinguishable_of_final?_eq (final?_swap before after h)
  · exact fun before between after _ _ h =>
      indistinguishable_of_final?_eq (final?_overwritten before between after h)
  · exact fun before after _ h => indistinguishable_of_final?_eq (final?_refused before after h)
  · exact fun _ _ hf => indistinguishable_of_final? (sameOperations_rescaled hf)

/-- The greater of two numbers, before anything else. -/
def maximum : Registration :=
  ("max", ⟨200, fun left right => .ok (if left < right then right else left)⟩)

/-- The smaller of two numbers, after anything else. -/
def minimum : Registration :=
  ("min", ⟨5, fun left right => .ok (if right < left then right else left)⟩)

theorem indistinguishable_registrations_maximum :
    SameOperations (final? [maximum]) (final? (rescaled (2 * · + 1) [maximum])) ∧
    Indistinguishable [maximum] (rescaled (2 * · + 1) [maximum]) ∧
    maximum.1 ≠ minimum.1 ∧ Indistinguishable [maximum, minimum] [minimum, maximum] ∧
    Indistinguishable [maximum, minimum, maximum] [minimum, maximum] ∧
    isSymbol "(max" = false ∧ Indistinguishable [maximum, ("(max", maximum.2)] [maximum] ∧
    KeepsOrder (2 * · + 1) [minimum] ∧
    Indistinguishable [minimum] (rescaled (2 * · + 1) [minimum]) := by
  obtain ⟨hsame, hswap, hoverwritten, hrefused, hrescaled⟩ := indistinguishable_registrations
  have hne : maximum.1 ≠ minimum.1 := by decide
  have hno : isSymbol "(max" = false := by decide
  have hkeeps : ∀ rs, KeepsOrder (2 * · + 1) rs := by
    intro rs r _ r' _ h
    show 2 * r.2.priority + 1 < 2 * r'.2.priority + 1
    omega
  have hfinal := sameOperations_rescaled (hkeeps [maximum])
  exact ⟨hfinal, hsame _ _ hfinal, hne, hswap [] [] maximum minimum hne,
    hoverwritten [] [minimum] [] maximum maximum rfl, hno,
    hrefused [maximum] [] ("(max", maximum.2) hno, hkeeps _, hrescaled [minimum] _ (hkeeps _)⟩

end Calculator

end Abacus
