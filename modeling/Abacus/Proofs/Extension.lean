import Abacus.Proofs.Agreement
import Abacus.Rule.Readings

/-!
# Extensions that change nothing

A new operator changes nothing for a text in which its symbol does not occur, and for no text at
all if the symbol begins with what is never taken for an operator, a blank or a part of a number. A
new rule changes nothing for a text if the rules in front of it accept what it accepts of the text.
-/

namespace Abacus
open Text

/-! ## Steps -/

section steps
variable {c after : Cursor} {t : Token}

theorem Rule.run_of_step {rule : Rule} (h : rule.step c = .token t after) :
    rule.read.run c = .ok (t, after) := by
  cases hrun : rule.read.run c with
  | error cause => simp [Rule.step, hrun] at h
  | ok p =>
    obtain ⟨u, d⟩ := p
    rw [Rule.step_of_run hrun] at h
    split at h
    · cases h
      rfl
    · cases h

theorem Cursor.operand_of_number (h : c.number = .token t after) : ∃ x, t = .operand x := by
  unfold Cursor.number at h
  simp only at h
  split at h
  · cases h
    exact ⟨_, rfl⟩
  · cases h

theorem Cursor.group_ne_token : c.group ≠ .token t after := by
  intro h
  unfold Cursor.group at h
  split at h <;> cases h

/-- Behind the blanks, what is not taken for a number is no part of one. -/
theorem Cursor.ends_numeric {ch : Char} (hc : c.next.peek = some ch)
    (hch : Lexeme.ofChar? ch ≠ some .numeric) : Ends isNumeric c.next.rest := by
  intro d hd
  obtain rfl : ch = d := Option.some.inj (hc.symm.trans hd)
  by_contra hn
  exact hch (Lexeme.ofChar?_eq_numeric_iff.mpr ⟨by simpa using hn, c.ends_next ch hd⟩)

end steps

namespace Calculator
open Token

variable {k k' : Calculator} {c after : Cursor} {t : Token}

/-- What a step comes to is decided by the rule that accepts the next character and, if there is
none, by the longest symbol ahead, unless a number is ahead. -/
theorem step_eq_of_next (hrule : k.ruleAt c.next = k'.ruleAt c.next)
    (hsymbol : Ends isNumeric c.next.rest →
      k.operators.longestMatch c.next.rest = k'.operators.longestMatch c.next.rest) :
    k.step c = k'.step c := by
  show k.stepAt c.next = k'.stepAt c.next
  unfold stepAt
  cases hc : c.next.peek with
  | none => rfl
  | some ch =>
    have hfind : Rule.find? k.rules ch = Rule.find? k'.rules ch := by
      simpa only [ruleAt, hc, Option.bind_some] using hrule
    simp only [hfind]
    split
    · rfl
    · split
      · rfl
      · rw [hsymbol (Cursor.ends_numeric hc ‹_›)]

/-- Where a token comes from: a rule has read it, it is a number, or it is the longest symbol that
is ahead, where no number is. -/
inductive Supplies (k : Calculator) (c : Cursor) : Token → Prop
  | rule {rule : Rule} {t : Token} {after : Cursor} :
      rule ∈ k.rules → rule.read.run c.next = .ok (t, after) → Supplies k c t
  | number (x : Float) : Supplies k c (.operand x)
  | symbol {symbol : String} : Ends isNumeric c.next.rest →
      k.operators.IsLongest symbol c.next.rest → Supplies k c (.operator symbol)

theorem supplies_of_step (h : k.step c = .token t after) : k.Supplies c t := by
  have h : k.stepAt c.next = .token t after := h
  unfold stepAt at h
  cases hc : c.next.peek with
  | none => simp [hc] at h
  | some ch =>
    simp only [hc] at h
    split at h
    · rename_i rule hfind
      exact .rule (List.mem_of_find?_eq_some hfind) (Rule.run_of_step h)
    · split at h
      · obtain ⟨x, rfl⟩ := Cursor.operand_of_number h
        exact .number x
      · rename_i hnumber
        split at h
        · rename_i symbol hlong
          cases h
          exact .symbol (Cursor.ends_numeric hc hnumber)
            (OperatorTable.longestMatch_eq_some_iff.mp hlong)
        · split at h
          · exact absurd h Cursor.group_ne_token
          · cases h

end Calculator

/-! ## Operators -/

/-- What is not ahead is not the longest symbol. -/
theorem OperatorTable.longestMatch_insert {symbol : String} {text : List Char}
    (h : ¬symbol.toList <+: text) (t : OperatorTable) (op : Operator) :
    (t.insert symbol op).longestMatch text = t.longestMatch text := by
  have hcontains : ∀ other : String, other.toList <+: text →
      ((t.insert symbol op).contains other = true ↔ t.contains other = true) := by
    intro other hother
    have hne : other ≠ symbol := by
      rintro rfl
      exact h hother
    simp [contains, get?_insert, hne]
  refine Option.ext fun other => ?_
  rw [longestMatch_eq_some_iff, longestMatch_eq_some_iff]
  constructor
  · rintro ⟨hc, hother, hle⟩
    exact ⟨(hcontains other hother).mp hc, hother,
      fun s hs hp => hle s ((hcontains s hp).mpr hs) hp⟩
  · rintro ⟨hc, hother, hle⟩
    exact ⟨(hcontains other hother).mpr hc, hother,
      fun s hs hp => hle s ((hcontains s hp).mp hs) hp⟩

/-- The rule never reads a token in which the operator occurs. -/
def Rule.Avoids (rule : Rule) (symbol : String) : Prop :=
  ∀ c t after, rule.read.run c = .ok (t, after) → ¬Token.Occurs (.operator symbol) t

/-- The symbol begins with what is never taken for an operator. -/
def Preempted (symbol : String) : Prop :=
  ∃ ch ∈ symbol.toList.head?, isBlank ch = true ∨ isNumeric ch = true

instance (symbol : String) : Decidable (Preempted symbol) :=
  decidable_of_iff (symbol.toList.head?.any fun ch => isBlank ch || isNumeric ch) (by
    simp [Preempted, Option.any_eq_true])

namespace Calculator
open Token

variable {k : Calculator} {symbol : String} {text : List Char}

/-- Where operators are looked for, the symbol is not ahead. -/
theorem not_prefix_next {c : Cursor} (h : Preempted symbol ∨ ¬symbol.toList <:+: c.input)
    (hc : Ends isNumeric c.next.rest) : ¬symbol.toList <+: c.next.rest := by
  intro hp
  rcases h with ⟨ch, hch, hclass⟩ | hinfix
  · obtain ⟨more, hs⟩ := List.head?_eq_some_iff.mp hch
    obtain ⟨rest, hrest⟩ := hp
    have hhead : c.next.rest.head? = some ch := by rw [← hrest, hs]; rfl
    rcases hclass with hb | hn
    · rw [c.ends_next ch hhead] at hb
      cases hb
    · rw [hc ch hhead] at hn
      cases hn
  · exact hinfix (hp.isInfix.trans c.rest_next_infix)

/-- No step comes to the symbol. -/
theorem over_of_step (hrules : ∀ rule ∈ k.rules, rule.Avoids symbol) {c after : Cursor}
    (h : Preempted symbol ∨ ¬symbol.toList <:+: c.input) {t : Token}
    (hs : k.step c = .token t after) : t.Over (· ≠ symbol) := by
  cases supplies_of_step hs with
  | rule hmem hrun =>
    rintro other hoccurs rfl
    exact hrules _ hmem _ _ _ hrun hoccurs
  | number x => exact over_operand x
  | symbol hc hlong =>
    refine over_operator_iff.mpr ?_
    rintro rfl
    exact not_prefix_next h hc hlong.2.1

theorem sameSteps_withOperator (hrules : ∀ rule ∈ k.rules, rule.Avoids symbol)
    (h : Preempted symbol ∨ ¬symbol.toList <:+: text) (op : Operator) :
    SameSteps text k (k.withOperator symbol op) where
  step := by
    rintro c rfl
    refine step_eq_of_next rfl fun hc => ?_
    exact (OperatorTable.longestMatch_insert (not_prefix_next h hc) _ _).symm
  entry := by
    rintro c rfl t after hs other hoccurs
    have hne : other ≠ symbol := over_of_step hrules h hs other hoccurs
    rw [SameEntry, withOperator, OperatorTable.get?_insert, if_neg fun hother => hne hother.2]

/-- A registration changes nothing for an expression in which the symbol does not occur, and for no
expression at all if the symbol is preempted: it is never read then. -/
theorem evaluateWith_withOperator (k : Calculator) (symbol : String) (op : Operator)
    (hrules : ∀ rule ∈ k.rules, rule.Avoids symbol) :
    (∀ {β : Type} [Variables β] (expression : Option String) (bindings : β),
      (Preempted symbol ∨ ∀ text, Becomes expression bindings text → ¬symbol.toList <:+: text) →
      (k.withOperator symbol op).evaluateWith expression bindings =
        k.evaluateWith expression bindings) ∧
    (Preempted symbol → ∀ c ts, (k.withOperator symbol op).tokens c = .ok ts →
      ∀ t ∈ ts, ¬Occurs (.operator symbol) t) := by
  constructor
  · intro β _ expression bindings h
    have hlimit : k.maxDepth = (k.withOperator symbol op).maxDepth := rfl
    refine (evaluateWith_congr hlimit expression bindings fun text htext => ?_).symm
    exact sameSteps_withOperator hrules (h.imp_right fun hinfix => hinfix text htext) op
  · intro hsymbol c ts hts t ht hoccurs
    have hrules' : ∀ rule ∈ (k.withOperator symbol op).rules, rule.Avoids symbol := hrules
    have hover : ∀ t ∈ ts, t.Over (· ≠ symbol) :=
      over_tokensFrom (fun d _ u after hs => over_of_step hrules' (.inl hsymbol) hs) rfl
        (tokens_eq_ok_iff.mp hts).2
    exact hover t ht symbol hoccurs rfl

/-- The calculator for which a mark is a pair of ones that are added. -/
def paired : Calculator :=
  { rules := [⟨(· = '#'), .constant 1 (.group [.operand 1, .operator "+", .operand 1])⟩] }

theorem avoids_paired (h : symbol ≠ "+") : ∀ rule ∈ paired.rules, rule.Avoids symbol := by
  intro rule hrule c t after hrun hoccurs
  obtain rfl := List.mem_singleton.mp hrule
  cases hrun
  have hover : (Token.group [.operand 1, .operator "+", .operand 1]).Over (· ≠ symbol) := by
    simp [over_group_iff, over_operand, over_operator_iff, Ne.symm h]
  exact hover symbol hoccurs rfl

/-- Another operation for the minus is not seen in a product, and a symbol that begins with a digit
is not even seen where it is written. -/
theorem evaluateWith_withOperator_paired :
    (∀ rule ∈ paired.rules, rule.Avoids "-") ∧
    (∀ text, Becomes (some "# * 3") ([] : List (String × Float)) text → ¬"-".toList <:+: text) ∧
    (paired.withOperator "-" Arithmetic.mul.operator).evaluateWith (some "# * 3")
      ([] : List (String × Float)) = .ok 6 ∧
    (∀ rule ∈ paired.rules, rule.Avoids "2x") ∧ Preempted "2x" ∧
    (paired.withOperator "2x" Arithmetic.mul.operator).evaluateWith (some "#2x")
      ([] : List (String × Float)) = .error (.read (.illegalText 2)) := by
  have hminus : ∀ rule ∈ paired.rules, rule.Avoids "-" := avoids_paired (by decide)
  have hdouble : ∀ rule ∈ paired.rules, rule.Avoids "2x" := avoids_paired (by decide)
  have hunseen : ∀ text, Becomes (some "# * 3") ([] : List (String × Float)) text →
      ¬"-".toList <:+: text := by
    intro text htext
    rw [htext.eq_of_not_mem (by decide)]
    decide
  have hpreempted : Preempted "2x" := by decide
  refine ⟨hminus, hunseen, ?_, hdouble, hpreempted, ?_⟩
  · rw [(evaluateWith_withOperator paired "-" _ hminus).1 _ _ (.inr hunseen)]
    decide +kernel
  · rw [(evaluateWith_withOperator paired "2x" _ hdouble).1 _ _ (.inl hpreempted)]
    decide +kernel

end Calculator

/-! ## Rules -/

namespace Rule

variable {rules before after : List Rule} {rule : Rule} {ch : Char}

/-- The rule is the first of the list that accepts the character. -/
def First (rules : List Rule) (ch : Char) (rule : Rule) : Prop :=
  ∃ before after, rules = before ++ rule :: after ∧ rule.accepts ch = true ∧
    ∀ r ∈ before, r.accepts ch = false

theorem find?_eq_some_iff : find? rules ch = some rule ↔ First rules ch rule := by
  rw [find?, List.find?_eq_some_iff_append]
  simp only [First, Bool.not_eq_true']
  constructor
  · rintro ⟨haccepts, before, after, hrules, hbefore⟩
    exact ⟨before, after, hrules, haccepts, hbefore⟩
  · rintro ⟨before, after, hrules, haccepts, hbefore⟩
    exact ⟨haccepts, before, after, hrules, hbefore⟩

/-- A list is parted where a rule is wanted, or at the end if it does not reach that far. -/
structure Parted (rules : List Rule) (wanted : Option Nat) (before after : List Rule) : Prop where
  append : rules = before ++ after
  length_eq : ∀ n, wanted = some n → n ≤ rules.length → before.length = n
  last : (∀ n, wanted = some n → rules.length < n) → after = []

theorem insertIdx_append (before after : List Rule) (rule : Rule) :
    (before ++ after).insertIdx before.length rule = before ++ rule :: after := by
  induction before with
  | nil => rfl
  | cons r before ih => simp [ih]

/-- A rule is put between the parts, which stay as they are. -/
theorem exists_parted (rules : List Rule) (rule : Rule) (wanted : Option Nat) :
    ∃ before after, Parted rules wanted before after ∧
      insert rules rule wanted = before ++ rule :: after := by
  have hle : position rules wanted ≤ rules.length := by
    cases wanted with
    | none => simp [position]
    | some n => by_cases hn : n ≤ rules.length <;> simp [position, Option.filter, hn]
  have hlength : (rules.take (position rules wanted)).length = position rules wanted :=
    List.length_take_of_le hle
  have hinsert := insertIdx_append (rules.take (position rules wanted))
    (rules.drop (position rules wanted)) rule
  rw [List.take_append_drop, hlength] at hinsert
  refine ⟨_, _, ⟨(List.take_append_drop ..).symm, ?_, ?_⟩, hinsert⟩
  · rintro n rfl hn
    simp [position, Option.filter, hn]
  · intro hpast
    cases wanted with
    | none => simp [position]
    | some n => simp [position, Option.filter, Nat.not_le.mpr (hpast n rfl)]

/-- Where the rules in front accept what a rule accepts, it is not found. -/
theorem find?_of_shadowed (h : rule.accepts ch = true → ∃ r ∈ before, r.accepts ch = true) :
    find? (before ++ rule :: after) ch = find? (before ++ after) ch := by
  simp only [find?, List.find?_append]
  cases haccepts : rule.accepts ch with
  | false => rw [List.find?_cons_of_neg (by simp [haccepts])]
  | true =>
    obtain ⟨r, hr⟩ := Option.isSome_iff_exists.mp (List.find?_isSome.mpr (h haccepts))
    rw [hr, Option.some_or, Option.some_or]

end Rule

namespace Calculator

variable {k : Calculator} {rule : Rule} {before after : List Rule} {text : List Char}

theorem sameSteps_insert (hrules : k.rules = before ++ after)
    (h : ∀ ch ∈ text, isBlank ch = false → rule.accepts ch = true →
      ∃ r ∈ before, r.accepts ch = true) :
    SameSteps text k { k with rules := before ++ rule :: after } where
  step := by
    rintro c rfl
    refine step_eq_of_next ?_ fun _ => rfl
    cases hc : c.next.peek with
    | none => simp [ruleAt, hc]
    | some ch =>
      have hmem : ch ∈ c.input := c.rest_next_infix.subset (List.mem_of_head? hc)
      simp only [ruleAt, hc, Option.bind_some, hrules]
      exact (Rule.find?_of_shadowed (h ch hmem (c.ends_next ch hc))).symm
  entry _ _ _ _ _ _ _ := rfl

/-- A rule changes nothing for an expression of which it accepts nothing but blanks and what rules
in front of it accept. The first rule that accepts what is ahead reads it, and a new one leaves the
others in their order. -/
theorem evaluateWith_withRule (k : Calculator) (rule : Rule) (wanted : Option Nat) :
    (∃ before after, Rule.Parted k.rules wanted before after ∧
      (k.withRule rule wanted).rules = before ++ rule :: after ∧
      ∀ {β : Type} [Variables β] (expression : Option String) (bindings : β),
        (∀ text, Becomes expression bindings text → ∀ ch ∈ text, isBlank ch = false →
          rule.accepts ch = true → ∃ r ∈ before, r.accepts ch = true) →
        (k.withRule rule wanted).evaluateWith expression bindings =
          k.evaluateWith expression bindings) ∧
    ∀ c ch, c.next.peek = some ch →
      (∀ r, Rule.First k.rules ch r → k.step c = r.step c.next) ∧
      ((∀ r ∈ k.rules, r.accepts ch = false) →
        k.step c = ({ k with rules := [] } : Calculator).step c) := by
  constructor
  · obtain ⟨before, after, hparted, hinsert⟩ := Rule.exists_parted k.rules rule wanted
    refine ⟨before, after, hparted, hinsert, fun expression bindings h => ?_⟩
    have hsame : k.withRule rule wanted = { k with rules := before ++ rule :: after } := by
      rw [withRule, hinsert]
    rw [hsame]
    refine (evaluateWith_congr ?_ expression bindings fun text htext => ?_).symm
    · rfl
    · exact sameSteps_insert hparted.append (h text htext)
  · intro c ch hc
    constructor
    · intro r hr
      refine step_of_ruleAt ?_
      rw [ruleAt, hc]
      exact Rule.find?_eq_some_iff.mpr hr
    · intro hnone
      refine step_eq_of_next ?_ fun _ => rfl
      rw [ruleAt, ruleAt, hc]
      exact List.find?_eq_none.mpr fun r hr => by simp [hnone r hr]

/-- A rule that also accepts the mark, and another character. -/
def seven : Rule := ⟨fun ch => ch = '#' || ch = 'y', .constant 1 (.operand 7)⟩

/-- Behind the rule for the mark another one for it is never used, in front of it it is. -/
theorem evaluateWith_withRule_paired :
    (∀ text, Becomes (some "# * 3") ([] : List (String × Float)) text → ∀ ch ∈ text,
      isBlank ch = false → seven.accepts ch = true → ∃ r ∈ paired.rules, r.accepts ch = true) ∧
    (paired.withRule seven (some 5)).evaluateWith (some "# * 3") ([] : List (String × Float)) =
      .ok 6 ∧
    (paired.withRule seven (some 0)).evaluateWith (some "# * 3") ([] : List (String × Float)) =
      .ok 21 := by
  have hshadowed : ∀ text, Becomes (some "# * 3") ([] : List (String × Float)) text →
      ∀ ch ∈ text, isBlank ch = false → seven.accepts ch = true →
        ∃ r ∈ paired.rules, r.accepts ch = true := by
    intro text htext ch hch _ haccepts
    rw [htext.eq_of_not_mem (by decide)] at hch
    refine ⟨_, List.mem_singleton_self _, ?_⟩
    have hor : ch = '#' ∨ ch = 'y' := by simpa [seven] using haccepts
    rcases hor with rfl | rfl
    · rfl
    · exact absurd hch (by decide)
  obtain ⟨before, after, hparted, -, hsame⟩ := (evaluateWith_withRule paired seven (some 5)).1
  have hbefore : paired.rules = before := by
    rw [hparted.append, hparted.last fun n hn => Option.some.inj hn ▸ by decide, List.append_nil]
  refine ⟨hshadowed, ?_, by decide +kernel⟩
  rw [hsame (some "# * 3") _ (hbefore ▸ hshadowed)]
  decide +kernel

end Calculator

end Abacus
