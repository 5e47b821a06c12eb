import Abacus.Proofs.Collections
import Abacus.Proofs.Limit
import Abacus.Proofs.Nesting
import Abacus.Proofs.Phases
import Abacus.Proofs.Replacement

/-!
# Values and the limit on nesting

The literal of a value with a sign is a group, and that is all that the limit on nesting sees of a
value. Under two sets of values a text is read side by side, to tokens that differ in nothing but
their numbers, as long as the values have the same sign where a literal is one group too many.
-/

namespace Abacus
open Text

/-! ## References -/

namespace Reference

/-- What is next to a reference does not run into a literal that it is replaced by. -/
structure Apart (r : Reference) : Prop where
  before : r.front.getLast?.any isNumeric = false
  behind : r.behind.head? ≠ some '.'
  next : ∀ later ∈ all r.behind, later.front ≠ []

instance (r : Reference) : Decidable r.Apart :=
  decidable_of_iff (r.front.getLast?.any isNumeric = false ∧ r.behind.head? ≠ some '.' ∧
    ∀ later ∈ all r.behind, later.front ≠ [])
    ⟨fun ⟨hb, hp, hn⟩ => ⟨hb, hp, hn⟩, fun ⟨hb, hp, hn⟩ => ⟨hb, hp, hn⟩⟩

/-- The values of all references that stand exactly at the limit have the same signs. -/
def SameSigns (limit : Nat) (lookup lookup' : String → Option Float) (depth : Nat)
    (text : List Char) : Prop :=
  ∀ r ∈ all text, depth + r.front.count '(' = r.front.count ')' + limit →
    (lookup (String.ofList r.name)).map Double.isNegative =
      (lookup' (String.ofList r.name)).map Double.isNegative

instance (limit : Nat) (lookup lookup' : String → Option Float) (depth : Nat) (text : List Char) :
    Decidable (SameSigns limit lookup lookup' depth text) :=
  inferInstanceAs (Decidable (∀ r ∈ all text, _ → _ = _))

variable {lookup lookup' : String → Option Float} {limit depth d : Nat}
  {text front piece behind : List Char}

theorem SameSigns.part (h : SameSigns limit lookup lookup' depth (front ++ (piece ++ behind)))
    (hb : Ends isNameChar behind) (hd : front.count '(' + depth = front.count ')' + d) :
    SameSigns limit lookup lookup' d piece := by
  intro r hr hlimit
  refine h ⟨front ++ r.front, r.name, r.behind ++ behind⟩ (mem_all_append front hr hb) ?_
  simp only [List.count_append]
  omega

theorem SameSigns.later (h : SameSigns limit lookup lookup' depth (piece ++ text))
    (hpiece : piece.count ')' = piece.count '(') : SameSigns limit lookup lookup' depth text := by
  rw [← List.append_nil (piece ++ text), List.append_assoc] at h
  exact h.part (Ends.nil _) (by omega)

/-- Where there is room for every literal, it does not matter which values have a sign. -/
theorem allFit_of_apart {k : Calculator} (happart : ∀ r ∈ all text, r.Apart)
    (hvalue : ∀ r ∈ all text, ∃ x ∈ lookup (String.ofList r.name), x.isFinite = true)
    (hroom : text.length < k.maxDepth) : AllFit k lookup 0 text := by
  intro r hr
  obtain ⟨x, hx, hfin⟩ := hvalue r hr
  obtain ⟨hb, hp, hn⟩ := happart r hr
  refine ⟨⟨x, hx, hfin, fun _ => ?_⟩, hb, hp, hn⟩
  obtain ⟨rfl, -⟩ := mem_all_iff.mp hr
  have hcount : r.front.count '(' ≤ r.front.length := List.count_le_length
  simp only [Reference.text, List.length_append] at hroom
  omega

end Reference

/-! ## Substitution -/

/-- The same names are bound, and all to finite values. -/
structure SameNames (lookup lookup' : String → Option Float) : Prop where
  bound : ∀ name, (lookup name).isSome = (lookup' name).isSome
  finite : ∀ name, ∀ x ∈ lookup name, x.isFinite = true
  finite' : ∀ name, ∀ x ∈ lookup' name, x.isFinite = true

/-- Lists of finite values for the same names. -/
theorem sameNames_first? {pairs pairs' : List (String × Float)}
    (hnames : pairs.map Prod.fst = pairs'.map Prod.fst)
    (hfinite : ∀ p ∈ pairs ++ pairs', p.2.isFinite = true) :
    SameNames (Variables.first? pairs) (Variables.first? pairs') := by
  refine ⟨fun name => ?_, fun name x hx => ?_, fun name x hx => ?_⟩
  · rw [Variables.isSome_first?, Variables.isSome_first?, hnames]
  · exact hfinite (name, x) (List.mem_append_left _ (Variables.mem_of_first? hx))
  · exact hfinite (name, x) (List.mem_append_right _ (Variables.mem_of_first? hx))

section substitution
variable {lookup lookup' : String → Option Float}

theorem SameNames.finiteValue (h : SameNames lookup lookup') (name : String) :
    SideBySide (fun _ => False) (fun _ => False) Eq (fun _ _ => True)
      (finiteValue lookup name) (finiteValue lookup' name) := by
  have hbound := h.bound name
  cases hx : lookup name with
  | none =>
    rw [hx] at hbound
    have hy : lookup' name = none := by simpa using hbound
    rw [Abacus.finiteValue, Abacus.finiteValue, hx, hy]
    exact .error rfl
  | some x =>
    rw [hx] at hbound
    obtain ⟨y, hy⟩ := Option.isSome_iff_exists.mp hbound.symm
    rw [finiteValue_eq_ok_iff.mpr ⟨hx, h.finite name x hx⟩,
      finiteValue_eq_ok_iff.mpr ⟨hy, h.finite' name y hy⟩]
    exact .ok trivial

/-- A text is replaced under both or there is the same error. -/
theorem SameNames.substitute (h : SameNames lookup lookup') (text : List Char) :
    SideBySide (fun _ => False) (fun _ => False) Eq (fun _ _ => True)
      (substitute lookup text) (substitute lookup' text) := by
  induction hn : text.length using Nat.strongRecOn generalizing text with
  | ind n ih =>
  subst hn
  rcases exists_piece text with rfl | ⟨c, rest, rfl, hc⟩ | ⟨name, rest, rfl, hne, hname, hrest⟩
  · rw [Abacus.substitute, Abacus.substitute]
    exact .ok trivial
  · rw [substitute_char hc, substitute_char hc]
    exact (ih _ (by simp) rest rfl).bind fun _ _ _ => .ok trivial
  · rw [substitute_reference hne hname hrest, substitute_reference hne hname hrest]
    refine (h.finiteValue _).bind fun _ _ _ => ?_
    exact (ih _ (length_lt_reference name rest) rest rfl).bind fun _ _ _ => .ok trivial

end substitution

/-! ## Reading side by side -/

/-- The same cause of reading but for its place, or any two of evaluation. -/
inductive AlikeCause : Failure → Failure → Prop
  | read {e e' : ReadError} : e.unplaced = e'.unplaced → AlikeCause (.read e) (.read e')
  | eval (e e' : EvalError) : AlikeCause (.eval e) (.eval e')

theorem ReadError.unplaced_eq_tooDeep_iff {e : ReadError} {limit : Nat} :
    e.unplaced = .tooDeep limit ↔ e = .tooDeep limit := by
  cases e <;> simp [unplaced]

theorem AlikeCause.tooDeep_iff {e e' : Failure} (h : AlikeCause e e') (limit : Nat) :
    e = .read (.tooDeep limit) ↔ e' = .read (.tooDeep limit) := by
  cases h with
  | read he =>
    rw [Failure.read.injEq, Failure.read.injEq, ← ReadError.unplaced_eq_tooDeep_iff, he,
      ReadError.unplaced_eq_tooDeep_iff]
  | eval => simp

namespace Calculator
open Token

theorem SameCause.alike {e e' : Failure} (h : SameCause e e') : AlikeCause e e' := by
  cases h with
  | read e => exact .read rfl
  | eval e e' => exact .eval e e'

/-- Readings of one text under two sets of values. -/
abbrev ReadAlike {α β : Type} (k : Calculator) (results : α → β → Prop) :
    Except Failure α → Except Failure β → Prop :=
  SideBySide k.RefusesWith k.RefusesWith AlikeCause results

/-- Cursors before what comes of one text under two sets of values, whose signs are the same at the
limit. There is room for all literals where the text is compared with what comes of it. -/
structure Abreast (k : Calculator) (room : Nat) (lookup lookup' : String → Option Float)
    (c c₁ c₂ : Cursor) : Prop where
  left : Parallel (k.withMaxDepth room) lookup c c₁
  right : Parallel (k.withMaxDepth room) lookup' c c₂
  signs : Reference.SameSigns k.maxDepth lookup lookup' c.depth c.rest

section steps
variable {k : Calculator} {lookup lookup' : String → Option Float} {limit : Nat}
  {c inside after : Cursor}

/-- Behind a token the references stand as deep as they do in front of it. -/
theorem Passes.sameSigns_token (hp : k.operators.Parenless) {t : Token}
    (h : k.Passes c (.token t after))
    (hs : Reference.SameSigns limit lookup lookup' c.depth c.rest) : after.depth = c.depth ∧
      Reference.SameSigns limit lookup lookup' after.depth after.rest := by
  cases h with
  | number hw hl hc hd =>
    rw [hc] at hs
    rw [hd]
    exact ⟨rfl, hs.later (hw.level.append (level_of_numeric hl)).count_eq⟩
  | symbol hw hsymbol hc hd =>
    obtain ⟨ho, hclose⟩ := hp _ hsymbol
    rw [hc] at hs
    rw [hd]
    exact ⟨rfl, hs.later (hw.level.append (.of_parenless ho hclose)).count_eq⟩

/-- In a group they stand one level deeper. -/
theorem Passes.sameSigns_group {opening : Nat} (h : k.Passes c (.group opening inside after))
    (hs : Reference.SameSigns limit lookup lookup' c.depth c.rest) :
    after.depth = c.depth ∧ inside.depth = c.depth + 1 ∧
      Reference.SameSigns limit lookup lookup' inside.depth inside.rest ∧
      Reference.SameSigns limit lookup lookup' after.depth after.rest := by
  cases h with
  | @group w _ _ _ hw hsplit hc hi hd =>
    have hcount := hw.level.count_eq
    have hinside := (closes_of_splitClose hsplit).total
    have hopened : c.rest = w ++ ['('] ++ (inside.rest ++ ')' :: after.rest) := by simp [hc]
    rw [hi, hd]
    refine ⟨rfl, rfl, ?_, ?_⟩
    · rw [hopened] at hs
      refine hs.part (by simp [Ends]; decide) ?_
      simp
      omega
    · rw [hc] at hs
      refine hs.later ?_
      simp
      omega

end steps

section sides
variable {k : Calculator} {room : Nat} {lookup lookup' : String → Option Float}
  {c c₁ c₂ : Cursor}

theorem Abreast.normal? (h : k.Abreast room lookup lookup' c c₁ c₂)
    (hread : c.depth ≤ k.maxDepth →
      k.ReadAlike SameShapes (k.tokensFrom c₁) (k.tokensFrom c₂)) :
    k.ReadAlike (Option.Rel SameShape) (k.normal? c₁) (k.normal? c₂) := by
  have htokens : k.ReadAlike SameShapes (k.tokens c₁) (k.tokens c₂) := by
    rw [tokens, tokens, h.left.depth, h.right.depth, within, within]
    split
    · exact .error (.read rfl)
    · exact hread (by omega)
  rw [Calculator.normal?, Calculator.normal?, h.left.depth, h.right.depth]
  refine htokens.bind fun ts us hts => ?_
  exact ((SameSyntax.refl k).normalize c.depth hts).mono_causes fun _ _ => SameCause.alike

variable (hk : k.rules = []) (hp : k.operators.Parenless) (hm : k.operators.LoneMinus)
  (hu : k.operators.Unmixed)
include hk hp hm hu

/-- At a mark both read a literal, which is one group too many for both or for neither. -/
theorem Abreast.mark (h : k.Abreast room lookup lookup' c c₁ c₂) (hmark : c.AtMark)
    (hdepth : c.depth ≤ k.maxDepth) (hread : ∀ {d d₁ d₂ : Cursor}, d.rest.length < c.rest.length →
      d.depth = c.depth → k.Abreast room lookup lookup' d d₁ d₂ →
        k.ReadAlike SameShapes (k.tokensFrom d₁) (k.tokensFrom d₂)) :
    k.ReadAlike SameShapes (k.tokensFrom c₁) (k.tokensFrom c₂) := by
  obtain ⟨w, tail, hw, hc⟩ := hmark
  obtain ⟨name, rest, rfl, hname, hrest⟩ := exists_run isNameChar tail
  by_cases hne : name = []
  · subst hne
    obtain ⟨tail₁, hc₁⟩ := h.left.mark hw hrest hc
    obtain ⟨tail₂, hc₂⟩ := h.right.mark hw hrest hc
    rw [tokensFrom_illegal hk hw (by decide) (by decide) (by decide) (hu.longestMatch_mark _) hc₁,
      tokensFrom_illegal hk hw (by decide) (by decide) (by decide) (hu.longestMatch_mark _) hc₂]
    exact .error (.read rfl)
  · obtain ⟨x, tail₁, hx, hxfin, hc₁, hends₁, hafter₁⟩ := h.left.reference hw hne hname hrest hc
    obtain ⟨y, tail₂, hy, hyfin, hc₂, hends₂, hafter₂⟩ := h.right.reference hw hne hname hrest hc
    have hd₁ := h.left.depth
    have hd₂ := h.right.depth
    have hlevel : Level (w ++ '$' :: name) := hw.level.append (level_reference hname)
    have hafter : (c.take (w ++ '$' :: name).length).rest = rest :=
      Cursor.take_append (by simp [hc])
    have hsigns : Reference.SameSigns k.maxDepth lookup lookup' c.depth rest := by
      have hs := h.signs
      rw [hc, ← List.cons_append, ← List.append_assoc] at hs
      exact hs.later hlevel.count_eq
    have hsame : Double.isNegative x = true ∧ c.depth = k.maxDepth ↔
        Double.isNegative y = true ∧ c.depth = k.maxDepth := by
      refine and_congr_left fun hlimit => ?_
      have hcount := hw.level.count_eq
      have hs := h.signs ⟨w, name, rest⟩ (Reference.mem_all_iff.mpr ⟨hc.symm, hne, hname, hrest⟩)
        (by simp only; omega)
      rw [hx, hy, Option.map_some, Option.map_some, Option.some.injEq] at hs
      rw [hs]
    have hahead : k.Abreast room lookup lookup' (c.take (w ++ '$' :: name).length) _ _ :=
      ⟨hafter₁, hafter₂, by rwa [hafter]⟩
    have hlater := hread (by rw [hafter, hc]; simp; omega) (Cursor.take_depth ..) hahead
    rw [tokensFrom_literal_within hk hp hm hw hxfin hends₁ (by omega) hc₁,
      tokensFrom_literal_within hk hp hm hw hyfin hends₂ (by omega) hc₂, hd₁, hd₂]
    simp only [hsame]
    split
    · exact .error (.read rfl)
    · exact hlater.bind fun ts us hts => .ok (.cons (.operand x y) hts)

/-- Side by side, tokens of the same shape are read to the end, or errors that are alike. -/
theorem Abreast.tokensFrom (h : k.Abreast room lookup lookup' c c₁ c₂)
    (hdepth : c.depth ≤ k.maxDepth) :
    k.ReadAlike SameShapes (k.tokensFrom c₁) (k.tokensFrom c₂) := by
  induction hn : c.rest.length using Nat.strongRecOn generalizing c c₁ c₂ with
  | ind n ih =>
  subst hn
  by_cases hmark : c.AtMark
  · exact h.mark hk hp hm hu hmark hdepth fun hshort hd hafter => ih _ hshort hafter (by omega) rfl
  · have hshort := k.step_shorter c
    have hpasses := step_passes hk c
    have hleft : (k.step c).Corresponds (k.withMaxDepth room) lookup (k.step c₁) :=
      h.left.step hk hp hu hmark
    have hright : (k.step c).Corresponds (k.withMaxDepth room) lookup' (k.step c₂) :=
      h.right.step hk hp hu hmark
    generalize k.step c = s at hshort hpasses hleft hright
    generalize hs₁ : k.step c₁ = s₁ at hleft
    generalize hs₂ : k.step c₂ = s₂ at hright
    cases hleft with
    | finished =>
      cases hright
      rw [tokensFrom_of_finished hs₁, tokensFrom_of_finished hs₂]
      exact .ok .nil
    | failed he =>
      cases hright with
      | failed he' =>
        rw [tokensFrom_of_failed hs₁, tokensFrom_of_failed hs₂]
        exact .error (.read (he.symm.trans he'))
    | token t hafter₁ =>
      cases hright with
      | token _ hafter₂ =>
        obtain ⟨hd, hsigns⟩ := hpasses.sameSigns_token hp h.signs
        rw [tokensFrom_of_token hs₁, tokensFrom_of_token hs₂]
        exact (ih _ hshort ⟨hafter₁, hafter₂, hsigns⟩ (by omega) rfl).bind
          fun ts us hts => .ok (.cons (SameShape.refl t) hts)
    | group hinside₁ hafter₁ =>
      cases hright with
      | group hinside₂ hafter₂ =>
        obtain ⟨hd, hi, hin, hlater⟩ := hpasses.sameSigns_group h.signs
        have hinside : k.Abreast room lookup lookup' _ _ _ := ⟨hinside₁, hinside₂, hin⟩
        rw [tokensFrom_of_group hs₁, tokensFrom_of_group hs₂]
        refine (hinside.normal? fun hle => ih _ hshort.1 hinside hle rfl).bind fun t? u? htu => ?_
        cases htu with
        | none => exact .error (.read rfl)
        | some ht =>
          exact (ih _ hshort.2 ⟨hafter₁, hafter₂, hlater⟩ (by omega) rfl).bind
            fun ts us hts => .ok (.cons ht hts)

/-- What a text is replaced by under two sets of values is read to tokens of one shape, or to errors
that are alike. -/
theorem token?_alike {text text₁ text₂ : List Char} (happart : ∀ r ∈ Reference.all text, r.Apart)
    (h₁ : Substitutes lookup text text₁) (h₂ : Substitutes lookup' text text₂)
    (hsigns : Reference.SameSigns k.maxDepth lookup lookup' 0 text) :
    k.ReadAlike (Option.Rel SameShape) (k.token? text₁) (k.token? text₂) := by
  have hfit : ∀ {lookup text'}, Substitutes lookup text text' →
      Reference.AllFit (k.withMaxDepth (text.length + 1)) lookup 0 text := fun h =>
    Reference.allFit_of_apart happart (Reference.exists_of_substitutes h) (Nat.lt_succ_self _)
  have hwhole : k.Abreast (text.length + 1) lookup lookup' (.whole text 0) (.whole text₁ 0)
      (.whole text₂ 0) := ⟨⟨h₁, rfl, hfit h₁⟩, ⟨h₂, rfl, hfit h₂⟩, hsigns⟩
  exact hwhole.normal? fun hdepth => hwhole.tokensFrom hk hp hm hu hdepth

end sides

/-! ## Expressions -/

section expressions
variable {k : Calculator} {β γ : Type} [Variables β] [Variables γ] {bindings : β} {bindings' : γ}
  {expression : Option String}

/-- An expression is read to tokens of one shape under two sets of values, or to errors that are
alike. -/
theorem read_alike (hk : k.rules = []) (ho : k.operators = .arithmetic)
    (happart : ∀ r ∈ Reference.all (expression.getD "").toList, r.Apart)
    (hnames : SameNames (Variables.lookup bindings) (Variables.lookup bindings'))
    (hsigns : Reference.SameSigns k.maxDepth (Variables.lookup bindings)
      (Variables.lookup bindings') 0 (expression.getD "").toList) :
    k.ReadAlike (Option.Rel SameShape) (k.read expression bindings)
      (k.read expression bindings') := by
  cases expression with
  | none => exact .ok .none
  | some source =>
    have hp : k.operators.Parenless := ho ▸ OperatorTable.parenless_arithmetic
    have hm : k.operators.LoneMinus := ho ▸ OperatorTable.loneMinus_arithmetic
    have hu : k.operators.Unmixed := ho ▸ OperatorTable.unmixed_arithmetic
    have htexts := hnames.substitute source.toList
    rw [read, read]
    generalize hs₁ : substitute (Variables.lookup bindings) source.toList = s₁ at htexts ⊢
    generalize hs₂ : substitute (Variables.lookup bindings') source.toList = s₂ at htexts ⊢
    cases htexts with
    | error he => exact .error (.read (congrArg _ he))
    | left _ he | right _ he => exact he.elim
    | ok _ =>
      exact token?_alike hk hp hm hu happart (substitute_eq_ok_iff.mp hs₁)
        (substitute_eq_ok_iff.mp hs₂) hsigns

/-- Evaluation does not come to the limit. -/
theorem evaluateWith_ne_tooDeep (hk : k.rules = []) (hr : ∀ limit, ¬k.Refuses (.tooDeep limit))
    (limit : Nat) : k.evaluateWith expression bindings ≠ .error (.eval (.tooDeep limit)) := by
  intro h
  cases hs : substitute (Variables.lookup bindings) (expression.getD "").toList with
  | error e => cases error_of_evaluateWith hs h
  | ok text =>
    rw [evaluateWith_eq_textValue hs] at h
    exact textValue_ne_tooDeep hk hr text h

/-- An expression is too deep if it is when it is read. -/
theorem isTooDeep_iff_read (hk : k.rules = []) (ho : k.operators = .arithmetic) :
    (∃ e, k.evaluateWith expression bindings = .error e ∧ e.IsTooDeep) ↔
      ∃ limit, k.read expression bindings = .error (.read (.tooDeep limit)) := by
  have hr : ∀ limit, ¬k.Refuses (.tooDeep limit) := by
    intro limit h
    cases eq_divisionByZero_of_refuses ho h
  constructor
  · rintro ⟨e, he, ⟨limit⟩ | ⟨limit⟩⟩
    · exact ⟨limit, evaluateWith_eq_read_error_iff.mp he⟩
    · exact absurd he (evaluateWith_ne_tooDeep hk hr limit)
  · rintro ⟨limit, h⟩
    exact ⟨_, evaluateWith_eq_read_error_iff.mpr h, .read limit⟩

end expressions

/-- Of an expression whose references are apart from what is around them, the limit on nesting
refuses none or both of two sets of finite values for the same names, if no quotient by zero stops
the reading. Where a reference stands exactly at the limit, its values have to be of one sign. -/
theorem nesting_refused_alike {β γ : Type} [Variables β] [Variables γ] (k : Calculator)
    (hk : k.rules = []) (ho : k.operators = .arithmetic) (expression : Option String)
    (bindings : β) (bindings' : γ)
    (happart : ∀ r ∈ Reference.all (expression.getD "").toList, r.Apart)
    (hnames : SameNames (Variables.lookup bindings) (Variables.lookup bindings'))
    (hsigns : Reference.SameSigns k.maxDepth (Variables.lookup bindings)
      (Variables.lookup bindings') 0 (expression.getD "").toList)
    (hread : k.read expression bindings ≠ .error (.eval .divisionByZero))
    (hread' : k.read expression bindings' ≠ .error (.eval .divisionByZero)) :
    (∃ e, k.evaluateWith expression bindings = .error e ∧ e.IsTooDeep) ↔
      ∃ e, k.evaluateWith expression bindings' = .error e ∧ e.IsTooDeep := by
  rw [isTooDeep_iff_read hk ho, isTooDeep_iff_read hk ho]
  have halike := read_alike hk ho happart hnames hsigns
  generalize k.read expression bindings = x at hread halike ⊢
  generalize k.read expression bindings' = y at hread' halike ⊢
  cases halike with
  | ok _ => simp
  | error hcause =>
    simp only [Except.error.injEq]
    exact exists_congr hcause.tooDeep_iff
  | left _ hrefused =>
    obtain ⟨e, rfl, he⟩ := hrefused
    rw [eq_divisionByZero_of_refuses ho he] at hread
    exact absurd rfl hread
  | right _ hrefused =>
    obtain ⟨e, rfl, he⟩ := hrefused
    rw [eq_divisionByZero_of_refuses ho he] at hread'
    exact absurd rfl hread'

/-- The values that differ in sign stand above the limit, and the others beyond it. -/
theorem nesting_refused_alike_signed :
    ({ maxDepth := 1 } : Calculator).rules = [] ∧
    (∀ r ∈ Reference.all "2*$x - (($y))".toList, r.Apart) ∧
    SameNames (Variables.lookup [("x", (3 : Float)), ("y", 1)])
      (Variables.lookup [("x", (-3 : Float)), ("y", -1)]) ∧
    Reference.SameSigns 1 (Variables.lookup [("x", (3 : Float)), ("y", 1)])
      (Variables.lookup [("x", (-3 : Float)), ("y", -1)]) 0 "2*$x - (($y))".toList ∧
    ({ maxDepth := 1 } : Calculator).evaluateWith (some "2*$x - (($y))")
      [("x", (3 : Float)), ("y", 1)] = .error (.read (.tooDeep 1)) ∧
    ∃ e, ({ maxDepth := 1 } : Calculator).evaluateWith (some "2*$x - (($y))")
      [("x", (-3 : Float)), ("y", -1)] = .error e ∧ e.IsTooDeep := by
  have happart : ∀ r ∈ Reference.all "2*$x - (($y))".toList, r.Apart := by decide +kernel
  have hnames : SameNames (Variables.lookup [("x", (3 : Float)), ("y", 1)])
      (Variables.lookup [("x", (-3 : Float)), ("y", -1)]) :=
    sameNames_first? rfl (by decide +kernel)
  have hsigns : Reference.SameSigns 1 (Variables.lookup [("x", (3 : Float)), ("y", 1)])
      (Variables.lookup [("x", (-3 : Float)), ("y", -1)]) 0 "2*$x - (($y))".toList := by
    decide +kernel
  have hdeep : ({ maxDepth := 1 } : Calculator).evaluateWith (some "2*$x - (($y))")
      [("x", (3 : Float)), ("y", 1)] = .error (.read (.tooDeep 1)) := by decide +kernel
  refine ⟨rfl, happart, hnames, hsigns, hdeep, ?_⟩
  exact (nesting_refused_alike { maxDepth := 1 } rfl rfl (some "2*$x - (($y))") _ _ happart hnames
    hsigns (by decide +kernel) (by decide +kernel)).mp ⟨_, hdeep, .read 1⟩

/-- The literal of a value with a sign is a group where none is within the limit. -/
theorem nesting_refused_signed :
    (∀ r ∈ Reference.all "$x".toList, r.Apart) ∧
    SameNames (Variables.lookup [("x", (1 : Float))]) (Variables.lookup [("x", (-1 : Float))]) ∧
    ({ maxDepth := 0 } : Calculator).evaluateWith (some "$x") [("x", (1 : Float))] = .ok 1 ∧
    ({ maxDepth := 0 } : Calculator).evaluateWith (some "$x") [("x", (-1 : Float))] =
      .error (.read (.tooDeep 0)) :=
  ⟨by decide +kernel, sameNames_first? rfl (by decide +kernel), by decide +kernel,
    by decide +kernel⟩

end Calculator

end Abacus
