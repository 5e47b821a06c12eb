import Abacus.Proofs.Checked
import Abacus.Proofs.Extension
import Abacus.Proofs.Nesting

/-!
# Nothing fails

The checked program comes to what a text is worth, or to the error that it has, and no operation in
it fails. What has a result in a program is kept in memory, and this leaves room for all sums: the
offsets of a text, the parentheses before a place in it, and the groups around a token in a group.
-/

namespace Abacus
open Text Checked

/-! ## Substitution -/

theorem Draft.finish?_eq (lookup : String → Option Float) (output : List Char) {rest : List Char}
    (hsize : byteLength rest < sizeLimit) : (Draft.mk output rest).finish? lookup =
      of ((substitute lookup rest).map (output ++ ·)) := by
  induction hn : rest.length using Nat.strongRecOn generalizing output rest with
  | ind n ih =>
  subst hn
  rw [finish?]
  obtain ⟨front, tail, rfl, hfront, htail⟩ := exists_run (· != '$') rest
  have hfront : '$' ∉ front := not_mem_run hfront (by decide)
  cases tail with
  | nil =>
    rw [List.append_nil, find?_of_not_mem hfront, substitute_of_not_mem _ hfront]
    rfl
  | cons c after =>
    obtain rfl : c = '$' := by simpa [Ends] using htail
    have hslice : slice? (front ++ '$' :: after) 0 (byteLength front) = some front :=
      slice?_front rfl
    have hadd : add? (byteLength front) 1 = some (byteLength (front ++ ['$'])) := by
      rw [byteLength_append, byteLength_cons] at hsize
      rw [byteLength_append]
      refine add?_of_lt ?_
      rw [wordLimit_eq]
      omega
    have hafter : slice? (front ++ '$' :: after) (byteLength (front ++ ['$']))
        (byteLength (front ++ '$' :: after)) = some after := slice?_behind (by simp)
    obtain ⟨name, tail, rfl, hname, hends⟩ := exists_run isNameChar after
    have hlength : (find? (!isNameChar ·) (name ++ tail)).getD (byteLength (name ++ tail)) =
        byteLength name := by
      rw [find?_getD, takeWhile_run hname hends]
    rw [find?_append hfront]
    simp only [lift_bind hslice, lift_bind hadd, lift_bind hafter, hlength]
    by_cases hne : name = []
    · subst hne
      have hshort : tail.length < (front ++ '$' :: tail).length := by
        simp
        omega
      rw [if_pos byteLength_nil, List.nil_append, ih _ hshort _ (by simp at hsize; omega) rfl,
        substitute_front hfront, substitute_char (.inr hends)]
      cases substitute lookup tail with
      | error e => rfl
      | ok text =>
        show of (.ok (output ++ front ++ ['$'] ++ text)) =
          of (.ok (output ++ (front ++ '$' :: text)))
        simp
    · have hpos : byteLength name ≠ 0 := by
        obtain ⟨c, more, rfl⟩ := List.exists_cons_of_ne_nil hne
        have := c.utf8Size_pos
        rw [byteLength_cons]
        omega
      have hshort : tail.length < (front ++ '$' :: (name ++ tail)).length := by
        simp
        omega
      rw [if_neg hpos, lift_bind (slice?_front rfl), substitute_front hfront,
        substitute_reference hne hname hends]
      cases finiteValue lookup (String.ofList name) with
      | error e => rfl
      | ok x =>
        rw [lift_ok_bind, lift_bind (slice?_behind rfl),
          ih _ hshort _ (by simp at hsize; omega) rfl]
        cases substitute lookup tail with
        | error e => rfl
        | ok text =>
          show of (.ok (output ++ front ++ Double.literal x ++ text)) =
            of (.ok (output ++ (front ++ (Double.literal x ++ text))))
          simp

theorem substitute?_eq (lookup : String → Option Float) {text : List Char}
    (hsize : byteLength text < sizeLimit) :
    substitute? lookup text = of (substitute lookup text) := by
  rw [substitute?]
  by_cases h : '$' ∈ text
  · rw [if_pos h, Draft.finish?_eq lookup [] hsize]
    cases substitute lookup text <;> rfl
  · rw [if_neg h, substitute_of_not_mem _ h]
    rfl

/-! ## Stored cursors -/

/-- The cursor stands in a text that is kept in memory, behind at least as many parentheses as there
are groups around its range. -/
structure Cursor.Stored (c : Cursor) : Prop where
  size : byteLength c.input < sizeLimit
  depth_le : c.depth ≤ c.index

namespace Cursor.Stored
variable {c d : Cursor}

theorem ahead (h : c.Stored) (ha : c.Ahead d) : d.Stored where
  size := by
    rw [ha.input]
    exact h.size
  depth_le := by
    rw [ha.depth]
    exact Nat.le_trans h.depth_le ha.index_le

theorem depth_lt (h : c.Stored) : c.depth + 1 < wordLimit := by
  have hsize := h.size
  have hdepth := h.depth_le
  have hle := c.index_le_stop
  have hstop := c.stop_le
  rw [wordLimit_eq]
  omega

theorem whole {text : List Char} (h : byteLength text < sizeLimit) :
    (Cursor.whole text 0).Stored where
  size := by simpa [Cursor.whole, input] using h
  depth_le := Nat.le_refl 0

end Cursor.Stored

namespace Calculator
open Token

variable {k : Calculator}

/-! ## Evaluation -/

section evaluation
variable {depth : Nat}

theorem nextPriority_eq (ts : List Token) :
    Chain.nextPriority k.operator (k.links depth ts) = k.nextPriority ts := by
  match ts with
  | [] => rfl
  | [t] => rfl
  | t :: u :: more =>
    rw [links]
    rfl

theorem operand?_eq (hdepth : depth + 1 < wordLimit) {t : Token}
    (ht : k.value? (depth + 1) t = of (k.value (depth + 1) t)) (after : Option String)
    (rest : List Token) :
    k.operand? depth after (t :: rest) = of ((k.value (depth + 1) t).map (·, rest)) := by
  have hadd : add? depth 1 = some (depth + 1) := add?_of_lt hdepth
  cases t with
  | operator symbol =>
    rw [operand?, value]
    rfl
  | operand x =>
    rw [operand?, lift_bind hadd, ht]
    · cases k.value (depth + 1) (.operand x) <;> rfl
    · rintro symbol ⟨⟩
  | group ts =>
    rw [operand?, lift_bind hadd, ht]
    · cases k.value (depth + 1) (.group ts) <;> rfl
    · rintro symbol ⟨⟩

theorem climb?_eq (hdepth : depth + 1 < wordLimit) (left : Float) {ts : List Token}
    (hts : ∀ t ∈ ts, k.value? (depth + 1) t = of (k.value (depth + 1) t)) :
    k.climb? depth left ts = of (Chain.reduce k.operator left (k.links (depth + 1) ts)) := by
  induction hn : ts.length using Nat.strongRecOn generalizing left ts with
  | ind n ih =>
  subst hn
  match ts with
  | [] =>
    rw [climb?]
    rfl
  | [t] =>
    rw [climb?, links, Chain.reduce, operand?]
    cases k.operator t <;> rfl
  | t :: u :: more =>
    have hmore : ∀ t ∈ more, k.value? (depth + 1) t = of (k.value (depth + 1) t) :=
      fun t ht => hts t (by simp [ht])
    -- an operand on the right is reduced on its own, and then the tokens behind it once more
    have hrec := fun left => ih more.length (by simp only [List.length_cons]; omega) left hmore rfl
    rw [climb?, links, Chain.reduce, operand?_eq hdepth (hts u (by simp)),
      nextPriority_eq]
    refine of_bind fun op _ => of_map_bind fun right _ => of_bind fun next _ => ?_
    split
    · rw [hrec]
      exact of_bind fun right _ => rfl
    · exact of_bind fun left _ => hrec left

/-- A token has its value if each depth in it can be counted, or each that the limit lets pass. -/
theorem value?_eq {t : Token} (h : k.maxDepth + 1 < wordLimit ∨ depth + t.height < wordLimit) :
    k.value? depth t = of (k.value depth t) := by
  induction hn : t.height using Nat.strongRecOn generalizing t depth with
  | ind n ih =>
  subst hn
  cases t with
  | operand x =>
    rw [value?, value]
    rfl
  | operator symbol =>
    rw [value?, value]
    rfl
  | group ts =>
    rw [height] at h
    have hts : ∀ t ∈ ts, k.value? (depth + 1) t = of (k.value (depth + 1) t) := by
      intro t ht
      have := height_le_heights ht
      exact ih _ (by rw [height]; omega) (by omega) rfl
    rw [value?, sequence?]
    cases ts with
    | nil =>
      rw [value, guarded, operand?]
      split <;> rfl
    | cons first more =>
      rw [value, guarded]
      by_cases hdeep : k.maxDepth < depth
      · rw [if_pos hdeep, if_pos hdeep]
        rfl
      · -- the limit has been asked, so either it or the height leaves room for one more
        have hdepth : depth + 1 < wordLimit := by omega
        rw [if_neg hdeep, if_neg hdeep, operand?_eq hdepth (hts first (by simp))]
        exact of_map_bind fun left _ => climb?_eq hdepth left fun t ht => hts t (by simp [ht])

end evaluation

/-! ## Normal form -/

section normal
variable {depth : Nat}

theorem negate?_eq (hdepth : depth + 1 < wordLimit) {t : Token}
    (h : k.maxDepth + 1 < wordLimit ∨ depth + 1 + t.height < wordLimit) :
    k.negate? depth t = of (k.negate depth t) := by
  cases t with
  | operand x => rfl
  | operator symbol => rfl
  | group ts =>
    rw [negate?, lift_bind (add?_of_lt hdepth), value?_eq h, negate]
    cases k.value (depth + 1) (.group ts) <;> rfl

theorem normalize?_eq (hdepth : depth + 1 < wordLimit) {ts : List Token}
    (h : ∀ t ∈ ts, k.maxDepth + 1 < wordLimit ∨ depth + 1 + t.height < wordLimit) :
    k.normalize? depth ts = of (k.normalize depth ts) := by
  rw [normalize?, normalize]
  match ts with
  | [] => rfl
  | .operand _ :: _ | .group _ :: _ => rfl
  | [.operator symbol] => rfl
  | .operator symbol :: first :: more =>
    have hlength : ¬(Token.operator symbol :: first :: more).length < 2 := by simp
    have hremove : remove? (Token.operator symbol :: first :: more) 0 =
        some (first :: more) := rfl
    have hfirst : (first :: more)[0]? = some first := rfl
    simp only [List.head?_cons, Option.bind_some, Token.operator?, hlength, false_or,
      lift_bind hremove, lift_bind hfirst, negate?_eq hdepth (h first (by simp)), foldSign]
    cases isSign symbol with
    | false => rfl
    | true =>
      by_cases hminus : symbol = "-"
      · subst hminus
        cases k.negate depth first <;> rfl
      · simp only [hminus]
        rfl

end normal

/-! ## Room for depths -/

/-- What rules read in a text that is kept in memory is kept there too, with all of its groups. -/
def Storable (k : Calculator) : Prop :=
  ∀ rule ∈ k.rules, ∀ c t after, byteLength c.input < sizeLimit →
    rule.read.run c = .ok (t, after) → t.height < sizeLimit

/-- Depths can be counted: the limit is not the last of all words, or else what rules read is not
nested any further than there is memory. -/
def CountsDepth (k : Calculator) : Prop := k.maxDepth + 1 < wordLimit ∨ k.Storable

section room
variable {c inside after : Cursor} {opening : Nat} {ts : List Token}

/-- The contents of a group stand behind its parenthesis, and are shorter than what is ahead. -/
theorem stored_of_group (hc : c.Stored) (h : k.step c = .group opening inside after) :
    inside.Stored ∧ byteLength inside.rest < byteLength c.rest := by
  have hstep := k.step_advances c
  have hnext := c.ahead_next
  have hinput := (input_of_group h).1
  rw [h] at hstep
  obtain ⟨rfl, close, -, hinside, ⟨hindex, hstop⟩, hahead, hafter⟩ := hstep
  have hdepth : inside.depth = c.depth + 1 := by
    rw [hinside, ← hnext.depth]
    rfl
  have hle := after.index_le_stop
  have hnextle := hnext.index_le
  have hcdepth := hc.depth_le
  rw [hahead.stop, hnext.stop] at hle
  refine ⟨⟨by rw [hinput]; exact hc.size, by omega⟩, ?_⟩
  have hlengths : inside.stop = inside.index + byteLength inside.rest ∧
      c.stop = c.index + byteLength c.rest := ⟨rfl, rfl⟩
  omega

theorem height_of_step (hk : k.Storable) (hc : c.Stored) {t : Token}
    (h : k.step c = .token t after) : t.height < sizeLimit := by
  cases supplies_of_step h with
  | rule hmem hrun =>
    refine hk _ hmem _ _ _ ?_ hrun
    rw [c.ahead_next.input]
    exact hc.size
  | number | symbol => exact (by decide : 0 < sizeLimit)

/-- What is read in a range has no more groups one in another than the range has bytes, besides
those in a token of a rule. -/
theorem height_of_tokensFrom (hk : k.Storable) (hc : c.Stored) (h : k.tokensFrom c = .ok ts) :
    heights ts < sizeLimit + byteLength c.rest := by
  induction hn : c.rest.length using Nat.strongRecOn generalizing c ts with
  | ind n ih =>
  subst hn
  rcases k.exists_stops_or_round c with ⟨outcome, hstops⟩ | ⟨p, after, hround⟩
  · rw [hstops.tokensFrom] at h
    cases hstops with
    | finished =>
      cases h
      exact Nat.lt_of_lt_of_le (by decide : 0 < sizeLimit) (Nat.le_add_right ..)
    | _ => cases h
  · obtain ⟨more, hmore, rfl⟩ := hround.exists_tokensFrom h
    have hahead := hround.spec.1
    have hafter := ih _ hround.shorter (hc.ahead hahead) hmore rfl
    have hstop : after.index + byteLength after.rest = c.index + byteLength c.rest := hahead.stop
    have hindex := hahead.index_le
    have hfirst : p.token.height < sizeLimit + byteLength c.rest := by
      cases hround with
      | token hs => exact Nat.lt_of_lt_of_le (height_of_step hk hc hs) (Nat.le_add_right ..)
      | group hs hnormal =>
        obtain ⟨inner, hinner, hfold⟩ := exists_of_bind_eq_ok hnormal
        obtain ⟨hstored, hlt⟩ := stored_of_group hc hs
        have hshort := k.step_shorter c
        rw [hs] at hshort
        have hin := ih _ hshort.1 hstored (tokens_eq_ok_iff.mp hinner).2 rfl
        exact Nat.lt_of_le_of_lt (height_normalize hfold) (by omega)
    rw [heights]
    omega

/-- The depth of what is read in a range can be counted, or a limit keeps it from being counted. -/
theorem depth_lt_of_tokens (hk : k.CountsDepth) (hc : c.Stored)
    (h : k.tokens c = .ok ts) :
    k.maxDepth + 1 < wordLimit ∨ c.depth + 1 + heights ts < wordLimit := by
  refine Or.imp_right (fun hk : k.Storable => ?_) hk
  have hheight := height_of_tokensFrom hk hc (tokens_eq_ok_iff.mp h).2
  have hsize := hc.size
  have hdepth := hc.depth_le
  have hstop : c.index + byteLength c.rest ≤ byteLength c.input := c.stop_le
  rw [wordLimit_eq]
  omega

end room

/-! ## Reading -/

section reading
variable {c : Cursor} {ts : List Token}

/-- What a step gives: the token that is read, and where it ends. -/
def found (k : Calculator) : Step → Except Failure (Option (Token × Offsets))
  | .finished => .ok none
  | .failed cause => .error (.read cause)
  | .token t after => .ok (some (t, after.offsets))
  | .group opening inside after => do
    match ← k.normal? inside with
    | none => .error (.read (.emptyGroup opening))
    | some t => return some (t, after.offsets)

theorem advance?_front (hc : c.Stored) {front behind : List Char} (h : c.rest = front ++ behind) :
    c.offsets.advance? (byteLength front) = some (c.take front.length).offsets := by
  rw [Cursor.advance?_offsets hc.size, Cursor.move, Cursor.count, h, Cursor.countCovering_append]

theorem rule_step?_eq (hc : c.Stored) (rule : Rule) :
    rule.step? c.offsets = of (found k (rule.step c)) := by
  rw [Rule.step?, rule.read.run?_offsets hc.size, Rule.step]
  cases rule.read.run c with
  | error cause => rfl
  | ok p =>
    obtain ⟨t, after⟩ := p
    show (if after.index = c.index then _ else _) =
      of (found k (if after.index = c.index then _ else _))
    split <;> rfl

theorem number?_eq (hc : c.Stored) :
    c.offsets.number? (byteLength (Lexeme.numeric.extent c.rest)) = of (found k c.number) := by
  have hrest : c.rest = Lexeme.numeric.extent c.rest ++ c.rest.dropWhile isNumeric :=
    List.takeWhile_append_dropWhile.symm
  rw [Offsets.number?, lift_bind c.remaining?_offsets, lift_bind (slice?_front hrest),
    Cursor.number]
  cases Double.ofText? (Lexeme.numeric.extent c.rest) with
  | none => rfl
  | some x =>
    show (do return some (Token.operand x, ← liftM (c.offsets.advance? _))) = _
    rw [lift_bind (advance?_front hc hrest)]
    rfl

/-- The contents of a group are read from the offsets of its parentheses. -/
theorem tokens?_eq {text : List Char} (hsize : byteLength text < sizeLimit) (start stop depth : Nat)
    (hfrom : k.tokensFrom? (Cursor.ofRange text start stop depth).offsets =
      of (k.tokensFrom (Cursor.ofRange text start stop depth))) :
    k.tokens? text start stop depth = of (k.tokens (Cursor.ofRange text start stop depth)) := by
  have hdepth : (Cursor.ofRange text start stop depth).depth = depth := rfl
  rw [tokens?, tokens, within, hdepth]
  split
  · rfl
  · rw [lift_bind (Cursor.ofRange?_eq hsize start stop depth), hfrom]

theorem normalize_of_tokens (hk : k.CountsDepth) (hc : c.Stored)
    (h : k.tokens c = .ok ts) : k.normalize? c.depth ts = of (k.normalize c.depth ts) := by
  have hroom := depth_lt_of_tokens hk hc h
  refine normalize?_eq hc.depth_lt fun t ht => ?_
  have := height_le_heights ht
  omega

/-- Before an opening parenthesis there is a group, or none that is closed. -/
theorem group_cases {rest : List Char} (hrest : c.rest = '(' :: rest) :
    (c.group = .failed (.unclosedGroup c.index) ∧
      matchingClose (String.ofList c.input) (c.index + 1) c.stop = none) ∨
    ∃ inside n, c.group = .group c.index inside (c.take n) := by
  rw [Cursor.matchingClose_rest hrest, Cursor.group, hrest, List.drop_one, List.tail_cons]
  cases splitClose '(' ')' 0 rest with
  | none => exact .inl ⟨rfl, rfl⟩
  | some p => exact .inr ⟨_, _, rfl⟩

theorem group?_eq (hk : k.CountsDepth) (hc : c.Stored) {rest : List Char}
    (hrest : c.rest = '(' :: rest)
    (hfrom : ∀ d : Cursor, d.rest.length < c.rest.length → d.Stored →
      k.tokensFrom? d.offsets = of (k.tokensFrom d)) :
    k.group? c.offsets = of (found k c.group) := by
  have hsize := hc.size
  have hdepth := hc.depth_le
  have hstop := c.stop_le
  have hlt : c.index < c.stop := by
    rw [Cursor.stop, hrest, byteLength_cons, Cursor.utf8Size_parenthesis.1]
    omega
  have hstart : add? c.index 1 = some (c.index + 1) := add?_of_lt (by rw [wordLimit_eq]; omega)
  rw [group?, Cursor.offsets_index, lift_bind hstart, Cursor.offsets_input, Cursor.offsets_stop,
    lift_bind (matchingClose?_eq hsize _ _)]
  rcases group_cases hrest with ⟨hgroup, hnone⟩ | ⟨inside, n, hgroup⟩
  · rw [hnone, hgroup]
    rfl
  · have hadvances := Cursor.group_advances hrest
    have hshorter := Cursor.group_shorter (by rw [hrest]; exact List.cons_ne_nil _ _ : c.rest ≠ [])
    rw [hgroup] at hadvances hshorter ⊢
    obtain ⟨-, close, hclose, hinside, ⟨hindex, -⟩, hahead, hafter⟩ := hadvances
    have hle := (c.take n).index_le_stop
    rw [hahead.stop, hafter] at hle
    have hdeeper : add? c.depth 1 = some (c.depth + 1) := add?_of_lt hc.depth_lt
    have hbehind : add? close 1 = some (close + 1) := add?_of_lt (by rw [wordLimit_eq]; omega)
    have hseek : c.offsets.seek? (close + 1) = some (c.take n).offsets := by
      rw [← hafter]
      exact Cursor.seek?_take hsize n
    have hstored : inside.Stored := by
      refine ⟨?_, ?_⟩
      · rwa [hinside, Cursor.ofRange_input]
      · rw [hindex, hinside]
        exact Nat.succ_le_succ hdepth
    have htokens : k.tokens? c.input (c.index + 1) close (c.depth + 1) = of (k.tokens inside) := by
      have hread := hfrom inside hshorter.1 hstored
      rw [hinside] at hread ⊢
      exact tokens?_eq hsize _ _ _ hread
    have hinner : inside.depth = c.depth + 1 := by rw [hinside]; rfl
    rw [hclose]
    simp only [Cursor.offsets_depth, lift_bind hdeeper, htokens, lift_bind hbehind, lift_bind hseek,
      found, normal?]
    rw [bind_assoc]
    refine of_bind fun ts hts => ?_
    rw [← hinner, normalize_of_tokens hk hstored hts]
    exact of_bind fun t? _ => by cases t? <;> rfl

theorem lexeme?_offsets (c : Cursor) : c.offsets.lexeme? = some (Lexeme.classify c.rest) := by
  rw [Offsets.lexeme?, c.remaining?_offsets]
  rfl

/-- The longest symbol that is ahead, or what there is if none is. -/
theorem symbol_eq (hc : c.Stored) {other : Checked Failure (Option (Token × Offsets))} {step : Step}
    (h : other = of (found k step)) :
    (do match k.operators.longestMatch (← c.offsets.remaining?) with
        | some symbol =>
          return some (.operator symbol, ← c.offsets.advance? (byteLength symbol.toList))
        | none => other) =
      of (found k (match k.operators.longestMatch c.rest with
        | some symbol => .token (.operator symbol) (c.take symbol.toList.length)
        | none => step)) := by
  rw [lift_bind c.remaining?_offsets]
  cases hsymbol : k.operators.longestMatch c.rest with
  | none => exact h
  | some symbol =>
    obtain ⟨behind, hrest⟩ := (OperatorTable.longestOf_eq_some hsymbol).2
    simp only [lift_bind (advance?_front hc hrest.symm)]
    rfl

/-- What stands at a cursor that is not before a blank. -/
theorem next_of_ends (hk : k.CountsDepth) (hc : c.Stored) (hends : Ends isBlank c.rest)
    (hfrom : ∀ d : Cursor, d.rest.length < c.rest.length → d.Stored →
      k.tokensFrom? d.offsets = of (k.tokensFrom d)) :
    k.next? c.offsets = of (found k (k.stepAt c)) := by
  rw [next?, lift_bind c.peek?_offsets, stepAt]
  cases hrest : c.rest with
  | nil =>
    have hpeek : c.peek = none := by rw [Cursor.peek, hrest]; rfl
    rw [hpeek]
    rfl
  | cons ch rest =>
    have hpeek : c.peek = some ch := by rw [Cursor.peek, hrest]; rfl
    have hblank : isBlank ch = false := hends ch (by rw [hrest]; rfl)
    have hclass : Lexeme.classify c.rest =
        (Lexeme.ofChar? ch).map fun l => (l, l.extent c.rest) := by
      rw [Lexeme.classify, hrest]
      rfl
    rw [hpeek, ← hrest]
    simp only [lift_bind (lexeme?_offsets c), hclass]
    cases hl : Lexeme.ofChar? ch with
    | none =>
      cases Rule.find? k.rules ch with
      | some rule => exact rule_step?_eq hc rule
      | none => exact symbol_eq hc rfl
    | some l =>
      cases l with
      | blank =>
        rw [Lexeme.ofChar?_eq_blank_iff.mp hl] at hblank
        cases hblank
      | numeric =>
        cases Rule.find? k.rules ch with
        | some rule => exact rule_step?_eq hc rule
        | none => exact number?_eq hc
      | opening =>
        cases Rule.find? k.rules ch with
        | some rule => exact rule_step?_eq hc rule
        | none =>
          rw [Lexeme.ofChar?_eq_opening_iff.mp hl] at hrest
          exact symbol_eq hc (group?_eq hk hc hrest hfrom)
      | closing =>
        cases Rule.find? k.rules ch with
        | some rule => exact rule_step?_eq hc rule
        | none => exact symbol_eq hc rfl

/-- Blanks are passed over. -/
theorem next_blank (hc : c.Stored) : k.next? c.offsets = k.next? c.next.offsets := by
  obtain ⟨w, rest, hrest, hw, hends⟩ := exists_run isBlank c.rest
  have hnext : c.next = c.take w.length := Cursor.skip_blank hw hends hrest
  cases w with
  | nil => rw [hnext, List.length_nil, Cursor.take_zero]
  | cons ch w =>
    have hpeek : c.peek = some ch := by rw [Cursor.peek, hrest]; rfl
    have hblank : Lexeme.ofChar? ch = some .blank :=
      Lexeme.ofChar?_eq_blank_iff.mpr (hw ch List.mem_cons_self)
    have hclass : Lexeme.classify c.rest = some (.blank, ch :: w) := by
      rw [Lexeme.classify, hrest, List.cons_append, List.head?_cons, Option.bind_some, hblank,
        Option.map_some, Lexeme.extent, ← List.cons_append, takeWhile_run hw hends]
    rw [next?, lift_bind c.peek?_offsets, hpeek]
    simp only [lift_bind (lexeme?_offsets c), hclass]
    rw [lift_bind (advance?_front hc hrest), hnext]

theorem next?_eq (hk : k.CountsDepth) (hc : c.Stored)
    (hfrom : ∀ d : Cursor, d.rest.length < c.rest.length → d.Stored →
      k.tokensFrom? d.offsets = of (k.tokensFrom d)) :
    k.next? c.offsets = of (found k (k.step c)) := by
  have hle : c.next.rest.length ≤ c.rest.length := by simp [Cursor.next, Cursor.move]
  rw [next_blank hc, next_of_ends hk (hc.ahead c.ahead_next) c.ends_next fun d hd =>
    hfrom d (Nat.lt_of_lt_of_le hd hle)]
  rfl

/-- The loop over a range ends, and reads what stands in it. -/
theorem tokensFrom?_eq (hk : k.CountsDepth) (hc : c.Stored) :
    k.tokensFrom? c.offsets = of (k.tokensFrom c) := by
  induction hn : c.rest.length using Nat.strongRecOn generalizing c with
  | ind n ih =>
  subst hn
  have hfrom : ∀ d : Cursor, d.rest.length < c.rest.length → d.Stored →
      k.tokensFrom? d.offsets = of (k.tokensFrom d) := fun d hd hstored => ih _ hd hstored rfl
  rw [tokensFrom?, next?_eq hk hc hfrom]
  rcases k.exists_stops_or_round c with ⟨outcome, hstops⟩ | ⟨p, d, hround⟩
  · rw [hstops.tokensFrom]
    cases hstops with
    | finished hs | failed hs =>
      rw [hs]
      rfl
    | inside hs hnormal | empty hs hnormal =>
      rw [hs, found, hnormal]
      rfl
  · have hfound : found k (k.step c) = .ok (some (p.token, d.offsets)) := by
      cases hround with
      | token hs =>
        rw [hs]
        rfl
      | group hs hnormal =>
        rw [hs, found, hnormal]
        rfl
    rw [hround.tokensFrom, hfound, of_ok_bind]
    show (do return p.token :: (← k.tokensFrom? d.offsets)) = _
    rw [hfrom d hround.shorter (hc.ahead hround.spec.1)]
    cases k.tokensFrom d <;> rfl

end reading

/-! ## Expressions -/

section expressions
variable {β : Type} [Variables β]

theorem tokens_whole (hk : k.CountsDepth) {text : List Char} (hsize : byteLength text < sizeLimit) :
    k.tokens? text 0 (byteLength text) 0 = of (k.tokens (.whole text 0)) := by
  have hwhole : Cursor.ofRange text 0 (byteLength text) 0 = .whole text 0 := by
    have h := Cursor.ofRange_append [] text [] 0
    rwa [List.nil_append, List.append_nil] at h
  have htokens := tokens?_eq (k := k) hsize 0 (byteLength text) 0
  rw [hwhole] at htokens
  exact htokens (tokensFrom?_eq hk (.whole hsize))

theorem textValue?_eq (hk : k.CountsDepth) {text : List Char}
    (hsize : byteLength text < sizeLimit) : k.textValue? text = of (k.textValue text) := by
  have hstored : (Cursor.whole text 0).Stored := .whole hsize
  have hdepth : (Cursor.whole text 0).depth = 0 := rfl
  rw [textValue?, tokens_whole hk hsize, textValue, token?]
  rw [bind_assoc]
  refine of_bind fun ts hts => ?_
  have hnormal := normalize_of_tokens hk hstored hts
  have hroom := depth_lt_of_tokens hk hstored hts
  rw [hdepth] at hnormal hroom
  rw [hnormal]
  refine of_bind fun t? ht? => ?_
  cases t? with
  | none => rfl
  | some t =>
    have ht := height_normalize ht?
    have hvalue : k.value? 0 t = of (k.value 0 t) := value?_eq (by omega)
    simp only [hvalue]
    cases k.value 0 t <;> rfl

theorem evaluateWith?_eq (hk : k.CountsDepth) (expression : Option String)
    (bindings : β) (hsource : byteLength (expression.getD "").toList < sizeLimit)
    (htext : ∀ text, substitute (Variables.lookup bindings) (expression.getD "").toList =
      .ok text → byteLength text < sizeLimit) :
    k.evaluateWith? expression bindings = of (k.evaluateWith expression bindings) := by
  cases expression with
  | none => rfl
  | some source =>
    have hsource : byteLength source.toList < sizeLimit := hsource
    by_cases hempty : source = ""
    · subst hempty
      have hnil : substitute (Variables.lookup bindings) [] = .ok [] := by
        rw [substitute]
      rw [evaluateWith_eq_textValue hnil, k.textValue_nil]
      rfl
    · have hfilter : (some source).filter (· ≠ "") = some source := by simp [hempty]
      rw [evaluateWith?, hfilter, evaluateWith, textValueWith]
      simp only [substitute?_eq _ hsource]
      cases hs : substitute (Variables.lookup bindings) source.toList with
      | error e => rfl
      | ok text => exact textValue?_eq hk (htext text hs)

/-- No operation fails: not in a cursor that is made on any range, not in a scan from any cursor,
not in the search for the end of a group, and not on the way from an expression to its value or its
error. -/
theorem nothing_fails (hk : k.CountsDepth) :
    (∀ text start stop depth, byteLength text < sizeLimit →
      Offsets.ofRange? text start stop depth =
        some (Cursor.ofRange text start stop depth).offsets) ∧
    (∀ {α : Type} (s : Scan α) (c : Cursor), byteLength c.input < sizeLimit →
      s.run? c.offsets = of ((s.run c).map fun p => (p.1, p.2.offsets))) ∧
    (∀ text start stop, byteLength text < sizeLimit →
      matchingClose? text start stop = some (matchingClose (String.ofList text) start stop)) ∧
    ∀ {β : Type} [Variables β] (expression : Option String) (bindings : β),
      byteLength (expression.getD "").toList < sizeLimit →
      (∀ text, substitute (Variables.lookup bindings) (expression.getD "").toList = .ok text →
        byteLength text < sizeLimit) →
      k.evaluateWith? expression bindings = of (k.evaluateWith expression bindings) :=
  ⟨fun _ start stop depth hsize => Cursor.ofRange?_eq hsize start stop depth,
    fun s _ hsize => s.run?_offsets hsize,
    fun _ start stop hsize => matchingClose?_eq hsize start stop,
    fun expression bindings hsource htext => evaluateWith?_eq hk expression bindings hsource htext⟩

end expressions

/-- A rule that asks for two of the three bytes of a character, in a group behind a variable. -/
def euro : Calculator where
  rules := [⟨(· = '€'), .covering 2 (.operand 3.0)⟩]
  maxDepth := wordLimit - 1

theorem euro_countsDepth : euro.CountsDepth := by
  refine .inr fun rule hrule c t after _ hread => ?_
  obtain rfl : rule = ⟨(· = '€'), .covering 2 (.operand 3.0)⟩ := List.mem_singleton.mp hrule
  cases hread
  exact (by decide : 0 < sizeLimit)

theorem nothing_fails_euro : euro.CountsDepth ∧
    euro.evaluateWith? (some "$x-(2*€)") [("x", (-2 : Float))] = of (.ok (-8.0)) := by
  have hs : substitute (Variables.lookup [("x", (-2 : Float))]) "$x-(2*€)".toList =
      .ok "(-2)-(2*€)".toList := by decide +kernel
  have hvalue : euro.evaluateWith (some "$x-(2*€)") [("x", (-2 : Float))] = .ok (-8.0) := by
    decide +kernel
  refine ⟨euro_countsDepth, ?_⟩
  rw [← hvalue]
  refine (nothing_fails euro_countsDepth).2.2.2 _ _ (by decide) fun text htext => ?_
  have hsame := hs.symm.trans htext
  cases hsame
  decide

end Calculator

end Abacus
