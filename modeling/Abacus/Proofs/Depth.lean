import Abacus.Proofs.Brackets
import Abacus.Proofs.Layout
import Abacus.Proofs.Normal
import Mathlib.Data.List.Infix

/-!
# Depth

Where a token or a text stands counts for nothing but the limit on nesting: as long as the groups
in it are within the limit, it is read as the same tokens and has the same value at any depth.
-/

namespace Abacus
open Text

/-! ## Texts -/

/-- No more than so many groups are open at once. -/
def NestsWithin (limit : Nat) (text : List Char) : Prop :=
  ∀ front, front <+: text → front.count '(' ≤ front.count ')' + limit

instance (limit : Nat) (text : List Char) : Decidable (NestsWithin limit text) :=
  decidable_of_iff (∀ front ∈ text.inits, front.count '(' ≤ front.count ')' + limit) (by
    simp only [List.mem_inits, NestsWithin])

/-- The text closes so many groups more than it opens, and no part at its front closes more. -/
structure Closes (nested : Nat) (text : List Char) : Prop where
  total : text.count ')' = text.count '(' + nested
  front : ∀ front, front <+: text → front.count ')' ≤ front.count '(' + nested

theorem closes_iff_shuts {nested : Nat} {text : List Char} :
    Closes nested text ↔ Shuts '(' ')' nested text :=
  ⟨fun h => ⟨h.total, h.front⟩, fun h => ⟨h.total, h.closesOpen⟩⟩

/-- A group is closed where its contents have closed one more than they have opened. -/
theorem closes_of_splitClose {nested : Nat} {text inside after : List Char}
    (h : splitClose '(' ')' nested text = some (inside, after)) : Closes nested inside :=
  closes_iff_shuts.mpr (shuts_of_splitClose (by decide) h)

/-- Contents that close what they open are the contents of the group. -/
theorem Closes.splitClose_eq {nested : Nat} {inside : List Char} (h : Closes nested inside)
    (after : List Char) :
    splitClose '(' ')' nested (inside ++ ')' :: after) = some (inside, after) :=
  (closes_iff_shuts.mp h).splitClose_eq (by decide) after

theorem splitClose_eq_none_iff {nested : Nat} {text : List Char} :
    splitClose '(' ')' nested text = none ↔
      ∀ inside after, text = inside ++ ')' :: after → ¬Closes nested inside := by
  constructor
  · rintro h inside after rfl hcloses
    rw [hcloses.splitClose_eq] at h
    cases h
  · intro h
    refine Option.eq_none_iff_forall_ne_some.mpr fun p hp => ?_
    exact h p.1 p.2 (splitClose_append hp) (closes_of_splitClose hp)

/-- A text that closes more than it opens, and than was open, has in it what closes the group. -/
theorem splitClose_ne_none {nested : Nat} {text : List Char}
    (h : text.count '(' + nested < text.count ')') : splitClose '(' ')' nested text ≠ none := by
  intro hnone
  have := (splitClose_eq_none_iff_closesOpen (by decide)).mp hnone text List.prefix_rfl
  omega

theorem Level.closes {text : List Char} (h : Level text) : Closes 0 text :=
  closes_of_splitClose (h.splitClose_group [])

theorem Level.count_eq {text : List Char} (h : Level text) : text.count ')' = text.count '(' :=
  h.closes.total

/-- Where a level text stands behind an opening parenthesis, the one that closes it comes in the
same level text as the opening one. -/
theorem Level.exists_group {body rest front inside behind : List Char} (hbody : Level body)
    (hinside : Level inside)
    (h : body ++ ')' :: rest = front ++ '(' :: (inside ++ ')' :: behind)) :
    (∃ tail, body = front ++ '(' :: (inside ++ ')' :: tail) ∧ behind = tail ++ ')' :: rest) ∨
    ∃ tail, front = body ++ ')' :: tail ∧ rest = tail ++ '(' :: (inside ++ ')' :: behind) := by
  rcases List.append_eq_append_iff.mp h with ⟨more, rfl, hmore⟩ | ⟨more, rfl, hmore⟩
  · cases more with
    | nil => cases hmore
    | cons c tail =>
      obtain ⟨rfl, rfl⟩ := List.cons.inj hmore
      exact .inr ⟨tail, rfl, rfl⟩
  · cases more with
    | nil => cases hmore
    | cons c contents =>
      obtain ⟨rfl, hcontents⟩ := List.cons.inj hmore
      have hlonger : ¬contents <+: inside := by
        -- else the body would open at least one more group than it closes
        intro hprefix
        have hfront := hbody.closes.front front (List.prefix_append ..)
        have hcontents := hinside.closes.front contents hprefix
        have htotal := hbody.closes.total
        simp at hfront hcontents htotal
        omega
      rcases List.append_eq_append_iff.mp hcontents with ⟨tail, rfl, htail⟩ | ⟨tail, hsplit, -⟩
      · cases tail with
        | nil => exact absurd (by simp) hlonger
        | cons c tail =>
          obtain ⟨rfl, rfl⟩ := List.cons.inj htail
          exact .inl ⟨tail, rfl, rfl⟩
      · exact absurd ⟨tail, hsplit.symm⟩ hlonger

/-! ## Tokens -/

namespace Token

mutual

/-- How many groups there are one in another. -/
def height : Token → Nat
  | .operand _ | .operator _ => 0
  | .group tokens => heights tokens + 1

def heights : List Token → Nat
  | [] => 0
  | t :: more => max t.height (heights more)

end

theorem height_le_heights {t : Token} {ts : List Token} (h : t ∈ ts) :
    t.height ≤ heights ts := by
  induction ts with
  | nil => cases h
  | cons u ts ih =>
    rw [heights]
    rcases List.mem_cons.mp h with rfl | h
    · exact Nat.le_max_left ..
    · exact Nat.le_trans (ih h) (Nat.le_max_right ..)

end Token

namespace Calculator
open Token

variable {k : Calculator} {d d' : Nat}

theorem guarded_of_le (hd : d ≤ k.maxDepth) (x : Except EvalError Float) :
    k.guarded d x = x := if_neg (Nat.not_lt.mpr hd)

mutual

/-- A token has the same value at two depths, if both leave room for its groups. -/
theorem value_depth (k : Calculator) : ∀ (t : Token) (d d' : Nat),
    d + t.height ≤ k.maxDepth + 1 → d' + t.height ≤ k.maxDepth + 1 → k.value d t = k.value d' t
  | .operand x, d, d', _, _ => by rw [value, value]
  | .operator symbol, d, d', _, _ => by rw [value, value]
  | .group [], d, d', hd, hd' => by
    rw [height, heights] at hd hd'
    rw [value, value, guarded_of_le (by omega), guarded_of_le (by omega)]
  | .group (first :: more), d, d', hd, hd' => by
    rw [height, heights] at hd hd'
    rw [value, value, guarded_of_le (by omega), guarded_of_le (by omega),
      value_depth k first (d + 1) (d' + 1) (by omega) (by omega),
      links_depth k more (d + 1) (d' + 1) (by omega) (by omega)]

theorem links_depth (k : Calculator) : ∀ (ts : List Token) (d d' : Nat),
    d + heights ts ≤ k.maxDepth + 1 → d' + heights ts ≤ k.maxDepth + 1 →
      k.links d ts = k.links d' ts
  | [], d, d', _, _ => by rw [links, links]
  | [t], d, d', _, _ => by rw [links, links]
  | t :: right :: more, d, d', hd, hd' => by
    rw [heights, heights] at hd hd'
    rw [links, links, value_depth k right d d' (by omega) (by omega),
      links_depth k more d d' (by omega) (by omega)]

end

/-- What tokens are folded and gathered to is the same at two depths. -/
theorem normalize_depth (ts : List Token) (d d' : Nat) (hd : d + heights ts ≤ k.maxDepth)
    (hd' : d' + heights ts ≤ k.maxDepth) : k.normalize d ts = k.normalize d' ts := by
  refine normalize_congr fun t ht => ?_
  have hheight := height_le_heights ht
  exact k.value_depth t (d + 1) (d' + 1) (by omega) (by omega)

/-- Folding adds no group, and gathering at most one. -/
theorem height_normalize {ts : List Token} {t : Token} (h : k.normalize d ts = .ok (some t)) :
    t.height ≤ heights ts + 1 := by
  obtain ⟨us, hf, hg⟩ := normalize_eq_ok_iff.mp h
  have hus : heights us ≤ heights ts := by
    cases foldSign_eq_ok_iff.mp hf with
    | unsigned => exact Nat.le_refl _
    | plus first more =>
      simp only [heights]
      omega
    | minus more hx =>
      simp only [heights, height]
      omega
  match us with
  | [] => cases hg
  | [u] =>
    cases hg
    rw [heights] at hus
    omega
  | u :: u' :: more =>
    cases hg
    rw [height]
    omega

end Calculator

/-! ## Layouts -/

namespace Layout

/-- How many groups there are one in another. -/
def height : Layout → Nat
  | blank _ => 0
  | number _ _ rest | symbol _ _ rest => rest.height
  | group _ body rest => max (body.height + 1) rest.height

variable {k : Calculator} {d d' : Nat} {l : Layout} {ts : List Token}

theorem Yields.heights_le (h : l.Yields k d ts) : Token.heights ts ≤ l.height := by
  induction h with
  | blank => exact Nat.le_refl _
  | number _ _ _ _ _ _ ih | symbol _ _ _ _ _ ih =>
    simp only [Token.heights, Token.height, height]
    omega
  | group _ _ _ hn _ ihb ih =>
    have := Calculator.height_normalize hn
    simp only [Token.heights, height]
    omega

theorem Yields.height_le (h : l.Yields k d ts) (hd : d ≤ k.maxDepth) :
    d + l.height ≤ k.maxDepth := by
  induction h with
  | blank => exact hd
  | number _ _ _ _ _ _ ih | symbol _ _ _ _ _ ih => exact ih hd
  | group _ hlt _ _ _ ihb ih =>
    have := ihb hlt
    have := ih hd
    rw [height]
    omega

/-- A layout yields the same tokens at any depth that leaves room for its groups. -/
theorem Yields.depth (h : l.Yields k d ts) (hd : d ≤ k.maxDepth)
    (hd' : d' + l.height ≤ k.maxDepth) :
    l.Yields k d' ts := by
  induction h generalizing d' with
  | blank hw => exact .blank hw
  | number hw hne hl ht hx _ ih => exact .number hw hne hl ht hx (ih hd hd')
  | symbol hw hb hn hs _ ih => exact .symbol hw hb hn hs (ih hd hd')
  | group hw hlt hb hn _ ihb ih =>
    rw [height] at hd'
    have hheights := hb.heights_le
    have hroom := hb.height_le hlt
    refine .group hw (by omega) (ihb hlt (by omega)) ?_ (ih hd (by omega))
    rwa [Calculator.normalize_depth _ _ (d' + 1) (by omega) (by omega)] at hn

/-- Somewhere in its text as many groups are open as there are one in another. -/
theorem Yields.exists_deepest (hp : k.operators.Parenless) (h : l.Yields k d ts) :
    ∃ front, front <+: l.text ∧ front.count '(' = front.count ')' + l.height := by
  -- what is level may stand before any front
  have extend : ∀ {piece front text : List Char} {n : Nat}, Level piece → front <+: text →
      front.count '(' = front.count ')' + n →
      ∃ front', front' <+: piece ++ text ∧ front'.count '(' = front'.count ')' + n := by
    intro piece front text n hpiece hfront hn
    refine ⟨piece ++ front, (List.prefix_append_right_inj piece).mpr hfront, ?_⟩
    have := hpiece.count_eq
    rw [List.count_append, List.count_append]
    omega
  induction h with
  | @blank _ w hw => exact ⟨[], List.nil_prefix, rfl⟩
  | number hw _ hl _ _ _ ih =>
    obtain ⟨front, hf, hn⟩ := ih
    exact extend (hw.level.append (level_of_numeric hl)) hf hn
  | symbol hw _ _ hs _ ih =>
    obtain ⟨front, hf, hn⟩ := ih
    obtain ⟨ho, hc⟩ := hp _ hs.1
    exact extend (hw.level.append (Level.of_parenless ho hc)) hf hn
  | @group _ w body rest _ _ _ hw _ hb _ _ ihb ih =>
    rcases Nat.le_total (body.height + 1) rest.height with hle | hle
    · obtain ⟨front, hf, hn⟩ := ih
      rw [height, Nat.max_eq_right hle]
      exact extend (hw.level.append (hb.level hp).group) hf hn
    · obtain ⟨front, hf, hn⟩ := ihb
      have hopened : '(' :: front <+: '(' :: (body.text ++ [')']) ++ rest.text := by
        refine List.cons_prefix_cons.mpr ⟨rfl, hf.trans ?_⟩
        simp
      rw [height, Nat.max_eq_left hle, text, List.append_assoc]
      exact extend hw.level hopened (by simp; omega)

end Layout

end Abacus
