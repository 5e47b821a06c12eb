import Abacus.Proofs.Offsets
import Mathlib.Logic.Relation
import Mathlib.Order.Bounds.Basic

/-!
# Cursors on their way

A program that reads looks at cursors, moves them and copies them, in whatever order. All the while
each cursor accounts for the whole range that it began with: the pieces it has passed over and what
is still ahead make up the range, and only an offset between two characters is ever come to.
-/

namespace Abacus
open Text Relation

/-! ## Boundaries on both sides of an offset -/

namespace Text
variable {m n : Nat}

theorem isBoundary_nil_iff : isBoundary [] n = true ↔ n = 0 := by
  rw [isBoundary, cut?]
  split <;> simp [*]

theorem isBoundary_cons_iff {c : Char} {text : List Char} : isBoundary (c :: text) n = true ↔
    n = 0 ∨ c.utf8Size ≤ n ∧ isBoundary text (n - c.utf8Size) = true := by
  by_cases hn : n = 0
  · simp [hn]
  · simp [isBoundary_cons hn, hn]

end Text

namespace Cursor

/-- The characters within an offset end at the last boundary that is no further. -/
theorem isGreatest_within (n : Nat) (text : List Char) :
    IsGreatest {m | isBoundary text m = true ∧ m ≤ n}
      (byteLength (text.take (countWithin n text))) := by
  induction text generalizing n with
  | nil =>
    refine ⟨⟨isBoundary_zero, Nat.zero_le n⟩, fun m hm => ?_⟩
    exact (isBoundary_nil_iff.mp hm.1).le
  | cons c text ih =>
    rw [countWithin]
    split
    · obtain ⟨⟨hboundary, hle⟩, hgreatest⟩ := ih (n - c.utf8Size)
      rw [List.take_succ_cons, byteLength_cons]
      refine ⟨⟨?_, by omega⟩, fun m hm => ?_⟩
      · rw [isBoundary_cons_iff, Nat.add_sub_cancel_left]
        exact .inr ⟨Nat.le_add_right .., hboundary⟩
      · rcases isBoundary_cons_iff.mp hm.1 with rfl | ⟨hc, hm'⟩
        · exact Nat.zero_le _
        · have := hgreatest ⟨hm', Nat.sub_le_sub_right hm.2 _⟩
          omega
    · refine ⟨⟨isBoundary_zero, Nat.zero_le n⟩, fun m hm => ?_⟩
      rcases isBoundary_cons_iff.mp hm.1 with rfl | ⟨hc, -⟩
      · exact Nat.le_refl 0
      · have := hm.2
        omega

/-- The characters that cover an offset end at the first boundary from it on. -/
theorem isLeast_covering {n : Nat} {text : List Char} (hn : n ≤ byteLength text) :
    IsLeast {m | isBoundary text m = true ∧ n ≤ m}
      (byteLength (text.take (countCovering n text))) := by
  induction text generalizing n with
  | nil => exact ⟨⟨isBoundary_zero, hn⟩, fun m _ => Nat.zero_le m⟩
  | cons c text ih =>
    rw [countCovering]
    split
    · exact ⟨⟨isBoundary_zero, by omega⟩, fun m _ => Nat.zero_le m⟩
    · rw [byteLength_cons] at hn
      obtain ⟨⟨hboundary, hle⟩, hleast⟩ := ih (by omega : n - c.utf8Size ≤ byteLength text)
      rw [List.take_succ_cons, byteLength_cons]
      refine ⟨⟨?_, by omega⟩, fun m hm => ?_⟩
      · rw [isBoundary_cons_iff, Nat.add_sub_cancel_left]
        exact .inr ⟨Nat.le_add_right .., hboundary⟩
      · have hpast := hm.2
        rcases isBoundary_cons_iff.mp hm.1 with rfl | ⟨hc, hm'⟩
        · omega
        · have := hleast ⟨hm', Nat.sub_le_sub_right hpast _⟩
          omega

variable {c : Cursor}

theorem isBoundary_index (c : Cursor) : isBoundary c.input c.index = true := by
  have h := isBoundary_append c.passed.reverse (c.rest ++ c.beyond)
  rwa [byteLength_reverse, ← List.append_assoc] at h

theorem isBoundary_stop (c : Cursor) : isBoundary c.input c.stop = true := by
  have h := isBoundary_append (c.passed.reverse ++ c.rest) c.beyond
  rwa [byteLength_append, byteLength_reverse] at h

/-- What a cursor moves over stands between where it was and where it is. -/
theorem slice_take (c : Cursor) (n : Nat) :
    Slice c.input c.index (c.take n).index (c.rest.take n) := by
  refine ⟨c.passed.reverse, c.rest.drop n ++ c.beyond, ?_, (byteLength_reverse _).symm, ?_⟩
  · rw [input, List.append_assoc, List.append_assoc, ← List.append_assoc (c.rest.take n),
      List.take_append_drop]
  · rw [take_index, byteLength_append, byteLength_reverse, index]

/-- To cover a number of bytes, a cursor moves to the first boundary from there on, as far as the
range goes. -/
theorem isLeast_index_take (c : Cursor) (n : Nat) :
    IsLeast {m | isBoundary c.input m = true ∧ min (c.index + n) c.stop ≤ m}
      (c.take (countCovering n c.rest)).index := by
  have hmin : min (c.index + n) c.stop = c.index + min n (byteLength c.rest) := by
    rw [stop]
    omega
  have hin : c.index + min n (byteLength c.rest) ≤ byteLength c.input := by
    have := c.stop_le
    omega
  rw [hmin, ← countCovering_min, ← index_take_covering (Nat.min_le_right ..)]
  exact isLeast_covering hin

/-! ## Acts -/

/-- What a program can do with a cursor, besides making a copy of it. -/
inductive Act where
  | peek
  | bump
  | advance (bytes : Nat)
  | eatWhile (accepts : Char → Bool)

/-- How many characters are passed over. -/
def covers (c : Cursor) : Act → Nat
  | .peek => 0
  | .bump => c.count .bump
  | .advance bytes => c.count (.advance bytes)
  | .eatWhile accepts => c.count (.skip accepts)

def act (c : Cursor) (a : Act) : Cursor := c.take (c.covers a)

/-- The text that is passed over. -/
def passes (c : Cursor) (a : Act) : List Char := c.rest.take (c.covers a)

/-- The text that the program gets. -/
def answer (c : Cursor) : Act → List Char
  | .peek | .bump => c.peek.toList
  | .advance _ => []
  | .eatWhile accepts => c.run accepts

end Cursor

def Offsets.act? (o : Offsets) : Cursor.Act → Option (List Char × Offsets)
  | .peek => do return ((← o.peek?).toList, o)
  | .bump => do
    let (ch, after) ← o.bump?
    return (ch.toList, after)
  | .advance bytes => do return ([], ← o.advance? bytes)
  | .eatWhile accepts => o.eatWhile? accepts

namespace Cursor
variable {c : Cursor}

theorem act?_offsets (hsize : byteLength c.input < sizeLimit) (a : Act) :
    c.offsets.act? a = some (c.answer a, (c.act a).offsets) := by
  cases a with
  | peek =>
    rw [Offsets.act?, peek?_offsets, act, covers, take_zero]
    rfl
  | bump =>
    rw [Offsets.act?, bump?_offsets hsize]
    rfl
  | advance bytes =>
    rw [Offsets.act?, advance?_offsets hsize]
    rfl
  | eatWhile accepts => exact eatWhile?_offsets hsize accepts

theorem toList_peek (c : Cursor) : c.peek.toList = c.rest.take 1 := by
  rw [peek]
  cases c.rest <;> rfl

theorem answer_eatWhile (c : Cursor) (accepts : Char → Bool) :
    c.answer (.eatWhile accepts) = c.passes (.eatWhile accepts) := by
  rw [answer, passes, covers, count]
  conv_rhs => rw [c.run_append_rest accepts]
  exact List.take_left.symm

/-- What is eaten is accepted, and what comes next is not. -/
theorem run_eatWhile (c : Cursor) (accepts : Char → Bool) :
    (∀ ch ∈ c.run accepts, accepts ch = true) ∧ Ends accepts (c.act (.eatWhile accepts)).rest := by
  obtain ⟨run, rest, hrest, hrun, hends⟩ := exists_run accepts c.rest
  have heq : c.run accepts = run := by rw [Cursor.run, hrest, takeWhile_run hrun hends]
  have hafter : (c.act (.eatWhile accepts)).rest = rest := by
    show c.rest.drop (c.run accepts).length = rest
    rw [heq, hrest, List.drop_left]
  rw [heq, hafter]
  exact ⟨hrun, hends⟩

/-! ## Cursors and what they passed over -/

/-- A cursor and the pieces of text that were passed over, in their order. -/
structure Tracked where
  cursor : Cursor
  pieces : List (List Char)

namespace Tracked

def act (t : Tracked) (a : Act) : Tracked := ⟨t.cursor.act a, t.pieces ++ [t.cursor.passes a]⟩

/-- One of the cursors of a program is looked at or moved, or it is copied. -/
inductive Proceeds : List Tracked → List Tracked → Prop
  | act {pool : List Tracked} {i : Nat} {t : Tracked} (a : Act) :
      pool[i]? = some t → Proceeds pool (pool.set i (t.act a))
  | clone {pool : List Tracked} {i : Nat} {t : Tracked} :
      pool[i]? = some t → Proceeds pool (pool ++ [t])

/-- A cursor accounts for the range that lay ahead of the first one. -/
structure Accounts (first : Cursor) (t : Tracked) : Prop where
  ahead : first.Ahead t.cursor
  rest : first.rest = t.pieces.flatten ++ t.cursor.rest

/-- The second comes of the first. -/
structure Follows (t t' : Tracked) : Prop where
  index_le : t.cursor.index ≤ t'.cursor.index
  pieces : t.pieces <+: t'.pieces

variable {first : Cursor} {t t' t'' : Tracked} {pool pool' : List Tracked}

theorem Accounts.act (h : t.Accounts first) (a : Act) : (t.act a).Accounts first where
  ahead := h.ahead.trans (t.cursor.ahead_take _)
  rest := by
    have hrest : t.cursor.rest = t.cursor.passes a ++ (t.cursor.act a).rest :=
      (List.take_append_drop ..).symm
    simp only [Tracked.act, List.flatten_append, List.flatten_singleton, List.append_assoc]
    rw [← hrest]
    exact h.rest

theorem Proceeds.accounts (h : Proceeds pool pool') (hpool : ∀ t ∈ pool, t.Accounts first) :
    ∀ t ∈ pool', t.Accounts first := by
  cases h with
  | act a hi =>
    intro t' ht'
    rcases List.mem_or_eq_of_mem_set ht' with ht' | rfl
    · exact hpool t' ht'
    · exact (hpool _ (List.mem_of_getElem? hi)).act a
  | clone hi =>
    intro t' ht'
    rcases List.mem_append.mp ht' with ht' | ht'
    · exact hpool t' ht'
    · rw [List.mem_singleton.mp ht']
      exact hpool _ (List.mem_of_getElem? hi)

theorem accounts_of_proceeds (h : ReflTransGen Proceeds [⟨first, []⟩] pool) :
    ∀ t ∈ pool, t.Accounts first := by
  induction h with
  | refl =>
    intro t ht
    rw [List.mem_singleton.mp ht]
    exact ⟨.refl first, rfl⟩
  | tail _ hstep ih => exact hstep.accounts ih

theorem Follows.refl (t : Tracked) : t.Follows t := ⟨Nat.le_refl _, List.prefix_rfl⟩

theorem Follows.trans (h : t.Follows t') (h' : t'.Follows t'') : t.Follows t'' :=
  ⟨h.index_le.trans h'.index_le, h.pieces.trans h'.pieces⟩

theorem follows_act (t : Tracked) (a : Act) : t.Follows (t.act a) :=
  ⟨(t.cursor.ahead_take _).index_le, List.prefix_append ..⟩

/-- A step leaves every cursor where it is or further on. -/
theorem Proceeds.follows (h : Proceeds pool pool') {i : Nat} (hi : pool[i]? = some t) :
    ∃ t', pool'[i]? = some t' ∧ t.Follows t' := by
  cases h with
  | @act j u a hj =>
    rw [List.getElem?_set]
    by_cases hij : j = i
    · subst hij
      obtain rfl := Option.some.inj (hi.symm.trans hj)
      refine ⟨t.act a, ?_, t.follows_act a⟩
      rw [if_pos rfl, if_pos (List.getElem?_eq_some_iff.mp hi).1]
    · exact ⟨t, by rw [if_neg hij, hi], .refl t⟩
  | clone hj =>
    refine ⟨t, ?_, .refl t⟩
    rw [List.getElem?_append_left (List.getElem?_eq_some_iff.mp hi).1, hi]

theorem follows_of_proceeds (h : ReflTransGen Proceeds pool pool') {i : Nat}
    (hi : pool[i]? = some t) : ∃ t', pool'[i]? = some t' ∧ t.Follows t' := by
  induction h with
  | refl => exact ⟨t, hi, .refl t⟩
  | tail _ hstep ih =>
    obtain ⟨t', hi', hfollows⟩ := ih
    obtain ⟨t'', hi'', hfollows'⟩ := hstep.follows hi'
    exact ⟨t'', hi'', hfollows.trans hfollows'⟩

end Tracked

open Tracked

theorem ofRange_eq (text : List Char) (start stop depth : Nat) : ∃ c : Cursor,
    ofRange text start stop depth = c.take (countCovering start c.rest) ∧ c.input = text ∧
      c.index = 0 ∧ c.depth = depth ∧
      c.stop = byteLength (text.take (countWithin stop text)) := by
  refine ⟨⟨[], _, _, _⟩, rfl, ?_, rfl, rfl, ?_⟩
  · exact List.take_append_drop ..
  · exact Nat.zero_add _

theorem isGreatest_stop_ofRange (text : List Char) (start stop depth : Nat) :
    IsGreatest {n | isBoundary text n = true ∧ n ≤ min stop (byteLength text)}
      (ofRange text start stop depth).stop := by
  obtain ⟨c, hc, -, -, -, hstop⟩ := ofRange_eq text start stop depth
  rw [hc, (c.ahead_take _).stop, hstop, ← countWithin_min]
  exact isGreatest_within _ text

theorem isLeast_index_ofRange (text : List Char) (start stop depth : Nat) :
    IsLeast {n | isBoundary text n = true ∧ min start (ofRange text start stop depth).stop ≤ n}
      (ofRange text start stop depth).index := by
  obtain ⟨c, hc, hinput, hindex, -, -⟩ := ofRange_eq text start stop depth
  have h := c.isLeast_index_take start
  rwa [hindex, Nat.zero_add, hinput, ← (c.ahead_take _).stop, ← hc] at h

/-- Whatever a program does with the cursors of a range, each stays in it, between two characters
and never back, and accounts for all of it. -/
theorem traversal_accounts {text : List Char} {start stop depth : Nat} {first : Cursor}
    {pool : List Tracked} (hfirst : ofRange text start stop depth = first)
    (hpool : ReflTransGen Proceeds [⟨first, []⟩] pool) :
    IsGreatest {n | isBoundary text n = true ∧ n ≤ min stop (byteLength text)} first.stop ∧
    IsLeast {n | isBoundary text n = true ∧ min start first.stop ≤ n} first.index ∧
    (∀ t ∈ pool, t.cursor.input = text ∧ t.cursor.stop = first.stop ∧ t.cursor.depth = depth ∧
      t.cursor.index ≤ t.cursor.stop ∧ t.cursor.stop ≤ byteLength text ∧
      isBoundary text t.cursor.index = true ∧ isBoundary text t.cursor.stop = true ∧
      Slice text t.cursor.index t.cursor.stop t.cursor.rest ∧
      Slice text first.index first.stop (t.pieces.flatten ++ t.cursor.rest)) ∧
    (∀ pool', ReflTransGen Proceeds pool pool' → ∀ (i : Nat) t, pool[i]? = some t →
      ∃ t', pool'[i]? = some t' ∧ t.cursor.index ≤ t'.cursor.index ∧ t.pieces <+: t'.pieces) ∧
    (∀ t ∈ pool, ∀ a, Slice text t.cursor.index (t.cursor.act a).index (t.cursor.passes a)) ∧
    (∀ t ∈ pool, t.cursor.act .peek = t.cursor ∧ t.cursor.answer .peek = t.cursor.rest.take 1 ∧
      t.cursor.answer .bump = t.cursor.passes .bump ∧ t.cursor.passes .bump = t.cursor.rest.take 1 ∧
      (∀ accepts, t.cursor.answer (.eatWhile accepts) = t.cursor.passes (.eatWhile accepts) ∧
        (∀ ch ∈ t.cursor.answer (.eatWhile accepts), accepts ch = true) ∧
        ∀ ch ∈ (t.cursor.act (.eatWhile accepts)).peek, accepts ch = false) ∧
      ∀ bytes, IsLeast {n | isBoundary text n = true ∧
        min (t.cursor.index + bytes) t.cursor.stop ≤ n} (t.cursor.act (.advance bytes)).index) ∧
    (byteLength text < sizeLimit →
      Offsets.ofRange? text start stop depth = some first.offsets ∧
      ∀ t ∈ pool, ∀ a,
        t.cursor.offsets.act? a = some (t.cursor.answer a, (t.cursor.act a).offsets)) := by
  subst hfirst
  have haccounts := accounts_of_proceeds hpool
  have hinput : ∀ t ∈ pool, t.cursor.input = text := fun t ht =>
    (haccounts t ht).ahead.input.trans (ofRange_input ..)
  refine ⟨isGreatest_stop_ofRange .., isLeast_index_ofRange .., fun t ht => ?_,
    fun pool' hpool' i t hi => ?_, fun t ht a => ?_, fun t ht => ?_, fun hsize => ?_⟩
  · obtain ⟨hahead, hrest⟩ := haccounts t ht
    have hin := hinput t ht
    have hrange := (ofRange text start stop depth).slice_rest
    rw [ofRange_input, hrest] at hrange
    exact ⟨hin, hahead.stop, hahead.depth, t.cursor.index_le_stop, hin ▸ t.cursor.stop_le,
      hin ▸ t.cursor.isBoundary_index, hin ▸ t.cursor.isBoundary_stop, hin ▸ t.cursor.slice_rest,
      hrange⟩
  · obtain ⟨t', hi', hle, hpieces⟩ := follows_of_proceeds hpool' hi
    exact ⟨t', hi', hle, hpieces⟩
  · exact hinput t ht ▸ t.cursor.slice_take _
  · exact ⟨take_zero _, toList_peek _, toList_peek _, rfl,
      fun accepts => ⟨answer_eatWhile _ _, t.cursor.run_eatWhile accepts⟩,
      fun bytes => hinput t ht ▸ t.cursor.isLeast_index_take bytes⟩
  · exact ⟨ofRange?_eq hsize .., fun t ht a => act?_offsets (by rwa [hinput t ht]) a⟩

/-- A copy moves over two characters of more than one byte, and the cursor itself stays. -/
theorem traversal_accounts_copied : ∃ (first : Cursor) (pool : List Tracked) (t : Tracked),
    ofRange "aé€𝄞b".toList 2 100 0 = first ∧
      ReflTransGen Proceeds [⟨first, []⟩] pool ∧ pool[1]? = some t ∧
      t.pieces = [['€'], ['𝄞']] ∧ t.cursor.index = 10 ∧
      Slice "aé€𝄞b".toList 3 11 (t.pieces.flatten ++ t.cursor.rest) ∧
      byteLength "aé€𝄞b".toList < sizeLimit ∧
      Offsets.ofRange? "aé€𝄞b".toList 2 100 0 = some ⟨"aé€𝄞b".toList, 3, 11, 0⟩ := by
  have hclone := ReflTransGen.refl.tail
    (@Proceeds.clone [⟨ofRange "aé€𝄞b".toList 2 100 0, []⟩] 0 _ rfl)
  have hpool := (hclone.tail (@Proceeds.act _ 1 _ .bump rfl)).tail
    (@Proceeds.act _ 1 _ (.advance 1) rfl)
  obtain ⟨-, -, haccounts, -, -, -, hoffsets⟩ := traversal_accounts rfl hpool
  have hsize : byteLength "aé€𝄞b".toList < sizeLimit := by decide
  obtain ⟨-, -, -, -, -, -, -, -, hrange⟩ := haccounts _ (List.mem_of_getElem? (i := 1) rfl)
  exact ⟨_, _, _, rfl, hpool, rfl, rfl, rfl, hrange, hsize, (hoffsets hsize).1⟩

end Cursor
end Abacus
