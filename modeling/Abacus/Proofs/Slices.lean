import Abacus.Proofs.Bytes
import Abacus.Proofs.Locality

/-!
# Operations that may fail

A program works on the bytes of a text, where an offset may be wrong: it may lie behind the end or
inside a character, a sum may be too large for a word, and a difference may be below zero. Here each
of these operations has a result only where it has one in the program.
-/

namespace Abacus
open Text Cursor

/-! ## Words -/

/-- Offsets and depths are words, and are less than this. -/
def wordLimit : Nat := Nat.pow 2 64

/-- Nothing that is kept in memory has as many bytes as this. -/
def sizeLimit : Nat := Nat.pow 2 63

def add? (m n : Nat) : Option Nat := if m + n < wordLimit then some (m + n) else none

def sub? (m n : Nat) : Option Nat := if n ≤ m then some (m - n) else none

/-- A bound that lies between two others, which have to be in order. -/
def clamp? (n low high : Nat) : Option Nat :=
  if low ≤ high then some (max low (min n high)) else none

/-- A sum that stays at the largest word instead of getting too large. -/
def saturatingAdd (m n : Nat) : Nat := min (m + n) (wordLimit - 1)

/-- A word can be counted down to zero and no further. -/
theorem lt_of_sub? {m n : Nat} (h : sub? n 1 = some m) : m < n := by
  obtain ⟨hn, he⟩ := Option.ite_none_right_eq_some.mp h
  cases he
  omega

/-- A word can be counted up to the limit and no further. -/
theorem sub_lt_of_add? {m n : Nat} (h : add? n 1 = some m) : wordLimit - m < wordLimit - n := by
  obtain ⟨hn, he⟩ := Option.ite_none_right_eq_some.mp h
  cases he
  omega

theorem add?_of_lt {m n : Nat} (h : m + n < wordLimit) : add? m n = some (m + n) := if_pos h

/-- A word has room for one more than twice what is kept in memory. -/
theorem wordLimit_eq : wordLimit = sizeLimit + sizeLimit := by decide

/-! ## Cuts -/

namespace Text

/-- The text in front of an offset and the text behind it, if it is none inside a character. -/
def cut? (n : Nat) : List Char → Option (List Char × List Char)
  | [] => if n = 0 then some ([], []) else none
  | c :: rest =>
    if n = 0 then some ([], c :: rest)
    else if c.utf8Size ≤ n then (cut? (n - c.utf8Size) rest).map fun p => (c :: p.1, p.2)
    else none

/-- The text between two offsets. -/
def slice? (text : List Char) (start stop : Nat) : Option (List Char) := do
  let (front, _) ← cut? stop text
  let (_, part) ← cut? start front
  return part

def isBoundary (text : List Char) (n : Nat) : Bool := (cut? n text).isSome

/-- The last boundary that is no further than an offset. -/
def floor? (text : List Char) (n : Nat) : Option Nat :=
  if isBoundary text n then some n
  else
    match _h : sub? n 1 with
    | none => none
    | some m => floor? text m
termination_by n
decreasing_by exact lt_of_sub? _h

/-- The first boundary from an offset on. -/
def ceil? (text : List Char) (n : Nat) : Option Nat :=
  if isBoundary text n then some n
  else
    match _h : add? n 1 with
    | none => none
    | some m => ceil? text m
termination_by wordLimit - n
decreasing_by exact sub_lt_of_add? _h

/-- The offset of the first accepted character. -/
def find? (accepts : Char → Bool) : List Char → Option Nat
  | [] => none
  | c :: rest => if accepts c then some 0 else (find? accepts rest).map (c.utf8Size + ·)

variable {text front behind part : List Char} {n start stop : Nat}

/-- A text can be cut between its characters and nowhere else. -/
theorem cut?_eq_some_iff :
    cut? n text = some (front, behind) ↔ text = front ++ behind ∧ n = byteLength front := by
  constructor
  · intro h
    induction text generalizing n front with
    | nil =>
      rw [cut?] at h
      split at h
      · cases h
        exact ⟨rfl, ‹n = 0›⟩
      · cases h
    | cons c text ih =>
      rw [cut?] at h
      split at h
      · cases h
        exact ⟨rfl, ‹n = 0›⟩
      · split at h
        · obtain ⟨⟨shorter, rest⟩, hrest, he⟩ := Option.map_eq_some_iff.mp h
          have he : (c :: shorter, rest) = (front, behind) := he
          cases he
          obtain ⟨rfl, hn⟩ := ih hrest
          refine ⟨rfl, ?_⟩
          rw [byteLength_cons]
          omega
        · cases h
  · rintro ⟨rfl, rfl⟩
    induction front with
    | nil => cases behind <;> rfl
    | cons c front ih =>
      have hc := c.utf8Size_pos
      have hbytes : byteLength (c :: front) - c.utf8Size = byteLength front := by
        rw [byteLength_cons]
        omega
      rw [List.cons_append, cut?, if_neg (by rw [byteLength_cons]; omega),
        if_pos (by rw [byteLength_cons]; omega), hbytes, ih]
      rfl

theorem slice?_eq_some_iff : slice? text start stop = some part ↔ Slice text start stop part := by
  constructor
  · intro h
    obtain ⟨⟨front, behind⟩, hstop, h⟩ := Option.bind_eq_some_iff.mp h
    obtain ⟨⟨before, _⟩, hstart, h⟩ := Option.bind_eq_some_iff.mp h
    cases h
    obtain ⟨rfl, rfl⟩ := cut?_eq_some_iff.mp hstop
    obtain ⟨rfl, rfl⟩ := cut?_eq_some_iff.mp hstart
    exact ⟨before, behind, rfl, rfl, rfl⟩
  · rintro ⟨before, behind, rfl, rfl, rfl⟩
    exact Option.bind_eq_some_iff.mpr ⟨(before ++ part, behind), cut?_eq_some_iff.mpr ⟨rfl, rfl⟩,
      Option.bind_eq_some_iff.mpr ⟨(before, part), cut?_eq_some_iff.mpr ⟨rfl, rfl⟩, rfl⟩⟩

theorem slice?_front (h : text = front ++ behind) : slice? text 0 (byteLength front) = some front :=
  slice?_eq_some_iff.mpr ⟨[], behind, h, rfl, rfl⟩

theorem slice?_behind (h : text = front ++ behind) :
    slice? text (byteLength front) (byteLength text) = some behind :=
  slice?_eq_some_iff.mpr ⟨front, [], by rw [h, List.append_nil], rfl, by rw [h]⟩

/-! ## Boundaries -/

@[simp] theorem isBoundary_zero : isBoundary text 0 = true := by
  cases text <;> rfl

theorem isBoundary_cons {c : Char} (hn : n ≠ 0) :
    isBoundary (c :: text) n = (decide (c.utf8Size ≤ n) && isBoundary text (n - c.utf8Size)) := by
  rw [isBoundary, cut?, if_neg hn]
  split
  · simp [isBoundary, *]
  · simp [*]

/-- An offset inside a character has as many characters before it as the one below. -/
theorem countWithin_pred (h : isBoundary text n = false) :
    countWithin n text = countWithin (n - 1) text := by
  induction text generalizing n with
  | nil => rfl
  | cons c text ih =>
    have hn : n ≠ 0 := by
      rintro rfl
      simp at h
    rw [isBoundary_cons hn, Bool.and_eq_false_iff, decide_eq_false_iff_not] at h
    rw [countWithin, countWithin]
    by_cases hc : c.utf8Size ≤ n
    · have hinside := h.resolve_left (not_not_intro hc)
      have hne : n - c.utf8Size ≠ 0 := by
        intro he
        simp [he] at hinside
      have hpred : n - 1 - c.utf8Size = n - c.utf8Size - 1 := by omega
      rw [if_pos hc, if_pos (by omega), ih hinside, hpred]
    · rw [if_neg hc, if_neg (by omega)]

/-- An offset inside a character is covered by as many characters as the one above. -/
theorem countCovering_succ (h : isBoundary text n = false) :
    countCovering n text = countCovering (n + 1) text := by
  induction text generalizing n with
  | nil => rfl
  | cons c text ih =>
    have hn : n ≠ 0 := by
      rintro rfl
      simp at h
    rw [isBoundary_cons hn, Bool.and_eq_false_iff, decide_eq_false_iff_not] at h
    rw [countCovering, countCovering, if_neg hn, if_neg (Nat.succ_ne_zero n)]
    by_cases hc : c.utf8Size ≤ n
    · have hsucc : n + 1 - c.utf8Size = n - c.utf8Size + 1 := by omega
      rw [ih (h.resolve_left (not_not_intro hc)), hsucc]
    · have hzero : n - c.utf8Size = 0 ∧ n + 1 - c.utf8Size = 0 := by omega
      rw [hzero.1, hzero.2]

theorem exists_of_isBoundary (h : isBoundary text n = true) :
    ∃ front behind, text = front ++ behind ∧ n = byteLength front := by
  obtain ⟨⟨front, behind⟩, h⟩ := Option.isSome_iff_exists.mp h
  exact ⟨front, behind, cut?_eq_some_iff.mp h⟩

theorem isBoundary_append (front behind : List Char) :
    isBoundary (front ++ behind) (byteLength front) = true :=
  Option.isSome_iff_exists.mpr ⟨(front, behind), cut?_eq_some_iff.mpr ⟨rfl, rfl⟩⟩

theorem isBoundary_byteLength (text : List Char) : isBoundary text (byteLength text) = true := by
  have h := isBoundary_append text []
  rwa [List.append_nil] at h

/-- The way down from an offset ends where the characters before it do. -/
theorem floor?_eq (text : List Char) (n : Nat) :
    floor? text n = some (byteLength (text.take (countWithin n text))) := by
  induction n with
  | zero =>
    rw [floor?, if_pos isBoundary_zero, countWithin_zero]
    rfl
  | succ n ih =>
    rw [floor?]
    cases h : isBoundary text (n + 1) with
    | true =>
      obtain ⟨front, behind, rfl, hn⟩ := exists_of_isBoundary h
      have hcount := countWithin_append front behind 0
      rw [Nat.add_zero, countWithin_zero, Nat.add_zero] at hcount
      rw [hn, hcount, List.take_left, if_pos rfl]
    | false =>
      have hsub : sub? (n + 1) 1 = some n := if_pos (Nat.le_add_left 1 n)
      rw [countWithin_pred h, Nat.add_sub_cancel, ← ih, if_neg Bool.false_ne_true]
      split
      · rename_i hnone
        rw [hsub] at hnone
        cases hnone
      · rename_i hsome
        rw [hsub] at hsome
        cases hsome
        rfl

/-- The way up from an offset ends where the characters that cover it do. -/
theorem ceil?_eq (hsize : byteLength text < sizeLimit) (hn : n ≤ byteLength text) :
    ceil? text n = some (byteLength (text.take (countCovering n text))) := by
  induction hd : byteLength text - n generalizing n with
  | zero =>
    obtain rfl : n = byteLength text := by omega
    have hcount := countCovering_append text []
    rw [List.append_nil] at hcount
    rw [ceil?, if_pos (isBoundary_byteLength text), hcount, List.take_length]
  | succ d ih =>
    rw [ceil?]
    cases h : isBoundary text n with
    | true =>
      obtain ⟨front, behind, rfl, rfl⟩ := exists_of_isBoundary h
      rw [countCovering_append, List.take_left, if_pos rfl]
    | false =>
      have hadd : add? n 1 = some (n + 1) := add?_of_lt (by
        rw [wordLimit_eq]
        omega)
      rw [countCovering_succ h, ← ih (by omega) (by omega), if_neg Bool.false_ne_true]
      split
      · rename_i hnone
        rw [hadd] at hnone
        cases hnone
      · rename_i hsome
        rw [hadd] at hsome
        cases hsome
        rfl

/-! ## Searches -/

theorem find?_of_not_mem {c : Char} (h : c ∉ text) : find? (· = c) text = none := by
  induction text with
  | nil => rfl
  | cons d text ih =>
    obtain ⟨hd, htext⟩ := List.ne_and_not_mem_of_not_mem_cons h
    rw [find?, ih htext]
    simp [Ne.symm hd]

theorem find?_append {c : Char} (h : c ∉ front) (behind : List Char) :
    find? (· = c) (front ++ c :: behind) = some (byteLength front) := by
  induction front with
  | nil => simp [find?]
  | cons d front ih =>
    obtain ⟨hd, hfront⟩ := List.ne_and_not_mem_of_not_mem_cons h
    rw [List.cons_append, find?, ih hfront]
    simp [Ne.symm hd]

/-- The first character that is not accepted stands where the run of accepted ones ends. -/
theorem find?_getD (accepts : Char → Bool) (text : List Char) :
    (find? (!accepts ·) text).getD (byteLength text) = byteLength (text.takeWhile accepts) := by
  induction text with
  | nil => rfl
  | cons c text ih =>
    cases hc : accepts c with
    | false => simp [find?, hc]
    | true =>
      rw [List.takeWhile_cons_of_pos hc, byteLength_cons, byteLength_cons, ← ih]
      cases hf : find? (!accepts ·) text <;> simp [find?, hc, hf]

end Text

end Abacus
