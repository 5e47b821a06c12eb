import Abacus.Cursor

/-!
# Ranges between characters

Offsets that fall between two characters of a text cut it there, so a range of a text is any part
of it with what is before and behind.
-/

namespace Abacus
open Text
namespace Cursor

theorem countWithin_zero (text : List Char) : countWithin 0 text = 0 := by
  cases text with
  | nil => rfl
  | cons c text =>
    have hc : 0 < c.utf8Size := c.utf8Size_pos
    rw [countWithin, if_neg (by omega)]

theorem countWithin_append (text more : List Char) (bytes : Nat) :
    countWithin (byteLength text + bytes) (text ++ more) =
      text.length + countWithin bytes more := by
  induction text with
  | nil => simp
  | cons c text ih =>
    have hbytes : byteLength (c :: text) + bytes - c.utf8Size = byteLength text + bytes := by
      rw [byteLength_cons]
      omega
    rw [List.cons_append, countWithin, if_pos (by rw [byteLength_cons]; omega), hbytes, ih,
      List.length_cons]
    omega

theorem countCovering_zero (text : List Char) : countCovering 0 text = 0 := by
  cases text <;> rfl

theorem countCovering_add (text more : List Char) (bytes : Nat) :
    countCovering (byteLength text + bytes) (text ++ more) =
      text.length + countCovering bytes more := by
  induction text with
  | nil => simp
  | cons c text ih =>
    have hc : 0 < c.utf8Size := c.utf8Size_pos
    have hbytes : byteLength (c :: text) + bytes - c.utf8Size = byteLength text + bytes := by
      rw [byteLength_cons]
      omega
    rw [List.cons_append, countCovering, if_neg (by rw [byteLength_cons]; omega), hbytes, ih,
      List.length_cons]
    omega

theorem countCovering_append (text more : List Char) :
    countCovering (byteLength text) (text ++ more) = text.length := by
  have := countCovering_add text more 0
  rwa [countCovering_zero] at this

theorem countCovering_le_length (bytes : Nat) (text : List Char) :
    countCovering bytes text ≤ text.length := by
  induction text generalizing bytes with
  | nil => exact Nat.le_refl 0
  | cons c text ih =>
    rw [countCovering]
    split
    · exact Nat.zero_le _
    · exact Nat.succ_le_succ (ih _)

/-- It takes no characters behind a text to cover what is in it. -/
theorem countCovering_append_of_le {bytes : Nat} {text : List Char} (h : bytes ≤ byteLength text)
    (more : List Char) : countCovering bytes (text ++ more) = countCovering bytes text := by
  induction text generalizing bytes with
  | nil =>
    obtain rfl := Nat.le_zero.mp h
    rw [countCovering_zero, countCovering_zero]
  | cons c text ih =>
    rw [byteLength_cons] at h
    rw [List.cons_append, countCovering, countCovering, ih (by omega)]

/-- A text covers no more than it has. -/
theorem countCovering_min (bytes : Nat) (text : List Char) :
    countCovering (min bytes (byteLength text)) text = countCovering bytes text := by
  by_cases h : bytes ≤ byteLength text
  · rw [Nat.min_eq_left h]
  · have hall : ∀ n, countCovering (byteLength text + n) text = text.length := by
      intro n
      have := countCovering_add text [] n
      rwa [List.append_nil] at this
    obtain ⟨n, rfl⟩ := Nat.exists_eq_add_of_le (Nat.le_of_not_le h)
    rw [Nat.min_eq_right (by omega), hall n]
    exact hall 0

theorem countWithin_min (bytes : Nat) (text : List Char) :
    countWithin (min bytes (byteLength text)) text = countWithin bytes text := by
  by_cases h : bytes ≤ byteLength text
  · rw [Nat.min_eq_left h]
  · have hall : ∀ n, countWithin (byteLength text + n) text = text.length := by
      intro n
      have := countWithin_append text [] n
      rwa [List.append_nil] at this
    obtain ⟨n, rfl⟩ := Nat.exists_eq_add_of_le (Nat.le_of_not_le h)
    rw [Nat.min_eq_right (by omega), hall n]
    exact hall 0

/-- Between two characters of a text, a range is what lies between them. -/
theorem ofRange_append (before inside behind : List Char) (depth : Nat) :
    ofRange (before ++ inside ++ behind) (byteLength before) (byteLength (before ++ inside)) depth =
      ⟨before.reverse, inside, behind, depth⟩ := by
  have hstop : countWithin (byteLength (before ++ inside)) (before ++ inside ++ behind) =
      (before ++ inside).length := by
    have := countWithin_append (before ++ inside) behind 0
    rwa [countWithin_zero, Nat.add_zero, Nat.add_zero] at this
  simp only [ofRange, hstop, List.take_left, List.drop_left, countCovering_append, take]
  simp

theorem ofRange_input (text : List Char) (start stop depth : Nat) :
    (ofRange text start stop depth).input = text := by
  rw [ofRange, take_input]
  simp [input]

end Cursor
end Abacus
