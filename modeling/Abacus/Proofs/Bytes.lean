import Abacus.Proofs.Lexeme
import Abacus.Text

/-!
# Texts as bytes

The bytes of a character other than a parenthesis are none of the parentheses, so the search for
the parenthesis that closes a group comes to the same end on the characters of a text and on its
bytes.
-/

namespace Abacus

namespace Text

/-- The bytes of a text in UTF-8. -/
def bytes (text : List Char) : List UInt8 := text.flatMap String.utf8EncodeChar

theorem toUTF8_ofList (text : List Char) : (String.ofList text).toUTF8.data.toList = bytes text := by
  rw [String.toUTF8, String.toByteArray_ofList, List.utf8Encode, List.toList_data_toByteArray, bytes]

theorem bytes_append (text more : List Char) : bytes (text ++ more) = bytes text ++ bytes more :=
  List.flatMap_append

theorem length_bytes (text : List Char) : (bytes text).length = byteLength text := by
  induction text with
  | nil => rfl
  | cons c text ih =>
    rw [bytes, List.flatMap_cons, List.length_append, String.length_utf8EncodeChar, byteLength_cons]
    exact congrArg (c.utf8Size + ·) ih

/-- Among the bytes of a character there is a byte below 128 only if it is the character. -/
theorem toNat_eq_of_mem_utf8EncodeChar {b : UInt8} {c : Char} (hb : b.toNat < 128)
    (h : b ∈ String.utf8EncodeChar c) : c.toNat = b.toNat := by
  have hofNat : ∀ n < 256, b = UInt8.ofNat n → b.toNat = n := by
    rintro n hn rfl
    exact UInt8.toNat_ofNat_of_lt' hn
  rw [String.utf8EncodeChar] at h
  split at h
  · rename_i hc
    have := hofNat c.val.toNat (by omega) (List.mem_singleton.mp h)
    exact this.symm
  · exfalso
    split at h
    · simp only [List.mem_cons, List.not_mem_nil, or_false] at h
      rcases h with h | h <;> have := hofNat _ (by omega) h <;> omega
    · split at h
      · simp only [List.mem_cons, List.not_mem_nil, or_false] at h
        rcases h with h | h | h <;> have := hofNat _ (by omega) h <;> omega
      · simp only [List.mem_cons, List.not_mem_nil, or_false] at h
        rcases h with h | h | h | h <;> have := hofNat _ (by omega) h <;> omega

theorem not_mem_utf8EncodeChar {c d : Char} (hd : d.toNat < 128) (hc : c ≠ d) :
    d.toUInt8 ∉ String.utf8EncodeChar c := by
  intro h
  have hb : d.toUInt8.toNat = d.toNat := by
    show d.toNat % 256 = d.toNat
    omega
  exact hc (Char.toNat_inj.mp (by rw [toNat_eq_of_mem_utf8EncodeChar (by omega) h, hb]))

end Text

open Text

/-- The search on bytes finds what the search on characters does. -/
theorem splitClose_bytes (nested : Nat) (text : List Char) :
    splitClose '('.toUInt8 ')'.toUInt8 nested (bytes text) =
      (splitClose '(' ')' nested text).map fun p => (bytes p.1, bytes p.2) := by
  induction text generalizing nested with
  | nil => rfl
  | cons c text ih =>
    by_cases hclose : c = ')'
    · subst hclose
      have hbytes : bytes (')' :: text) = ')'.toUInt8 :: bytes text := rfl
      cases nested with
      | zero =>
        rw [hbytes, splitClose_closing, splitClose_closing]
        rfl
      | succ nested =>
        rw [hbytes, splitClose_closing_succ, splitClose_closing_succ, ih, Option.map_map,
          Option.map_map]
        rfl
    · by_cases hopen : c = '('
      · subst hopen
        have hbytes : bytes ('(' :: text) = '('.toUInt8 :: bytes text := rfl
        rw [hbytes, splitClose_opening (by decide), splitClose_opening (by decide), ih,
          Option.map_map, Option.map_map]
        rfl
      · have hbytes : bytes (c :: text) = String.utf8EncodeChar c ++ bytes text := rfl
        rw [hbytes, splitClose_append_of_not_mem (not_mem_utf8EncodeChar (by decide) hopen)
          (not_mem_utf8EncodeChar (by decide) hclose), ih, splitClose_cons hopen hclose,
          Option.map_map, Option.map_map]
        rfl

/-- Between two characters of a text, the parenthesis that closes a group is where the search on
what lies between them ends. -/
theorem matchingClose_append (before inside behind : List Char) :
    matchingClose (String.ofList (before ++ inside ++ behind)) (byteLength before)
        (byteLength (before ++ inside)) =
      (splitClose '(' ')' 0 inside).map fun p => byteLength before + byteLength p.1 := by
  have hstop : (bytes (before ++ inside ++ behind)).take (byteLength (before ++ inside)) =
      bytes before ++ bytes inside := by
    rw [bytes_append, ← length_bytes, List.take_left, bytes_append]
  have hrange : (bytes before ++ bytes inside).drop (byteLength before) = bytes inside := by
    rw [← length_bytes, List.drop_left]
  rw [matchingClose]
  simp only [toUTF8_ofList, hstop, hrange, splitClose_bytes, Option.map_map]
  rw [if_pos]
  · simp only [Function.comp_def, length_bytes]
  · simp only [length_bytes, byteLength_append]
    omega

end Abacus
