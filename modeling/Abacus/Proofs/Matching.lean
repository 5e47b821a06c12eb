import Abacus.Proofs.Brackets
import Abacus.Proofs.Slices

/-!
# The parenthesis that closes a group

The search runs over the bytes of a text between two offsets, which may lie inside characters. What
it finds is a character of its own all the same, and it finds it whatever follows.
-/

namespace Abacus
open Text

namespace Text

theorem utf8Size_of_ascii {c : Char} (hc : c.toNat < 128) : c.utf8Size = 1 :=
  if_pos (show c.toNat ≤ 127 by omega)

/-- A byte below 128 is a whole character, and stands where the character does. -/
theorem exists_char_of_getElem? {text : List Char} {n : Nat} {b : UInt8} (hb : b.toNat < 128)
    (h : (bytes text)[n]? = some b) :
    ∃ front c behind, text = front ++ c :: behind ∧ n = byteLength front ∧ c.toNat = b.toNat := by
  induction text generalizing n with
  | nil => simp [bytes] at h
  | cons c text ih =>
    have hbytes : bytes (c :: text) = String.utf8EncodeChar c ++ bytes text := rfl
    have hlength : (String.utf8EncodeChar c).length = c.utf8Size := String.length_utf8EncodeChar c
    rw [hbytes] at h
    by_cases hn : n < c.utf8Size
    · rw [List.getElem?_append_left (by omega)] at h
      have hc := toNat_eq_of_mem_utf8EncodeChar hb (List.mem_of_getElem? h)
      have hsize := utf8Size_of_ascii (c := c) (by omega)
      exact ⟨[], c, text, rfl, by rw [byteLength_nil]; omega, hc⟩
    · rw [List.getElem?_append_right (by omega)] at h
      obtain ⟨front, d, behind, rfl, hlt, hd⟩ := ih h
      refine ⟨c :: front, d, behind, rfl, ?_, hd⟩
      rw [byteLength_cons]
      omega

/-- Before and behind a byte below 128 the text can be cut. -/
theorem isBoundary_of_getElem? {text : List Char} {n : Nat} {b : UInt8} (hb : b.toNat < 128)
    (h : (bytes text)[n]? = some b) :
    isBoundary text n = true ∧ isBoundary text (n + 1) = true := by
  obtain ⟨front, c, behind, rfl, rfl, hc⟩ := exists_char_of_getElem? hb h
  have hnext : byteLength front + 1 = byteLength (front ++ [c]) := by
    rw [byteLength_append, byteLength_cons, utf8Size_of_ascii (by omega)]
    rfl
  refine ⟨isBoundary_append front (c :: behind), ?_⟩
  rw [hnext, List.append_cons]
  exact isBoundary_append (front ++ [c]) behind

end Text

/-! ## Bytes between two offsets -/

def bytesBetween (text : String) (start stop : Nat) : List UInt8 :=
  (text.toUTF8.data.toList.take stop).drop start

section
variable {text : String} {start stop c : Nat}

theorem length_toUTF8 (text : String) : text.toUTF8.data.toList.length = text.utf8ByteSize := rfl

theorem length_bytesBetween (hstop : stop ≤ text.utf8ByteSize) :
    (bytesBetween text start stop).length = stop - start := by
  rw [bytesBetween, List.length_drop, List.length_take, length_toUTF8, Nat.min_eq_left hstop]

theorem bytesBetween_split (hstart : start ≤ c) (hc : c < stop) {b : UInt8}
    (hb : text.toUTF8.data.toList[c]? = some b) :
    bytesBetween text start stop =
      bytesBetween text start c ++ b :: bytesBetween text (c + 1) stop := by
  unfold bytesBetween
  generalize text.toUTF8.data.toList = bs at *
  obtain ⟨hlt, rfl⟩ := List.getElem?_eq_some_iff.mp hb
  have hfront : (bs.take stop).take c = bs.take c := by
    rw [List.take_take, Nat.min_eq_left (by omega)]
  have hbehind : (bs.take stop).drop c = bs[c] :: (bs.take stop).drop (c + 1) := by
    rw [List.drop_eq_getElem_cons (by rw [List.length_take]; omega), List.getElem_take]
  calc (bs.take stop).drop start
      = ((bs.take stop).take c ++ (bs.take stop).drop c).drop start := by
        rw [List.take_append_drop]
    _ = (bs.take c).drop start ++ bs[c] :: (bs.take stop).drop (c + 1) := by
        rw [hfront, hbehind, List.drop_append_of_le_length (by rw [List.length_take]; omega)]

/-! ## The search -/

/-- A parenthesis closes the group whose contents begin at `start` if what is between the two closes
as much as it opens, and nothing that is not open. -/
structure ClosesGroup (text : String) (start stop c : Nat) : Prop where
  start_le : start ≤ c
  lt_stop : c < stop
  closing : text.toUTF8.data.toList[c]? = some ')'.toUInt8
  balanced : Shuts '('.toUInt8 ')'.toUInt8 0 (bytesBetween text start c)

private theorem parentheses_ne : '('.toUInt8 ≠ ')'.toUInt8 := by decide

theorem matchingClose_eq (hstart : start ≤ stop) (hstop : stop ≤ text.utf8ByteSize) :
    matchingClose text start stop =
      (splitClose '('.toUInt8 ')'.toUInt8 0 (bytesBetween text start stop)).map
        fun p => start + p.1.length :=
  if_pos ⟨hstart, hstop⟩

theorem matchingClose_eq_some_iff (hstart : start ≤ stop) (hstop : stop ≤ text.utf8ByteSize) :
    matchingClose text start stop = some c ↔ ClosesGroup text start stop c := by
  rw [matchingClose_eq hstart hstop]
  constructor
  · intro h
    obtain ⟨⟨inside, after⟩, hsplit, rfl⟩ := Option.map_eq_some_iff.mp h
    obtain ⟨hrange, hshuts⟩ := (splitClose_eq_some_iff parentheses_ne).mp hsplit
    have hlength := @length_bytesBetween text start stop hstop
    rw [hrange, List.length_append, List.length_cons] at hlength
    have hlt : start + inside.length < stop := by omega
    have hclosing : text.toUTF8.data.toList[start + inside.length]? = some ')'.toUInt8 := by
      have hget : (bytesBetween text start stop)[inside.length]? = some ')'.toUInt8 := by
        rw [hrange, List.getElem?_append_right (Nat.le_refl _), Nat.sub_self]
        rfl
      rwa [bytesBetween, List.getElem?_drop, List.getElem?_take_of_lt hlt] at hget
    have hinside : bytesBetween text start (start + inside.length) = inside := by
      have hsplit := bytesBetween_split (Nat.le_add_right start inside.length) hlt hclosing
      rw [hrange] at hsplit
      refine (List.append_inj_left hsplit ?_).symm
      rw [length_bytesBetween (by omega), Nat.add_sub_cancel_left]
    exact ⟨Nat.le_add_right .., hlt, hclosing, hinside.symm ▸ hshuts⟩
  · rintro ⟨hle, hlt, hclosing, hshuts⟩
    rw [bytesBetween_split hle hlt hclosing, hshuts.splitClose_eq parentheses_ne, Option.map_some,
      length_bytesBetween (by omega), Nat.add_sub_cancel' hle]

/-- A parenthesis further on has more closed in front of it than was open. -/
theorem ClosesGroup.le {stop' c' : Nat} (h : ClosesGroup text start stop c)
    (h' : ClosesGroup text start stop' c') : c' ≤ c := by
  by_contra hlt
  have hopen := h'.balanced.closesOpen
  rw [bytesBetween_split h.start_le (Nat.lt_of_not_le hlt) h.closing] at hopen
  exact h.balanced.not_closesOpen parentheses_ne _ hopen

theorem ClosesGroup.unique {stop' c' : Nat} (h : ClosesGroup text start stop c)
    (h' : ClosesGroup text start stop' c') : c = c' :=
  Nat.le_antisymm (h'.le h) (h.le h')

/-- Where the group is closed two characters meet, before the parenthesis and behind it. -/
theorem ClosesGroup.isBoundary (h : ClosesGroup text start stop c) :
    isBoundary text.toList c = true ∧ isBoundary text.toList (c + 1) = true := by
  have hclosing := h.closing
  rw [← String.ofList_toList (s := text), toUTF8_ofList] at hclosing
  exact isBoundary_of_getElem? (by decide) hclosing

/-- What is found is the one parenthesis that closes what is open, at a place of its own among the
characters and whatever follows. Nothing is found if nothing is closed but what is open, and outside
the text. -/
theorem matchingClose_balances (text : String) (start stop : Nat) :
    (start ≤ stop → stop ≤ text.utf8ByteSize →
      (∀ c, matchingClose text start stop = some c ↔ ClosesGroup text start stop c) ∧
      (∀ c c', ClosesGroup text start stop c → ClosesGroup text start stop c' → c = c') ∧
      (matchingClose text start stop = none ↔
        ClosesOpen '('.toUInt8 ')'.toUInt8 0 (bytesBetween text start stop)) ∧
      ∀ c, matchingClose text start stop = some c →
        (isBoundary text.toList c = true ∧ isBoundary text.toList (c + 1) = true) ∧
        ∀ stop', stop ≤ stop' → stop' ≤ text.utf8ByteSize →
          matchingClose text start stop' = some c) ∧
    (stop < start ∨ text.utf8ByteSize < stop → matchingClose text start stop = none) := by
  constructor
  · intro hstart hstop
    refine ⟨fun _ => matchingClose_eq_some_iff hstart hstop, fun _ _ h h' => h.unique h', ?_, ?_⟩
    · rw [matchingClose_eq hstart hstop, Option.map_eq_none_iff,
        splitClose_eq_none_iff_closesOpen parentheses_ne]
    · intro c hc
      have hcloses := (matchingClose_eq_some_iff hstart hstop).mp hc
      refine ⟨hcloses.isBoundary, fun stop' hle hstop' => ?_⟩
      refine (matchingClose_eq_some_iff (hstart.trans hle) hstop').mpr ?_
      exact { hcloses with lt_stop := Nat.lt_of_lt_of_le hcloses.lt_stop hle }
  · rintro hout
    refine if_neg fun hin => ?_
    have := length_toUTF8 text
    omega

/-- The contents begin inside a character, and a group is in them. -/
theorem matchingClose_balances_nested :
    2 ≤ 7 ∧ 7 ≤ "(é(b))c".utf8ByteSize ∧ matchingClose "(é(b))c" 2 7 = some 6 ∧
    ClosesGroup "(é(b))c" 2 7 6 ∧ isBoundary "(é(b))c".toList 6 = true ∧
    7 ≤ 8 ∧ 8 ≤ "(é(b))c".utf8ByteSize ∧ matchingClose "(é(b))c" 2 8 = some 6 ∧
    6 < 7 ∧ matchingClose "(é(b))c" 7 6 = none := by
  have hin : 2 ≤ 7 ∧ 7 ≤ "(é(b))c".utf8ByteSize := by decide +kernel
  have hout : 7 ≤ 8 ∧ 8 ≤ "(é(b))c".utf8ByteSize := by decide +kernel
  have hfound : matchingClose "(é(b))c" 2 7 = some 6 := by decide +kernel
  obtain ⟨hiff, -, -, hplace⟩ := (matchingClose_balances "(é(b))c" 2 7).1 hin.1 hin.2
  obtain ⟨hboundary, hmore⟩ := hplace 6 hfound
  exact ⟨hin.1, hin.2, hfound, (hiff 6).mp hfound, hboundary.1, hout.1, hout.2,
    hmore 8 hout.1 hout.2, by omega, (matchingClose_balances "(é(b))c" 7 6).2 (.inl (by omega))⟩

end

end Abacus
