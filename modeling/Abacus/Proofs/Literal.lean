import Abacus.Positional
import Abacus.Proofs.Bits
import Abacus.Proofs.Layout
import Mathlib.Data.List.TakeWhile

/-!
# The text of a finite double

What is written for a finite double is a run of numeric characters, behind a minus if the double
carries a sign, and it reads back as the same double.
-/

namespace Abacus
open Text

namespace Double

/-! ## Rounding what is exact -/

theorem roundQuotient_exact (q : Nat) {den : Nat} (h : 0 < den) :
    roundQuotient (q * den) den = q := by
  have hdiv : q * den / den = q := Nat.mul_div_cancel q h
  have hmod : q * den % den = 0 := Nat.mul_mod_left q den
  simp only [roundQuotient, hdiv, hmod, Nat.mul_zero]
  rw [if_pos h]

/-- A quotient that is a finite magnitude is rounded to it. -/
theorem nearestBits_exact {bits den : Nat} (h : bits < infinityBits) (hden : 0 < den) :
    nearestBits (unitsOfBits bits * den) den = bits := by
  have hdiv : unitsOfBits bits * den / den = unitsOfBits bits := Nat.mul_div_cancel _ hden
  have hround : ∀ q e, roundQuotient (q * 2 ^ e * den) (den * 2 ^ e) = q := by
    intro q e
    rw [Nat.mul_assoc, Nat.mul_comm (2 ^ e)]
    exact roundQuotient_exact q (Nat.mul_pos hden (Nat.two_pow_pos e))
  rw [nearestBits, hdiv]
  simp only [unitsOfBits, Nat.pow_eq]
  split
  · rename_i hsmall
    have he : bits.log2 - 52 = 0 := by
      by_cases h0 : bits = 0
      · subst h0
        rfl
      · have := (Nat.log2_lt h0).mpr hsmall
        omega
    have := hround bits 0
    rw [Nat.pow_zero, Nat.mul_one] at this
    rw [he, Nat.pow_zero, this, Nat.zero_mul, Nat.zero_add, Nat.min_eq_left (Nat.le_of_lt h)]
  · rename_i hlarge
    have he : ((2 ^ 52 + bits % 2 ^ 52) * 2 ^ (bits / 2 ^ 52 - 1)).log2 - 52 =
        bits / 2 ^ 52 - 1 := by
      have hpos := Nat.two_pow_pos (bits / 2 ^ 52 - 1)
      have hlog : ((2 ^ 52 + bits % 2 ^ 52) * 2 ^ (bits / 2 ^ 52 - 1)).log2 =
          52 + (bits / 2 ^ 52 - 1) := by
        refine (Nat.log2_eq_iff (Nat.mul_pos (by omega) hpos).ne').mpr ⟨?_, ?_⟩
        · rw [Nat.pow_add]
          exact Nat.mul_le_mul_right _ (by omega)
        · rw [Nat.add_right_comm, Nat.pow_add]
          exact Nat.mul_lt_mul_of_pos_right (by omega) hpos
      omega
    rw [he, hround, Nat.min_eq_left]
    · omega
    · omega

end Double

/-! ## Reading digits -/

namespace Numeral

theorem ofDigits_eq (digits : List Char) : ofDigits digits = Nat.ofDigitChars 10 digits 0 :=
  Nat.ofDigitChars_eq_foldl.symm

/-- Zeros in front do not count. -/
theorem ofDigits_padded (zeros n : Nat) :
    ofDigits (List.replicate zeros '0' ++ Nat.toDigits 10 n) = n := by
  rw [ofDigits_eq, Nat.ofDigitChars_append, Nat.ofDigitChars_replicate_zero, Nat.mul_zero,
    Nat.ofDigitChars_ten_toDigits]

theorem decimalBits_eq {digits : Nat} {e : Int} (h0 : digits ≠ 0) (hlarge : ¬ 400 < e)
    (hsmall : ¬ e + digits.log2 < -400) : decimalBits digits e =
      Double.nearestBits (digits * Nat.pow 2 1074 * Nat.pow 10 e.toNat) (Nat.pow 10 (-e).toNat) := by
  rw [decimalBits, if_neg h0, if_neg hlarge, if_neg hsmall]

variable {whole fraction : List Char}

theorem decimal?_point (hne : whole ≠ []) (hw : ∀ c ∈ whole, c.isDigit = true)
    (hf : ∀ c ∈ fraction, c.isDigit = true) :
    decimal? (whole ++ '.' :: fraction) =
      some (.decimal (ofDigits (whole ++ fraction)) (-fraction.length)) := by
  have htake : (whole ++ '.' :: fraction).takeWhile Char.isDigit = whole :=
    takeWhile_run hw (by simp [Ends])
  have hdrop : (whole ++ '.' :: fraction).dropWhile Char.isDigit = '.' :: fraction :=
    dropWhile_run hw (by simp [Ends])
  have htake' : fraction.takeWhile Char.isDigit = fraction := List.takeWhile_eq_self_iff.mpr hf
  have hdrop' : fraction.dropWhile Char.isDigit = [] :=
    List.dropWhile_eq_nil_iff.mpr hf
  rw [decimal?, htake, hdrop]
  simp [htake', hdrop', hne, exponent?]

theorem splitSign_digit {c : Char} (hc : c.isDigit = true) (rest : List Char) :
    splitSign (c :: rest) = (false, c :: rest) := by
  rw [splitSign]
  · rintro more ⟨⟩
    cases hc
  · rintro more ⟨⟩
    cases hc

/-- What begins with a digit has no sign and is no word. -/
theorem ofText?_digit {c : Char} {rest : List Char} (hc : c.isDigit = true) :
    ofText? (c :: rest) = (decimal? (c :: rest)).map (⟨false, ·⟩) := by
  have hlower : c.toLower = c := by
    have hle : c.val.toNat ≤ 57 := by
      simp only [Char.isDigit, Bool.and_eq_true, decide_eq_true_eq, UInt32.le_iff_toNat_le] at hc
      exact hc.2
    refine dif_neg fun h => ?_
    have := UInt32.le_iff_toNat_le.mp h.1
    exact absurd this (by show ¬ 65 ≤ c.val.toNat; omega)
  have hne : ∀ d : Char, d.isDigit = false → c ≠ d := by
    rintro d hd rfl
    simp [hd] at hc
  rw [ofText?, splitSign_digit hc]
  simp [magnitude?, hlower, hne 'n' (by decide), hne 'i' (by decide)]

end Numeral

namespace Double

/-! ## The exact expansion -/

/-- Digits of which `n` are places are not too small to be a double if there are `n` factors of
five in them. -/
private theorem mul_pow_five {u : Nat} (hu : 0 < u) (n : Nat) : u * Nat.pow 5 n ≠ 0 ∧
    ¬ (-(n : Nat) : Int) + (u * Nat.pow 5 n).log2 < -400 := by
  have hne : u * Nat.pow 5 n ≠ 0 := (Nat.mul_pos hu (Nat.pow_pos (by decide))).ne'
  have hlog : 2 * n ≤ (u * Nat.pow 5 n).log2 := by
    refine (Nat.le_log2 hne).mpr ?_
    calc 2 ^ (2 * n) = 4 ^ n := Nat.pow_mul 2 2 n
      _ ≤ 5 ^ n := Nat.pow_le_pow_left (by decide) n
      _ ≤ u * 5 ^ n := Nat.le_mul_of_pos_left _ hu
  exact ⟨hne, by omega⟩

private theorem pow_ten_pos (n : Nat) : 0 < Nat.pow 10 n := Nat.pow_pos (by decide)

private theorem mul_pow_five_two (u n : Nat) :
    u * Nat.pow 5 n * Nat.pow 2 n * Nat.pow 10 0 = u * Nat.pow 10 n := by
  simp only [Nat.pow_eq]
  rw [Nat.pow_zero, Nat.mul_one, Nat.mul_assoc, ← Nat.mul_pow]

/-- A number of units with all its places is rounded to itself. -/
theorem decimalBits_exact {bits places : Nat} (h : bits < infinityBits) (h0 : bits ≠ 0)
    (hplaces : places = 1074) :
    Numeral.decimalBits (unitsOfBits bits * Nat.pow 5 places) (-(places : Nat)) = bits := by
  have hunits : 0 < unitsOfBits bits := by
    rw [unitsOfBits]
    simp only [Nat.pow_eq]
    split
    · exact Nat.pos_of_ne_zero h0
    · exact Nat.mul_pos (by omega) (Nat.two_pow_pos _)
  obtain ⟨hne, hguard⟩ := mul_pow_five hunits places
  have hzero : (-(places : Nat) : Int).toNat = 0 := by omega
  have hsmall : ¬ (400 : Int) < -(places : Nat) := by omega
  rw [Numeral.decimalBits_eq hne hsmall hguard, ← hplaces, hzero, Int.neg_neg, Int.toNat_natCast,
    mul_pow_five_two]
  exact nearestBits_exact h (pow_ten_pos places)

/-- The exact expansion is the digits of a whole number with a point among them. -/
theorem exists_expansion (units : Nat) : ∃ whole fraction, whole ≠ [] ∧
    (∀ c ∈ whole ++ fraction, c.isDigit = true) ∧ fraction.length = 1074 ∧
    Numeral.ofDigits (whole ++ fraction) = units * Nat.pow 5 fraction.length ∧
    expansion units = whole ++ '.' :: fraction := by
  rw [expansion]
  -- a power with so many factors is better not computed
  generalize hcount : (1074 : Nat) = places
  let digits := Nat.toDigits 10 (units * Nat.pow 5 places)
  let padded := List.replicate (1075 - digits.length) '0' ++ digits
  have hlen : 1075 ≤ padded.length := by
    simp only [padded, List.length_append, List.length_replicate]
    omega
  have happend : padded.take (padded.length - places) ++ padded.drop (padded.length - places) =
      padded := List.take_append_drop ..
  have hplaces : (padded.drop (padded.length - places)).length = places := by
    rw [List.length_drop]
    omega
  refine ⟨padded.take (padded.length - places), padded.drop (padded.length - places), ?_, ?_,
    hplaces, ?_, rfl⟩
  · refine List.ne_nil_of_length_pos ?_
    rw [List.length_take]
    omega
  · rw [happend]
    intro c hc
    rcases List.mem_append.mp hc with hc | hc
    · rw [List.eq_of_mem_replicate hc]
      rfl
    · exact Nat.isDigit_of_mem_toDigits (by decide) (by decide) hc
  · rw [happend, hplaces]
    exact Numeral.ofDigits_padded ..

theorem denotes_expansion {bits : Nat} (h : bits < infinityBits) (h0 : bits ≠ 0) :
    denotes bits (expansion (unitsOfBits bits)) = true := by
  obtain ⟨whole, fraction, hne, hdigit, hlen, hvalue, he⟩ := exists_expansion (unitsOfBits bits)
  have hexact := decimalBits_exact h h0 hlen
  rw [← hvalue] at hexact
  have hdecimal := Numeral.decimal?_point hne (fun c hc => hdigit c (List.mem_append_left _ hc))
    fun c hc => hdigit c (List.mem_append_right _ hc)
  obtain ⟨c, more, rfl⟩ := List.exists_cons_of_ne_nil hne
  have hread := @Numeral.ofText?_digit c (more ++ '.' :: fraction) (hdigit c (by simp))
  rw [← List.cons_append, hdecimal] at hread
  rw [denotes, he, ofText?, hread]
  show decide (some (ofBits false (Numeral.decimalBits _ _)) = some (ofBits false bits)) = true
  rw [hexact]
  exact decide_eq_true rfl

theorem exists_positional_of_mem {units places : Nat} {text : List Char}
    (h : text ∈ neighbours units places) : ∃ digits scale, text = positional digits scale := by
  simp only [neighbours] at h
  split at h
  · rcases List.mem_pair.mp h with h | h
    · exact ⟨_, _, h⟩
    · exact ⟨_, _, h⟩
  · rcases List.mem_pair.mp h with h | h
    · exact ⟨_, _, h⟩
    · exact ⟨_, _, h⟩

/-- The shortest text of a magnitude is a candidate that denotes it, or the exact expansion. -/
theorem shortest_cases (bits : Nat) : bits = 0 ∧ shortest bits = ['0'] ∨
    bits ≠ 0 ∧ shortest bits = expansion (unitsOfBits bits) ∨
    denotes bits (shortest bits) = true ∧ ∃ digits scale, shortest bits = positional digits scale := by
  by_cases h0 : bits = 0
  · exact .inl ⟨h0, by rw [shortest, if_pos h0]⟩
  · refine .inr ?_
    have hs : shortest bits = (((List.range' 1 17).flatMap
        (neighbours (unitsOfBits bits))).find? (denotes bits)).getD (expansion (unitsOfBits bits)) := by
      rw [shortest, if_neg h0]
    cases hf : ((List.range' 1 17).flatMap (neighbours (unitsOfBits bits))).find? (denotes bits) with
    | none =>
      rw [hf, Option.getD_none] at hs
      exact .inl ⟨h0, hs⟩
    | some text =>
      rw [hf, Option.getD_some] at hs
      obtain ⟨places, -, hmem⟩ := List.mem_flatMap.mp (List.mem_of_find?_eq_some hf)
      rw [hs]
      exact .inr ⟨List.find?_some hf, exists_positional_of_mem hmem⟩

theorem denotes_zero : denotes 0 ['0'] = true := by decide +kernel

/-- The shortest text of a finite magnitude denotes it. -/
theorem denotes_shortest {bits : Nat} (h : bits < infinityBits) :
    denotes bits (shortest bits) = true := by
  rcases shortest_cases bits with ⟨rfl, hs⟩ | ⟨h0, hs⟩ | ⟨hd, -⟩
  · rw [hs]
    exact denotes_zero
  · rw [hs]
    exact denotes_expansion h h0
  · exact hd

/-! ## What a double is written with -/

/-- A digit and numeric characters behind it. -/
def DigitRun (text : List Char) : Prop :=
  ∃ c more, text = c :: more ∧ c.isDigit = true ∧ ∀ d ∈ more, isNumeric d = true

theorem isNumeric_of_isDigit {c : Char} (h : c.isDigit = true) : isNumeric c = true := by
  simp [isNumeric, h]

namespace DigitRun
variable {text more : List Char}

theorem isNumeric (h : DigitRun text) : ∀ c ∈ text, Text.isNumeric c = true := by
  obtain ⟨c, more, rfl, hc, hmore⟩ := h
  intro d hd
  rcases List.mem_cons.mp hd with rfl | hd
  · exact isNumeric_of_isDigit hc
  · exact hmore d hd

theorem ne_nil (h : DigitRun text) : text ≠ [] := by
  obtain ⟨c, more, rfl, -⟩ := h
  exact List.cons_ne_nil c more

theorem append (h : DigitRun text) (hmore : ∀ c ∈ more, Text.isNumeric c = true) :
    DigitRun (text ++ more) := by
  obtain ⟨c, rest, rfl, hc, hrest⟩ := h
  refine ⟨c, rest ++ more, rfl, hc, ?_⟩
  intro d hd
  exact (List.mem_append.mp hd).elim (hrest d) (hmore d)

theorem of_digits (hne : text ≠ []) (h : ∀ c ∈ text, c.isDigit = true) : DigitRun text := by
  obtain ⟨c, more, rfl⟩ := List.exists_cons_of_ne_nil hne
  exact ⟨c, more, rfl, h c (by simp), fun d hd => isNumeric_of_isDigit (h d (by simp [hd]))⟩

end DigitRun

theorem digitRun_positional (digits : Nat) (scale : Int) : DigitRun (positional digits scale) := by
  have hdigit : ∀ zeros more : Nat, ∀ c ∈ List.replicate more '0' ++
      (Nat.toDigits 10 digits ++ List.replicate zeros '0'), c.isDigit = true := by
    intro zeros more c hc
    simp only [List.mem_append] at hc
    rcases hc with hc | hc | hc
    · rw [List.eq_of_mem_replicate hc]
      rfl
    · exact Nat.isDigit_of_mem_toDigits (by decide) (by decide) hc
    · rw [List.eq_of_mem_replicate hc]
      rfl
  refine DigitRun.append (DigitRun.of_digits ?_ ?_) ?_
  · refine List.ne_nil_of_length_pos ?_
    simp only [List.length_take, List.length_append, List.length_replicate]
    omega
  · intro c hc
    exact hdigit _ _ c (List.mem_of_mem_take hc)
  · intro c hc
    split at hc
    · cases hc
    · rcases List.mem_cons.mp hc with rfl | hc
      · decide
      · have hc := (List.dropWhile_suffix _).subset (List.mem_reverse.mp hc)
        exact isNumeric_of_isDigit
          (hdigit _ _ c (List.mem_of_mem_drop (List.mem_reverse.mp hc)))

theorem digitRun_shortest (bits : Nat) : DigitRun (shortest bits) := by
  rcases shortest_cases bits with ⟨-, hs⟩ | ⟨-, hs⟩ | ⟨-, digits, scale, hs⟩
  · rw [hs]
    refine .of_digits (List.cons_ne_nil _ _) fun c hc => ?_
    rw [List.mem_singleton.mp hc]
    rfl
  · obtain ⟨whole, fraction, hne, hdigit, -, -, he⟩ := exists_expansion (unitsOfBits bits)
    rw [hs, he]
    refine (DigitRun.of_digits hne fun c hc => hdigit c (List.mem_append_left _ hc)).append ?_
    intro c hc
    rcases List.mem_cons.mp hc with rfl | hc
    · decide
    · exact isNumeric_of_isDigit (hdigit c (List.mem_append_right _ hc))
  · rw [hs]
    exact digitRun_positional digits scale

theorem ofText?_shortest {bits : Nat} (h : bits < infinityBits) :
    ofText? (shortest bits) = some (ofBits false bits) :=
  of_decide_eq_true (denotes_shortest h)

theorem write_ofBits {bits : Nat} (h : bits < infinityBits) (negative : Bool) :
    write (ofBits negative bits) = if negative then '-' :: shortest bits else shortest bits := by
  obtain ⟨hnan, hinf⟩ := isNaN_isInf_of_isFinite (isFinite_ofBits h negative)
  rw [write, hnan, hinf, isNegative_ofBits h, magnitude_ofBits h]
  rfl

/-- What is written for a finite double without a sign reads back as the double, and what is
written for one with a sign is a minus before what reads back as the opposite. -/
theorem exists_write {x : Float} (hx : x.isFinite = true) : ∃ digits y,
    DigitRun digits ∧ ofText? digits = some y ∧
      (isNegative x = false ∧ write x = digits ∧ x = y ∨
        isNegative x = true ∧ write x = '-' :: digits ∧ x = -y) := by
  obtain ⟨negative, bits, h, rfl⟩ := exists_eq_ofBits hx
  refine ⟨shortest bits, ofBits false bits, digitRun_shortest bits, ofText?_shortest h, ?_⟩
  rw [isNegative_ofBits h, write_ofBits h]
  cases negative with
  | false => exact .inl ⟨rfl, rfl, rfl⟩
  | true => exact .inr ⟨rfl, rfl, (neg_ofBits h false).symm⟩

theorem dollar_not_mem_write {x : Float} (hx : x.isFinite = true) : '$' ∉ write x := by
  obtain ⟨digits, y, hrun, -, hcases⟩ := exists_write hx
  have hdigits : '$' ∉ digits := not_mem_run hrun.isNumeric (by decide)
  rcases hcases with ⟨-, hw, -⟩ | ⟨-, hw, -⟩
  · rwa [hw]
  · rw [hw]
    simpa using hdigits

theorem dollar_not_mem_literal {x : Float} (hx : x.isFinite = true) : '$' ∉ literal x := by
  have hwrite := dollar_not_mem_write hx
  rw [literal]
  split
  · simpa using hwrite
  · exact hwrite

end Double

namespace Layout

variable {k : Calculator} {v : Float}

/-- What a finite double is written with is read as that double, also in front of something else.
Its sign is a token of its own, which the normal form folds back into the number. -/
theorem exists_yields_write_append (hm : k.operators.LoneMinus) (hv : v.isFinite = true)
    {rest : Layout} (hends : Ends isNumeric rest.text) : ∃ (l : Layout) (first : List Token),
      l.text = Double.write v ++ rest.text ∧ ∀ depth ts, rest.Yields k depth ts →
        l.Yields k depth (first ++ ts) ∧
          k.normalize depth (first ++ ts) = .ok (Calculator.gather (.operand v :: ts)) := by
  obtain ⟨digits, y, hrun, hread, hcases⟩ := Double.exists_write hv
  have hblank : Blank [] := by simp [Blank]
  have hnumber : ∀ {depth ts}, rest.Yields k depth ts →
      (number [] digits rest).Yields k depth (.operand y :: ts) :=
    fun hy => .number hblank hrun.ne_nil hrun.isNumeric hends hread hy
  rcases hcases with ⟨-, hw, rfl⟩ | ⟨-, hw, rfl⟩
  · exact ⟨_, [.operand v], by simp [text, hw], fun depth ts hy => ⟨hnumber hy, rfl⟩⟩
  · refine ⟨.symbol [] "-" (.number [] digits rest), [.operator "-", .operand y],
      by simp [text, hw], fun depth ts hy => ⟨?_, rfl⟩⟩
    exact .symbol hblank (by simp [Ends]; decide) (by simp [Ends]; decide) (hm.isLongest _)
      (hnumber hy)

/-- What a finite double is written with is read as that double, wherever it stands. -/
theorem exists_yields_write (hm : k.operators.LoneMinus) (hv : v.isFinite = true) :
    ∃ (l : Layout) (ts : List Token), l.text = Double.write v ∧
      ∀ depth, l.Yields k depth ts ∧ k.normalize depth ts = .ok (some (.operand v)) := by
  obtain ⟨l, ts, hl, hy⟩ := @exists_yields_write_append k v hm hv (.blank []) (Ends.nil _)
  refine ⟨l, ts, by simpa [text] using hl, fun depth => ?_⟩
  have hread := hy depth [] (.blank (by simp [Blank]))
  rwa [List.append_nil] at hread

end Layout

end Abacus
