import Abacus.Double
import Mathlib

/-!
# Doubles and their bits

A finite double is its sign and the bits of its magnitude, of which every pattern below that of
infinity is one. Negation changes the sign and nothing else.
-/

namespace Abacus.Double
open Float.Model
open Float.Model.UnpackedFloat

/-! ## Sign, exponent and fraction -/

/-- The bits of a double with an exponent and a fraction. -/
abbrev components (s : Sign) (e : BitVec 11) (m : BitVec 52) : BitVec 64 :=
  packComponents .binary64 s e m

variable {s : Sign} {e : BitVec 11} {m : BitVec 52}

theorem sign_toBitVec (s : Sign) : Sign.ofBitVec s.toBitVec = s := by
  cases s <;> rfl

theorem toNat_components (s : Sign) (e : BitVec 11) (m : BitVec 52) :
    (components s e m).toNat = s.toBitVec.toNat * 2 ^ 63 + e.toNat * 2 ^ 52 + m.toNat := by
  have hm : m.toNat < 2 ^ 52 := m.isLt
  have he : e.toNat < 2 ^ 11 := e.isLt
  rw [components, packComponents, BitVec.toNat_append, ← Nat.shiftLeft_add_eq_or_of_lt hm,
    BitVec.toNat_append, ← Nat.shiftLeft_add_eq_or_of_lt he, Nat.shiftLeft_eq, Nat.shiftLeft_eq]
  show (s.toBitVec.toNat * 2 ^ 11 + e.toNat) * 2 ^ 52 + m.toNat = _
  omega

theorem exists_components (b : BitVec 64) : ∃ s e m, b = components s e m := by
  have hb : b.toNat < 2 ^ 64 := b.isLt
  refine ⟨Sign.ofBitVec (BitVec.ofNat 1 (b.toNat / 2 ^ 63)), BitVec.ofNat 11 (b.toNat / 2 ^ 52),
    BitVec.ofNat 52 b.toNat, BitVec.eq_of_toNat_eq ?_⟩
  rw [toNat_components, BitVec.toNat_ofNat, BitVec.toNat_ofNat]
  have hs : b.toNat / 2 ^ 63 = 0 ∨ b.toNat / 2 ^ 63 = 1 := by omega
  rcases hs with hs | hs
  · rw [hs]
    show b.toNat = 0 * 2 ^ 63 + _ + _
    omega
  · rw [hs]
    show b.toNat = 1 * 2 ^ 63 + _ + _
    omega

theorem unpackSign_components :
    @unpackSign .binary64 (components s e m) = s.toBitVec := by
  rw [unpackSign, components, packComponents, BitVec.extractLsb,
    BitVec.extractLsb'_append_eq_of_le (by decide), BitVec.extractLsb'_append_eq_of_le (by decide)]
  cases s <;> rfl

theorem unpack_components : UnpackedFloat.unpack .binary64 (components s e m) =
    if e = -1#11 then (if m = 0#52 then .infinity s else .notANumber)
    else if e = 0#11 then
      if h : m = 0#52 then .zero s
      else .finite s m.toNat (-1074) (Nat.pos_of_ne_zero fun h' => h (BitVec.eq_of_toNat_eq h'))
    else .finite s (2 ^ 52 + m.toNat) (e.toNat - 1075) (by omega) := by
  have hnat : (1#1 ++ m).toNat = 2 ^ 52 + m.toNat := by
    rw [BitVec.toNat_append, ← Nat.shiftLeft_add_eq_or_of_lt m.isLt]
    rfl
  simp only [UnpackedFloat.unpack, unpackMantissa_packComponents, unpackExponent_packComponents,
    unpackSign_components, sign_toBitVec, hnat]
  split
  · rfl
  · split
    · rename_i he
      subst he
      rfl
    · rfl

/-- A double is finite unless all the bits of its exponent are set. -/
theorem isFinite_components :
    (UnpackedFloat.unpack .binary64 (components s e m)).isFinite = true ↔ e ≠ -1#11 := by
  rw [unpack_components]
  by_cases he : e = -1#11
  · rw [if_pos he]
    split <;> simp [UnpackedFloat.isFinite, he]
  · rw [if_neg he]
    simp only [ne_eq, he, not_false_eq_true, iff_true]
    split
    · split <;> rfl
    · rfl

theorem neg_unpack_components : (UnpackedFloat.unpack .binary64 (components s e m)).neg =
    UnpackedFloat.unpack .binary64 (components (-s) e m) := by
  rw [unpack_components, unpack_components]
  split
  · split <;> rfl
  · split
    · split <;> rfl
    · rfl

/-- The bits of a finite double are those of the number that they stand for. -/
theorem pack_unpack_components (he : e ≠ -1#11) :
    UnpackedFloat.pack .binary64 (UnpackedFloat.unpack .binary64 (components s e m)) =
      components s e m := by
  have hm : m.toNat < 2 ^ 52 := m.isLt
  have hlt : e.toNat + 1 < 2 ^ 11 := by
    have hlt := e.isLt
    have hne : e.toNat ≠ 2047 := fun h => he (BitVec.eq_of_toNat_eq h)
    omega
  rw [unpack_components, if_neg he]
  split
  · rename_i he0
    subst he0
    split
    · rename_i hm0
      subst hm0
      rfl
    · rename_i hm0
      have hpos : m.toNat ≠ 0 := fun h => hm0 (BitVec.eq_of_toNat_eq h)
      have hlog : m.toNat.log2 < 52 := (Nat.log2_lt hpos).mpr hm
      have hbits : ¬ m.toNat.log2 + 1 = Format.binary64.mantissaBits := by
        show ¬ m.toNat.log2 + 1 = 53
        omega
      rw [UnpackedFloat.pack]
      simp only [if_neg hbits, BitVec.ofNat_toNat, BitVec.setWidth_eq]
      rfl
  · have hlog : (2 ^ 52 + m.toNat).log2 = 52 := by
      refine (Nat.log2_eq_iff (by omega)).mpr ⟨by omega, by omega⟩
    have hbits : (2 ^ 52 + m.toNat).log2 + 1 = Format.binary64.mantissaBits := by
      rw [hlog]
      rfl
    have hexp : ((e.toNat : Int) - 1075 + Format.binary64.exponentBias +
        Format.binary64.mantissaBitsWithoutImplicit).toNat = e.toNat := by
      show ((e.toNat : Int) - 1075 + (1023 : Nat) + (52 : Nat)).toNat = e.toNat
      omega
    have hmant : BitVec.ofNat 52 (2 ^ 52 + m.toNat) = m := by
      refine BitVec.eq_of_toNat_eq ?_
      rw [BitVec.toNat_ofNat]
      omega
    rw [UnpackedFloat.pack]
    simp only [hexp, if_pos hbits]
    rw [if_neg (by show ¬ 2 ^ 11 ≤ e.toNat + 1; omega)]
    show components s (BitVec.ofNat 11 e.toNat) (BitVec.ofNat 52 (2 ^ 52 + m.toNat)) = _
    rw [hmant, BitVec.ofNat_toNat, BitVec.setWidth_eq]

/-! ## Doubles -/

theorem isNaN_isInf_of_isFinite {x : Float} (hx : x.isFinite = true) :
    x.isNaN = false ∧ x.isInf = false := by
  have hx : x.toModel.unpack.isFinite = true := hx
  show x.toModel.unpack.isNaN = false ∧ x.toModel.unpack.isInf = false
  generalize x.toModel.unpack = u at hx
  cases u with
  | infinity | notANumber => cases hx
  | zero | finite => exact ⟨rfl, rfl⟩

/-- The sign that a double is given. -/
def signOf (negative : Bool) : Sign := if negative then .negative else .positive

/-- A finite magnitude has an exponent and a fraction, whatever its sign is. -/
theorem exists_toBitVec {bits : Nat} (h : bits < infinityBits) : ∃ e m, e ≠ -1#11 ∧
    e.toNat * 2 ^ 52 + m.toNat = bits ∧ ∀ negative : Bool,
      (UInt64.ofNat (bits + if negative then Nat.pow 2 63 else 0)).toBitVec =
        components (signOf negative) e m := by
  have h : bits < 2047 * 2 ^ 52 := h
  have hexp : (BitVec.ofNat 11 (bits / 2 ^ 52)).toNat = bits / 2 ^ 52 := by
    rw [BitVec.toNat_ofNat]
    omega
  have hfrac : (BitVec.ofNat 52 bits).toNat = bits % 2 ^ 52 := BitVec.toNat_ofNat ..
  refine ⟨BitVec.ofNat 11 (bits / 2 ^ 52), BitVec.ofNat 52 bits, ?_, by omega, ?_⟩
  · intro he
    have hmax : (BitVec.ofNat 11 (bits / 2 ^ 52)).toNat = 2047 := by
      rw [he]
      rfl
    omega
  · intro negative
    refine BitVec.eq_of_toNat_eq ?_
    rw [toNat_components, hexp, hfrac]
    show (bits + if negative then 2 ^ 63 else 0) % 2 ^ 64 = _
    cases negative
    · show (bits + 0) % 2 ^ 64 = 0 * 2 ^ 63 + _ + _
      omega
    · show (bits + 2 ^ 63) % 2 ^ 64 = 1 * 2 ^ 63 + _ + _
      omega

variable {bits : Nat} {x : Float}

theorem eq_of_toBits {x y : Float} (h : x.toBits = y.toBits) : x = y := by
  obtain ⟨⟨b, hb⟩⟩ := x
  obtain ⟨⟨b', hb'⟩⟩ := y
  obtain rfl : b = b' := h
  rfl

theorem toBits_ofBits (h : bits < infinityBits) (negative : Bool) :
    (ofBits negative bits).toBits = UInt64.ofNat (bits + if negative then Nat.pow 2 63 else 0) := by
  obtain ⟨e, m, he, -, hbits⟩ := exists_toBitVec h
  show UInt64.ofBitVec (UnpackedFloat.pack .binary64 (UnpackedFloat.unpack .binary64
    (UInt64.ofNat (bits + if negative then Nat.pow 2 63 else 0)).toBitVec)) = _
  rw [hbits, pack_unpack_components he, ← hbits]

theorem toNat_ofBits (h : bits < infinityBits) (negative : Bool) :
    (ofBits negative bits).toBits.toNat = bits + if negative then Nat.pow 2 63 else 0 := by
  have hbits : bits < Nat.pow 2 63 := Nat.lt_trans h (by decide)
  have hpow : Nat.pow 2 63 + Nat.pow 2 63 = 2 ^ 64 := by decide
  rw [toBits_ofBits h, UInt64.toNat_ofNat', Nat.mod_eq_of_lt]
  split <;> omega

theorem isNegative_ofBits (h : bits < infinityBits) (negative : Bool) :
    isNegative (ofBits negative bits) = negative := by
  have hbits : bits < Nat.pow 2 63 := Nat.lt_trans h (by decide)
  rw [isNegative, toNat_ofBits h]
  cases negative
  · simpa using hbits
  · simp

theorem magnitude_ofBits (h : bits < infinityBits) (negative : Bool) :
    magnitude (ofBits negative bits) = bits := by
  have hbits : bits < Nat.pow 2 63 := Nat.lt_trans h (by decide)
  rw [magnitude, toNat_ofBits h]
  cases negative
  · exact Nat.mod_eq_of_lt hbits
  · exact (Nat.add_mod_right ..).trans (Nat.mod_eq_of_lt hbits)

theorem isFinite_ofBits (h : bits < infinityBits) (negative : Bool) :
    (ofBits negative bits).isFinite = true := by
  obtain ⟨e, m, he, -, hbits⟩ := exists_toBitVec h
  show (UnpackedFloat.unpack .binary64 (ofBits negative bits).toBits.toBitVec).isFinite = true
  rw [toBits_ofBits h, hbits]
  exact isFinite_components.mpr he

/-- Negation is a change of sign. -/
theorem neg_ofBits (h : bits < infinityBits) (negative : Bool) :
    -ofBits negative bits = ofBits (!negative) bits := by
  obtain ⟨e, m, he, -, hbits⟩ := exists_toBitVec h
  have hsign : -signOf negative = signOf (!negative) := by
    cases negative <;> rfl
  have hneg : (-ofBits negative bits).toBits = (ofBits (!negative) bits).toBits := by
    show UInt64.ofBitVec (UnpackedFloat.pack .binary64 (UnpackedFloat.unpack .binary64
      (ofBits negative bits).toBits.toBitVec).neg) = _
    rw [toBits_ofBits h, toBits_ofBits h, hbits, neg_unpack_components, pack_unpack_components he,
      hsign, ← hbits]
  exact eq_of_toBits hneg

/-- A finite double is a sign and a finite magnitude. -/
theorem exists_eq_ofBits (hx : x.isFinite = true) :
    ∃ negative bits, bits < infinityBits ∧ x = ofBits negative bits := by
  obtain ⟨s, e, m, hb⟩ := exists_components x.toBits.toBitVec
  have he : e ≠ -1#11 := by
    refine (isFinite_components (s := s) (m := m)).mp ?_
    rw [← hb]
    exact hx
  have hlt : e.toNat < 2047 := by
    have hlt := e.isLt
    have hne : e.toNat ≠ 2047 := fun h => he (BitVec.eq_of_toNat_eq h)
    omega
  have hm : m.toNat < 2 ^ 52 := m.isLt
  have hbits : e.toNat * 2 ^ 52 + m.toNat < infinityBits := by
    show _ < 2047 * 2 ^ 52
    omega
  obtain ⟨negative, rfl⟩ : ∃ negative, s = signOf negative := by
    cases s
    · exact ⟨true, rfl⟩
    · exact ⟨false, rfl⟩
  refine ⟨negative, _, hbits, eq_of_toBits (UInt64.toNat_inj.mp ?_)⟩
  rw [toNat_ofBits hbits, ← UInt64.toNat_toBitVec, hb, toNat_components]
  have hpow : Nat.pow 2 63 = 2 ^ 63 := rfl
  cases negative
  · show 0 * 2 ^ 63 + _ + _ = _ + 0
    omega
  · show 1 * 2 ^ 63 + _ + _ = _ + Nat.pow 2 63
    omega

end Abacus.Double
