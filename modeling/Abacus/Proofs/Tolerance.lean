import Abacus.Proofs.Bits

/-!
# Tolerance

Two doubles are equal up to a tolerance in one order if they are in the other, and what is no
number is equal to nothing. Whatever is infinite makes both the difference and the scale infinite,
so it is equal to all numbers up to every tolerance but zero.
-/

namespace Abacus.Double
open Float.Model (UnpackedFloat)
open Float.Model.UnpackedFloat (Sign unpack_inj_of_valid pack_unpack_of_valid)

/-! ## What a double stands for -/

/-- The sign, the whole number and the exponent that a double stands for. -/
def parts (x : Float) : UnpackedFloat := x.toModel.unpack

/-- What is left of a number when it is kept in the bits of a double. -/
def stored (u : UnpackedFloat) : UnpackedFloat :=
  .unpack .binary64 (UnpackedFloat.pack .binary64 u)

variable {x y a b t : Float} {u v : UnpackedFloat}

theorem eq_of_parts (h : parts x = parts y) : x = y := by
  have hbits := (unpack_inj_of_valid x.toModel.valid y.toModel.valid).mp h
  exact eq_of_toBits (UInt64.toBitVec_inj.mp hbits)

theorem stored_notANumber : stored .notANumber = .notANumber := rfl

theorem stored_infinity (s : Sign) : stored (.infinity s) = .infinity s := by
  cases s <;> rfl

theorem stored_parts (x : Float) : stored (parts x) = parts x :=
  congrArg (UnpackedFloat.unpack .binary64) (pack_unpack_of_valid x.toModel.valid)

theorem parts_sub (x y : Float) : parts (x - y) = stored (.sub .binary64 (parts x) (parts y)) := rfl

theorem parts_mul (x y : Float) : parts (x * y) = stored (.mul .binary64 (parts x) (parts y)) := rfl

/-! ## Magnitudes -/

theorem abs_unpack_components (s : Sign) (e : BitVec 11) (m : BitVec 52) :
    (UnpackedFloat.unpack .binary64 (components s e m)).abs =
      .unpack .binary64 (components .positive e m) := by
  rw [unpack_components, unpack_components]
  split
  · split <;> rfl
  · split
    · split <;> rfl
    · rfl

/-- The exponent and the fraction that a number is stored with are found without its sign. -/
theorem exists_pack_finite (m : Nat) (e : Int) (hm : 0 < m) : ∃ e' m', ∀ s : Sign,
    UnpackedFloat.pack .binary64 (.finite s m e hm) = components s e' m' := by
  simp only [UnpackedFloat.pack]
  split
  · exact ⟨_, _, fun _ => rfl⟩
  · split <;> exact ⟨_, _, fun _ => rfl⟩

theorem abs_stored (u : UnpackedFloat) : (stored u).abs = stored u.abs := by
  cases u with
  | notANumber => rfl
  | infinity s => exact abs_unpack_components s _ _
  | zero s => exact abs_unpack_components s _ _
  | finite s m e hm =>
    obtain ⟨e', m', hpack⟩ := exists_pack_finite m e hm
    have habs : (UnpackedFloat.finite s m e hm).abs = .finite .positive m e hm := rfl
    rw [habs, stored, stored, hpack, hpack, abs_unpack_components]

theorem parts_abs (x : Float) : parts x.abs = (parts x).abs := by
  show stored (parts x).abs = _
  rw [← abs_stored, stored_parts]

theorem abs_round (s s' : Sign) (m : Nat) (e : Int) :
    (UnpackedFloat.round .binary64 s m e).abs = (UnpackedFloat.round .binary64 s' m e).abs := by
  simp only [UnpackedFloat.round, UnpackedFloat.roundWithAccuracy]
  split <;> rfl

/-- What is opposite is rounded to what is opposite. -/
theorem abs_normalize_neg (m e : Int) (s s' : Sign) :
    (UnpackedFloat.normalize .binary64 (-m) e s).abs =
      (UnpackedFloat.normalize .binary64 m e s').abs := by
  simp only [UnpackedFloat.normalize]
  rcases lt_trichotomy m 0 with hm | rfl | hm
  · have hneg : compare (-m) 0 = .gt := compare_gt_iff_gt.mpr (by omega)
    rw [hneg, compare_lt_iff_lt.mpr hm]
    exact abs_round _ _ _ e
  · rfl
  · have hneg : compare (-m) 0 = .lt := compare_lt_iff_lt.mpr (by omega)
    rw [hneg, compare_gt_iff_gt.mpr hm, Int.neg_neg]
    exact abs_round _ _ _ e

theorem abs_sub_swap (u v : UnpackedFloat) :
    (UnpackedFloat.sub .binary64 u v).abs = (UnpackedFloat.sub .binary64 v u).abs := by
  cases u with
  | notANumber => cases v <;> rfl
  | infinity s =>
    cases v with
    | infinity s' => cases s <;> cases s' <;> rfl
    | notANumber | zero | finite => rfl
  | zero s =>
    cases v with
    | zero s' => cases s <;> cases s' <;> rfl
    | notANumber | infinity | finite => rfl
  | finite s m e hm =>
    cases v with
    | finite s' m' e' hm' =>
      simp only [UnpackedFloat.sub, min_comm e' e]
      rw [← Int.neg_sub, abs_normalize_neg]
    | notANumber | infinity | zero => rfl

/-- The distance of two doubles is the same from both. -/
theorem abs_sub_comm (x y : Float) : (x - y).abs = (y - x).abs := by
  refine eq_of_parts ?_
  rw [parts_abs, parts_abs, parts_sub, parts_sub, abs_stored, abs_stored, abs_sub_swap]

/-! ## Comparisons -/

theorem compare_swap (u v : UnpackedFloat) : v.compare u = (u.compare v).map .swap := by
  cases u with
  | notANumber => cases v <;> rfl
  | infinity s =>
    cases v with
    | infinity s' => cases s <;> cases s' <;> rfl
    | notANumber | zero | finite => cases s <;> rfl
  | zero s =>
    cases v with
    | infinity s' | finite s' => cases s' <;> rfl
    | notANumber | zero => rfl
  | finite s m e hm =>
    cases v with
    | finite s' m' e' hm' =>
      have hswap : ((compare e e').then (compare m m')).swap =
          (compare e' e).then (compare m' m) := by
        rw [Ordering.swap_then, Std.OrientedOrd.eq_swap.symm, Std.OrientedOrd.eq_swap.symm]
      cases s <;> cases s' <;> simp [UnpackedFloat.compare, hswap]
    | notANumber => cases s <;> rfl
    | infinity s' => cases s <;> cases s' <;> rfl
    | zero => cases s <;> rfl

theorem compare_ne_none (hu : u ≠ .notANumber) (hv : v ≠ .notANumber) : u.compare v ≠ none := by
  cases u with
  | notANumber => exact absurd rfl hu
  | infinity s =>
    cases v with
    | notANumber => exact absurd rfl hv
    | infinity | zero | finite => cases s <;> simp [UnpackedFloat.compare]
  | zero s =>
    cases v with
    | notANumber => exact absurd rfl hv
    | infinity s' | finite s' => cases s' <;> simp [UnpackedFloat.compare]
    | zero => simp [UnpackedFloat.compare]
  | finite s m e hm =>
    cases v with
    | notANumber => exact absurd rfl hv
    | infinity s' | finite s' => cases s <;> cases s' <;> simp [UnpackedFloat.compare]
    | zero => cases s <;> simp [UnpackedFloat.compare]

theorem lt_iff : x < y ↔ (parts x).compare (parts y) = some .lt :=
  decide_eq_true_iff.trans beq_iff_eq

theorem le_iff : x ≤ y ↔ ((parts x).compare (parts y)).any (·.isLE) = true := decide_eq_true_iff

theorem beq_iff : x == y ↔ (parts x).compare (parts y) = some .eq := by
  show ((parts x).compare (parts y) == some .eq) = true ↔ _
  exact beq_iff_eq

theorem isNaN_iff : x.isNaN = true ↔ parts x = .notANumber := by
  show (parts x).isNaN = true ↔ _
  cases parts x <;> simp [UnpackedFloat.isNaN]

theorem lt_asymm (h : x < y) : ¬y < x := by
  rw [lt_iff] at h
  rw [lt_iff, compare_swap, h]
  decide

/-- Two numbers of which none is the smaller one are equal. -/
theorem beq_of_not_lt (hx : ¬x.isNaN = true) (hy : ¬y.isNaN = true) (hlt : ¬x < y)
    (hgt : ¬y < x) : x == y := by
  rw [isNaN_iff] at hx hy
  rw [lt_iff] at hlt
  rw [lt_iff, compare_swap] at hgt
  rw [beq_iff]
  cases hcompare : (parts x).compare (parts y) with
  | none => exact absurd hcompare (compare_ne_none hx hy)
  | some o =>
    cases o with
    | lt => exact absurd hcompare hlt
    | eq => rfl
    | gt =>
      rw [hcompare] at hgt
      exact absurd rfl hgt

theorem abs_ne_neg_zero (x : Float) : x.abs ≠ -0 := by
  intro h
  have hparts : (parts x).abs = .zero .negative := (parts_abs x).symm.trans (congrArg parts h)
  cases hx : parts x <;> rw [hx] at hparts <;> cases hparts

/-- Equal magnitudes are the same, as there is one zero among them. -/
theorem abs_eq_of_beq (h : x.abs == y.abs) : x.abs = y.abs := by
  obtain ⟨-, -, heq | ⟨-, hy⟩ | ⟨hx, -⟩⟩ := Float.beq_iff_ne_nan_and_eq.mp h
  · exact heq
  · exact absurd hy (abs_ne_neg_zero y)
  · exact absurd hx (abs_ne_neg_zero x)

theorem larger_abs_comm (x y : Float) : larger x.abs y.abs = larger y.abs x.abs := by
  unfold larger
  split_ifs with hx hy hy hlt hgt hgt
  · exact eq_of_parts ((isNaN_iff.mp hy).trans (isNaN_iff.mp hx).symm)
  · rfl
  · rfl
  · exact absurd hgt (lt_asymm hlt)
  · rfl
  · rfl
  · exact abs_eq_of_beq (beq_of_not_lt hx hy hlt hgt)

/-! ## Tolerance -/

/-- The order of the two makes no difference. -/
theorem approxEqual_comm (a b t : Float) : approxEqual a b t = approxEqual b a t := by
  rw [approxEqual, approxEqual, BEq.comm, abs_sub_comm, larger_abs_comm]

theorem approxEqual_of_isNaN (ha : a.isNaN = true) (b t : Float) :
    approxEqual a b t = false := by
  rw [isNaN_iff] at ha
  have hdistance : parts (a - b).abs = .notANumber := by
    have hsub : UnpackedFloat.sub .binary64 .notANumber (parts b) = .notANumber := by
      cases parts b <;> rfl
    rw [parts_abs, parts_sub, ha, hsub, stored_notANumber]
    rfl
  have hbeq : ¬a == b := by
    rw [beq_iff, ha]
    rintro ⟨⟩
  have hle : ¬(a - b).abs ≤ t * larger (larger a.abs b.abs) 1.0 := by
    rw [le_iff, hdistance]
    rintro ⟨⟩
  simp [approxEqual, hbeq, hle]

/-! ### Infinities -/

theorem parts_infinity (negative : Bool) :
    parts (infinity negative) = .infinity (signOf negative) := by
  cases negative <;> rfl

theorem isInf_iff : x.isInf = true ↔ ∃ negative, x = infinity negative := by
  constructor
  · intro h
    have h : (parts x).isInf = true := h
    cases hx : parts x with
    | infinity s =>
      cases s with
      | negative => exact ⟨true, eq_of_parts (hx.trans (parts_infinity true).symm)⟩
      | positive => exact ⟨false, eq_of_parts (hx.trans (parts_infinity false).symm)⟩
    | notANumber | zero | finite =>
      rw [hx] at h
      cases h
  · rintro ⟨negative, rfl⟩
    cases negative <;> rfl

theorem isNegative_infinity (negative : Bool) : isNegative (infinity negative) = negative := by
  cases negative <;> decide +kernel

theorem abs_infinity (negative : Bool) : (infinity negative).abs = infinity false := by
  cases negative <;> decide +kernel

/-- Nothing is larger than infinity, and what is no number gives way to it. -/
theorem larger_infinity (x : Float) : larger (infinity false) x = infinity false := by
  have hnan : (infinity false).isNaN = false := rfl
  have hlt : ¬infinity false < x := by
    rw [lt_iff, parts_infinity]
    cases parts x with
    | infinity s => cases s <;> decide
    | notANumber | zero | finite => rintro ⟨⟩
  simp only [larger, hnan, if_neg hlt, if_neg Bool.false_ne_true, ite_self]

/-- One of the two is infinite and the other finite, or they are the two infinities. -/
def InfinitelyApart (a b : Float) : Prop :=
  a.isInf = true ∧ b.isFinite = true ∨ a.isFinite = true ∧ b.isInf = true ∨
    a.isInf = true ∧ b.isInf = true ∧ isNegative a ≠ isNegative b

theorem infinity_le_mul_iff (ht : t.isFinite = true) (hpos : 0 ≤ t) :
    infinity false ≤ t * infinity false ↔ 0 < t := by
  have hzero : parts 0 = .zero .positive := rfl
  have ht : (parts t).isFinite = true := ht
  rw [le_iff, hzero] at hpos
  rw [le_iff, lt_iff, parts_mul, parts_infinity, hzero]
  cases h : parts t with
  | notANumber | infinity =>
    rw [h] at ht
    cases ht
  | zero s =>
    have hmul : UnpackedFloat.mul .binary64 (.zero s) (.infinity .positive) = .notANumber := rfl
    rw [signOf, if_neg Bool.false_ne_true, hmul, stored_notANumber]
    exact iff_of_false (by rintro ⟨⟩) (by rintro ⟨⟩)
  | finite s m e hm =>
    cases s with
    | negative =>
      rw [h] at hpos
      cases hpos
    | positive =>
      have hmul : UnpackedFloat.mul .binary64 (.finite .positive m e hm) (.infinity .positive) =
          .infinity .positive := rfl
      rw [signOf, if_neg Bool.false_ne_true, hmul, stored_infinity]
      exact iff_of_true rfl rfl

/-- An infinity stays what it is when anything else but itself is taken from it. -/
theorem infinity_apart {s : Sign} (hu : u.isFinite = true ∨ u = .infinity (-s)) :
    UnpackedFloat.sub .binary64 (.infinity s) u = .infinity s ∧
      (UnpackedFloat.infinity s).compare u ≠ some .eq := by
  rcases hu with hu | rfl
  · cases u with
    | notANumber | infinity => cases hu
    | zero | finite => exact ⟨rfl, by cases s <;> rintro ⟨⟩⟩
  · cases s <;> exact ⟨rfl, by rintro ⟨⟩⟩

/-- Both the distance and the scale are infinite. -/
theorem approxEqual_infinity_iff {negative : Bool}
    (hb : b.isFinite = true ∨ b = infinity (!negative)) (ht : t.isFinite = true) (hpos : 0 ≤ t) :
    approxEqual (infinity negative) b t = true ↔ 0 < t := by
  have hparts : (parts b).isFinite = true ∨ parts b = .infinity (-signOf negative) := by
    refine hb.imp_right ?_
    rintro rfl
    cases negative <;> rfl
  obtain ⟨hsub, hcompare⟩ := infinity_apart hparts
  have hbeq : ¬infinity negative == b := by
    rwa [beq_iff, parts_infinity]
  have hdistance : (infinity negative - b).abs = infinity false := by
    refine eq_of_parts ?_
    rw [parts_abs, parts_sub, parts_infinity, parts_infinity, hsub, stored_infinity]
    rfl
  rw [approxEqual, hdistance, abs_infinity, larger_infinity, larger_infinity, Bool.or_eq_true,
    or_iff_right hbeq, decide_eq_true_eq]
  exact infinity_le_mul_iff ht hpos

/-- In either order two doubles are equal up to a tolerance or not. What is no number is equal to
nothing, and what is infinitely far apart is equal up to every tolerance but zero. -/
theorem approxEqual_apart_iff (a b t : Float) (ht : t.isFinite = true) (hpos : 0 ≤ t) :
    approxEqual a b t = approxEqual b a t ∧
    (a.isNaN = true ∨ b.isNaN = true → approxEqual a b t = false) ∧
    (InfinitelyApart a b → (approxEqual a b t = true ↔ 0 < t)) := by
  refine ⟨approxEqual_comm a b t, ?_, ?_⟩
  · rintro (ha | hb)
    · exact approxEqual_of_isNaN ha b t
    · rw [approxEqual_comm]
      exact approxEqual_of_isNaN hb a t
  · rintro (⟨ha, hb⟩ | ⟨ha, hb⟩ | ⟨ha, hb, hne⟩)
    · obtain ⟨negative, rfl⟩ := isInf_iff.mp ha
      exact approxEqual_infinity_iff (.inl hb) ht hpos
    · obtain ⟨negative, rfl⟩ := isInf_iff.mp hb
      rw [approxEqual_comm]
      exact approxEqual_infinity_iff (.inl ha) ht hpos
    · obtain ⟨negative, rfl⟩ := isInf_iff.mp ha
      obtain ⟨negative', rfl⟩ := isInf_iff.mp hb
      rw [isNegative_infinity, isNegative_infinity] at hne
      rw [Bool.eq_not_of_ne hne.symm]
      exact approxEqual_infinity_iff (.inr rfl) ht hpos

theorem approxEqual_apart_iff_infinities : (0.5 : Float).isFinite = true ∧ (0 : Float) ≤ 0.5 ∧
    InfinitelyApart (infinity false) (infinity true) ∧
    approxEqual (infinity false) (infinity true) 0.5 = true ∧
    (0 : Float).isFinite = true ∧ (0 : Float) ≤ 0 ∧ InfinitelyApart 1 (infinity true) ∧
    approxEqual 1 (infinity true) 0 = false ∧
    nan.isNaN = true ∧ approxEqual (infinity true) nan 0.5 = false := by
  have ht : (0.5 : Float).isFinite = true := by decide +kernel
  have hpos : (0 : Float) ≤ 0.5 := by decide +kernel
  have hlt : (0 : Float) < 0.5 := by decide +kernel
  have hinfinities : InfinitelyApart (infinity false) (infinity true) := by
    unfold InfinitelyApart
    decide +kernel
  have hone : InfinitelyApart 1 (infinity true) := by
    unfold InfinitelyApart
    decide +kernel
  have hnan : nan.isNaN = true := by decide +kernel
  have hzero : (0 : Float).isFinite = true ∧ (0 : Float) ≤ 0 ∧ ¬(0 : Float) < 0 := by
    decide +kernel
  refine ⟨ht, hpos, hinfinities, ?_, hzero.1, hzero.2.1, hone, ?_, hnan, ?_⟩
  · exact ((approxEqual_apart_iff _ _ _ ht hpos).2.2 hinfinities).mpr hlt
  · exact Bool.eq_false_iff.mpr
      (mt ((approxEqual_apart_iff _ _ _ hzero.1 hzero.2.1).2.2 hone).mp hzero.2.2)
  · exact (approxEqual_apart_iff _ _ _ ht hpos).2.1 (.inr hnan)

/-- A result that has overflowed is equal to one. -/
theorem approxEqual_infinity_one : (1e-12 : Float).isFinite = true ∧ (0 : Float) ≤ 1e-12 ∧
    (infinity false).isInf = true ∧ (1 : Float).isFinite = true ∧
    approxEqual (infinity false) 1 1e-12 = true := by
  decide +kernel

end Abacus.Double
