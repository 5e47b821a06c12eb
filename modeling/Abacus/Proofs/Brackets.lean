import Abacus.Proofs.Lexeme
import Mathlib.Data.List.Infix

/-!
# The closing bracket

The search for the bracket that closes a group counts brackets and does nothing else. What it finds
is the one bracket behind contents that close as much as they open and never close more; and it finds
nothing exactly if nothing ever closes more than it opens.
-/

namespace Abacus

section
variable {α : Type} [DecidableEq α] {opening closing : α} {nested : Nat} {text inside after : List α}

/-- Nothing is closed in the text but what was open in front of it and what is opened in it. -/
def ClosesOpen (opening closing : α) (nested : Nat) (text : List α) : Prop :=
  ∀ front, front <+: text → front.count closing ≤ front.count opening + nested

/-- What was open in front of the text is closed at its end, and no part at its front closes
more. -/
structure Shuts (opening closing : α) (nested : Nat) (text : List α) : Prop where
  total : text.count closing = text.count opening + nested
  closesOpen : ClosesOpen opening closing nested text

theorem closesOpen_nil : ClosesOpen opening closing nested [] :=
  fun front hf => by simp [List.prefix_nil.mp hf]

private theorem count_cons_add (x y : α) (text : List α) :
    (x :: text).count y = [x].count y + text.count y :=
  (List.count_append : ([x] ++ text).count y = _)

section cons
variable {nested' : Nat} {x : α}

/-! An element in front counts for as much as it opens or closes itself. -/

theorem closesOpen_cons_iff (hx : [x].count closing + nested' = [x].count opening + nested) :
    ClosesOpen opening closing nested (x :: text) ↔ ClosesOpen opening closing nested' text := by
  constructor
  · intro h front hf
    have := h (x :: front) (List.cons_prefix_cons.mpr ⟨rfl, hf⟩)
    rw [count_cons_add x opening, count_cons_add x closing] at this
    omega
  · intro h front hf
    cases front with
    | nil => simp
    | cons y front =>
      obtain ⟨rfl, hfront⟩ := List.cons_prefix_cons.mp hf
      have := h front hfront
      rw [count_cons_add y opening, count_cons_add y closing]
      omega

theorem shuts_cons_iff (hx : [x].count closing + nested' = [x].count opening + nested) :
    Shuts opening closing nested (x :: text) ↔ Shuts opening closing nested' text := by
  have htotal : (x :: text).count closing = (x :: text).count opening + nested ↔
      text.count closing = text.count opening + nested' := by
    rw [count_cons_add x opening, count_cons_add x closing]
    omega
  constructor
  · exact fun h => ⟨htotal.mp h.total, (closesOpen_cons_iff hx).mp h.closesOpen⟩
  · exact fun h => ⟨htotal.mpr h.total, (closesOpen_cons_iff hx).mpr h.closesOpen⟩

end cons

/-- A group is closed where its contents have closed one more than they have opened. -/
theorem shuts_of_splitClose (hne : opening ≠ closing)
    (h : splitClose opening closing nested text = some (inside, after)) :
    Shuts opening closing nested inside := by
  induction text generalizing nested inside with
  | nil => cases h
  | cons x text ih =>
    by_cases hclose : x = closing
    · subst hclose
      cases nested with
      | zero =>
        rw [splitClose_closing] at h
        cases h
        exact ⟨rfl, closesOpen_nil⟩
      | succ nested =>
        rw [splitClose_closing_succ] at h
        obtain ⟨p, hp, he⟩ := Option.map_eq_some_iff.mp h
        cases he
        exact (shuts_cons_iff (by simp [hne.symm]; omega)).mpr (ih hp)
    · by_cases hopen : x = opening
      · subst hopen
        rw [splitClose_opening hne] at h
        obtain ⟨p, hp, he⟩ := Option.map_eq_some_iff.mp h
        cases he
        exact (shuts_cons_iff (by simp [hne]; omega)).mpr (ih hp)
      · rw [splitClose_cons hopen hclose] at h
        obtain ⟨p, hp, he⟩ := Option.map_eq_some_iff.mp h
        cases he
        exact (shuts_cons_iff (by simp [hopen, hclose])).mpr (ih hp)

/-- Contents that close what they open are the contents of the group. -/
theorem Shuts.splitClose_eq (hne : opening ≠ closing) (h : Shuts opening closing nested inside)
    (after : List α) :
    splitClose opening closing nested (inside ++ closing :: after) = some (inside, after) := by
  induction inside generalizing nested with
  | nil =>
    obtain rfl : nested = 0 := by simpa using h.total.symm
    exact splitClose_closing
  | cons x inside ih =>
    rw [List.cons_append]
    by_cases hclose : x = closing
    · subst hclose
      obtain ⟨n, rfl⟩ : ∃ n, nested = n + 1 := by
        have hle : 1 ≤ nested := by
          simpa [hne.symm] using
            h.closesOpen [x] (List.cons_prefix_cons.mpr ⟨rfl, List.nil_prefix⟩)
        exact Nat.exists_eq_add_one.mpr hle
      rw [splitClose_closing_succ, ih ((shuts_cons_iff (by simp [hne.symm]; omega)).mp h),
        Option.map_some]
    · by_cases hopen : x = opening
      · subst hopen
        rw [splitClose_opening hne, ih ((shuts_cons_iff (by simp [hne]; omega)).mp h),
          Option.map_some]
      · rw [splitClose_cons hopen hclose, ih ((shuts_cons_iff (by simp [hopen, hclose])).mp h),
          Option.map_some]

theorem splitClose_eq_some_iff (hne : opening ≠ closing) :
    splitClose opening closing nested text = some (inside, after) ↔
      text = inside ++ closing :: after ∧ Shuts opening closing nested inside := by
  constructor
  · exact fun h => ⟨splitClose_append h, shuts_of_splitClose hne h⟩
  · rintro ⟨rfl, h⟩
    exact h.splitClose_eq hne after

/-- With one more bracket more is closed than was open. -/
theorem Shuts.not_closesOpen (hne : opening ≠ closing) (h : Shuts opening closing nested inside)
    (after : List α) : ¬ClosesOpen opening closing nested (inside ++ closing :: after) := by
  intro hopen
  have hfront := hopen (inside ++ [closing]) (by simp)
  have htotal := h.total
  rw [List.count_append, List.count_append, List.count_singleton_self, List.count_singleton,
    if_neg (by simpa using hne.symm)] at hfront
  omega

/-- A group stays open as long as nothing is closed but what is open inside it. -/
theorem splitClose_eq_none_iff_closesOpen (hne : opening ≠ closing) :
    splitClose opening closing nested text = none ↔ ClosesOpen opening closing nested text := by
  constructor
  · intro h
    induction text generalizing nested with
    | nil => exact closesOpen_nil
    | cons x text ih =>
      by_cases hclose : x = closing
      · subst hclose
        cases nested with
        | zero =>
          rw [splitClose_closing] at h
          cases h
        | succ nested =>
          rw [splitClose_closing_succ, Option.map_eq_none_iff] at h
          exact (closesOpen_cons_iff (by simp [hne.symm]; omega)).mpr (ih h)
      · by_cases hopen : x = opening
        · subst hopen
          rw [splitClose_opening hne, Option.map_eq_none_iff] at h
          exact (closesOpen_cons_iff (by simp [hne]; omega)).mpr (ih h)
        · rw [splitClose_cons hopen hclose, Option.map_eq_none_iff] at h
          exact (closesOpen_cons_iff (by simp [hopen, hclose])).mpr (ih h)
  · intro h
    refine Option.eq_none_iff_forall_ne_some.mpr fun ⟨inside, after⟩ hsome => ?_
    obtain ⟨rfl, hinside⟩ := (splitClose_eq_some_iff hne).mp hsome
    exact hinside.not_closesOpen hne after h

end

end Abacus
