import Abacus.Error
import Abacus.Token

/-!
# Outcomes

What a computation that may fail comes to, taken apart at its binds. Two computations can be
followed side by side until one is stopped. Outcomes can be compared, so that closed ones are found
by evaluation, and they can be compared up to the places of errors.
-/

namespace Abacus

variable {ε ε' α β : Type}

instance decidableEqOutcome [DecidableEq ε] [DecidableEq α] : DecidableEq (Except ε α)
  | .ok a, .ok b => decidable_of_iff (a = b) (by simp)
  | .error e, .error e' => decidable_of_iff (e = e') (by simp)
  | .ok _, .error _ | .error _, .ok _ => isFalse (by simp)

/-- A value comes of a value. -/
theorem exists_of_bind_eq_ok {x : Except ε α} {f : α → Except ε β} {b : β}
    (h : x >>= f = .ok b) : ∃ a, x = .ok a ∧ f a = .ok b := by
  cases x with
  | error e => cases h
  | ok a => exact ⟨a, rfl, h⟩

/-- An error comes of the first part, or of what goes on from its value. -/
theorem error_of_bind_eq_error {x : Except ε α} {f : α → Except ε β} {e : ε}
    (h : x >>= f = .error e) : x = .error e ∨ ∃ a, x = .ok a ∧ f a = .error e := by
  cases x with
  | error e' =>
    cases h
    exact .inl rfl
  | ok a => exact .inr ⟨a, rfl, h⟩

theorem eq_ok_of_mapError {f : ε → ε'} {x : Except ε α} {a : α} (h : x.mapError f = .ok a) :
    x = .ok a := by
  cases x with
  | error e => cases h
  | ok b =>
    cases h
    rfl

theorem exists_of_mapError_eq_error {f : ε → ε'} {x : Except ε α} {e' : ε'}
    (h : x.mapError f = .error e') : ∃ e, x = .error e ∧ f e = e' := by
  cases x with
  | error e => exact ⟨e, rfl, Except.error.inj h⟩
  | ok a => cases h

theorem mapError_bind {f : ε → ε'} {x : Except ε α} {g : α → Except ε β} :
    (x >>= g).mapError f = x.mapError f >>= fun a => (g a).mapError f := by
  cases x <;> rfl

/-! ## Two runs -/

section runs
variable {γ δ : Type} {stops stops' : ε → Prop} {causes : ε → ε → Prop}
  {results : α → β → Prop} {next : γ → δ → Prop}

/-- Two runs side by side come to results that are alike or to causes that are alike, unless one
of them is stopped. -/
inductive SideBySide (stops stops' : ε → Prop) (causes : ε → ε → Prop) (results : α → β → Prop) :
    Except ε α → Except ε β → Prop
  | ok {a : α} {b : β} : results a b → SideBySide stops stops' causes results (.ok a) (.ok b)
  | error {e e' : ε} : causes e e' →
      SideBySide stops stops' causes results (.error e) (.error e')
  | left {e : ε} (y : Except ε β) : stops e →
      SideBySide stops stops' causes results (.error e) y
  | right {e : ε} (x : Except ε α) : stops' e →
      SideBySide stops stops' causes results x (.error e)

theorem SideBySide.mono {x : Except ε α} {y : Except ε β}
    (h : SideBySide stops stops' causes results x y) {results' : α → β → Prop}
    (hr : ∀ a b, results a b → results' a b) : SideBySide stops stops' causes results' x y := by
  cases h with
  | ok hab => exact .ok (hr _ _ hab)
  | error he => exact .error he
  | left _ he => exact .left _ he
  | right _ he => exact .right _ he

theorem SideBySide.mono_causes {x : Except ε α} {y : Except ε β}
    (h : SideBySide stops stops' causes results x y) {causes' : ε → ε → Prop}
    (hc : ∀ e e', causes e e' → causes' e e') : SideBySide stops stops' causes' results x y := by
  cases h with
  | ok hab => exact .ok hab
  | error he => exact .error (hc _ _ he)
  | left _ he => exact .left _ he
  | right _ he => exact .right _ he

theorem SideBySide.bind_of_ok {x : Except ε α} {y : Except ε β} {f : α → Except ε γ}
    {g : β → Except ε δ} (h : SideBySide stops stops' causes results x y)
    (hf : ∀ a b, x = .ok a → y = .ok b → results a b →
      SideBySide stops stops' causes next (f a) (g b)) :
    SideBySide stops stops' causes next (x >>= f) (y >>= g) := by
  cases h with
  | ok hab => exact hf _ _ rfl rfl hab
  | error he => exact .error he
  | left _ he => exact .left _ he
  | right _ he => exact .right _ he

theorem SideBySide.bind {x : Except ε α} {y : Except ε β} {f : α → Except ε γ}
    {g : β → Except ε δ} (h : SideBySide stops stops' causes results x y)
    (hf : ∀ a b, results a b → SideBySide stops stops' causes next (f a) (g b)) :
    SideBySide stops stops' causes next (x >>= f) (y >>= g) :=
  h.bind_of_ok fun a b _ _ => hf a b

theorem SideBySide.map {x : Except ε α} {y : Except ε β} {f : α → γ} {g : β → δ}
    (h : SideBySide stops stops' causes results x y)
    (hf : ∀ a b, results a b → next (f a) (g b)) :
    SideBySide stops stops' causes next (f <$> x) (g <$> y) := by
  cases h with
  | ok hab => exact .ok (hf _ _ hab)
  | error he => exact .error he
  | left _ he => exact .left _ he
  | right _ he => exact .right _ he

theorem SideBySide.mapError {f : ε → ε'} {stops₁ stops₁' : ε' → Prop} {causes₁ : ε' → ε' → Prop}
    {x : Except ε α} {y : Except ε β} (h : SideBySide stops stops' causes results x y)
    (hs : ∀ e, stops e → stops₁ (f e)) (hs' : ∀ e, stops' e → stops₁' (f e))
    (hc : ∀ e e', causes e e' → causes₁ (f e) (f e')) :
    SideBySide stops₁ stops₁' causes₁ results (x.mapError f) (y.mapError f) := by
  cases h with
  | ok hab => exact .ok hab
  | error he => exact .error (hc _ _ he)
  | left _ he => exact .left _ (hs _ he)
  | right _ he => exact .right _ (hs' _ he)

end runs

/-- Runs to the same values, and to errors of which one comes of the other. -/
theorem sideBySide_mapError_iff {f : ε → ε} {x y : Except ε α} :
    SideBySide (fun _ => False) (fun _ => False) (fun e e' => e' = f e) Eq x y ↔
      y = x.mapError f := by
  constructor
  · intro h
    cases h with
    | ok hab =>
      rw [hab]
      rfl
    | error he =>
      rw [he]
      rfl
    | left _ he | right _ he => exact he.elim
  · rintro rfl
    cases x with
    | error e => exact .error rfl
    | ok a => exact .ok rfl

/-! ## Runs that agree -/

/-- Two runs come to the same value or error, unless the first is stopped. -/
abbrev AgreeUnless (stops : ε → Prop) : Except ε α → Except ε α → Prop :=
  SideBySide stops (fun _ => False) Eq Eq

namespace AgreeUnless
variable {stops : ε → Prop} {x y : Except ε α}

theorem refl (x : Except ε α) : AgreeUnless stops x x := by
  cases x with
  | error e => exact .error rfl
  | ok a => exact .ok rfl

theorem bind {f g : α → Except ε β} (h : AgreeUnless stops x y)
    (hf : ∀ a, x = .ok a → AgreeUnless stops (f a) (g a)) :
    AgreeUnless stops (x >>= f) (y >>= g) :=
  h.bind_of_ok fun a _ ha _ hab => hab ▸ hf a ha

theorem mapError {f : ε → ε'} {stops' : ε' → Prop} (h : AgreeUnless (fun e => stops' (f e)) x y) :
    AgreeUnless stops' (x.mapError f) (y.mapError f) :=
  SideBySide.mapError h (fun _ he => he) (fun _ he => he) fun _ _ he => congrArg f he

theorem of_eq (h : x = y) : AgreeUnless stops x y := h ▸ refl x

/-- A run that is not stopped decides the other. -/
theorem eq (h : AgreeUnless stops x y) (hx : ∀ e, x = .error e → ¬stops e) : x = y := by
  cases h with
  | ok hab => rw [hab]
  | error he => rw [he]
  | left _ he => exact absurd he (hx _ rfl)
  | right _ he => exact he.elim

theorem eq_of_unstopped (h : AgreeUnless (fun _ => False) x y) : x = y := h.eq fun _ _ => id

end AgreeUnless

/-! ## Errors without their place -/

/-- The cause without the offset of the offending place. -/
def ReadError.unplaced : ReadError → ReadError
  | .illegalText _ => .illegalText 0
  | .malformedNumber literal _ => .malformedNumber literal 0
  | .unclosedGroup _ => .unclosedGroup 0
  | .emptyGroup _ => .emptyGroup 0
  | .stalledRule _ => .stalledRule 0
  | cause => cause

def Failure.unplaced : Failure → Failure
  | .read cause => .read cause.unplaced
  | .eval cause => .eval cause

/-- The same value, or the same error but for the offset of its place. -/
def SameOutcome (x y : Except Failure α) : Prop :=
  x.mapError Failure.unplaced = y.mapError Failure.unplaced

namespace SameOutcome

theorem refl (x : Except Failure α) : SameOutcome x x := rfl

theorem symm {x y : Except Failure α} (h : SameOutcome x y) : SameOutcome y x := Eq.symm h

theorem of_unplaced {cause cause' : ReadError} (h : cause.unplaced = cause'.unplaced) :
    SameOutcome (.error (.read cause) : Except Failure α) (.error (.read cause')) := by
  show (Except.error (.read cause.unplaced) : Except Failure α) = .error (.read cause'.unplaced)
  rw [h]

/-- What goes on alike from the same outcomes comes to the same. -/
theorem bind {x y : Except Failure α} {f g : α → Except Failure β} (h : SameOutcome x y)
    (hfg : ∀ a, SameOutcome (f a) (g a)) : SameOutcome (x >>= f) (y >>= g) := by
  cases x with
  | error e =>
    cases y with
    | error e' => exact congrArg Except.error (Except.error.inj h)
    | ok b => cases h
  | ok a =>
    cases y with
    | error e => cases h
    | ok b =>
      obtain rfl := Except.ok.inj h
      exact hfg a

end SameOutcome

namespace Token

mutual

def decEq : (a b : Token) → Decidable (a = b)
  | operand x, operand y => decidable_of_iff (x = y) (by simp)
  | operator s, operator t => decidable_of_iff (s = t) (by simp)
  | group as, group bs =>
    match decEqList as bs with
    | isTrue h => isTrue (by rw [h])
    | isFalse h => isFalse (by simpa using h)
  | operand _, operator _ | operand _, group _ | operator _, operand _ | operator _, group _
  | group _, operand _ | group _, operator _ => isFalse (by simp)

def decEqList : (as bs : List Token) → Decidable (as = bs)
  | [], [] => isTrue rfl
  | [], _ :: _ | _ :: _, [] => isFalse (by simp)
  | a :: as, b :: bs =>
    match decEq a b, decEqList as bs with
    | isTrue h, isTrue h' => isTrue (by rw [h, h'])
    | isFalse h, _ => isFalse (by simp [h])
    | _, isFalse h => isFalse (by simp [h])

end

instance : DecidableEq Token := decEq

end Token

end Abacus
