import Mathlib.Tactic.Common

/-!
# Postconditions for `Except`

`Ends E P x`: the computation `x` returns a value in `P` or throws an error in `E`. With
`E = fun _ => False` it is total correctness. `Ends.bind` is the rule of sequential composition,
`Ends.foldlM` the rule of loops.
-/

namespace SseExt

universe u

variable {ε : Type*} {α β : Type u}

/-- `x` returns a value in `P` or throws an error in `E`. -/
def Ends (E : ε → Prop) (P : α → Prop) : Except ε α → Prop
  | .ok a => P a
  | .error e => E e

variable {E : ε → Prop} {P Q : α → Prop} {R : β → Prop}

@[simp] theorem ends_ok {a : α} : Ends E P (.ok a) ↔ P a := Iff.rfl

@[simp] theorem ends_error {e : ε} : Ends E P (.error e) ↔ E e := Iff.rfl

@[simp] theorem ends_pure {a : α} : Ends E P (pure a) ↔ P a := Iff.rfl

@[simp] theorem ends_throw {e : ε} : Ends E P (throw e) ↔ E e := Iff.rfl

theorem Ends.mono {x : Except ε α} (h : Ends E P x) (hPQ : ∀ a, P a → Q a) : Ends E Q x := by
  cases x with
  | ok a => exact hPQ a h
  | error e => exact h

theorem Ends.imp {E' : ε → Prop} {x : Except ε α} (h : Ends E P x) (hE : ∀ e, E e → E' e) :
    Ends E' P x := by
  cases x with
  | ok a => exact h
  | error e => exact hE e h

/-- **Sequential composition.** -/
theorem Ends.bind {x : Except ε α} {f : α → Except ε β} (hx : Ends E P x)
    (hf : ∀ a, P a → Ends E R (f a)) : Ends E R (x >>= f) := by
  cases x with
  | ok a => exact hf a hx
  | error e => exact hx

/-- A composition that returns has returned from both parts. -/
theorem exists_of_bind_eq_ok {x : Except ε α} {f : α → Except ε β} {b : β}
    (h : x >>= f = .ok b) : ∃ a, x = .ok a ∧ f a = .ok b := by
  cases x with
  | ok a => exact ⟨a, rfl, h⟩
  | error e => cases h

/-- **Loops** keep what each round keeps. -/
theorem Ends.foldlM {γ : Type*} {f : α → γ → Except ε α} (h : ∀ a c, P a → Ends E P (f a c))
    {a : α} (ha : P a) (l : List γ) : Ends E P (l.foldlM f a) := by
  induction l generalizing a with
  | nil => exact ha
  | cons c l ih => exact (h a c ha).bind fun b hb => ih hb

end SseExt
