import Mathlib.Tactic.Common

/-!
# Refinement of step functions

A step function takes an operation to the next state and a result, or rejects it. `Simulates R f g`
says that from related states `f` and `g` reject together, and otherwise give equal results and
related states. `Simulates.run` carries this to sequences of operations.
-/

namespace SseExt

variable {σ τ ω ρ : Type*}

/-- Run a sequence of operations and collect the results; `none` when one is rejected. -/
def runOps (step : σ → ω → Option (σ × ρ)) : σ → List ω → Option (σ × List ρ)
  | s, [] => some (s, [])
  | s, op :: ops =>
    match step s op with
    | none => none
    | some (s', r) => (runOps step s' ops).map fun x => (x.1, r :: x.2)

/-- Related states step to related states, with equal results. -/
def Simulates (R : σ → τ → Prop) (f : σ → ω → Option (σ × ρ)) (g : τ → ω → Option (τ × ρ)) : Prop :=
  ∀ s t op, R s t → Option.Rel (fun x y => R x.1 y.1 ∧ x.2 = y.2) (f s op) (g t op)

variable {R : σ → τ → Prop} {f : σ → ω → Option (σ × ρ)} {g : τ → ω → Option (τ × ρ)} {s : σ}
  {t : τ}

/-- **Simulation carries over to runs.** -/
theorem Simulates.run (h : Simulates R f g) (hst : R s t) (ops : List ω) :
    Option.Rel (fun x y => R x.1 y.1 ∧ x.2 = y.2) (runOps f s ops) (runOps g t ops) := by
  induction ops generalizing s t with
  | nil => exact .some ⟨hst, rfl⟩
  | cons op ops ih =>
    have hop := h s t op hst
    unfold runOps
    generalize f s op = a at hop ⊢
    generalize g t op = b at hop ⊢
    cases hop with
    | none => exact .none
    | @some x y hxy =>
      obtain ⟨s', r⟩ := x
      obtain ⟨t', r'⟩ := y
      obtain ⟨hst', rfl : r = r'⟩ := hxy
      have hops := ih hst'
      dsimp only
      generalize runOps f s' ops = a at hops ⊢
      generalize runOps g t' ops = b at hops ⊢
      cases hops with
      | none => exact .none
      | some hx => exact .some ⟨hx.1, congrArg (r :: ·) hx.2⟩

/-- A relation on optional states that implies another. -/
theorem relMono {α β : Type*} {P Q : α → β → Prop} (hPQ : ∀ {a b}, P a b → Q a b) {x : Option α}
    {y : Option β} (h : Option.Rel P x y) : Option.Rel Q x y := by
  cases h with
  | none => exact .none
  | some h => exact .some (hPQ h)

end SseExt
