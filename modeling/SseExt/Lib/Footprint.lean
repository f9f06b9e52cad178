import Mathlib.Data.Set.Basic

/-!
# Programs that lie in memory

A program is run by a function `step` that looks at the memory: from a point it goes to the next
one, and something may happen on the way.

**Footprints.** `ReadsOnly F f m` says that what `f` makes of the memory `m` depends on the
addresses in `F` alone. `Runs F m p es q` is a run from `p` to `q` in which the events `es` happen
and all that is looked at lies in `F`. It is the same run in every memory that agrees with `m` on
`F` (`Runs.congr`).
-/

namespace SseExt

variable {A V P E β : Type*} {F G : Set A} {m m' : A → V}

/-- The two memories are the same on `F`. -/
def AgreeOn (F : Set A) (m m' : A → V) : Prop := ∀ x ∈ F, m' x = m x

theorem AgreeOn.mono (h : AgreeOn G m m') (hFG : F ⊆ G) : AgreeOn F m m' := fun x hx => h x (hFG hx)

/-- What `f` makes of `m` depends on `F` alone. -/
def ReadsOnly (F : Set A) (f : (A → V) → β) (m : A → V) : Prop :=
  ∀ m', AgreeOn F m m' → f m' = f m

namespace ReadsOnly

variable {f : (A → V) → β}

theorem mono (h : ReadsOnly F f m) (hFG : F ⊆ G) : ReadsOnly G f m :=
  fun m' hm => h m' (hm.mono hFG)

theorem congr (h : ReadsOnly F f m) (hm : AgreeOn F m m') : ReadsOnly F f m' := by
  intro m'' hm'
  rw [h m' hm]
  exact h m'' fun x hx => (hm' x hx).trans (hm x hx)

/-- What is known wherever `f` gives `x` reads no more than `f`. -/
theorem of_eq {γ : Type*} {g : (A → V) → γ} {x : β} {y : γ} (h : ReadsOnly F f m) (hx : f m = x)
    (hg : ∀ m, f m = x → g m = y) : ReadsOnly F g m := by
  intro m' hm
  rw [hg m hx]
  exact hg m' ((h m' hm).trans hx)

end ReadsOnly

/-- A run from one point to another, the events on the way, and all that it looks at in `F`. -/
inductive Runs (step : (A → V) → P → Option (Option E × P)) (F : Set A) (m : A → V) :
    P → List E → P → Prop
  | done (p : P) : Runs step F m p [] p
  | move {p q r : P} {e : Option E} {es : List E} : step m p = some (e, q) →
      ReadsOnly F (step · p) m → Runs step F m q es r → Runs step F m p (e.toList ++ es) r

namespace Runs

variable {step : (A → V) → P → Option (Option E × P)} {p q r : P} {es es' : List E}

theorem single {e : Option E} (h : step m p = some (e, q)) (hF : ReadsOnly F (step · p) m) :
    Runs step F m p e.toList q := by
  have hrun := Runs.move h hF (.done q)
  rwa [List.append_nil] at hrun

theorem trans (h : Runs step F m p es q) (h' : Runs step F m q es' r) :
    Runs step F m p (es ++ es') r := by
  induction h with
  | done p => exact h'
  | move hstep hF _ ih =>
    rw [List.append_assoc]
    exact .move hstep hF (ih h')

theorem mono (h : Runs step F m p es q) (hFG : F ⊆ G) : Runs step G m p es q := by
  induction h with
  | done p => exact .done p
  | move hstep hF _ ih => exact .move hstep (hF.mono hFG) ih

/-- **A run depends on its footprint alone.** -/
theorem congr (h : Runs step F m p es q) (hm : AgreeOn F m m') : Runs step F m' p es q := by
  induction h with
  | done p => exact .done p
  | move hstep hF _ ih => exact .move ((hF m' hm).trans hstep) (hF.congr hm) ih

end Runs

end SseExt
