import Mathlib.Tactic.Common

/-!
# Step machines

A machine takes one labelled step at a time. A step may be unavailable (`blocked`), may go wrong
(`fault`), or lead to a next state. Runs are sequences of labels, so a concurrent program is one
machine whose labels say which thread moves.

`ReachIf P` collects the states of the runs all of whose steps meet `P`. `ReachIf.preserved` is
the one induction over runs that the developments on top of this file use; `ReachIf.invariant` is
its form for machines that never fault.
-/

namespace SseExt

/-- What one step of a machine does. -/
inductive Outcome (σ ε : Type*) where
  | blocked
  | fault (e : ε)
  | step (s : σ)

/-- A step that is available does not go wrong and leads to a state in `P`. -/
def Outcome.Ensures {σ ε : Type*} (P : σ → Prop) : Outcome σ ε → Prop
  | .blocked => True
  | .fault _ => False
  | .step s => P s

/-- A step that is available and does not go wrong leads to a state in `P`. -/
def Outcome.Leads {σ ε : Type*} (P : σ → Prop) : Outcome σ ε → Prop
  | .step s => P s
  | _ => True

/-- The outcome in terms of other states. -/
def Outcome.map {σ τ ε : Type*} (f : σ → τ) : Outcome σ ε → Outcome τ ε
  | .blocked => .blocked
  | .fault e => .fault e
  | .step s => .step (f s)

theorem Outcome.map_ite {σ τ ε : Type*} (f : σ → τ) (c : Prop) [Decidable c]
    (x y : Outcome σ ε) :
    (if c then x else y).map f = if c then x.map f else y.map f :=
  apply_ite (Outcome.map f) c x y

theorem Outcome.step_ne_blocked {σ ε : Type*} (s : σ) : (.step s : Outcome σ ε) ≠ .blocked := nofun

theorem Outcome.fault_ne_blocked {σ ε : Type*} (e : ε) : (.fault e : Outcome σ ε) ≠ .blocked :=
  nofun

namespace Outcome.Leads

variable {σ ε : Type*} {P Q : σ → Prop} {x : Outcome σ ε}

@[simp] theorem blocked : (.blocked : Outcome σ ε).Leads P := trivial

@[simp] theorem fault (e : ε) : (.fault e : Outcome σ ε).Leads P := trivial

theorem mono_step (h : x.Leads P) (hPQ : ∀ s, x = .step s → P s → Q s) : x.Leads Q := by
  cases x with
  | blocked => trivial
  | fault e => trivial
  | step s => exact hPQ s rfl h

theorem mono (h : x.Leads P) (hPQ : ∀ s, P s → Q s) : x.Leads Q :=
  h.mono_step fun s _ => hPQ s

theorem and (hP : x.Leads P) (hQ : x.Leads Q) : x.Leads fun s => P s ∧ Q s := by
  cases x with
  | blocked => trivial
  | fault e => trivial
  | step s => exact ⟨hP, hQ⟩

/-- A step that is available only under `c`. -/
theorem guard {c : Prop} [Decidable c] (h : c → x.Leads P) :
    (if c then x else .blocked).Leads P := by
  split_ifs with hc
  · exact h hc
  · trivial

end Outcome.Leads

namespace Outcome.Ensures

variable {σ ε : Type*} {P Q : σ → Prop} {x : Outcome σ ε}

theorem ne_fault (h : x.Ensures P) (e : ε) : x ≠ .fault e := by
  rintro rfl
  exact h

theorem leads (h : x.Ensures P) : x.Leads P := by
  cases x with
  | blocked => trivial
  | fault e => trivial
  | step s => exact h

theorem mono (h : x.Ensures P) (hPQ : ∀ s, P s → Q s) : x.Ensures Q := by
  cases x with
  | blocked => trivial
  | fault e => exact h
  | step s => exact hPQ s h

/-- A step that is available only under `c`. -/
theorem guard {c : Prop} [Decidable c] (h : c → x.Ensures P) :
    (if c then x else .blocked).Ensures P := by
  split_ifs with hc
  · exact h hc
  · trivial

end Outcome.Ensures

/-- A machine with states `σ`, labels `α` and faults `ε`. -/
structure Machine (σ α ε : Type*) where
  init : σ
  next : σ → α → Outcome σ ε

namespace Machine

variable {σ α ε : Type*} (M : Machine σ α ε)

/-- The states reached by runs whose steps all meet `P`. -/
inductive ReachIf (P : σ → α → Prop) : σ → Prop
  | init : ReachIf P M.init
  | step {s s' : σ} {a : α} : ReachIf P s → P s a → M.next s a = .step s' → ReachIf P s'

/-- The states reached by any run. -/
def Reach : σ → Prop := M.ReachIf fun _ _ => True

variable {M}

/-- **Invariants hold along runs.** -/
theorem ReachIf.preserved {P : σ → α → Prop} {I : σ → Prop} (h0 : I M.init)
    (hstep : ∀ s a, P s a → I s → (M.next s a).Leads I) {s : σ} (h : M.ReachIf P s) : I s := by
  induction h with
  | init => exact h0
  | @step s s' a _ hP hs ih =>
    have hnext := hstep s a hP ih
    rw [hs] at hnext
    exact hnext

/-- `ReachIf.preserved` when the invariant also excludes faults. -/
theorem ReachIf.invariant {P : σ → α → Prop} {I : σ → Prop} (h0 : I M.init)
    (hstep : ∀ s a, I s → (M.next s a).Ensures fun s' => P s a → I s') {s : σ}
    (h : M.ReachIf P s) : I s :=
  h.preserved h0 fun s a hP hi => ((hstep s a hi).mono fun _ h => h hP).leads

theorem ReachIf.mono {P Q : σ → α → Prop} (hPQ : ∀ s a, P s a → Q s a) {s : σ}
    (h : M.ReachIf P s) : M.ReachIf Q s := by
  induction h with
  | init => exact .init
  | step _ hP hs ih => exact .step ih (hPQ _ _ hP) hs

theorem ReachIf.reach {P : σ → α → Prop} {s : σ} (h : M.ReachIf P s) : M.Reach s :=
  h.mono fun _ _ _ => trivial

/-- **One machine within another.** The states of `N` are those of `M` seen through `f`, as long as
the steps of `N` meet `P` and those of `M` meet `Q`. -/
theorem ReachIf.lift {τ : Type*} {N : Machine τ α ε} {P : τ → α → Prop} {Q : σ → α → Prop}
    {I : σ → Prop} {f : σ → τ} (hinit : N.init = f M.init) (h0 : I M.init)
    (hstep : ∀ s a, I s → P (f s) a →
      N.next (f s) a = (M.next s a).map f ∧ Q s a ∧ (M.next s a).Leads I)
    {t : τ} (h : N.ReachIf P t) : ∃ s, t = f s ∧ M.ReachIf Q s ∧ I s := by
  induction h with
  | init => exact ⟨M.init, hinit, .init, h0⟩
  | @step t t' a _ hP ht ih =>
    obtain ⟨s, rfl, hs, hI⟩ := ih
    obtain ⟨hnext, hQ, hleads⟩ := hstep s a hI hP
    rw [hnext] at ht
    cases hM : M.next s a with
    | blocked =>
      rw [hM] at ht
      cases ht
    | fault e =>
      rw [hM] at ht
      cases ht
    | step s' =>
      rw [hM] at ht hleads
      cases ht
      exact ⟨s', rfl, .step hs hQ hM, hleads⟩

variable (M)

/-- Run a list of labels whose steps all pass the check `b`; `none` when a step is not available
or does not pass. -/
def runIf (b : σ → α → Bool) : σ → List α → Option σ
  | s, [] => some s
  | s, a :: as =>
    match M.next s a with
    | .step s' => if b s a then runIf b s' as else none
    | _ => none

/-- Run a list of labels. -/
def run : σ → List α → Option σ := M.runIf fun _ _ => true

variable {M}

theorem reachIf_of_runIf {P : σ → α → Prop} {b : σ → α → Bool} (hb : ∀ s a, b s a → P s a)
    {s s' : σ} {as : List α} (hs : M.ReachIf P s) (h : M.runIf b s as = some s') :
    M.ReachIf P s' := by
  induction as generalizing s with
  | nil => simp only [runIf, Option.some.injEq] at h; exact h ▸ hs
  | cons a as ih =>
    simp only [runIf] at h
    split at h
    · rename_i t ht
      split_ifs at h with hba
      exact ih (.step hs (hb s a hba) ht) h
    · cases h

theorem run_cons {s s' : σ} {a : α} (h : M.next s a = .step s') (as : List α) :
    M.run s (a :: as) = M.run s' as := by
  simp only [run, runIf, h, if_true]

theorem run_append {s s' : σ} {as : List α} (h : M.run s as = some s') (bs : List α) :
    M.run s (as ++ bs) = M.run s' bs := by
  induction as generalizing s with
  | nil =>
    cases h
    rfl
  | cons a as ih =>
    cases hnext : M.next s a with
    | step t =>
      rw [run_cons hnext] at h
      rw [List.cons_append, run_cons hnext]
      exact ih h
    | blocked => simp only [run, runIf, hnext, reduceCtorEq] at h
    | fault e => simp only [run, runIf, hnext, reduceCtorEq] at h

/-- `ReachIf.lift` for a given list of labels. -/
theorem run_lift {τ : Type*} {N : Machine τ α ε} {I : σ → Prop} {f : σ → τ} {as : List α}
    (hstep : ∀ s, ∀ a ∈ as, I s → N.next (f s) a = (M.next s a).map f ∧ (M.next s a).Leads I)
    {s s' : σ} (hs : I s) (h : M.run s as = some s') : N.run (f s) as = some (f s') := by
  induction as generalizing s with
  | nil =>
    cases h
    rfl
  | cons a as ih =>
    obtain ⟨hnext, hleads⟩ := hstep s a List.mem_cons_self hs
    cases hM : M.next s a with
    | step t =>
      rw [hM] at hnext hleads
      rw [run_cons hM] at h
      rw [run_cons hnext]
      exact ih (fun s b hb => hstep s b (List.mem_cons_of_mem _ hb)) hleads h
    | blocked => simp only [run, runIf, hM, reduceCtorEq] at h
    | fault e => simp only [run, runIf, hM, reduceCtorEq] at h

theorem reach_of_run {s s' : σ} {as : List α} (hs : M.Reach s) (h : M.run s as = some s') :
    M.Reach s' :=
  reachIf_of_runIf (fun _ _ _ => trivial) hs h

end Machine

end SseExt
