import SseExt.Lib.Transition

/-!
# What runs show

A step of a machine may show something, `emits s a`, or be silent. The `trace` of a run is what its
steps show, in order.

**Termination (`runIf_length_le`, `exists_runIf_stuck`).** When each step lowers a cost, the cost
bounds the length of every run, and every run can be continued until no step is left.

**Stuttering refinement (`run_trace`).** Suppose states of `M` stand for states of `N`, a silent
step stays with the same state of `N`, and a step that shows `b` is the step `b` of `N`. Then the
trace of a run of `M` is a run of `N`.

**Forward simulation (`Reach.simulate`).** When a step of `M` can be matched by a run of `N` that
ends in a state it stands for, every state that `M` reaches stands for one that `N` reaches.
-/

namespace SseExt

namespace Machine

variable {σ τ α β ε δ : Type*} {M : Machine σ α ε} {N : Machine τ β δ} {P : σ → α → Bool}
  {s s' : σ} {as bs : List α}

/-! ## Runs under a condition -/

theorem runIf_cons {a : α} (h : M.next s a = .step s') (hP : P s a = true) (as : List α) :
    M.runIf P s (a :: as) = M.runIf P s' as := by
  simp only [runIf, h, hP, if_true]

/-- A run begins with a step that is available and meets the condition. -/
theorem of_runIf_cons {a : α} {t : σ} (h : M.runIf P s (a :: as) = some t) :
    ∃ s', M.next s a = .step s' ∧ P s a = true ∧ M.runIf P s' as = some t := by
  cases hnext : M.next s a with
  | blocked => simp only [runIf, hnext, reduceCtorEq] at h
  | fault e => simp only [runIf, hnext, reduceCtorEq] at h
  | step s' =>
    simp only [runIf, hnext] at h
    split_ifs at h with hP
    exact ⟨s', rfl, hP, h⟩

theorem runIf_mono {Q : σ → α → Bool} (hPQ : ∀ s a, P s a = true → Q s a = true)
    (h : M.runIf P s as = some s') : M.runIf Q s as = some s' := by
  induction as generalizing s with
  | nil => exact h
  | cons a as ih =>
    obtain ⟨t, hnext, hP, hrest⟩ := of_runIf_cons h
    rw [runIf_cons hnext (hPQ s a hP)]
    exact ih hrest

/-- **Invariants along a run.** -/
theorem runIf_invariant {I : σ → Prop}
    (hstep : ∀ s a s', I s → P s a = true → M.next s a = .step s' → I s') (hs : I s)
    (h : M.runIf P s as = some s') : I s' := by
  induction as generalizing s with
  | nil =>
    cases h
    exact hs
  | cons a as ih =>
    obtain ⟨t, hnext, hP, hrest⟩ := of_runIf_cons h
    exact ih (hstep s a t hs hP hnext) hrest

/-- **Runs that cannot go on for ever.** When each step lowers the cost, but for those in `f`, which
may raise it by less than `c`, the cost and the number of the latter bound the length of a run. -/
theorem runIf_length_le_add {I : σ → Prop} {cost : σ → ℕ} {c : ℕ} {f : α → Bool}
    (hstep : ∀ s a s', I s → P s a = true → M.next s a = .step s' →
      I s' ∧ cost s' + 1 ≤ cost s + (if f a then c else 0))
    (hs : I s) (h : M.runIf P s as = some s') :
    as.length + cost s' ≤ cost s + c * as.countP f := by
  induction as generalizing s with
  | nil =>
    cases h
    exact Nat.le_of_eq (Nat.zero_add _)
  | cons a as ih =>
    obtain ⟨t, hnext, hP, hrest⟩ := of_runIf_cons h
    obtain ⟨ht, hcost⟩ := hstep s a t hs hP hnext
    have hlength := ih ht hrest
    rw [List.length_cons]
    by_cases hf : f a = true
    · rw [if_pos hf] at hcost
      rw [List.countP_cons_of_pos hf, Nat.mul_add, Nat.mul_one]
      omega
    · rw [if_neg hf] at hcost
      rw [List.countP_cons_of_neg hf]
      omega

theorem runIf_length_le {I : σ → Prop} {cost : σ → ℕ}
    (hstep : ∀ s a s', I s → P s a = true → M.next s a = .step s' → I s' ∧ cost s' < cost s)
    (hs : I s) (h : M.runIf P s as = some s') : as.length + cost s' ≤ cost s := by
  have hbound := runIf_length_le_add (c := 0) (f := fun _ => false)
    (fun s a s' hs hP hnext => hstep s a s' hs hP hnext) hs h
  omega

/-- No step that meets the condition is available. -/
def Stuck (M : Machine σ α ε) (P : σ → α → Bool) (s : σ) : Prop :=
  ∀ a, P s a = true → ∀ s', M.next s a ≠ .step s'

/-- When each step lowers the cost, a run can be continued until it is stuck. -/
theorem exists_runIf_stuck {I : σ → Prop} {cost : σ → ℕ}
    (hstep : ∀ s a s', I s → P s a = true → M.next s a = .step s' → I s' ∧ cost s' < cost s)
    (hs : I s) : ∃ as s', M.runIf P s as = some s' ∧ M.Stuck P s' := by
  induction hcost : cost s using Nat.strongRecOn generalizing s with
  | _ n ih =>
    by_cases hstuck : M.Stuck P s
    · exact ⟨[], s, rfl, hstuck⟩
    · simp only [Stuck, not_forall, not_not] at hstuck
      obtain ⟨a, ha, s₁, hnext⟩ := hstuck
      obtain ⟨h₁, hless⟩ := hstep s a s₁ hs ha hnext
      obtain ⟨as, s', hrun, hs'⟩ := ih (cost s₁) (hcost ▸ hless) h₁ rfl
      exact ⟨a :: as, s', (runIf_cons hnext ha as).trans hrun, hs'⟩

/-! ## Traces -/

variable (M) in
/-- What the steps of a run show. -/
def trace (emits : σ → α → Option β) : σ → List α → List β
  | _, [] => []
  | s, a :: as =>
    match M.next s a with
    | .step s' => (emits s a).toList ++ trace emits s' as
    | _ => []

variable {emits : σ → α → Option β}

theorem trace_cons {a : α} (h : M.next s a = .step s') (as : List α) :
    M.trace emits s (a :: as) = (emits s a).toList ++ M.trace emits s' as := by
  simp only [trace, h]

/-- A silent step changes nothing, another one is a step of `N`. -/
def Follows (N : Machine τ β δ) (t : τ) : Option β → τ → Prop
  | none, t' => t' = t
  | some b, t' => N.next t b = .step t'

theorem follows_some {t t' : τ} {o : Option β} {b : β} (ho : o = some b)
    (h : N.next t b = .step t') : Follows N t o t' := by
  rw [ho]
  exact h

/-- **Stuttering refinement.** -/
theorem run_trace {R : σ → τ → Prop}
    (hstep : ∀ s t a s', R s t → P s a = true → M.next s a = .step s' →
      ∃ t', Follows N t (emits s a) t' ∧ R s' t')
    {t : τ} (hst : R s t) (h : M.runIf P s as = some s') :
    ∃ t', N.run t (M.trace emits s as) = some t' ∧ R s' t' := by
  induction as generalizing s t with
  | nil =>
    cases h
    exact ⟨t, rfl, hst⟩
  | cons a as ih =>
    obtain ⟨s₁, hnext, hP, hrest⟩ := of_runIf_cons h
    obtain ⟨t₁, hf, ht₁⟩ := hstep s t a s₁ hst hP hnext
    obtain ⟨t', hrun, hR⟩ := ih ht₁ hrest
    refine ⟨t', ?_, hR⟩
    rw [trace_cons hnext]
    cases hb : emits s a with
    | none =>
      rw [hb] at hf
      have ht : t₁ = t := hf
      rw [Option.toList_none, List.nil_append, ← ht]
      exact hrun
    | some b =>
      rw [hb] at hf
      rw [Option.toList_some, List.singleton_append, run_cons hf]
      exact hrun

/-! ## Simulation -/

theorem run_singleton {a : α} (h : M.next s a = .step s') : M.run s [a] = some s' :=
  (run_cons h []).trans rfl

/-- **Forward simulation.** -/
theorem Reach.simulate {R : σ → τ → Prop} (hinit : R M.init N.init)
    (hstep : ∀ s t a s', N.Reach t → R s t → M.next s a = .step s' →
      ∃ bs t', N.run t bs = some t' ∧ R s' t')
    (h : M.Reach s) : ∃ t, N.Reach t ∧ R s t := by
  induction h with
  | init => exact ⟨N.init, .init, hinit⟩
  | @step s s' a _ _ hnext ih =>
    obtain ⟨t, ht, hst⟩ := ih
    obtain ⟨bs, t', hrun, hst'⟩ := hstep s t a s' ht hst hnext
    exact ⟨t', reach_of_run ht hrun, hst'⟩

end Machine

end SseExt
