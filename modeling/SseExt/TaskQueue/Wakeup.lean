import SseExt.TaskQueue.Effect

/-!
# The wake-up of `RunConcurrentTasks`

The last worker increments `c` and calls `notify_one` without the mutex the caller waits with. A
`notify_one` that falls between the caller's last look at the predicate and its block wakes
nobody, and there is no other: the caller stays blocked with all the work done (`lost_wakeup`).

**Theorem (`not_stuck`).** A run without such a `notify_one` never gets there.

The invariant is `Pending`: while the caller is about to block or blocked and `c` is `num`, some
worker still has its `notify_one` to do. `Stuck.of_notify` and `Stuck.forever` show that the
condition is sharp: after such a `notify_one` the next step of the caller leaves it stuck, and
only a spurious wake-up ends that.
-/

namespace SseExt.TaskWorkerPool

variable {n num : ℕ} {s : TaskWorkerPool n} {w : Fin n} {pc : WorkerPc}

/-- All the work is done and no worker has a `notify_one` left, but the caller is blocked. -/
structure Stuck (num : ℕ) (s : TaskWorkerPool n) : Prop where
  ended : ∀ i < num, i ∈ s.finished
  notified : ∀ w, s.worker w ≠ .notify
  blocked : s.caller = .blocked
  done : s.c = num

/-! ## The defect -/

/-- The caller has found `c ≠ num`; the worker does all its steps; the caller blocks. -/
def lateBlock (w : Fin n) : List (Cmd n) :=
  [.caller, .caller, .caller, .caller, .worker w, .worker w, .worker w, .worker w, .caller]

/-- **The lost wake-up.** One worker and one function are enough. -/
theorem lost_wakeup : ∃ s, (machine 1 1).Reach s ∧ Stuck 1 s ∧ s.queue = [] ∧
    s.worker = fun _ => .pop := by
  have h : ∃ s, (machine 1 1).run init (lateBlock 0) = some s ∧ s.finished = [0] ∧
      s.caller = .blocked ∧ s.c = 1 ∧ s.queue = [] ∧ s.worker 0 = .pop :=
    ⟨_, rfl, rfl, rfl, rfl, rfl, rfl⟩
  obtain ⟨s, hs, hfinished, hcaller, hc, hqueue, hworker⟩ := h
  have hpop : s.worker = fun _ => .pop := by
    funext w
    rw [Subsingleton.elim w 0, hworker]
  refine ⟨s, Machine.reach_of_run .init hs, ⟨?_, ?_, hcaller, hc⟩, hqueue, hpop⟩
  · intro i hi
    simp [hfinished, Nat.lt_one_iff.1 hi]
  · simp [hpop]

/-! ## Runs without it -/

/-- The step is no `notify_one` between the caller's look at the predicate and its block. -/
def NotifyHeard (s : TaskWorkerPool n) : Cmd n → Prop
  | .worker w => s.worker w = .notify → s.caller ≠ .block
  | _ => True

instance (s : TaskWorkerPool n) (a : Cmd n) : Decidable (NotifyHeard s a) :=
  match a with
  | .worker w => inferInstanceAs (Decidable (s.worker w = .notify → s.caller ≠ .block))
  | .caller | .spurious | .post _ | .raise _ => isTrue trivial

/-- A caller about to sleep on a counter that is already full has a wake-up coming. -/
def Pending (num : ℕ) (s : TaskWorkerPool n) : Prop :=
  s.caller = .block ∨ s.caller = .blocked → s.c = num → ∃ w, s.worker w = .notify

namespace Pending

theorem init : Pending num (init : TaskWorkerPool n) := by
  rintro (h | h) <;> cases h

theorem of_caller (hblock : s.caller ≠ .block) (hblocked : s.caller ≠ .blocked) :
    Pending num s := fun h => (h.elim hblock hblocked).elim

/-- A worker that had no `notify_one` to do moves on. -/
theorem worker {s' : TaskWorkerPool n} (h : Pending num s) (hm : WorkerMoves s w pc s') :
    Pending num s' := by
  intro hs hnum
  rw [hm.caller] at hs
  rw [hm.c] at hnum
  obtain ⟨u, hu⟩ := h hs hnum
  have huw : u ≠ w := by
    intro e
    exact hm.notify (e ▸ hu)
  refine ⟨u, ?_⟩
  rw [hm.worker]
  exact (Function.update_of_ne huw _ _).trans hu

theorem effect {s' : TaskWorkerPool n} {a : Cmd n} (h : Pending num s) (hP : NotifyHeard s a)
    (he : Effect num s a s') : Pending num s' := by
  cases he with
  | caller hm =>
    intro hs hnum
    rw [hm.c] at hnum
    rw [hm.worker]
    rcases hs with hs | hs
    · exact absurd hnum (hm.block hs)
    · exact h (.inl (hm.blocked hs)) hnum
  | spurious hs => exact of_caller nofun nofun
  | post item => exact h
  | worker hm => exact h.worker hm
  | raise hm => exact h.worker hm
  | @increment w hw hret =>
    intro _ hnum
    -- The increment that fills the counter leaves its worker with a `notify_one` to do.
    refine ⟨w, ?_⟩
    change Function.update s.worker w _ w = _
    rw [Function.update_self]
    exact if_pos hnum
  | notify hw hret =>
    -- A blocked caller wakes up, and no caller is about to block.
    by_cases hb : s.caller = .blocked
    · exact of_caller (by simp [hb]) (by simp [hb])
    · exact of_caller (by simpa [hb] using hP hw) (by simp [hb])

end Pending

/-- **No run gets stuck** when none of its `notify_one`s falls between the caller's look at the
predicate and its block. -/
theorem not_stuck (h : (machine n num).ReachIf NotifyHeard s) : ¬ Stuck num s := by
  intro hs
  have hpending : Pending num s :=
    h.preserved (I := Pending num) .init fun s a hP hi =>
      (step_effect s a).mono fun _ he => hi.effect hP he
  obtain ⟨w, hw⟩ := hpending (.inr hs.blocked) hs.done
  exact hs.notified w hw

/-- Two workers and two functions; the caller is blocked when the second worker notifies it. -/
theorem not_stuck_twoWorkers : ∃ s, (machine 2 2).run init
      [.caller, .caller, .worker 0, .caller, .worker 1, .caller, .raise 1, .caller, .worker 1,
        .caller, .worker 0, .worker 0, .worker 0] = some s ∧ s.caller = .woken ∧ ¬ Stuck 2 s := by
  have h : ∃ s, (machine 2 2).runIf (fun s a => decide (NotifyHeard s a)) init
      [.caller, .caller, .worker 0, .caller, .worker 1, .caller, .raise 1, .caller, .worker 1,
        .caller, .worker 0, .worker 0, .worker 0] = some s := ⟨_, rfl⟩
  obtain ⟨s, hs⟩ := h
  have hreach : (machine 2 2).ReachIf NotifyHeard s :=
    Machine.reachIf_of_runIf (fun _ _ hb => of_decide_eq_true hb) .init hs
  exact ⟨s, by cases hs; rfl, by cases hs; rfl, not_stuck hreach⟩

/-! ## The condition is sharp -/

namespace Stuck

/-- A `notify_one` between the caller's look at the predicate and its block leaves it stuck. -/
theorem of_notify (h : (machine n num).Reach s) (hw : s.worker w = .notify)
    (hs : s.caller = .block) :
    ∃ s', (machine n num).run s [.worker w, .caller] = some s' ∧ Stuck num s' := by
  have hi : Counts num s := counts_reach h
  have hc : s.c = num := hi.done_of_notify hw
  refine ⟨{ s.goto w .pop with caller := .blocked }, ?_, ?_⟩
  · simp [Machine.run, Machine.runIf, machine, TaskWorkerPool.step, TaskWorkerPool.pump, hw,
      TaskWorkerPool.notifyOne, TaskWorkerPool.runConcurrentTasks, hs]
  · exact ⟨fun _ => hi.ended hc, hi.no_other_notify hw, rfl, hc⟩

/-- A worker moves on, but not to a `notify_one`. -/
theorem worker {s' : TaskWorkerPool n} (h : Stuck num s) (hm : WorkerMoves s w pc s') :
    Stuck num s' where
  ended i hi := hm.finished (h.ended i hi)
  notified u := by
    rw [hm.worker]
    by_cases hu : u = w
    · subst hu
      simpa [TaskWorkerPool.goto] using hm.next
    · simpa [TaskWorkerPool.goto, hu] using h.notified u
  blocked := hm.caller ▸ h.blocked
  done := hm.c ▸ h.done

/-- A blocked caller takes no step of its own. -/
theorem not_caller {s' : TaskWorkerPool n} (h : Stuck num s) :
    TaskWorkerPool.step num s .caller ≠ .step s' := by
  simp [TaskWorkerPool.step, TaskWorkerPool.runConcurrentTasks, h.blocked]

/-- Nobody is left to notify the caller. -/
theorem step {a : Cmd n} (h : Stuck num s) (hi : Counts num s) (ha : a ≠ .spurious) :
    (step num s a).Leads (Stuck num) := by
  apply (step_effect s a).mono_step
  intro s' hs he
  cases he with
  | caller hm => exact absurd hs h.not_caller
  | spurious hb => exact absurd rfl ha
  | post item => exact ⟨h.ended, h.notified, h.blocked, h.done⟩
  | worker hm => exact h.worker hm
  | raise hm => exact h.worker hm
  | increment hw hret => exact absurd h.done (hi.lt_of_increment hw).ne
  | notify hw hret => exact absurd hw (h.notified _)

/-- **A stuck caller stays stuck** in every run from there without spurious wake-ups. -/
theorem forever {s' : TaskWorkerPool n} (hs : (machine n num).Reach s) (h : Stuck num s)
    (h' : (Machine.mk s (TaskWorkerPool.step num)).ReachIf (fun _ a => a ≠ .spurious) s') :
    Stuck num s' := by
  have hboth : Counts num s' ∧ Stuck num s' :=
    h'.preserved (I := fun t => Counts num t ∧ Stuck num t) ⟨counts_reach hs, h⟩
      fun _ a ha hi => (hi.1.step a).and (hi.2.step hi.1 ha)
  exact hboth.2

end Stuck

end SseExt.TaskWorkerPool
