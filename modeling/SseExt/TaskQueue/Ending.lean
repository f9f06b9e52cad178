import SseExt.Lib.Trace
import SseExt.TaskQueue.Wakeup

/-!
# How `RunConcurrentTasks` ends

The caller and the workers go on by themselves, as long as the functions end. Tasks of others, stop
markers and spurious wake-ups come from outside.

**Theorem (`call_ends`).** From any state of any run, only so many steps of the caller and the
workers are possible, a post or a spurious wake-up being good for eight. When none is left, the call
has returned, or the caller has missed its wake-up (`Stuck`), or all workers have exited and a
function of the list is still in the queue.

So if no `notify_one` comes too early and a worker is left, the call returns (`returned_of_heard`).
-/

namespace SseExt

/-- The steps of the caller until it blocks or returns, with those that its closures cause. -/
def CallerPc.work (num : ℕ) : CallerPc → ℕ
  | .enter => 8 * num + 4
  | .push i => 8 * (num - i) + 3
  | .woken => 3
  | .check => 2
  | .block => 1
  | .blocked | .returned => 0

/-- The steps of a worker until it pops again or has exited, with those of the caller it wakes. -/
def WorkerPc.work : WorkerPc → ℕ
  | .run _ => 6
  | .increment => 5
  | .notify => 4
  | .runOther => 1
  | .pop | .exited => 0

namespace TaskWorkerPool

variable {n num : ℕ} {s s' : TaskWorkerPool n} {w : Fin n} {pc : WorkerPc}

/-- The step comes from outside. -/
def Cmd.outside : Cmd n → Bool
  | .spurious | .post _ => true
  | _ => false

/-- Steps of the caller and of the workers. -/
def forced (_ : TaskWorkerPool n) (a : Cmd n) : Bool := !a.outside

/-- **The work** of the caller, the workers and the items. -/
def work (num : ℕ) (s : TaskWorkerPool n) : ℕ :=
  7 * s.queue.length + ∑ w, (s.worker w).work + s.caller.work num

/-! ## What a step costs -/

/-- A step of a worker. -/
theorem worker_work (hworker : s'.worker = (s.goto w pc).worker)
    (hlt : 7 * s'.queue.length + pc.work + s'.caller.work num <
      7 * s.queue.length + (s.worker w).work + s.caller.work num) : s'.work num < s.work num := by
  have hsum := sum_goto WorkerPc.work s w pc
  rw [work, work, hworker]
  omega

theorem pump_work (num : ℕ) (s : TaskWorkerPool n) (w : Fin n) :
    (pump num s w).Leads fun s' => s'.work num < s.work num := by
  unfold pump
  cases hw : s.worker w with
  | pop =>
    cases hqueue : s.queue with
    | nil => trivial
    | cons item queue =>
      cases item with
      | call | other | stop =>
        refine worker_work rfl ?_
        simp only [hw, hqueue, WorkerPc.work, List.length_cons, goto_caller]
        omega
  | run i =>
    refine worker_work rfl ?_
    simp [hw, endCall, WorkerPc.work]
  | runOther =>
    refine worker_work rfl ?_
    simp [hw, WorkerPc.work]
  | increment =>
    unfold increment
    split_ifs
    · trivial
    · refine worker_work rfl ?_
      simp [hw, WorkerPc.work]
    · refine worker_work rfl ?_
      simp [hw, WorkerPc.work]
  | notify =>
    unfold notifyOne
    split_ifs with hret hblocked
    · trivial
    · refine worker_work rfl ?_
      simp [hw, hblocked, WorkerPc.work, CallerPc.work]
    · refine worker_work rfl ?_
      simp [hw, WorkerPc.work]
  | exited => trivial

theorem raise_work (num : ℕ) (s : TaskWorkerPool n) (w : Fin n) :
    (raise s w).Leads fun s' => s'.work num < s.work num := by
  unfold raise
  cases hw : s.worker w with
  | run i =>
    refine worker_work rfl ?_
    simp [hw, endCall, WorkerPc.work]
  | _ => trivial

theorem caller_work (num : ℕ) (s : TaskWorkerPool n) :
    (runConcurrentTasks num s).Leads fun s' => s'.work num < s.work num := by
  unfold runConcurrentTasks
  cases hs : s.caller with
  | enter =>
    simp only [Outcome.Leads, work, hs]
    split_ifs
    · simp only [CallerPc.work]
      omega
    · simp only [CallerPc.work]
      omega
  | push i =>
    dsimp only
    split_ifs
    · simp only [Outcome.Leads, work, push, hs, CallerPc.work, List.length_append,
        List.length_singleton]
      omega
    · simp only [Outcome.Leads, work, hs, CallerPc.work]
      omega
  | check =>
    simp only [Outcome.Leads, work, hs]
    split_ifs
    · simp only [CallerPc.work]
      omega
    · simp only [CallerPc.work]
      omega
  | block | woken =>
    simp only [Outcome.Leads, work, hs, CallerPc.work]
    omega
  | blocked | returned => trivial

/-- **Every step lowers the work**, unless it comes from outside. -/
theorem step_work (num : ℕ) (s : TaskWorkerPool n) (a : Cmd n) :
    (step num s a).Leads fun s' => s'.work num + 1 ≤ s.work num + if a.outside then 8 else 0 := by
  cases a with
  | caller => exact s.caller_work num
  | worker w => exact s.pump_work num w
  | raise w => exact s.raise_work num w
  | spurious =>
    refine .guard fun hs => ?_
    simp only [Outcome.Leads, work, hs, CallerPc.work, Cmd.outside, if_true]
    omega
  | post item =>
    refine .guard fun _ => ?_
    simp only [Outcome.Leads, work, push, Cmd.outside, if_true, List.length_append,
      List.length_singleton]
    omega

/-! ## States without a step -/

theorem caller_of_stuck (hstuck : (machine n num).Stuck forced s) :
    s.caller = .blocked ∨ s.caller = .returned := by
  have hblocked : ∀ s', runConcurrentTasks num s ≠ .step s' := fun s' => hstuck .caller rfl s'
  cases hs : s.caller with
  | blocked => exact .inl rfl
  | returned => exact .inr rfl
  | push i =>
    by_cases hi : i < num <;>
      exact absurd (by simp [runConcurrentTasks, hs, hi]; rfl) (hblocked _)
  | _ => exact absurd (by simp [runConcurrentTasks, hs]; rfl) (hblocked _)

/-- While the call has not returned, a worker can go on unless it waits for an item. -/
theorem worker_of_stuck (hstuck : (machine n num).Stuck forced s) (hs : s.caller = .blocked)
    (w : Fin n) : s.worker w = .exited ∨ (s.worker w = .pop ∧ s.queue = []) := by
  have hblocked : ∀ s', pump num s w ≠ .step s' := fun s' => hstuck (.worker w) rfl s'
  cases hw : s.worker w with
  | exited => exact .inl rfl
  | pop =>
    cases hqueue : s.queue with
    | nil => exact .inr ⟨rfl, rfl⟩
    | cons item queue =>
      cases item <;> exact absurd (by simp [pump, hw, hqueue]; rfl) (hblocked _)
  | run i => exact absurd (by simp [pump, hw]; rfl) (hblocked _)
  | runOther => exact absurd (by simp [pump, hw]; rfl) (hblocked _)
  | increment => exact absurd (by simp [pump, hw, increment, hs]; rfl) (hblocked _)
  | notify => exact absurd (by simp [pump, hw, notifyOne, hs]; rfl) (hblocked _)

/-- With no worker inside a closure, `c` counts the functions that have left the queue. -/
theorem Counts.of_quiet (h : Counts num s) (hs : s.caller = .blocked)
    (hworker : ∀ w, s.worker w = .exited ∨ s.worker w = .pop) :
    s.c + (s.queue.flatMap Item.calls).length = num := by
  have hrunning : ∑ w, (s.worker w).running = 0 := by
    refine Finset.sum_eq_zero fun w _ => ?_
    rcases hworker w with hw | hw <;> rw [hw] <;> rfl
  have hincrementing : ∑ w, (s.worker w).incrementing = 0 := by
    refine Finset.sum_eq_zero fun w _ => ?_
    rcases hworker w with hw | hw <;> rw [hw] <;> rfl
  have htaken : s.finished.length = s.taken.length := by
    have hcard := congrArg Multiset.card h.running
    rw [hrunning, zero_add] at hcard
    simpa using hcard
  have hlength := congrArg List.length h.order
  rw [hs, List.length_append, List.length_range] at hlength
  have hcounter := h.counter
  simp only [CallerPc.pushed] at hlength
  omega

/-- **The ends of a call.** -/
theorem ends_of_stuck (h : (machine n num).Reach s)
    (hstuck : (machine n num).Stuck forced s) :
    s.caller = .returned ∨ Stuck num s ∨
      (s.caller = .blocked ∧ (∀ w, s.worker w = .exited) ∧ ∃ i, .call i ∈ s.queue) := by
  have hcounts := counts_reach h
  rcases caller_of_stuck hstuck with hs | hs
  · have hworker := worker_of_stuck hstuck hs
    have hpop : ∀ w, s.worker w = .exited ∨ s.worker w = .pop := fun w =>
      (hworker w).imp_right And.left
    have hquiet := hcounts.of_quiet hs hpop
    by_cases hc : s.c = num
    · refine .inr (.inl ⟨fun i hi => hcounts.ended hc hi, fun w hw => ?_, hs, hc⟩)
      rcases hpop w with hpc | hpc
      · rw [hpc] at hw
        cases hw
      · rw [hpc] at hw
        cases hw
    · -- A function of the list is in the queue, so nobody waits there.
      have hcalls : s.queue.flatMap Item.calls ≠ [] := by
        intro hnil
        rw [hnil] at hquiet
        exact hc hquiet
      obtain ⟨i, hi⟩ := List.exists_mem_of_ne_nil _ hcalls
      obtain ⟨item, hitem, hcall⟩ := List.mem_flatMap.1 hi
      have hmem : .call i ∈ s.queue := by
        cases item with
        | call j =>
          cases List.mem_singleton.1 hcall
          exact hitem
        | other | stop => cases hcall
      refine .inr (.inr ⟨hs, fun w => (hworker w).resolve_right fun hw => ?_, i, hmem⟩)
      rw [hw.2] at hmem
      cases hmem
  · exact .inl hs

/-- **The call returns** if each `notify_one` was heard and a worker is left. -/
theorem returned_of_heard (h : (machine n num).ReachIf NotifyHeard s)
    (hstuck : (machine n num).Stuck forced s) (hw : s.worker w ≠ .exited) :
    s.caller = .returned := by
  rcases ends_of_stuck h.reach hstuck with hret | hlost | ⟨-, hexited, -⟩
  · exact hret
  · exact absurd hlost (not_stuck h)
  · exact absurd (hexited w) hw

/-- **How a call ends.** -/
theorem call_ends (h : (machine n num).Reach s) {as : List (Cmd n)}
    (has : (machine n num).run s as = some s') :
    as.length ≤ s.work num + 8 * as.countP Cmd.outside ∧
    ((machine n num).Stuck forced s' →
      s'.caller = .returned ∨ Stuck num s' ∨
        (s'.caller = .blocked ∧ (∀ w, s'.worker w = .exited) ∧ ∃ i, .call i ∈ s'.queue)) := by
  have hstep : ∀ (s : TaskWorkerPool n) (a : Cmd n) (s' : TaskWorkerPool n), True → true = true →
      (machine n num).next s a = .step s' →
        True ∧ s'.work num + 1 ≤ s.work num + (if a.outside then 8 else 0) := by
    intro s a s' _ _ hnext
    have hwork := step_work num s a
    rw [show step num s a = .step s' from hnext] at hwork
    exact ⟨trivial, hwork⟩
  have hlength := Machine.runIf_length_le_add hstep trivial has
  exact ⟨by omega, ends_of_stuck (Machine.reach_of_run h has)⟩

/-- The only worker has popped a marker before the closure is pushed. -/
theorem call_ends_stopped : ∃ s s',
    (machine 1 1).run init [.post .stop, .caller, .worker 0] = some s ∧
      (machine 1 1).run s [.caller, .caller, .caller, .caller] = some s' ∧
      s.work 1 = 11 ∧ s'.caller = .blocked ∧ ∃ i, .call i ∈ s'.queue := by
  obtain ⟨s, s', hs, hs', hwork, hcaller, hworker, hc⟩ : ∃ s s',
      (machine 1 1).run init [.post .stop, .caller, .worker 0] = some s ∧
      (machine 1 1).run s [.caller, .caller, .caller, .caller] = some s' ∧
      s.work 1 = 11 ∧ s'.caller = .blocked ∧ s'.worker 0 = .exited ∧ s'.c = 0 :=
    ⟨_, _, rfl, rfl, rfl, rfl, rfl, rfl⟩
  have hexited : ∀ w, s'.worker w = .exited := fun w => Subsingleton.elim 0 w ▸ hworker
  have hstuck : (machine 1 1).Stuck forced s' := by
    intro a ha s'' hnext
    have hblocked : step 1 s' a = .blocked := by
      cases a with
      | caller => simp [step, runConcurrentTasks, hcaller]
      | worker w => simp [step, pump, hexited w]
      | raise w => simp [step, raise, hexited w]
      | spurious | post => cases ha
    cases hblocked.symm.trans hnext
  rcases (call_ends (Machine.reach_of_run .init hs) hs').2 hstuck with hret | hlost | ⟨-, -, hmem⟩
  · rw [hcaller] at hret
    cases hret
  · have hdone := hlost.done
    rw [hc] at hdone
    cases hdone
  · exact ⟨s, s', hs, hs', hwork, hcaller, hmem⟩

end TaskWorkerPool

end SseExt
