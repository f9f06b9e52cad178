import SseExt.TaskQueue.Effect

/-!
# The return of `RunConcurrentTasks`

**Theorem (`returned_done`).** When the call returns, every function of the list was taken from
the queue, in list order, was invoked once, and has ended; no closure of the call is left.

What may be left is a worker: the one whose increment gave `num` still has its `notify_one` to do
on the condition variable of the caller's frame, and the caller may leave before
(`use_after_return`).

**Theorem (`frame_released`).** In a run where the caller never leaves `wait` while a worker is
about to call `notify_one`, no step uses the frame of a call that has returned.
-/

namespace SseExt.TaskWorkerPool

variable {n num : ℕ} {s s' : TaskWorkerPool n} {w : Fin n} {a : Cmd n}

/-! ## The work is done -/

theorem Counts.c_le (h : Counts num s) : s.c ≤ num := by
  have hcount := h.counter
  have hlength := h.length_le
  omega

/-- A caller that has returned saw `c == num`. -/
def Left (num : ℕ) (s : TaskWorkerPool n) : Prop := s.caller = .returned → s.c = num

theorem Left.init : Left num (init : TaskWorkerPool n) := by
  intro hs
  cases hs

theorem Left.effect (h : Left num s) (hi : Counts num s) (he : Effect num s a s') :
    Left num s' := by
  cases he with
  | caller hm =>
    intro hs
    rw [hm.c]
    rcases hm.returned hs with ⟨-, h0⟩ | ⟨-, hc⟩
    · have hle := hi.c_le
      omega
    · exact hc
  | spurious hs => exact nofun
  | post item => exact h
  | worker hm => exact fun hs => hm.c.trans (h (hm.caller ▸ hs))
  | raise hm => exact fun hs => hm.c.trans (h (hm.caller ▸ hs))
  | increment hw hret => exact fun hs => absurd hs hret
  | notify hw hret =>
    intro hs
    dsimp only at hs
    split_ifs at hs
    exact absurd hs hret

theorem left_reach (h : (machine n num).Reach s) : Counts num s ∧ Left num s :=
  h.preserved (I := fun s => Counts num s ∧ Left num s) ⟨.init, .init⟩
    fun s a _ hi => (hi.1.step a).and ((step_effect s a).mono fun _ he => hi.2.effect hi.1 he)

namespace Counts

/-- With every function ended, none is running. -/
theorem not_run (h : Counts num s) (hc : s.c = num) (w : Fin n) (i : ℕ) :
    s.worker w ≠ .run i := by
  intro hw
  have hle := h.taken_le
  rw [← h.running, h.finished_eq hc] at hle
  have hzero : ∑ u, (s.worker u).running = 0 := by
    have hcard := Multiset.card_le_card hle
    rw [Multiset.card_add] at hcard
    apply Multiset.card_eq_zero.1
    omega
  have hrun := Finset.sum_eq_zero_iff.1 hzero w (Finset.mem_univ w)
  rw [hw] at hrun
  exact Multiset.singleton_ne_zero i hrun

/-- Every function that is over was taken in its turn, and the queue holds none. -/
theorem taken_eq (h : Counts num s) (hc : s.c = num) :
    s.taken = List.range num ∧ s.queue.flatMap Item.calls = [] := by
  have hfinished : s.finished.length = num := by
    have hcount := h.counter
    have hle := h.length_le
    omega
  have htaken : num ≤ s.taken.length := by
    have hcard := congrArg Multiset.card h.running
    rw [Multiset.card_add, Multiset.coe_card, Multiset.coe_card] at hcard
    omega
  have hlength := congrArg List.length h.order
  rw [List.length_append, List.length_range] at hlength
  have hpushed := h.pushed_le
  have hnil : s.queue.flatMap Item.calls = [] := by
    apply List.eq_nil_of_length_eq_zero
    omega
  have hall : s.caller.pushed num = num := by omega
  have horder := h.order
  rw [hnil, List.append_nil, hall] at horder
  exact ⟨horder, hnil⟩

end Counts

/-- **The call returns only when the work is done.** -/
theorem returned_done (h : (machine n num).Reach s) (hret : s.caller = .returned) :
    (∀ i < num, s.taken.count i = 1 ∧ s.finished.count i = 1) ∧ s.taken = List.range num ∧
      s.finished.Perm (List.range num) ∧ (∀ w i, s.worker w ≠ .run i) ∧
      ∀ i, .call i ∉ s.queue := by
  obtain ⟨hi, hleft⟩ := left_reach h
  have hc : s.c = num := hleft hret
  obtain ⟨htaken, hqueue⟩ := hi.taken_eq hc
  have hfinished : s.finished.Perm (List.range num) := Multiset.coe_eq_coe.1 (hi.finished_eq hc)
  have hone : ∀ i < num, (List.range num).count i = 1 := fun i hlt =>
    List.count_eq_one_of_mem List.nodup_range (List.mem_range.2 hlt)
  refine ⟨fun i hlt => ⟨?_, ?_⟩, htaken, hfinished, hi.not_run hc, fun i hmem => ?_⟩
  · rw [htaken]
    exact hone i hlt
  · rw [hfinished.count_eq]
    exact hone i hlt
  · have hcall : i ∈ s.queue.flatMap Item.calls :=
      List.mem_flatMap.2 ⟨_, hmem, List.mem_singleton.2 rfl⟩
    rw [hqueue] at hcall
    cases hcall

/-- Two functions, one of which throws, between tasks of others; the caller is woken for nothing
once. -/
theorem returned_done_mixed : ∃ s, (machine 2 2).run init
      [.post .other, .caller, .caller, .worker 1, .post .other, .caller, .caller, .caller, .caller,
        .worker 0, .spurious, .worker 1, .worker 1, .caller, .caller, .worker 1, .raise 0,
        .worker 0, .caller, .worker 0, .worker 0, .worker 0, .worker 0, .caller, .caller] =
        some s ∧ s.taken = [0, 1] ∧ s.finished.Perm [0, 1] := by
  have h : ∃ s, (machine 2 2).run init
      [.post .other, .caller, .caller, .worker 1, .post .other, .caller, .caller, .caller, .caller,
        .worker 0, .spurious, .worker 1, .worker 1, .caller, .caller, .worker 1, .raise 0,
        .worker 0, .caller, .worker 0, .worker 0, .worker 0, .worker 0, .caller, .caller] =
        some s ∧ s.caller = .returned := ⟨_, rfl, rfl⟩
  obtain ⟨s, hs, hret⟩ := h
  obtain ⟨-, htaken, hfinished, -⟩ := returned_done (Machine.reach_of_run .init hs) hret
  exact ⟨s, hs, htaken, hfinished⟩

/-! ## What is left of the frame -/

/-- The caller has seen `c == num` and returned; the last worker is about to notify it. -/
def earlyReturn (w : Fin n) : List (Cmd n) :=
  [.caller, .caller, .caller, .worker w, .worker w, .worker w, .caller]

/-- **Use after return.** One worker and one function are enough. -/
theorem use_after_return : ∃ s, (machine 1 1).Reach s ∧ s.caller = .returned ∧
    step 1 s (.worker 0) = .fault .deadFrame := by
  have h : ∃ s, (machine 1 1).run init (earlyReturn 0) = some s ∧ s.caller = .returned ∧
      step 1 s (.worker 0) = .fault .deadFrame := ⟨_, rfl, rfl, rfl⟩
  obtain ⟨s, hs, hret, hfault⟩ := h
  exact ⟨s, Machine.reach_of_run .init hs, hret, hfault⟩

/-- The step is no look at the predicate while a worker is about to call `notify_one`. -/
def LeavesLate (s : TaskWorkerPool n) : Cmd n → Prop
  | .caller => s.caller = .check → ∀ w, s.worker w ≠ .notify
  | _ => True

instance (s : TaskWorkerPool n) (a : Cmd n) : Decidable (LeavesLate s a) :=
  match a with
  | .caller => inferInstanceAs (Decidable (s.caller = .check → ∀ w, s.worker w ≠ .notify))
  | .spurious | .post _ | .worker _ | .raise _ => isTrue trivial

/-- No worker is about to notify a caller that has returned. -/
def Quiet (num : ℕ) (s : TaskWorkerPool n) : Prop :=
  s.caller = .returned ∨ num = 0 → ∀ w, s.worker w ≠ .notify

theorem Quiet.init : Quiet num (init : TaskWorkerPool n) := fun _ _ => nofun

theorem WorkerMoves.quiet {pc : WorkerPc} (hm : WorkerMoves s w pc s') (h : Quiet num s) :
    Quiet num s' := by
  intro hs u
  rw [hm.caller] at hs
  rw [hm.worker]
  by_cases hu : u = w
  · subst hu
    simpa [goto] using hm.next
  · simpa [goto, hu] using h hs u

theorem Quiet.effect (h : Quiet num s) (hP : LeavesLate s a) (he : Effect num s a s') :
    Quiet num s' := by
  cases he with
  | caller hm =>
    intro hs
    rw [hm.worker]
    rcases hs with hs | h0
    · rcases hm.returned hs with ⟨-, h0⟩ | ⟨hcheck, -⟩
      · exact h (.inr h0)
      · exact hP hcheck
    · exact h (.inr h0)
  | spurious hs => exact fun h0 => h (.inr (h0.resolve_left nofun))
  | post item => exact h
  | worker hm => exact hm.quiet h
  | raise hm => exact hm.quiet h
  | @increment w hw hret =>
    rintro (hs | h0)
    · exact absurd hs hret
    · intro u
      have hlast : s.c + 1 ≠ num := by omega
      by_cases hu : u = w
      · subst hu
        simp [goto, hlast]
      · simpa [goto, hu] using h (.inr h0) u
  | @notify w hw hret =>
    rintro hs u
    by_cases hu : u = w
    · subst hu
      simp [goto]
    · have h0 : num = 0 := by
        rcases hs with hs | h0
        · dsimp only at hs
          split_ifs at hs
          exact absurd hs hret
        · exact h0
      simpa [goto, hu] using h (.inr h0) u

/-- A worker at a step that needs the caller's frame finds it there. -/
theorem not_deadFrame (hi : Counts num s) (hleft : Left num s) (hq : Quiet num s) (a : Cmd n) :
    step num s a ≠ .fault .deadFrame := by
  intro hfault
  obtain ⟨hret, w, rfl, hw | hw⟩ := deadFrame_cases hfault
  · exact (hi.lt_of_increment hw).ne (hleft hret)
  · exact hq (.inl hret) w hw

/-- **No step uses the frame of a call that has returned**, in a run where the caller never looks
at the predicate while a worker is about to call `notify_one`. -/
theorem frame_released (h : (machine n num).ReachIf LeavesLate s) (a : Cmd n) :
    step num s a ≠ .fault .deadFrame := by
  obtain ⟨hi, hleft⟩ := left_reach h.reach
  have hquiet : Quiet num s := h.preserved (I := Quiet num) .init fun s a hP hq =>
    (step_effect s a).mono fun _ he => hq.effect hP he
  exact not_deadFrame hi hleft hquiet a

/-- The caller waits for the `notify_one`; then nobody is left. -/
theorem frame_released_notified : ∃ s, (machine 1 1).run init
      [.caller, .caller, .caller, .caller, .caller, .worker 0, .worker 0, .worker 0, .worker 0,
        .caller, .caller] = some s ∧ s.caller = .returned ∧
      ∀ a, step 1 s a ≠ .fault .deadFrame := by
  have h : ∃ s, (machine 1 1).runIf (fun s a => decide (LeavesLate s a)) init
      [.caller, .caller, .caller, .caller, .caller, .worker 0, .worker 0, .worker 0, .worker 0,
        .caller, .caller] = some s := ⟨_, rfl⟩
  obtain ⟨s, hs⟩ := h
  have hreach : (machine 1 1).ReachIf LeavesLate s :=
    Machine.reachIf_of_runIf (fun _ _ hb => of_decide_eq_true hb) .init hs
  exact ⟨s, by cases hs; rfl, by cases hs; rfl, frame_released hreach⟩

/-- **Sharpness.** A look at the predicate while a worker is about to call `notify_one` ends the
call, and the worker's next step uses the frame. -/
theorem check_faults (h : (machine n num).Reach s) (hs : s.caller = .check)
    (hw : s.worker w = .notify) :
    ∃ s', step num s .caller = .step s' ∧ step num s' (.worker w) = .fault .deadFrame := by
  have hc : s.c = num := (counts_reach h).done_of_notify hw
  refine ⟨{ s with caller := .returned }, ?_, ?_⟩
  · simp [step, runConcurrentTasks, hs, hc]
  · simp [step, pump, hw, notifyOne]

end SseExt.TaskWorkerPool
