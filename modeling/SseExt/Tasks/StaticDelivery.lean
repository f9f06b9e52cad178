import SseExt.Tasks.StaticRefines

/-!
# Races and delivery of `TaskQueueStatic`

**Theorem (`fault_iff`).** In every run nothing but a race can go wrong, and every race is one with
`ClearTasks`.

**Theorem (`static_delivery`).** Occurrences leave the queue in the order in which they were added,
and each of them is run once, or not at all when `ClearTasks` has removed it.

Both are read off the `TaskQueue` that the queue stands for.
-/

namespace SseExt

namespace TaskQueueStatic

open TaskQueue (Event)

variable {ι τ : Type*} [DecidableEq ι] [Fintype ι] {s : TaskQueueStatic ι τ} {q : TaskQueue ι τ}
  {t : ι} {fr : Frame τ} {fs : List (Frame τ)}

theorem stands_reach (h : (machine ι τ).Reach s) :
    ∃ q, (TaskQueue.machine ι τ).Reach q ∧ s.Stands q :=
  Machine.Reach.simulate stands_init (fun _ _ _ _ _ hst hnext => hst.next hnext) h

/-- The innermost call of a thread is at `frame`. -/
def AtFrame (s : TaskQueueStatic ι τ) (t : ι) (frame : Frame τ) : Prop :=
  (s.stack t).head? = some frame

theorem races_iff :
    s.races t fr = true ↔ ∃ u frame, u ≠ t ∧ s.AtFrame u frame ∧ fr.conflicts frame = true := by
  rw [races, decide_eq_true_iff]
  refine exists_congr fun u => ?_
  rw [Option.any_eq_true]
  constructor
  · intro ⟨hu, frame, hframe, hconflict⟩
    exact ⟨frame, hu, hframe, hconflict⟩
  · intro ⟨frame, hu, hframe, hconflict⟩
    exact ⟨hu, frame, hframe, hconflict⟩

omit [DecidableEq ι] [Fintype ι] in
/-- **Who races.** Of two threads with conflicting accesses one is in `ClearTasks`. -/
theorem Stands.conflicts (h : s.Stands q) {u : ι} {frame other : Frame τ} (hu : u ≠ t)
    (ht : s.AtFrame t frame) (hother : s.AtFrame u other) :
    frame.conflicts other = true ↔
      (frame = .clearSwap ∧ other.accesses = true) ∨
        (other = .clearSwap ∧ frame.accesses = true) := by
  constructor
  · intro hconflict
    simp only [Frame.conflicts, Bool.and_eq_true] at hconflict
    obtain ⟨⟨hframe, hacc⟩, -⟩ := hconflict
    rcases Frame.accesses_iff.1 hframe with htouch | hclear
    · rcases Frame.accesses_iff.1 hacc with htouch' | hclear'
      · -- Both are inside the lock.
        have htop : top Frame.touches (s.stack t) = true := by
          rw [top, show (s.stack t).head? = some frame from ht]
          exact htouch
        have htop' : top Frame.touches (s.stack u) = true := by
          rw [top, show (s.stack u).head? = some other from hother]
          exact htouch'
        exact absurd (h.touching.unique htop' htop) hu
      · exact .inr ⟨hclear', hframe⟩
    · exact .inl ⟨hclear, hacc⟩
  · rintro (⟨rfl, hacc⟩ | ⟨rfl, hacc⟩)
    · rw [Frame.conflicts_clearSwap, hacc]
    · rw [Frame.conflicts_comm, Frame.conflicts_clearSwap, hacc]

/-- **No `front()` and no `pop()` of an empty queue.** -/
theorem Stands.stepFrame_ne_fault (h : s.Stands q) (hinv : TaskQueue.Inv q)
    (hstack : s.stack t = fr :: fs) (e : Fault) :
    s.stepFrame t fr fs ≠ .fault e := by
  intro hfault
  cases fr with
  | procFront =>
    have hview := h.stack_cons hstack
    have hne : s.queue ≠ [] := by
      rw [← h.queue]
      refine hinv.front t (.procFront false) ?_ rfl
      rw [hview]
      exact List.mem_cons_self
    cases hqueue : s.queue with
    | nil => exact hne hqueue
    | cons task queue =>
      simp only [TaskQueueStatic.stepFrame, TaskQueueStatic.front, hqueue, reduceCtorEq] at hfault
  | procPop task =>
    have hhead := h.copied t task (by rw [hstack]; rfl)
    cases hqueue : s.queue with
    | nil =>
      rw [hqueue] at hhead
      cases hhead
    | cons first queue =>
      simp only [TaskQueueStatic.stepFrame, TaskQueueStatic.pop, hqueue, reduceCtorEq] at hfault
  | addLock | procLock =>
    simp only [TaskQueueStatic.stepFrame, TaskQueueStatic.acquire] at hfault
    split_ifs at hfault
  | _ => cases hfault

/-- **All that can go wrong is a race with `ClearTasks`.** -/
theorem fault_iff (h : (machine ι τ).Reach s) (a : Label ι τ) (e : Fault) :
    s.next a = .fault e ↔ e = .race ∧ ∃ t u frame other, a = .step t ∧ u ≠ t ∧
      s.AtFrame t frame ∧ s.AtFrame u other ∧
      ((frame = .clearSwap ∧ other.accesses = true) ∨
        (other = .clearSwap ∧ frame.accesses = true)) := by
  obtain ⟨q, hq, hst⟩ := stands_reach h
  constructor
  · intro hfault
    cases a with
    | call t op =>
      simp only [next] at hfault
      split_ifs at hfault
    | ret t =>
      cases hstack : s.stack t with
      | nil => simp only [next, hstack, reduceCtorEq] at hfault
      | cons frame rest =>
        simp only [next, hstack] at hfault
        cases frame <;> cases hfault
    | step t =>
      cases hstack : s.stack t with
      | nil => simp only [next, hstack, reduceCtorEq] at hfault
      | cons frame rest =>
        simp only [next, hstack] at hfault
        split_ifs at hfault with hrace
        · cases hfault
          obtain ⟨u, other, hu, hother, hconflict⟩ := races_iff.1 hrace
          have ht : s.AtFrame t frame := by rw [AtFrame, hstack]; rfl
          exact ⟨rfl, t, u, frame, other, rfl, hu, ht, hother,
            (hst.conflicts hu ht hother).1 hconflict⟩
        · exact absurd hfault (hst.stepFrame_ne_fault (TaskQueue.inv_reach hq) hstack e)
  · rintro ⟨rfl, t, u, frame, other, rfl, hu, ht, hother, hclear⟩
    obtain ⟨rest, hstack⟩ := List.head?_eq_some_iff.1 ht
    have hrace : s.races t frame = true :=
      races_iff.2 ⟨u, other, hu, hother, (hst.conflicts hu ht hother).2 hclear⟩
    simp only [next, hstack, hrace, if_true]

/-- `t` clears the queue while `u` is between `front()` and `pop()`. -/
def clearInTheMiddle (t u : ι) : List (Label ι ℕ) :=
  [.call t (.addTask 7), .step t, .step t, .step t, .call u .processTasks, .step u, .step u,
    .step u, .call t .clearTasks]

theorem fault_iff_clearInTheMiddle : ∃ s,
    (machine (Fin 2) ℕ).run init (clearInTheMiddle 0 1) = some s ∧
      s.next (.step 0) = .fault .race := by
  obtain ⟨s, hrun, h0, h1⟩ : ∃ s, (machine (Fin 2) ℕ).run init (clearInTheMiddle 0 1) = some s ∧
      s.AtFrame 0 .clearSwap ∧ s.AtFrame 1 (.procPop (7, 0)) := ⟨_, rfl, rfl, rfl⟩
  refine ⟨s, hrun, (fault_iff (Machine.reach_of_run .init hrun) _ _).2 ⟨rfl, 0, 1, _, _, rfl, ?_,
    h0, h1, .inl ⟨rfl, rfl⟩⟩⟩
  decide

/-! ## Delivery -/

/-- The history of an occurrence that is done. -/
def complete : TaskQueue.Remover → List Event
  | .processTasks => [.added, .removed .processTasks, .runBegin, .runEnd]
  | .clearTasks => [.added, .removed .clearTasks]

/-- The occurrence that a frame has removed and not yet run to its end. -/
def Frame.inHand : Frame τ → Option (Ticket τ)
  | procUnlock task | procRun task | procRunning task => some task
  | _ => none

theorem filter_complete (remover : TaskQueue.Remover) :
    (TaskQueue.complete remover).filter stays = complete remover := by
  cases remover <;> rfl

/-- What the other queue has in hand is in hand here. -/
theorem Frame.inHand_of_place {frame : Frame τ} {task : Ticket τ} {hist : List Event}
    (h : ∃ f ∈ frame.view, (task, hist) ∈ f.place) : frame.inHand = some task := by
  obtain ⟨f, hf, hplace⟩ := h
  cases frame with
  | procUnlock task' | procRun task' | procRunning task' =>
    cases List.mem_singleton.1 hf
    cases List.mem_singleton.1 hplace
    rfl
  | addUnlock | procBreak => cases hf
  | _ =>
    cases List.mem_singleton.1 hf
    cases hplace

/-- What has been removed has been disposed of there, or is in hand. -/
theorem Stands.removed_cases (h : s.Stands q) (hinv : TaskQueue.Inv q) {task : Ticket τ}
    (htask : task ∈ s.removed) : (∃ remover, (task, remover) ∈ q.disposed) ∨
      ∃ t, ∃ frame ∈ s.stack t, frame.inHand = some task := by
  have hplaces : (↑(q.disposed.map Prod.fst) + q.inHand : Multiset (Ticket τ)) = ↑s.removed := by
    have hconserved := hinv.conserved
    rw [← hinv.order, ← Multiset.coe_add, add_assoc, add_comm (q.removed : Multiset (Ticket τ))]
      at hconserved
    rw [← h.removed]
    exact add_left_cancel hconserved
  have hmem : task ∈ (↑(q.disposed.map Prod.fst) + q.inHand : Multiset (Ticket τ)) :=
    hplaces ▸ Multiset.mem_coe.2 htask
  rcases Multiset.mem_add.1 hmem with hdisposed | hin
  · obtain ⟨⟨_, remover⟩, hd, rfl⟩ := List.mem_map.1 (Multiset.mem_coe.1 hdisposed)
    exact .inl ⟨remover, hd⟩
  · obtain ⟨⟨_, hist⟩, hsum, rfl⟩ := Multiset.mem_map.1 hin
    obtain ⟨t, -, hplaced⟩ := Multiset.mem_sum.1 hsum
    obtain ⟨f, hf, hplace⟩ := List.mem_flatMap.1 (Multiset.mem_coe.1 hplaced)
    rw [h.stack t] at hf
    obtain ⟨frame, hframe, hview⟩ := List.mem_flatMap.1 hf
    exact .inr ⟨t, frame, hframe, Frame.inHand_of_place ⟨f, hview, hplace⟩⟩

/-- **Each occurrence is removed in its turn, and run once or not at all.** -/
theorem static_delivery (h : (machine ι τ).Reach s) :
    s.removed ++ s.queue = tickets s.added ∧
      (∀ k, ∃ remover, s.hist k <+: complete remover) ∧
      (∀ task ∈ s.queue, s.hist task.2 = [.added]) ∧
      ∀ task ∈ s.removed, (∃ remover, s.hist task.2 = complete remover) ∨
        ∃ t, ∃ frame ∈ s.stack t, frame.inHand = some task := by
  obtain ⟨q, hq, hst⟩ := stands_reach h
  have hinv := TaskQueue.inv_reach hq
  have honce := hinv.exactlyOnce
  have horder : s.removed ++ s.queue = tickets s.added := by
    rw [← hst.removed, ← hst.queue, ← hst.added]
    exact honce.order
  refine ⟨horder, fun k => ?_, fun task htask => ?_, fun task htask => ?_⟩
  · obtain ⟨remover, hpre⟩ := honce.history k
    refine ⟨remover, ?_⟩
    rw [hst.hist, ← filter_complete]
    exact hpre.filter stays
  · rw [hst.hist, kept, honce.queued task (hst.queue ▸ htask)]
    rfl
  · rcases hst.removed_cases hinv htask with ⟨remover, hd⟩ | hin
    · refine .inl ⟨remover, ?_⟩
      rw [hst.hist, kept, honce.disposed _ hd, filter_complete]
    · exact .inr hin

/-- `t` adds tasks 7 and 8; `u` processes, and the `Run` of 7 adds 9 after `t` has cleared. -/
def clearWhileRunning (t u : ι) : List (Label ι ℕ) :=
  [.call t (.addTask 7), .step t, .step t, .step t, .call t (.addTask 8), .step t, .step t, .step t,
    .call u .processTasks, .step u, .step u, .step u, .step u, .step u, .step u,
    .call t .clearTasks, .step t, .call u (.addTask 9), .step u, .step u, .step u, .ret u]

theorem static_delivery_clearWhileRunning : ∃ s,
    (machine (Fin 2) ℕ).run init (clearWhileRunning 0 1) = some s ∧
      s.removed = [(7, 0), (8, 1)] ∧ s.queue = [(9, 2)] ∧
      s.removed ++ s.queue = tickets s.added ∧ s.hist 0 = complete .processTasks ∧
      s.hist 1 = complete .clearTasks ∧ s.hist 2 = [.added] := by
  obtain ⟨s, hrun, hremoved, hqueue, h0, h1⟩ : ∃ s,
      (machine (Fin 2) ℕ).run init (clearWhileRunning 0 1) = some s ∧
        s.removed = [(7, 0), (8, 1)] ∧ s.queue = [(9, 2)] ∧
        s.hist 0 = complete .processTasks ∧ s.hist 1 = complete .clearTasks :=
    ⟨_, rfl, rfl, rfl, rfl, rfl⟩
  obtain ⟨horder, -, hqueued, -⟩ := static_delivery (Machine.reach_of_run .init hrun)
  refine ⟨s, hrun, hremoved, hqueue, horder, h0, h1, hqueued (9, 2) ?_⟩
  rw [hqueue]
  exact List.mem_cons_self

end TaskQueueStatic

end SseExt
