import SseExt.Lib.Trace
import SseExt.Tasks.Delivery
import SseExt.Tasks.Static

/-!
# `TaskQueueStatic` as a `TaskQueue`

**Theorem (`Stands.next`).** Up to a race the queue is a `TaskQueue` whose tasks do nothing in
`Dispose`: every step is a run of that queue, with which it agrees on what is queued, on what has
been removed and on what has happened to each occurrence.

A `ClearTasks` here is a whole `ClearTasks` there (`clear_run`). The lock is given back there right
after the last access to the queue, so that it is free whenever `ClearTasks` can go ahead without a
race.
-/

namespace SseExt

namespace TaskQueueStatic

open TaskQueue (Event)

variable {ι τ : Type*}

/-! ## Histories -/

/-- The event happens to tasks held by value. -/
def stays : Event → Bool
  | .disposeBegin | .disposeEnd => false
  | _ => true

/-- The histories without `Dispose`. -/
def kept (hist : ℕ → List Event) : ℕ → List Event := fun k => (hist k).filter stays

/-- One more event of the occurrence `k`. -/
def noted (hist : ℕ → List Event) (k : ℕ) (event : Event) : ℕ → List Event :=
  Function.update hist k (hist k ++ [event])

theorem kept_noted (hist : ℕ → List Event) (k : ℕ) {event : Event} (h : stays event = true) :
    kept (noted hist k event) = noted (kept hist) k event := by
  funext j
  by_cases hj : j = k
  · simp [kept, noted, hj, h]
  · simp [kept, noted, Function.update_of_ne hj]

theorem kept_noted_dispose (hist : ℕ → List Event) (k : ℕ) {event : Event}
    (h : stays event = false) : kept (noted hist k event) = kept hist := by
  funext j
  by_cases hj : j = k
  · simp [kept, noted, hj, h]
  · simp [kept, noted, Function.update_of_ne hj]

theorem foldl_record (l : List (Ticket τ)) (s : TaskQueueStatic ι τ) (event : Event) :
    l.foldl (fun s task => s.record task.2 event) s =
      { s with hist := l.foldl (fun hist task => noted hist task.2 event) s.hist } := by
  induction l generalizing s with
  | nil => rfl
  | cons task l ih =>
    rw [List.foldl_cons, ih]
    rfl

/-! ## `ClearTasks` of the other queue -/

section

variable [DecidableEq ι] {q : TaskQueue ι τ} {t : ι} {frame : TaskQueue.Frame τ}
  {rest : List (TaskQueue.Frame τ)}

theorem next_step (h : q.stack t = frame :: rest) :
    TaskQueue.next q (.step t) = q.stepFrame t frame rest := by
  simp only [TaskQueue.next, h]

theorem next_ret (h : q.stack t = frame :: rest) :
    TaskQueue.next q (.ret t) = q.returnTo t frame rest := by
  simp only [TaskQueue.next, h]

/-- **What the loop of `ClearTasks` does.** -/
theorem clear_run (hstack : q.stack t = .clearEmpty :: rest) :
    ∃ bs q', (TaskQueue.machine ι τ).run q bs = some q' ∧ q'.queue = [] ∧ q'.lock = none ∧
      q'.stack = Function.update q.stack t rest ∧ q'.added = q.added ∧
      q'.removed = q.removed ++ q.queue ∧
      kept q'.hist =
        q.queue.foldl (fun hist task => noted hist task.2 (.removed .clearTasks))
          (kept q.hist) := by
  generalize hqueue : q.queue = queue
  induction queue generalizing q with
  | nil =>
    have hempty : TaskQueue.next q (.step t) = .step (q.goto t (.clearUnlock :: rest)) := by
      rw [next_step hstack, TaskQueue.stepFrame, hqueue]
      rfl
    have hunlock : TaskQueue.next (q.goto t (.clearUnlock :: rest)) (.step t) =
        .step ((q.goto t (.clearUnlock :: rest)).release t rest) :=
      (next_step (Function.update_self t _ q.stack)).trans rfl
    refine ⟨[.step t, .step t], (q.goto t (.clearUnlock :: rest)).release t rest, ?_, hqueue, rfl,
      ?_, rfl, (List.append_nil _).symm, rfl⟩
    · rw [Machine.run_cons hempty]
      exact Machine.run_singleton hunlock
    · exact Function.update_idem _ _ _
  | cons task queue ih =>
    have hmem : TaskQueue.next q (.step t) = .step (q.goto t (.clearFront :: rest)) := by
      rw [next_step hstack, TaskQueue.stepFrame, hqueue]
      rfl
    let q₁ := q.goto t (.clearFront :: rest)
    let q₂ : TaskQueue ι τ :=
      { (q₁.goto t (.clearDispose task :: rest)).record task.2 (.removed .clearTasks) with
        queue, removed := q.removed ++ [task] }
    let q₃ := (q₂.goto t (.clearDisposing task :: rest)).record task.2 .disposeBegin
    let q₄ := q₃.finish t .clearTasks task (.clearEmpty :: rest)
    have htake : TaskQueue.next q₁ (.step t) = .step q₂ := by
      rw [next_step (Function.update_self t _ q.stack), TaskQueue.stepFrame, TaskQueue.take,
        show q₁.queue = task :: queue from hqueue]
      rfl
    have hbegin : TaskQueue.next q₂ (.step t) = .step q₃ :=
      (next_step (Function.update_self t _ q₁.stack)).trans rfl
    have hend : TaskQueue.next q₃ (.ret t) = .step q₄ :=
      (next_ret (Function.update_self t _ q₂.stack)).trans rfl
    have hstack₄ : q₄.stack = Function.update q.stack t (.clearEmpty :: rest) := by
      show Function.update (Function.update (Function.update (Function.update q.stack t _) t _) t _)
        t _ = _
      simp only [Function.update_idem]
    have hhist₄ : kept q₄.hist = noted (kept q.hist) task.2 (.removed .clearTasks) := by
      show kept (noted (noted (noted q.hist task.2 _) task.2 .disposeBegin) task.2 .disposeEnd) = _
      rw [kept_noted_dispose _ _ rfl, kept_noted_dispose _ _ rfl, kept_noted _ _ rfl]
    obtain ⟨bs, q', hrun, hqueue', hlock', hstack', hadded', hremoved', hhist'⟩ :=
      @ih q₄ (by rw [hstack₄, Function.update_self]) rfl
    refine ⟨.step t :: .step t :: .step t :: .ret t :: bs, q', ?_, hqueue', hlock', ?_, hadded',
      ?_, ?_⟩
    · rw [Machine.run_cons hmem, Machine.run_cons htake, Machine.run_cons hbegin,
        Machine.run_cons hend, hrun]
    · rw [hstack', hstack₄, Function.update_idem]
    · rw [hremoved']
      exact List.append_assoc q.removed [task] queue
    · rw [hhist', hhist₄, List.foldl_cons]

/-! ## The queue behind it -/

namespace Frame

/-- The frame is between `lock()` and its last access to the queue. -/
def touches : Frame τ → Bool
  | addEmplace _ | procEmpty | procFront | procPop _ => true
  | _ => false

/-- The frame there. The lock is given back with the last access. -/
def view : Frame τ → List (TaskQueue.Frame τ)
  | addLock task => [.addLock task]
  | addEmplace task => [.addEmplace task]
  | procLock => [.procLock false]
  | procEmpty => [.procEmpty false]
  | procFront | procPop _ => [.procFront false]
  | procUnlock task | procRun task => [.procRun false task]
  | procRunning task => [.procRunning false task]
  | clearSwap => [.clearLock]
  | addUnlock | procBreak => []

theorem holds_of_touches {frame : Frame τ} (h : frame.touches = true) : frame.holds = true := by
  cases frame <;> first | rfl | cases h

theorem not_holds_of_callback {frame : Frame τ} (h : frame.callback = true) :
    frame.holds = false := by
  cases frame <;> first | rfl | cases h

theorem not_touches_of_callback {frame : Frame τ} (h : frame.callback = true) :
    frame.touches = false := by
  cases frame <;> first | rfl | cases h

/-- What is accessed with the lock, and what without. -/
theorem accesses_iff {frame : Frame τ} :
    frame.accesses = true ↔ frame.touches = true ∨ frame = .clearSwap := by
  cases frame <;> simp [accesses, writes, touches]

theorem conflicts_comm (frame other : Frame τ) :
    frame.conflicts other = other.conflicts frame := by
  rw [conflicts, conflicts, Bool.and_comm frame.accesses, Bool.or_comm frame.writes]

theorem conflicts_clearSwap (frame : Frame τ) : conflicts .clearSwap frame = frame.accesses := by
  cases frame <;> rfl

end Frame

def view (stack : List (Frame τ)) : List (TaskQueue.Frame τ) := stack.flatMap Frame.view

/-- The innermost call is at a point in `P`. -/
def top (P : Frame τ → Bool) (stack : List (Frame τ)) : Bool := stack.head?.any P

/-- The states stand for each other. -/
structure Stands (s : TaskQueueStatic ι τ) (q : TaskQueue ι τ) : Prop where
  queue : q.queue = s.queue
  added : q.added = s.added
  removed : q.removed = s.removed
  hist : s.hist = kept q.hist
  stack : ∀ t, q.stack t = view (s.stack t)
  held : Held s.lock (top Frame.holds) s.stack
  touching : Held q.lock (top Frame.touches) s.stack
  below : ∀ t, ∀ frame ∈ (s.stack t).tail, frame.callback = true
  copied : ∀ t task, (s.stack t).head? = some (.procPop task) → s.queue.head? = some task

variable {s s' : TaskQueueStatic ι τ} {q' : TaskQueue ι τ} {fr : Frame τ}
  {fs frames : List (Frame τ)}

omit [DecidableEq ι] in
theorem stands_init : (init : TaskQueueStatic ι τ).Stands TaskQueue.init where
  queue := rfl
  added := rfl
  removed := rfl
  hist := rfl
  stack _ := rfl
  held _ := by simp [init, top]
  touching _ := by simp [init, TaskQueue.init, top]
  below _ _ := nofun
  copied _ _ := nofun

namespace Stands

/-- **A move of the thread `t`**, which has the calls `frames` after it. -/
theorem move (h : s.Stands q) (hs : s'.stack = Function.update s.stack t frames)
    (hq : q'.stack = Function.update q.stack t (view frames))
    (hbelow : ∀ frame ∈ frames.tail, frame.callback = true)
    (hheld : Held s'.lock (top Frame.holds) (Function.update s.stack t frames))
    (htouching : Held q'.lock (top Frame.touches) (Function.update s.stack t frames))
    (hqueue : q'.queue = s'.queue) (hadded : q'.added = s'.added)
    (hremoved : q'.removed = s'.removed) (hhist : s'.hist = kept q'.hist)
    (hothers : ∀ u task, u ≠ t → (s.stack u).head? = some (.procPop task) →
      s'.queue.head? = some task)
    (hown : ∀ task, frames.head? = some (.procPop task) → s'.queue.head? = some task) :
    s'.Stands q' where
  queue := hqueue
  added := hadded
  removed := hremoved
  hist := hhist
  stack u := by
    rw [hs, hq]
    by_cases hu : u = t
    · rw [hu, Function.update_self, Function.update_self]
    · rw [Function.update_of_ne hu, Function.update_of_ne hu, h.stack]
  held := hs ▸ hheld
  touching := hs ▸ htouching
  below u := by
    rw [hs]
    by_cases hu : u = t
    · rw [hu, Function.update_self]
      exact hbelow
    · rw [Function.update_of_ne hu]
      exact h.below u
  copied u := by
    rw [hs]
    by_cases hu : u = t
    · rw [hu, Function.update_self]
      exact hown
    · rw [Function.update_of_ne hu]
      exact fun task => hothers u task hu

/-- A move that leaves the queue alone and takes nothing in hand. -/
theorem goto (h : s.Stands q) {l l' : Option ι}
    (hbelow : ∀ frame ∈ frames.tail, frame.callback = true)
    (hheld : Held l (top Frame.holds) (Function.update s.stack t frames))
    (htouching : Held l' (top Frame.touches) (Function.update s.stack t frames))
    (hown : ∀ task, frames.head? = some (.procPop task) → s.queue.head? = some task) :
    Stands { s.goto t frames with lock := l } { q.goto t (view frames) with lock := l' } :=
  h.move rfl rfl hbelow hheld htouching h.queue h.added h.removed h.hist
    (fun u task _ => h.copied u task) hown

omit [DecidableEq ι] in
theorem record (h : s.Stands q) (k : ℕ) {event : Event} (hevent : stays event = true) :
    (s.record k event).Stands (q.record k event) where
  queue := h.queue
  added := h.added
  removed := h.removed
  hist := by
    show noted s.hist k event = kept (noted q.hist k event)
    rw [kept_noted _ _ hevent, h.hist]
  stack := h.stack
  held := h.held
  touching := h.touching
  below := h.below
  copied := h.copied

omit [DecidableEq ι] in
/-- No call below the innermost one is inside the lock. -/
theorem top_rest (h : s.Stands q) (hstack : s.stack t = fr :: fs) {P : Frame τ → Bool}
    (hP : ∀ frame, frame.callback = true → P frame = false) : top P fs = false := by
  have hbelow := h.below t
  rw [hstack] at hbelow
  cases fs with
  | nil => rfl
  | cons frame fs => exact hP frame (hbelow frame List.mem_cons_self)

omit [DecidableEq ι] in
theorem tail_callback (h : s.Stands q) (hstack : s.stack t = fr :: fs) :
    ∀ frame ∈ fs, frame.callback = true := by
  have hbelow := h.below t
  rw [hstack] at hbelow
  exact hbelow

omit [DecidableEq ι] in
theorem stack_cons (h : s.Stands q) (hstack : s.stack t = fr :: fs) :
    q.stack t = fr.view ++ view fs := by
  rw [h.stack, hstack]
  rfl

omit [DecidableEq ι] in
/-- The lock there is free if it is free here. -/
theorem lock_none (h : s.Stands q) (hlock : s.lock = none) : q.lock = none := by
  cases hq : q.lock with
  | none => rfl
  | some u =>
    have htop := (h.touching u).2 hq
    have hholds : top Frame.holds (s.stack u) = true := by
      cases hstack : s.stack u with
      | nil =>
        rw [hstack] at htop
        cases htop
      | cons frame fs =>
        rw [hstack] at htop
        exact Frame.holds_of_touches htop
    have hsome := (h.held u).1 hholds
    rw [hlock] at hsome
    cases hsome

/-- `lock()` -/
theorem acquire (h : s.Stands q) (hstack : s.stack t = fr :: fs) (frame : Frame τ)
    (htouches : frame.touches = true) (hnot : ∀ task, frame ≠ .procPop task)
    (hnext : s.acquire t (frame :: fs) = .step s') :
    q.acquire t (view (frame :: fs)) =
        .step { q.goto t (view (frame :: fs)) with lock := some t } ∧
      s'.Stands { q.goto t (view (frame :: fs)) with lock := some t } := by
  rw [TaskQueueStatic.acquire] at hnext
  split_ifs at hnext with hfree
  cases hnext
  have hlock : s.lock = none := Option.isNone_iff_eq_none.1 hfree
  have hheld := h.held
  have htouching := h.touching
  rw [hlock] at hheld
  rw [h.lock_none hlock] at htouching
  refine ⟨if_pos (Option.isNone_iff_eq_none.2 (h.lock_none hlock)), ?_⟩
  refine h.goto (h.tail_callback hstack) (hheld.enter (Frame.holds_of_touches htouches))
    (htouching.enter htouches) ?_
  intro task htask
  exact absurd (Option.some.inj htask) (hnot task)

/-- `unlock()`, which the other queue has done already. -/
theorem release (h : s.Stands q) (hstack : s.stack t = fr :: fs) (hholds : fr.holds = true)
    (htouches : fr.touches = false) {frames : List (Frame τ)} (hframes : view frames = q.stack t)
    (hbelow : ∀ frame ∈ frames.tail, frame.callback = true)
    (hheld : top Frame.holds frames = false) (htouching : top Frame.touches frames = false)
    (hown : ∀ task, frames.head? ≠ some (.procPop task)) : (s.release t frames).Stands q := by
  have hinside : top Frame.holds (s.stack t) = true := by
    rw [hstack]
    exact hholds
  have houtside : top Frame.touches (s.stack t) = false := by
    rw [hstack]
    exact htouches
  have hgoto : Stands { s.goto t frames with lock := none }
      { q.goto t (view frames) with lock := q.lock } :=
    h.goto hbelow (h.held.leave hinside hheld) (h.touching.stay (htouching.trans houtside.symm))
      fun task htask => absurd htask (hown task)
  have hsame : ({ q.goto t (view frames) with lock := q.lock } : TaskQueue ι τ) = q := by
    rw [hframes]
    show ({ q with stack := Function.update q.stack t (q.stack t) } : TaskQueue ι τ) = q
    rw [Function.update_eq_self]
  rw [hsame] at hgoto
  exact hgoto

/-- `emplace()`, after which the other queue gives the lock back. -/
theorem emplace (h : s.Stands q) {task : τ} (hstack : s.stack t = .addEmplace task :: fs) :
    ∃ bs q', (TaskQueue.machine ι τ).run q bs = some q' ∧
      (s.emplace t task (.addUnlock :: fs)).Stands q' := by
  have hview := h.stack_cons hstack
  let q₁ := q.emplace t task (.addUnlock :: view fs)
  have hput : TaskQueue.next q (.step t) = .step q₁ := (next_step hview).trans rfl
  have hunlock : TaskQueue.next q₁ (.step t) = .step (q₁.release t (view fs)) :=
    (next_step (Function.update_self t _ q.stack)).trans rfl
  refine ⟨[.step t, .step t], q₁.release t (view fs), ?_, ?_⟩
  · rw [Machine.run_cons hput]
    exact Machine.run_singleton hunlock
  · have hinside : top Frame.holds (s.stack t) = true := by
      rw [hstack]
      rfl
    have htouch : top Frame.touches (s.stack t) = true := by
      rw [hstack]
      rfl
    refine h.move rfl (Function.update_idem _ _ _) (h.tail_callback hstack)
      (h.held.stay hinside.symm) (h.touching.leave htouch rfl) ?_ ?_ h.removed ?_ ?_ nofun
    · show q.queue ++ [(task, q.added.length)] = s.queue ++ [(task, s.added.length)]
      rw [h.queue, h.added]
    · show q.added ++ [task] = s.added ++ [task]
      rw [h.added]
    · show noted s.hist s.added.length .added = kept (noted q.hist q.added.length .added)
      rw [kept_noted _ _ rfl, h.hist, h.added]
    · intro u task' _ htask'
      have hhead := h.copied u task' htask'
      show (s.queue ++ _).head? = some task'
      rw [List.head?_append, hhead]
      rfl

/-- `empty()`, after which the other queue gives the lock back if there is nothing to do. -/
theorem test (h : s.Stands q) (hstack : s.stack t = .procEmpty :: fs) :
    ∃ bs q', (TaskQueue.machine ι τ).run q bs = some q' ∧
      (s.goto t ((if s.queue.isEmpty then .procBreak else .procFront) :: fs)).Stands q' := by
  have hview := h.stack_cons hstack
  have htail := h.tail_callback hstack
  have hinside : top Frame.holds (s.stack t) = true := by
    rw [hstack]
    rfl
  have htouch : top Frame.touches (s.stack t) = true := by
    rw [hstack]
    rfl
  cases hqueue : s.queue with
  | nil =>
    let q₁ := q.goto t (.procBreak :: view fs)
    have hempty : TaskQueue.next q (.step t) = .step q₁ := by
      rw [next_step hview, TaskQueue.stepFrame, h.queue, hqueue]
      rfl
    have hunlock : TaskQueue.next q₁ (.step t) = .step (q₁.release t (view fs)) :=
      (next_step (Function.update_self t _ q.stack)).trans rfl
    refine ⟨[.step t, .step t], q₁.release t (view fs), ?_, ?_⟩
    · rw [Machine.run_cons hempty]
      exact Machine.run_singleton hunlock
    · exact h.move rfl (Function.update_idem _ _ _) htail (h.held.stay hinside.symm)
        (h.touching.leave htouch rfl) h.queue h.added h.removed h.hist
        (fun u task _ => h.copied u task) nofun
  | cons task queue =>
    have hempty : TaskQueue.next q (.step t) = .step (q.goto t (.procFront false :: view fs)) := by
      rw [next_step hview, TaskQueue.stepFrame, h.queue, hqueue]
      rfl
    refine ⟨[.step t], _, Machine.run_singleton hempty, ?_⟩
    exact h.move rfl rfl htail (h.held.stay hinside.symm) (h.touching.stay htouch.symm) h.queue
      h.added h.removed h.hist (fun u task _ => h.copied u task) nofun

/-- `front()`; the other queue waits for `pop()`. -/
theorem copy (h : s.Stands q) (hstack : s.stack t = .procFront :: fs) {task : Ticket τ}
    {queue : List (Ticket τ)} (hqueue : s.queue = task :: queue) :
    (s.goto t (.procPop task :: fs)).Stands q := by
  have hinside : top Frame.holds (s.stack t) = true := by
    rw [hstack]
    rfl
  have htouch : top Frame.touches (s.stack t) = true := by
    rw [hstack]
    rfl
  refine h.move rfl ?_ (h.tail_callback hstack) (h.held.stay hinside.symm)
    (h.touching.stay htouch.symm) h.queue h.added h.removed h.hist
    (fun u task _ => h.copied u task) ?_
  · rw [show view (.procPop task :: fs) = q.stack t from (h.stack_cons hstack).symm,
      Function.update_eq_self]
  · intro other hother
    cases hother
    exact congrArg List.head? hqueue

/-- `pop()`, with which the other queue has done `front()` and `pop()` and gives the lock back. -/
theorem pop (h : s.Stands q) {task : Ticket τ} (hstack : s.stack t = .procPop task :: fs)
    (hnext : s.pop t (.procUnlock task :: fs) = .step s') :
    ∃ bs q', (TaskQueue.machine ι τ).run q bs = some q' ∧ s'.Stands q' := by
  have hview := h.stack_cons hstack
  obtain ⟨queue, hqueue⟩ : ∃ queue, s.queue = task :: queue := by
    have hhead := h.copied t task (by rw [hstack]; rfl)
    cases hs : s.queue with
    | nil =>
      rw [hs] at hhead
      cases hhead
    | cons first queue =>
      rw [hs] at hhead
      cases hhead
      exact ⟨queue, rfl⟩
  simp only [TaskQueueStatic.pop, hqueue, Outcome.step.injEq] at hnext
  subst hnext
  let q₁ : TaskQueue ι τ :=
    { (q.goto t (.procUnlock false task :: view fs)).record task.2 (.removed .processTasks) with
      queue, removed := q.removed ++ [task] }
  have htake : TaskQueue.next q (.step t) = .step q₁ := by
    rw [next_step hview, TaskQueue.stepFrame, TaskQueue.take, h.queue, hqueue]
    rfl
  have hunlock : TaskQueue.next q₁ (.step t) =
      .step (q₁.release t (.procRun false task :: view fs)) :=
    (next_step (Function.update_self t _ q.stack)).trans rfl
  refine ⟨[.step t, .step t], q₁.release t (.procRun false task :: view fs), ?_, ?_⟩
  · rw [Machine.run_cons htake]
    exact Machine.run_singleton hunlock
  · have hinside : top Frame.holds (s.stack t) = true := by
      rw [hstack]
      rfl
    have htouch : top Frame.touches (s.stack t) = true := by
      rw [hstack]
      rfl
    refine h.move rfl (Function.update_idem _ _ _) (h.tail_callback hstack)
      (h.held.stay hinside.symm) (h.touching.leave htouch rfl) rfl h.added ?_ ?_ ?_ nofun
    · show q.removed ++ [task] = s.removed ++ [task]
      rw [h.removed]
    · show noted s.hist task.2 _ = kept (noted q.hist task.2 _)
      rw [kept_noted _ _ rfl, h.hist]
    · -- Nobody else has copied the task, since nobody else is inside the lock.
      intro u other hu hother
      have htop : top Frame.touches (s.stack u) = true := by
        rw [top, hother]
        rfl
      exact absurd (h.touching.unique htop htouch) hu

/-- `ClearTasks`, which is a whole call of the other queue. -/
theorem swap [Fintype ι] (h : s.Stands q) (hstack : s.stack t = .clearSwap :: fs)
    (hrace : s.races t .clearSwap = false) :
    ∃ bs q', (TaskQueue.machine ι τ).run q bs = some q' ∧ (s.swap t fs).Stands q' := by
  have hnobody : ∀ u, top Frame.touches (s.stack u) = false := by
    intro u
    by_cases hu : u = t
    · rw [hu, hstack]
      rfl
    · by_contra htop
      refine (decide_eq_false_iff_not.1 hrace) ⟨u, hu, ?_⟩
      cases hother : s.stack u with
      | nil => simp [hother, top] at htop
      | cons frame rest =>
        rw [hother, Bool.not_eq_false] at htop
        have haccess : frame.accesses = true := Frame.accesses_iff.2 (.inl htop)
        exact (Frame.conflicts_clearSwap frame).trans haccess
  have hfree : q.lock = none := by
    cases hq : q.lock with
    | none => rfl
    | some u =>
      have htop := (h.touching u).2 hq
      rw [hnobody u] at htop
      cases htop
  have hlock : TaskQueue.next q (.step t) =
      .step { q.goto t (.clearEmpty :: view fs) with lock := some t } := by
    rw [next_step (h.stack_cons hstack), TaskQueue.stepFrame, TaskQueue.acquire, hfree]
    rfl
  obtain ⟨bs, q', hrun, hqueue, hlock', hstack', hadded, hremoved, hhist⟩ :=
    @clear_run ι τ _ { q.goto t (.clearEmpty :: view fs) with lock := some t } t (view fs)
      (Function.update_self t _ q.stack)
  refine ⟨.step t :: bs, q', (Machine.run_cons hlock bs).trans hrun, ?_⟩
  have hswap : s.swap t fs =
      { s.goto t fs with
        hist := s.queue.foldl (fun hist task => noted hist task.2 (.removed .clearTasks)) s.hist
        queue := []
        removed := s.removed ++ s.queue } := by
    rw [TaskQueueStatic.swap, foldl_record]
    rfl
  have hholds : top Frame.holds fs = false :=
    h.top_rest hstack fun _ => Frame.not_holds_of_callback
  have htouch : top Frame.touches fs = false :=
    h.top_rest hstack fun _ => Frame.not_touches_of_callback
  have houtside : top Frame.holds (s.stack t) = false := by
    rw [hstack]
    rfl
  have htail : ∀ frame ∈ fs.tail, frame.callback = true :=
    fun frame hframe => h.tail_callback hstack frame (List.mem_of_mem_tail hframe)
  have htouching := h.touching
  rw [hfree] at htouching
  rw [hswap]
  refine h.move rfl ?_ htail (h.held.stay (hholds.trans houtside.symm)) ?_ hqueue
    (hadded.trans h.added) ?_ ?_ ?_ ?_
  · rw [hstack']
    exact Function.update_idem _ _ _
  · rw [hlock']
    exact htouching.stay (htouch.trans (hnobody t).symm)
  · show q'.removed = s.removed ++ s.queue
    rw [hremoved]
    show q.removed ++ q.queue = _
    rw [h.removed, h.queue]
  · show _ = kept q'.hist
    rw [hhist]
    show _ = q.queue.foldl _ (kept q.hist)
    rw [h.hist, h.queue]
  · intro u task _ htask
    have htop : top Frame.touches (s.stack u) = true := by
      rw [top, htask]
      rfl
    rw [hnobody u] at htop
    cases htop
  · intro task htask
    have hcallback := h.tail_callback hstack (.procPop task) (List.mem_of_mem_head? htask)
    cases hcallback

/-- The innermost call of a thread steps. -/
theorem stepFrame [Fintype ι] (h : s.Stands q) (hstack : s.stack t = fr :: fs)
    (hrace : s.races t fr = false) (hnext : s.stepFrame t fr fs = .step s') :
    ∃ bs q', (TaskQueue.machine ι τ).run q bs = some q' ∧ s'.Stands q' := by
  have hview := h.stack_cons hstack
  have htail := h.tail_callback hstack
  have hholds : top Frame.holds fs = false :=
    h.top_rest hstack fun _ => Frame.not_holds_of_callback
  have htouches : top Frame.touches fs = false :=
    h.top_rest hstack fun _ => Frame.not_touches_of_callback
  have hnone : ∀ task, fs.head? ≠ some (.procPop task) := by
    intro task htask
    cases htail (.procPop task) (List.mem_of_mem_head? htask)
  have htail' : ∀ frame ∈ fs.tail, frame.callback = true :=
    fun frame hframe => htail frame (List.mem_of_mem_tail hframe)
  cases fr with
  | addLock task =>
    obtain ⟨hq, hs⟩ := h.acquire hstack (.addEmplace task) rfl nofun hnext
    exact ⟨[.step t], _, Machine.run_singleton ((next_step hview).trans hq), hs⟩
  | procLock =>
    obtain ⟨hq, hs⟩ := h.acquire hstack .procEmpty rfl nofun hnext
    exact ⟨[.step t], _, Machine.run_singleton ((next_step hview).trans hq), hs⟩
  | addEmplace task =>
    cases hnext
    exact h.emplace hstack
  | addUnlock =>
    cases hnext
    exact ⟨[], q, rfl, h.release hstack rfl rfl hview.symm htail' hholds htouches hnone⟩
  | procBreak =>
    cases hnext
    exact ⟨[], q, rfl, h.release hstack rfl rfl hview.symm htail' hholds htouches hnone⟩
  | procUnlock task =>
    cases hnext
    exact ⟨[], q, rfl, h.release hstack rfl rfl hview.symm htail rfl rfl nofun⟩
  | procEmpty =>
    cases hnext
    exact h.test hstack
  | procFront =>
    simp only [TaskQueueStatic.stepFrame, TaskQueueStatic.front] at hnext
    cases hqueue : s.queue with
    | nil => simp only [hqueue, reduceCtorEq] at hnext
    | cons task queue =>
      simp only [hqueue, Outcome.step.injEq] at hnext
      subst hnext
      exact ⟨[], q, rfl, h.copy hstack hqueue⟩
  | procPop task => exact h.pop hstack hnext
  | procRun task =>
    cases hnext
    have hrun : TaskQueue.next q (.step t) =
        .step ((q.goto t (.procRunning false task :: view fs)).record task.2 .runBegin) :=
      (next_step hview).trans rfl
    have houtside : top Frame.holds (s.stack t) = false := by
      rw [hstack]
      rfl
    have hnot : top Frame.touches (s.stack t) = false := by
      rw [hstack]
      rfl
    have hgoto : Stands { s.goto t (.procRunning task :: fs) with lock := s.lock }
        { q.goto t (view (.procRunning task :: fs)) with lock := q.lock } :=
      h.goto htail (h.held.stay houtside.symm) (h.touching.stay hnot.symm) nofun
    exact ⟨[.step t], _, Machine.run_singleton hrun, hgoto.record task.2 rfl⟩
  | procRunning task => cases hnext
  | clearSwap =>
    cases hnext
    exact h.swap hstack hrace

/-- `Run` returns; the other queue calls `Dispose`, which returns at once. -/
theorem ret (h : s.Stands q) {task : Ticket τ} (hstack : s.stack t = .procRunning task :: fs) :
    ∃ bs q', (TaskQueue.machine ι τ).run q bs = some q' ∧
      ((s.goto t (.procLock :: fs)).record task.2 .runEnd).Stands q' := by
  let q₁ := (q.goto t (.procDispose false task :: view fs)).record task.2 .runEnd
  let q₂ := (q₁.goto t (.procDisposing false task :: view fs)).record task.2 .disposeBegin
  let q₃ := q₂.finish t .processTasks task (.procLock false :: view fs)
  have hend : TaskQueue.next q (.ret t) = .step q₁ := (next_ret (h.stack_cons hstack)).trans rfl
  have hdispose : TaskQueue.next q₁ (.step t) = .step q₂ :=
    (next_step (Function.update_self t _ q.stack)).trans rfl
  have hdisposed : TaskQueue.next q₂ (.ret t) = .step q₃ :=
    (next_ret (Function.update_self t _ q₁.stack)).trans rfl
  have hstack₃ : q₃.stack = Function.update q.stack t (view (.procLock :: fs)) := by
    show Function.update (Function.update (Function.update q.stack t _) t _) t _ = _
    simp only [Function.update_idem]
    rfl
  have hhist₃ : kept q₃.hist = noted s.hist task.2 .runEnd := by
    show kept (noted (noted (noted q.hist task.2 .runEnd) task.2 .disposeBegin) task.2
      .disposeEnd) = _
    rw [kept_noted_dispose _ _ rfl, kept_noted_dispose _ _ rfl, kept_noted _ _ rfl, h.hist]
  have houtside : top Frame.holds (s.stack t) = false := by
    rw [hstack]
    rfl
  have hnot : top Frame.touches (s.stack t) = false := by
    rw [hstack]
    rfl
  refine ⟨[.ret t, .step t, .ret t], q₃, ?_, ?_⟩
  · rw [Machine.run_cons hend, Machine.run_cons hdispose]
    exact Machine.run_singleton hdisposed
  · exact h.move rfl hstack₃ (h.tail_callback hstack) (h.held.stay houtside.symm)
      (h.touching.stay hnot.symm) h.queue h.added h.removed hhist₃.symm
      (fun u other _ => h.copied u other) nofun

/-- A thread that may call the queue is not inside it. -/
theorem mayCall_top {stack : List (Frame τ)} (h : mayCall stack = true) {P : Frame τ → Bool}
    (hP : ∀ frame, frame.callback = true → P frame = false) : top P stack = false := by
  cases stack with
  | nil => rfl
  | cons frame rest => exact hP frame h

theorem call (h : s.Stands q) (op : Op τ) (hmay : mayCall (s.stack t) = true) :
    ∃ bs q', (TaskQueue.machine ι τ).run q bs = some q' ∧
      (s.goto t (op.enter :: s.stack t)).Stands q' := by
  have hcallback : ∀ frame ∈ s.stack t, frame.callback = true := by
    intro frame hframe
    have hbelow := h.below t
    cases hstack : s.stack t with
    | nil =>
      rw [hstack] at hframe
      cases hframe
    | cons first rest =>
      rw [hstack] at hframe hbelow hmay
      rcases List.mem_cons.1 hframe with rfl | hrest
      · exact hmay
      · exact hbelow frame hrest
  have hmay' : TaskQueue.mayCall (q.stack t) = true := by
    rw [h.stack]
    cases hstack : s.stack t with
    | nil => rfl
    | cons first rest =>
      have hfirst := hcallback first (by rw [hstack]; exact List.mem_cons_self)
      cases first <;> first | rfl | cases hfirst
  have houtside : top Frame.holds (s.stack t) = false :=
    mayCall_top hmay fun _ => Frame.not_holds_of_callback
  have hnot : top Frame.touches (s.stack t) = false :=
    mayCall_top hmay fun _ => Frame.not_touches_of_callback
  have henter : ∃ op' : TaskQueue.Op τ, op.enter.view = [op'.enter] := by
    cases op with
    | addTask task => exact ⟨.addTask task, rfl⟩
    | processTasks => exact ⟨.processTasks, rfl⟩
    | clearTasks => exact ⟨.clearTasks, rfl⟩
  obtain ⟨op', hop'⟩ := henter
  have hcall : TaskQueue.next q (.call t op') = .step (q.goto t (op'.enter :: q.stack t)) :=
    if_pos hmay'
  have hview : view (op.enter :: s.stack t) = op'.enter :: q.stack t := by
    rw [h.stack]
    exact congrArg (· ++ view (s.stack t)) hop'
  refine ⟨[.call t op'], _, Machine.run_singleton hcall, ?_⟩
  refine h.move rfl (by rw [hview]; rfl) hcallback (h.held.stay ?_) (h.touching.stay ?_) h.queue
    h.added h.removed h.hist (fun u other _ => h.copied u other) ?_
  · rw [houtside]
    cases op <;> rfl
  · rw [hnot]
    cases op <;> rfl
  · cases op <;> exact nofun

/-- **Every step is a run of the other queue.** -/
theorem next [Fintype ι] (h : s.Stands q) {a : Label ι τ} (hnext : s.next a = .step s') :
    ∃ bs q', (TaskQueue.machine ι τ).run q bs = some q' ∧ s'.Stands q' := by
  cases a with
  | call t op =>
    simp only [TaskQueueStatic.next] at hnext
    split_ifs at hnext with hmay
    cases hnext
    exact h.call op hmay
  | ret t =>
    cases hstack : s.stack t with
    | nil => simp only [TaskQueueStatic.next, hstack, reduceCtorEq] at hnext
    | cons frame rest =>
      simp only [TaskQueueStatic.next, hstack] at hnext
      cases frame with
      | procRunning task =>
        cases hnext
        exact h.ret hstack
      | _ => cases hnext
  | step t =>
    cases hstack : s.stack t with
    | nil => simp only [TaskQueueStatic.next, hstack, reduceCtorEq] at hnext
    | cons frame rest =>
      simp only [TaskQueueStatic.next, hstack] at hnext
      split_ifs at hnext with hrace
      exact h.stepFrame hstack (Bool.eq_false_of_not_eq_true hrace) hnext

end Stands

end

end TaskQueueStatic

end SseExt
