import SseExt.Tasks.Delivery

/-!
# Callbacks of `TaskQueue` that call the queue

`ProcessTasks` unlocks before it calls `Run` and `Dispose`. `ClearTasks` calls `Dispose` under the
lock, which is not reentrant: a `Dispose` that calls the queue spins on the lock of its own thread
(`clear_locks_itself`), for ever (`SelfLocked.forever`).

**Theorem (`no_self_lock`).** In a run in which no `Dispose` called by `ClearTasks` calls the queue,
no thread ever tries to take the lock while it holds it.

The invariant is `OnTop`: a call inside the lock is the innermost of its thread. It is lost by a
call from `clearDisposing`, the one callback inside the lock, and by nothing else. Such a call locks
itself out at once (`selfLocked_of_call`), so the condition is sharp.
-/

namespace SseExt.TaskQueue

variable {ι τ : Type*} [DecidableEq ι] {s s' : TaskQueue ι τ} {t u : ι} {frame : Frame τ}
  {rest : List (Frame τ)}

/-- The thread is about to take the lock, and holds it. -/
def SelfLocked (s : TaskQueue ι τ) (t : ι) : Prop :=
  s.lock = some t ∧ ∃ frame rest, s.stack t = frame :: rest ∧ frame.wants = true

/-! ## The defect -/

/-- A task is added; `ClearTasks` disposes of it; what it captured adds a task. -/
def clearThenAdd (t : ι) : List (Label ι ℕ) :=
  [.call t (.addTask 7), .step t, .step t, .step t,
    .call t .clearTasks, .step t, .step t, .step t, .step t, .call t (.addTask 8)]

/-- **A thread waits for itself.** One thread and one task are enough. -/
theorem clear_locks_itself : ∃ s, (machine (Fin 1) ℕ).Reach s ∧ SelfLocked s 0 := by
  have hrun : ∃ s, (machine (Fin 1) ℕ).run init (clearThenAdd 0) = some s ∧ s.lock = some 0 ∧
      s.stack 0 = [.addLock 8, .clearDisposing (7, 0)] := ⟨_, rfl, rfl, rfl⟩
  obtain ⟨s, hs, hlock, hstack⟩ := hrun
  exact ⟨s, Machine.reach_of_run .init hs, hlock, _, _, hstack, rfl⟩

/-! ## Runs without it -/

/-- The thread is in a `Dispose` that `ClearTasks` has called. -/
def disposing : List (Frame τ) → Bool
  | .clearDisposing _ :: _ => true
  | _ => false

/-- The step is no call of the queue from a `Dispose` that `ClearTasks` has called. -/
def DisposeQuiet (s : TaskQueue ι τ) : Label ι τ → Prop
  | .call t _ => disposing (s.stack t) = false
  | _ => True

instance (s : TaskQueue ι τ) (a : Label ι τ) : Decidable (DisposeQuiet s a) :=
  match a with
  | .call t _ => inferInstanceAs (Decidable (disposing (s.stack t) = false))
  | .ret _ | .step _ | .budget _ _ => isTrue trivial

/-- What a step does to the stack of its thread. -/
inductive StackStep : Label ι τ → List (Frame τ) → List (Frame τ) → Prop
  | move (a : Label ι τ) (frame frame' : Frame τ) (rest : List (Frame τ)) :
    StackStep a (frame :: rest) (frame' :: rest)
  | leave (a : Label ι τ) (frame : Frame τ) (rest : List (Frame τ)) :
    StackStep a (frame :: rest) rest
  | call (t : ι) (op : Op τ) (stack : List (Frame τ)) (hmay : mayCall stack = true) :
    StackStep (.call t op) stack (op.enter :: stack)

/-- The step moves the stack of one thread. The lock changes only when it is free or when that
thread is inside it. -/
structure Moves (s : TaskQueue ι τ) (a : Label ι τ) (s' : TaskQueue ι τ) : Prop where
  stack : ∃ frames, s'.stack = Function.update s.stack a.thread frames ∧
    StackStep a (s.stack a.thread) frames
  lock : s'.lock = s.lock ∨ s.lock = none ∨ ∃ frame ∈ s.stack a.thread, frame.holds = true

namespace Moves

variable {a : Label ι τ}

theorem goto (ht : a.thread = t) (hstack : s.stack t = frame :: rest) (frame' : Frame τ)
    (hs : s'.stack = Function.update s.stack t (frame' :: rest)) (hlock : s'.lock = s.lock) :
    Moves s a s' := by
  subst ht
  exact ⟨⟨_, hs, hstack ▸ .move a frame frame' rest⟩, .inl hlock⟩

theorem acquire (ht : a.thread = t) (hstack : s.stack t = frame :: rest) (frame' : Frame τ) :
    (s.acquire t (frame' :: rest)).Leads (Moves s a) := by
  unfold TaskQueue.acquire
  split_ifs with hfree
  · subst ht
    exact ⟨⟨_, rfl, hstack ▸ .move a frame frame' rest⟩,
      .inr (.inl (Option.isNone_iff_eq_none.1 hfree))⟩
  · trivial

theorem release (ht : a.thread = t) (hstack : s.stack t = frame :: rest)
    (hholds : frame.holds = true) {frames : List (Frame τ)}
    (hstep : StackStep a (frame :: rest) frames) : Moves s a (s.release t frames) := by
  subst ht
  exact ⟨⟨_, rfl, hstack ▸ hstep⟩,
    .inr (.inr ⟨frame, by rw [hstack]; exact List.mem_cons_self, hholds⟩)⟩

theorem take (ht : a.thread = t) (hstack : s.stack t = frame :: rest) (remover : Remover)
    (next : Ticket τ → Frame τ) : (s.take t remover next rest).Leads (Moves s a) := by
  unfold TaskQueue.take
  split
  · trivial
  · exact .goto ht hstack _ rfl rfl

end Moves

theorem next_moves (s : TaskQueue ι τ) (a : Label ι τ) : (next s a).Leads (Moves s a) := by
  cases a with
  | call t op =>
    simp only [next]
    split_ifs with hmay
    · exact ⟨⟨_, rfl, .call t op _ hmay⟩, .inl rfl⟩
    · trivial
  | ret t =>
    simp only [next]
    cases hstack : s.stack t with
    | nil => trivial
    | cons frame rest =>
      cases frame with
      | procRunning | procDisposing | clearDisposing => exact .goto rfl hstack _ rfl rfl
      | _ => trivial
  | budget t exceeded =>
    simp only [next]
    cases hstack : s.stack t with
    | nil => trivial
    | cons frame rest =>
      cases frame with
      | procBudget =>
        cases exceeded with
        | false => exact .goto rfl hstack _ rfl rfl
        | true => exact ⟨⟨_, rfl, hstack ▸ .leave _ _ rest⟩, .inl rfl⟩
      | _ => trivial
  | step t =>
    simp only [next]
    cases hstack : s.stack t with
    | nil => trivial
    | cons frame rest =>
      cases frame with
      | addLock | procLock | clearLock => exact Moves.acquire rfl hstack _
      | procFront | clearFront => exact Moves.take rfl hstack _ _
      | addUnlock | procBreak | clearUnlock => exact .release rfl hstack rfl (.leave _ _ rest)
      | procUnlock => exact .release rfl hstack rfl (.move _ _ _ rest)
      | procRunning | procDisposing | clearDisposing | procBudget => trivial
      | _ => exact .goto rfl hstack _ rfl rfl

/-- A call inside the lock is the innermost of its thread. -/
def OnTop (stack : List (Frame τ)) : Prop := stack.tail.countP Frame.holds = 0

/-- Outside `clearDisposing` no callback is inside the lock. -/
theorem countP_of_call {stack : List (Frame τ)} (h : OnTop stack) (hmay : mayCall stack = true)
    (hquiet : disposing stack = false) : stack.countP Frame.holds = 0 := by
  cases stack with
  | nil => rfl
  | cons frame rest =>
    have hrest : rest.countP Frame.holds = 0 := h
    have hholds : frame.holds = false := by
      cases frame with
      | procRunning | procDisposing => rfl
      | clearDisposing task => exact absurd hquiet (by simp [disposing])
      | _ => exact absurd hmay (by simp [mayCall, Frame.callback])
    rw [List.countP_cons_of_neg (by simp [hholds]), hrest]

omit [DecidableEq ι] in
theorem StackStep.onTop {a : Label ι τ} {stack frames : List (Frame τ)}
    (hstep : StackStep a stack frames) (h : OnTop stack)
    (hquiet : ∀ t op, a = .call t op → disposing stack = false) : OnTop frames := by
  cases hstep with
  | move frame frame' rest => exact h
  | leave frame rest =>
    have hle : frames.tail.countP Frame.holds ≤ frames.countP Frame.holds :=
      (List.tail_sublist frames).countP_le
    exact Nat.le_zero.1 (hle.trans_eq h)
  | call t op stack hmay => exact countP_of_call h hmay (hquiet t op rfl)

theorem onTop_reach (h : (machine ι τ).ReachIf DisposeQuiet s) : ∀ t, OnTop (s.stack t) := by
  refine h.preserved (I := fun s => ∀ t, OnTop (s.stack t)) (fun _ => ?_) fun s a hquiet hs => ?_
  · rfl
  · apply (next_moves s a).mono
    intro s' ⟨⟨frames, hstack, hstep⟩, _⟩ t
    rw [hstack]
    by_cases ht : t = a.thread
    · rw [ht, Function.update_self]
      apply hstep.onTop (hs a.thread)
      intro u op ha
      rw [ha] at hquiet ⊢
      exact hquiet
    · rw [Function.update_of_ne ht]
      exact hs t

theorem Frame.not_holds_of_wants (h : frame.wants = true) : frame.holds = false := by
  cases frame <;> first | rfl | cases h

section

variable [Fintype ι]

/-- **No thread tries to take the lock while it holds it**, in runs in which no `Dispose` called by
`ClearTasks` calls the queue. -/
theorem no_self_lock (h : (machine ι τ).ReachIf DisposeQuiet s) (t : ι) : ¬ SelfLocked s t := by
  intro ⟨hlock, frame, rest, hstack, hwants⟩
  have hexclusive := (inv_reach h.reach).exclusive t
  have hbelow : rest.countP Frame.holds = 0 := by
    have hontop := onTop_reach h t
    rwa [hstack] at hontop
  have hholds := Frame.not_holds_of_wants hwants
  rw [hstack, if_pos hlock, List.countP_cons_of_neg (by simp [hholds]), hbelow] at hexclusive
  cases hexclusive

/-- A task whose `Run` adds a task is processed; then `ClearTasks` disposes of the other. -/
def runThenAdd (t : ι) : List (Label ι ℕ) :=
  [.call t (.addTask 7), .step t, .step t, .step t, .call t .processTasksBudget, .step t, .step t,
    .step t, .step t, .step t, .call t (.addTask 8), .step t, .step t, .step t, .ret t, .step t,
    .ret t, .budget t true, .call t .clearTasks, .step t, .step t, .step t, .step t]

theorem no_self_lock_runThenAdd : ∃ s, (machine (Fin 1) ℕ).run init (runThenAdd 0) = some s ∧
    s.stack 0 = [.clearDisposing (8, 1)] ∧ ¬ SelfLocked s 0 := by
  have hrun : ∃ s, (machine (Fin 1) ℕ).runIf (fun s a => decide (DisposeQuiet s a)) init
      (runThenAdd 0) = some s ∧ (machine (Fin 1) ℕ).run init (runThenAdd 0) = some s ∧
      s.stack 0 = [.clearDisposing (8, 1)] := ⟨_, rfl, rfl, rfl⟩
  obtain ⟨s, hs, hrun, hstack⟩ := hrun
  have hreach : (machine (Fin 1) ℕ).ReachIf DisposeQuiet s :=
    Machine.reachIf_of_runIf (fun _ _ hb => of_decide_eq_true hb) .init hs
  exact ⟨s, hrun, hstack, no_self_lock hreach 0⟩

/-- The callbacks that run under the lock are those of `ClearTasks`. -/
theorem callback_unlocked (h : (machine ι τ).ReachIf DisposeQuiet s)
    (hstack : s.stack t = frame :: rest) (hcallback : frame.callback = true)
    (hlock : s.lock = some t) : ∃ task, frame = .clearDisposing task := by
  have hexclusive := (inv_reach h.reach).exclusive t
  have hbelow : rest.countP Frame.holds = 0 := by
    have hontop := onTop_reach h t
    rwa [hstack] at hontop
  rw [hstack, if_pos hlock, List.countP_cons, hbelow] at hexclusive
  cases frame with
  | clearDisposing task => exact ⟨task, rfl⟩
  | procRunning | procDisposing => simp [Frame.holds] at hexclusive
  | _ => cases hcallback

/-! ## The condition is sharp -/

/-- A call from a `Dispose` that `ClearTasks` has called locks its thread out. -/
theorem selfLocked_of_call (h : (machine ι τ).Reach s) {task : Ticket τ}
    (hstack : s.stack t = .clearDisposing task :: rest) (op : Op τ) :
    ∃ s', next s (.call t op) = .step s' ∧ SelfLocked s' t := by
  have hlock : s.lock = some t :=
    (inv_reach h).exclusive.holder (by rw [hstack]; exact List.mem_cons_self) rfl
  refine ⟨s.goto t (op.enter :: s.stack t), ?_, hlock, op.enter, s.stack t, ?_, ?_⟩
  · simp only [next, hstack]
    rfl
  · exact Function.update_self t _ _
  · cases op <;> rfl

omit [Fintype ι] in
/-- The spinning thread has no step. -/
theorem SelfLocked.blocked (h : SelfLocked s t) {a : Label ι τ} (ht : a.thread = t) :
    next s a = .blocked := by
  obtain ⟨hlock, frame, rest, hstack, hwants⟩ := h
  have hspin : ∀ stack, s.acquire t stack = .blocked := by
    intro stack
    rw [acquire, hlock]
    rfl
  cases a with
  | call u op =>
    change u = t at ht
    have hcallback : frame.callback = false := by
      cases frame <;> first | rfl | cases hwants
    simp [next, ht, hstack, mayCall, hcallback]
  | ret u =>
    change u = t at ht
    simp only [next, ht, hstack]
    cases frame <;> first | rfl | cases hwants
  | budget u exceeded =>
    change u = t at ht
    simp only [next, ht, hstack]
    cases frame <;> first | rfl | cases hwants
  | step u =>
    change u = t at ht
    simp only [next, ht, hstack]
    cases frame <;> first | exact hspin _ | cases hwants

/-- **A thread that has locked itself out stays so**, whatever the others do. -/
theorem SelfLocked.forever (h : SelfLocked s t) (hr : (machine ι τ).Reach s) (a : Label ι τ) :
    (next s a).Leads fun s' => SelfLocked s' t := by
  by_cases ht : a.thread = t
  · rw [h.blocked ht]
    trivial
  · obtain ⟨hlock, frame, rest, hstack, hwants⟩ := h
    apply (next_moves s a).mono
    intro s' ⟨⟨frames, hs, _⟩, hmoves⟩
    refine ⟨?_, frame, rest, ?_, hwants⟩
    · rcases hmoves with hsame | hfree | ⟨g, hg, hholds⟩
      · rw [hsame, hlock]
      · rw [hfree] at hlock
        cases hlock
      · have hholder := (inv_reach hr).exclusive.holder hg hholds
        exact absurd (Option.some.inj (hholder.symm.trans hlock)) ht
    · rw [hs, Function.update_of_ne (Ne.symm ht), hstack]

end

end SseExt.TaskQueue
