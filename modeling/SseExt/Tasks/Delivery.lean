import SseExt.Tasks.TaskQueue
import Mathlib.Tactic.Abel

/-!
# Exactly-once delivery of `TaskQueue`

**Theorem (`exactly_once`).** In every state of every run, each task occurrence that was added is in
one of three places, once: in the queue, in the hands of one call that has removed it and not yet
disposed of it, or disposed of. Its history is a beginning of one of two:

- added, removed by `ProcessTasks`, `Run` begins, `Run` ends, `Dispose` begins, `Dispose` ends;
- added, removed by `ClearTasks`, `Dispose` begins, `Dispose` ends.

Occurrences leave the queue in the order in which they were added, none skipped, and `front()` is
never called on an empty queue.

`Inv.account` is the whole bookkeeping as one equation: the queue, the calls and the disposed
occurrences, each with the history that its place implies, are the ledger of the occurrences with
the histories that were recorded.
-/

namespace SseExt.TaskQueue

variable {ι τ : Type*}

/-! ## Places -/

/-- The history of an occurrence that has been disposed of. -/
def complete : Remover → List Event
  | .processTasks =>
    [.added, .removed .processTasks, .runBegin, .runEnd, .disposeBegin, .disposeEnd]
  | .clearTasks => [.added, .removed .clearTasks, .disposeBegin, .disposeEnd]

/-- The occurrence a frame has in hand, with its history. -/
def Frame.place : Frame τ → List (Ticket τ × List Event)
  | .procUnlock _ task | .procRun _ task => [(task, [.added, .removed .processTasks])]
  | .procRunning _ task => [(task, [.added, .removed .processTasks, .runBegin])]
  | .procDispose _ task => [(task, [.added, .removed .processTasks, .runBegin, .runEnd])]
  | .procDisposing _ task =>
    [(task, [.added, .removed .processTasks, .runBegin, .runEnd, .disposeBegin])]
  | .clearDispose task => [(task, [.added, .removed .clearTasks])]
  | .clearDisposing task => [(task, [.added, .removed .clearTasks, .disposeBegin])]
  | _ => []

/-- What the calls of one thread have in hand. -/
def placed (stack : List (Frame τ)) : Multiset (Ticket τ × List Event) :=
  ↑(stack.flatMap Frame.place)

/-- What is in the queue. -/
def waiting (queue : List (Ticket τ)) : Multiset (Ticket τ × List Event) :=
  ↑(queue.map fun task => (task, [Event.added]))

/-- What has been disposed of. -/
def finished (disposed : List (Ticket τ × Remover)) : Multiset (Ticket τ × List Event) :=
  ↑(disposed.map fun d => (d.1, complete d.2))

@[simp] theorem placed_cons (frame : Frame τ) (rest : List (Frame τ)) :
    placed (frame :: rest) = ↑frame.place + placed rest := rfl

theorem waiting_cons (task : Ticket τ) (queue : List (Ticket τ)) :
    waiting (task :: queue) = waiting queue + {(task, [Event.added])} := by
  rw [add_comm]
  rfl

theorem waiting_snoc (queue : List (Ticket τ)) (task : Ticket τ) :
    waiting (queue ++ [task]) = waiting queue + {(task, [Event.added])} := by
  rw [waiting, List.map_append, ← Multiset.coe_add]
  rfl

theorem finished_snoc (disposed : List (Ticket τ × Remover)) (task : Ticket τ)
    (remover : Remover) :
    finished (disposed ++ [(task, remover)]) = finished disposed + {(task, complete remover)} := by
  rw [finished, List.map_append, ← Multiset.coe_add]
  rfl

def outside (s : TaskQueue ι τ) : Multiset (Ticket τ × List Event) :=
  waiting s.queue + finished s.disposed

/-! ## The lock -/

/-- The frame is at `front()`. -/
def Frame.fronts : Frame τ → Bool
  | .procFront _ | .clearFront => true
  | _ => false

theorem Frame.holds_of_fronts {frame : Frame τ} (h : frame.fronts = true) : frame.holds = true := by
  cases frame <;> first | rfl | cases h

/-- The thread that holds the lock has one frame inside it, the others have none. -/
def Exclusive [DecidableEq ι] (lock : Option ι) (stack : ι → List (Frame τ)) : Prop :=
  ∀ t, (stack t).countP Frame.holds = if lock = some t then 1 else 0

namespace Exclusive

variable [DecidableEq ι] {lock : Option ι} {stack : ι → List (Frame τ)} {t u : ι}
  {frames : List (Frame τ)}

theorem holder (h : Exclusive lock stack) {frame : Frame τ} (hf : frame ∈ stack t)
    (hholds : frame.holds = true) : lock = some t := by
  have hpos : 0 < (stack t).countP Frame.holds := List.countP_pos_iff.2 ⟨frame, hf, hholds⟩
  have hcount := h t
  by_contra hlock
  rw [if_neg hlock] at hcount
  omega

/-- Below the frame that holds the lock no frame does. -/
theorem below (h : Exclusive lock stack) {frame : Frame τ} {rest : List (Frame τ)}
    (hstack : stack t = frame :: rest) (hholds : frame.holds = true) :
    rest.countP Frame.holds = 0 := by
  have hlock : lock = some t := h.holder (by rw [hstack]; exact List.mem_cons_self) hholds
  have hcount := h t
  rw [hstack, List.countP_cons_of_pos hholds, if_pos hlock] at hcount
  omega

theorem enter (h : Exclusive none stack) (hframes : frames.countP Frame.holds = 1) :
    Exclusive (some t) (Function.update stack t frames) := by
  intro u
  by_cases hut : u = t
  · rw [hut, Function.update_self, if_pos rfl, hframes]
  · have hne : ¬ some t = some u := fun e => hut (Option.some.inj e).symm
    rw [Function.update_of_ne hut, h u, if_neg nofun, if_neg hne]

theorem leave (h : Exclusive (some t) stack) (hframes : frames.countP Frame.holds = 0) :
    Exclusive none (Function.update stack t frames) := by
  intro u
  rw [if_neg nofun]
  by_cases hut : u = t
  · rw [hut, Function.update_self, hframes]
  · have hne : ¬ some t = some u := fun e => hut (Option.some.inj e).symm
    rw [Function.update_of_ne hut, h u, if_neg hne]

theorem stay (h : Exclusive lock stack)
    (hframes : frames.countP Frame.holds = (stack t).countP Frame.holds) :
    Exclusive lock (Function.update stack t frames) := by
  intro u
  by_cases hut : u = t
  · rw [hut, Function.update_self, hframes]
    exact h t
  · rw [Function.update_of_ne hut]
    exact h u

end Exclusive

/-! ## The invariant -/

section

variable [DecidableEq ι] [Fintype ι]

structure Inv (s : TaskQueue ι τ) : Prop where
  account : s.outside + ∑ t, placed (s.stack t) = ledger s.added s.hist
  exclusive : Exclusive s.lock s.stack
  front : ∀ t, ∀ frame ∈ s.stack t, frame.fronts = true → s.queue ≠ []
  order : s.removed ++ s.queue = tickets s.added
  unborn : ∀ k, s.added.length ≤ k → s.hist k = []

namespace Inv

variable {s : TaskQueue ι τ} {t : ι} {frame frame' : Frame τ} {rest frames : List (Frame τ)}

theorem init : Inv (init : TaskQueue ι τ) where
  account := by simp [outside, waiting, finished, TaskQueue.init, placed, ledger, tickets]
  exclusive _ := rfl
  front _ _ hframe := nomatch hframe
  order := rfl
  unborn _ _ := rfl

/-- The front frames after thread `t` has got the stack `frames`. -/
theorem front_update (h : Inv s) (hfront : ∀ frame ∈ frames, frame.fronts = true → s.queue ≠ []) :
    ∀ u, ∀ frame ∈ Function.update s.stack t frames u, frame.fronts = true → s.queue ≠ [] := by
  intro u frame hframe
  by_cases hut : u = t
  · rw [hut, Function.update_self] at hframe
    exact hfront frame hframe
  · rw [Function.update_of_ne hut] at hframe
    exact h.front u frame hframe

/-- What a thread has in hand stays with it. -/
theorem account_stay (h : Inv s) (hplaced : placed frames = placed (s.stack t)) :
    s.outside + ∑ u, placed (Function.update s.stack t frames u) = ledger s.added s.hist :=
  (add_sum_update placed (Finset.mem_univ t) (congrArg _ hplaced)).trans h.account

omit [DecidableEq ι] [Fintype ι] in
/-- The task in hand of the innermost frame. -/
theorem mem_outside_placed (hstack : s.stack t = frame :: rest) {task : Ticket τ}
    {past : List Event} (hplace : frame.place = [(task, past)]) :
    (task, past) ∈ s.outside + placed (s.stack t) := by
  rw [hstack, placed_cons, hplace]
  simp

/-- What is found at a place is an occurrence, with its history. -/
theorem entry (h : Inv s) {task : Ticket τ} {past : List Event}
    (hmem : (task, past) ∈ s.outside + placed (s.stack t)) :
    (task, past) ∈ ledger s.added s.hist := by
  rw [← h.account, Multiset.mem_add, Multiset.mem_sum]
  rcases Multiset.mem_add.1 hmem with hout | hin
  · exact .inl hout
  · exact .inr ⟨t, Finset.mem_univ t, hin⟩

/-- **An event of an occurrence moves its entry.** -/
theorem account_record (h : Inv s) {task : Ticket τ} {past : List Event} {event : Event}
    {outside' : Multiset (Ticket τ × List Event)}
    (hmem : (task, past) ∈ s.outside + placed (s.stack t))
    (hmove : outside' + {(task, past)} + placed frames =
      s.outside + {(task, past ++ [event])} + placed (s.stack t)) :
    outside' + ∑ u, placed (Function.update s.stack t frames u) =
      ledger s.added (Function.update s.hist task.2 (s.hist task.2 ++ [event])) := by
  have hentry := h.entry hmem
  have hsum := add_sum_update placed (Finset.mem_univ t) hmove
  have hledger := ledger_update hentry (past ++ [event])
  rw [(mem_ledger.1 hentry).2]
  apply @add_right_cancel _ _ _ _ {(task, past)}
  rw [hledger, add_right_comm, hsum, add_right_comm, h.account]

/-- Events happen to occurrences that have been added. -/
theorem unborn_record (h : Inv s) {task : Ticket τ} {past : List Event}
    (hmem : (task, past) ∈ s.outside + placed (s.stack t)) (hist : List Event) :
    ∀ k, s.added.length ≤ k → Function.update s.hist task.2 hist k = [] := by
  intro k hk
  have hissued := mem_tickets.1 (mem_ledger.1 (h.entry hmem)).1
  have hlt : task.2 < s.added.length := (List.getElem?_eq_some_iff.1 hissued).1
  rw [Function.update_of_ne (by omega)]
  exact h.unborn k hk

/-! ### Moves of one thread -/

/-- A move that leaves the lock and the queue alone. -/
theorem goto (h : Inv s) (hplaced : placed frames = placed (s.stack t))
    (hholds : frames.countP Frame.holds = (s.stack t).countP Frame.holds)
    (hfront : ∀ frame ∈ frames, frame.fronts = true → s.queue ≠ []) : Inv (s.goto t frames) :=
  ⟨h.account_stay hplaced, h.exclusive.stay hholds, h.front_update hfront, h.order, h.unborn⟩

/-- The frames below the innermost are those of the thread before. -/
theorem front_below (h : Inv s) (hstack : s.stack t = frame :: rest)
    (hfront : frame'.fronts = true → s.queue ≠ []) :
    ∀ frame ∈ frame' :: rest, frame.fronts = true → s.queue ≠ [] := by
  intro g hg hfronts
  rcases List.mem_cons.1 hg with hg | hg
  · exact hfront (hg ▸ hfronts)
  · exact h.front t g (by rw [hstack]; exact List.mem_cons_of_mem _ hg) hfronts

theorem acquire (h : Inv s) (hstack : s.stack t = frame :: rest)
    (hplace : frame'.place = frame.place) (hwants : frame.holds = false)
    (hholds : frame'.holds = true) (hfront : frame'.fronts = false) :
    (s.acquire t (frame' :: rest)).Ensures Inv := by
  apply Outcome.Ensures.guard
  intro hfree
  have hlock : s.lock = none := Option.isNone_iff_eq_none.1 hfree
  have hexclusive := h.exclusive
  rw [hlock] at hexclusive
  have hrest : rest.countP Frame.holds = 0 := by
    have hcount := hexclusive t
    rw [hstack, List.countP_cons_of_neg (by simp [hwants])] at hcount
    simpa using hcount
  refine ⟨h.account_stay ?_, hexclusive.enter ?_, h.front_update ?_, h.order, h.unborn⟩
  · rw [hstack, placed_cons, placed_cons, hplace]
  · rw [List.countP_cons_of_pos hholds, hrest]
  · exact h.front_below hstack fun e => absurd e (by simp [hfront])

theorem release (h : Inv s) (hstack : s.stack t = frame :: rest) (hholds : frame.holds = true)
    (hplaced : placed frames = placed (s.stack t)) (hframes : frames.countP Frame.holds = 0)
    (hfront : ∀ frame ∈ frames, frame.fronts = true → s.queue ≠ []) : Inv (s.release t frames) := by
  have hlock : s.lock = some t :=
    h.exclusive.holder (by rw [hstack]; exact List.mem_cons_self) hholds
  have hexclusive := h.exclusive
  rw [hlock] at hexclusive
  exact ⟨h.account_stay hplaced, hexclusive.leave hframes, h.front_update hfront, h.order, h.unborn⟩

/-- `goto` with another frame in the place of the innermost one. -/
theorem goto_top (h : Inv s) (hstack : s.stack t = frame :: rest)
    (hplace : frame'.place = frame.place) (hholds : frame'.holds = frame.holds)
    (hfront : frame'.fronts = true → s.queue ≠ []) : Inv (s.goto t (frame' :: rest)) := by
  apply h.goto _ _ (h.front_below hstack hfront)
  · rw [hstack, placed_cons, placed_cons, hplace]
  · rw [hstack, List.countP_cons, List.countP_cons, hholds]

/-- A call unlocks and returns. -/
theorem unlock (h : Inv s) (hstack : s.stack t = frame :: rest) (hholds : frame.holds = true)
    (hplace : frame.place = []) : Inv (s.release t rest) := by
  apply h.release hstack hholds _ (h.exclusive.below hstack hholds)
  · intro g hg
    exact h.front t g (by rw [hstack]; exact List.mem_cons_of_mem _ hg)
  · rw [hstack, placed_cons, hplace]
    exact (zero_add _).symm

/-- A callback of the task in hand begins or ends. -/
theorem event (h : Inv s) (hstack : s.stack t = frame :: rest) {task : Ticket τ}
    {past : List Event} {event : Event} (hplace : frame.place = [(task, past)])
    (hplace' : frame'.place = [(task, past ++ [event])]) (hholds : frame'.holds = frame.holds)
    (hfront : frame'.fronts = false) :
    Inv ((s.goto t (frame' :: rest)).record task.2 event) := by
  have hmem := mem_outside_placed hstack hplace
  refine ⟨h.account_record hmem ?_, h.exclusive.stay ?_, h.front_update ?_, h.order,
    h.unborn_record hmem _⟩
  · rw [hstack, placed_cons, placed_cons, hplace, hplace']
    show s.outside + _ + ({_} + placed rest) = s.outside + _ + ({_} + placed rest)
    abel
  · rw [hstack, List.countP_cons, List.countP_cons, hholds]
  · exact h.front_below hstack fun e => absurd e (by simp [hfront])

/-- The front of the queue comes into the hands of the thread. -/
theorem take (h : Inv s) (hstack : s.stack t = frame :: rest) (hfronts : frame.fronts = true)
    (hholds : frame.holds = true) (hplace : frame.place = []) {remover : Remover}
    {next : Ticket τ → Frame τ}
    (hnext : ∀ task, (next task).place = [(task, [.added, .removed remover])] ∧
      (next task).holds = true ∧ (next task).fronts = false) :
    (s.take t remover next rest).Ensures Inv := by
  have htop : frame ∈ s.stack t := by
    rw [hstack]
    exact List.mem_cons_self
  have hlock := h.exclusive.holder htop hholds
  have hbelow := h.exclusive.below hstack hholds
  unfold TaskQueue.take
  cases hqueue : s.queue with
  | nil => exact absurd hqueue (h.front t frame htop hfronts)
  | cons task queue =>
    obtain ⟨hplace', hholds', hfronts'⟩ := hnext task
    have houtside : s.outside = waiting queue + {(task, [Event.added])} + finished s.disposed := by
      rw [outside, hqueue, waiting_cons]
    have hmem : (task, [Event.added]) ∈ s.outside + placed (s.stack t) := by
      simp [houtside]
    refine ⟨h.account_record hmem ?_, h.exclusive.stay ?_, ?_, ?_, h.unborn_record hmem _⟩
    · rw [hstack, placed_cons, placed_cons, hplace, hplace', houtside]
      show waiting queue + finished s.disposed + {_} + ({_} + placed rest) =
        waiting queue + {_} + finished s.disposed + {(task, [.added, .removed remover])} +
          (0 + placed rest)
      abel
    · rw [hstack, List.countP_cons_of_pos hholds, List.countP_cons_of_pos hholds']
    · -- Nobody else is at `front()`, for want of the lock.
      intro u g hg hgfronts
      change g ∈ Function.update s.stack t (next task :: rest) u at hg
      have hgholds := Frame.holds_of_fronts hgfronts
      by_cases hut : u = t
      · rw [hut, Function.update_self] at hg
        rcases List.mem_cons.1 hg with hg | hg
        · rw [hg, hfronts'] at hgfronts
          cases hgfronts
        · exact absurd hgholds (List.countP_eq_zero.1 hbelow g hg)
      · rw [Function.update_of_ne hut] at hg
        have hu := h.exclusive.holder hg hgholds
        exact absurd (Option.some.inj (hu.symm.trans hlock)) hut
    · show (s.removed ++ [task]) ++ queue = tickets s.added
      rw [List.append_assoc, ← h.order, hqueue]
      rfl

/-- `Dispose` returns. -/
theorem finish (h : Inv s) (hstack : s.stack t = frame :: rest) {task : Ticket τ}
    {remover : Remover} {past : List Event} (hplace : frame.place = [(task, past)])
    (hcomplete : complete remover = past ++ [.disposeEnd]) (hplace' : frame'.place = [])
    (hholds : frame'.holds = frame.holds) (hfront : frame'.fronts = false) :
    Inv (s.finish t remover task (frame' :: rest)) := by
  have hmem := mem_outside_placed hstack hplace
  refine ⟨h.account_record hmem ?_, h.exclusive.stay ?_, h.front_update ?_, h.order,
    h.unborn_record hmem _⟩
  · rw [hstack, placed_cons, placed_cons, hplace, hplace', ← hcomplete]
    show waiting s.queue + finished (s.disposed ++ [_]) + {_} + (0 + placed rest) =
      waiting s.queue + finished s.disposed + {_} + ({_} + placed rest)
    rw [finished_snoc]
    abel
  · rw [hstack, List.countP_cons, List.countP_cons, hholds]
  · exact h.front_below hstack fun e => absurd e (by simp [hfront])

/-- A task is added under the next number. -/
theorem emplace (h : Inv s) (hstack : s.stack t = frame :: rest)
    (hplace : frame'.place = frame.place) (hholds : frame'.holds = frame.holds) (task : τ) :
    Inv (s.emplace t task (frame' :: rest)) := by
  have hborn : s.hist s.added.length = [] := h.unborn _ le_rfl
  refine ⟨?_, h.exclusive.stay ?_, ?_, ?_, ?_⟩
  · have hplaced : placed (frame' :: rest) = placed (s.stack t) := by
      rw [hstack, placed_cons, placed_cons, hplace]
    have hstay := h.account_stay hplaced
    show waiting (s.queue ++ [_]) + finished s.disposed + _ =
      ledger (s.added ++ [task])
        (Function.update s.hist s.added.length (s.hist s.added.length ++ _))
    rw [hborn, List.nil_append, ledger_snoc, ← hstay, waiting_snoc, outside]
    abel
  · rw [hstack, List.countP_cons, List.countP_cons, hholds]
  · intro u g _ _ hnil
    exact List.cons_ne_nil _ _ (List.append_eq_nil_iff.1 hnil).2
  · show s.removed ++ (s.queue ++ [_]) = tickets (s.added ++ [task])
    rw [← List.append_assoc, h.order, tickets_snoc]
  · intro k hk
    have hlt : s.added.length + 1 ≤ k := by simpa [TaskQueue.emplace] using hk
    show Function.update s.hist s.added.length _ k = []
    rw [Function.update_of_ne (Nat.ne_of_gt hlt)]
    exact h.unborn k (Nat.le_of_succ_le hlt)

/-! ### All moves -/

/-- The test of the loop: `empty()` for one frame, `front()` after it for the other. -/
theorem test (h : Inv s) (hstack : s.stack t = frame :: rest) {leave loop : Frame τ}
    (hleave : leave.place = frame.place ∧ leave.holds = frame.holds ∧ leave.fronts = false)
    (hloop : loop.place = frame.place ∧ loop.holds = frame.holds) :
    Inv (s.goto t ((if s.queue.isEmpty then leave else loop) :: rest)) := by
  by_cases hempty : s.queue.isEmpty = true
  · rw [if_pos hempty]
    exact h.goto_top hstack hleave.1 hleave.2.1 fun e => absurd e (by simp [hleave.2.2])
  · rw [if_neg hempty]
    apply h.goto_top hstack hloop.1 hloop.2
    intro _ hnil
    exact hempty (by rw [hnil]; rfl)

theorem stepFrame (h : Inv s) (hstack : s.stack t = frame :: rest) :
    (s.stepFrame t frame rest).Ensures Inv := by
  cases frame with
  | addLock task => exact h.acquire hstack rfl rfl rfl rfl
  | addEmplace task =>
    refine h.emplace hstack ?_ ?_ task
    · rfl
    · rfl
  | addUnlock => exact h.unlock hstack rfl rfl
  | procLock budget => exact h.acquire hstack rfl rfl rfl rfl
  | procEmpty budget => exact h.test hstack ⟨rfl, rfl, rfl⟩ ⟨rfl, rfl⟩
  | procBreak => exact h.unlock hstack rfl rfl
  | procFront budget => exact h.take hstack rfl rfl rfl fun _ => ⟨rfl, rfl, rfl⟩
  | procUnlock budget task =>
    apply h.release hstack rfl
    · rw [hstack]
      rfl
    · rw [List.countP_cons_of_neg (by simp [Frame.holds])]
      exact h.exclusive.below hstack rfl
    · exact h.front_below hstack nofun
  | procRun budget task => exact h.event hstack rfl rfl rfl rfl
  | procDispose budget task => exact h.event hstack rfl rfl rfl rfl
  | clearLock => exact h.acquire hstack rfl rfl rfl rfl
  | clearEmpty => exact h.test hstack ⟨rfl, rfl, rfl⟩ ⟨rfl, rfl⟩
  | clearFront => exact h.take hstack rfl rfl rfl fun _ => ⟨rfl, rfl, rfl⟩
  | clearDispose task => exact h.event hstack rfl rfl rfl rfl
  | clearUnlock => exact h.unlock hstack rfl rfl
  | procRunning budget task => trivial
  | procDisposing budget task => trivial
  | procBudget => trivial
  | clearDisposing task => trivial

theorem returnTo (h : Inv s) (hstack : s.stack t = frame :: rest) :
    (s.returnTo t frame rest).Ensures Inv := by
  cases frame with
  | procRunning budget task => exact h.event hstack rfl rfl rfl rfl
  | procDisposing budget task => cases budget <;> exact h.finish hstack rfl rfl rfl rfl rfl
  | clearDisposing task =>
    refine h.finish hstack rfl rfl ?_ ?_ ?_
    · rfl
    · rfl
    · rfl
  | _ => trivial

theorem testBudget (h : Inv s) (hstack : s.stack t = frame :: rest) (exceeded : Bool) :
    (s.testBudget t exceeded frame rest).Ensures Inv := by
  cases frame with
  | procBudget =>
    cases exceeded with
    | false =>
      refine h.goto_top hstack ?_ ?_ nofun
      · rfl
      · rfl
    | true =>
      apply h.goto
      · rw [if_pos rfl, hstack]
        rfl
      · rw [if_pos rfl, hstack]
        rfl
      · intro g hg
        exact h.front t g (by rw [hstack]; exact List.mem_cons_of_mem _ hg)
  | _ => trivial

theorem call (h : Inv s) (t : ι) (op : Op τ) : Inv (s.goto t (op.enter :: s.stack t)) := by
  apply h.goto
  · cases op <;> rfl
  · cases op <;> rfl
  · intro g hg hfronts
    rcases List.mem_cons.1 hg with hg | hg
    · rw [hg] at hfronts
      cases op <;> cases hfronts
    · exact h.front t g hg hfronts

/-- **Every step keeps the invariant.** -/
theorem next (h : Inv s) (a : Label ι τ) : (next s a).Ensures Inv := by
  cases a with
  | call t op => exact .guard fun _ => h.call t op
  | ret t =>
    simp only [TaskQueue.next]
    cases hstack : s.stack t with
    | nil => trivial
    | cons frame rest => exact h.returnTo hstack
  | step t =>
    simp only [TaskQueue.next]
    cases hstack : s.stack t with
    | nil => trivial
    | cons frame rest => exact h.stepFrame hstack
  | budget t exceeded =>
    simp only [TaskQueue.next]
    cases hstack : s.stack t with
    | nil => trivial
    | cons frame rest => exact h.testBudget hstack exceeded

end Inv

theorem inv_reach {s : TaskQueue ι τ} (h : (machine ι τ).Reach s) : Inv s :=
  h.invariant .init fun _ a hs => (hs.next a).mono fun _ h' _ => h'

end

/-! ## Delivery -/

section

variable [Fintype ι]

/-- The occurrences that calls have removed and not yet disposed of. -/
def inHand (s : TaskQueue ι τ) : Multiset (Ticket τ) := (∑ t, placed (s.stack t)).map Prod.fst

/-- Removed by `remover`, and on the way to being disposed of. -/
def OnTheWay (remover : Remover) (hist : List Event) : Prop :=
  [.added, .removed remover] <+: hist ∧ hist <+: complete remover ∧ hist ≠ complete remover

structure ExactlyOnce (s : TaskQueue ι τ) : Prop where
  /-- Each occurrence is in one place, once. -/
  place : ∀ k < s.added.length, (numbers s.queue).count k + (s.inHand.map Prod.snd).count k +
    (numbers (s.disposed.map Prod.fst)).count k = 1
  /-- What is in hand or disposed of under number `k` is what was added `k`-th. -/
  same : ∀ task, task ∈ s.inHand ∨ task ∈ s.disposed.map Prod.fst → task ∈ tickets s.added
  history : ∀ k, ∃ remover, s.hist k <+: complete remover
  queued : ∀ task ∈ s.queue, s.hist task.2 = [.added]
  inHand : ∀ task ∈ s.inHand, ∃ remover, OnTheWay remover (s.hist task.2)
  disposed : ∀ d ∈ s.disposed, s.hist d.1.2 = complete d.2
  /-- The occurrences leave the queue in the order in which they were added. -/
  order : s.removed ++ s.queue = tickets s.added

instance (remover : Remover) (hist : List Event) : Decidable (OnTheWay remover hist) :=
  inferInstanceAs (Decidable (_ ∧ _ ∧ _))

theorem Frame.onTheWay {frame : Frame τ} {task : Ticket τ} {hist : List Event}
    (h : (task, hist) ∈ frame.place) : ∃ remover, OnTheWay remover hist := by
  cases frame with
  | procUnlock | procRun | procRunning | procDispose | procDisposing =>
    cases List.mem_singleton.1 h
    exact ⟨.processTasks, by decide⟩
  | clearDispose | clearDisposing =>
    cases List.mem_singleton.1 h
    exact ⟨.clearTasks, by decide⟩
  | _ => cases h

theorem placed_onTheWay {stack : List (Frame τ)} {task : Ticket τ} {hist : List Event}
    (h : (task, hist) ∈ placed stack) : ∃ remover, OnTheWay remover hist := by
  obtain ⟨frame, -, hframe⟩ := List.mem_flatMap.1 (Multiset.mem_coe.1 h)
  exact frame.onTheWay hframe

variable [DecidableEq ι] {s : TaskQueue ι τ}

namespace Inv

theorem mem_account (h : Inv s) {task : Ticket τ} {hist : List Event} :
    (task, hist) ∈ s.outside + ∑ t, placed (s.stack t) ↔
      task ∈ tickets s.added ∧ s.hist task.2 = hist := by
  rw [h.account, mem_ledger]

/-- No occurrence is lost or doubled. -/
theorem conserved (h : Inv s) :
    ↑s.queue + ↑(s.disposed.map Prod.fst) + s.inHand = (tickets s.added : Multiset (Ticket τ)) := by
  have hqueue : (waiting s.queue).map Prod.fst = ↑s.queue := by
    rw [waiting, Multiset.map_coe, List.map_map]
    exact congrArg _ (List.map_id _)
  have hdisposed : (finished s.disposed).map Prod.fst = ↑(s.disposed.map Prod.fst) := by
    rw [finished, Multiset.map_coe, List.map_map]
    rfl
  rw [← hqueue, ← hdisposed, TaskQueue.inHand, ← Multiset.map_add, ← Multiset.map_add,
    ← map_ledger s.added s.hist, ← h.account]
  rfl

theorem place (h : Inv s) {k : ℕ} (hk : k < s.added.length) :
    (numbers s.queue).count k + (s.inHand.map Prod.snd).count k +
      (numbers (s.disposed.map Prod.fst)).count k = 1 := by
  have hnumbers := congrArg (fun m => (Multiset.map Prod.snd m).count k) h.conserved
  simp only [Multiset.map_add, Multiset.map_coe, Multiset.count_add, Multiset.coe_count] at hnumbers
  have hcount := count_numbers_tickets hk
  simp only [numbers] at hcount ⊢
  omega

/-- Where the histories of the occurrences come from. -/
theorem history (h : Inv s) (k : ℕ) : ∃ remover, s.hist k <+: complete remover := by
  by_cases hk : k < s.added.length
  · have hissued : (s.added[k], k) ∈ tickets s.added := mem_tickets.2 (List.getElem?_eq_getElem hk)
    have hmem := h.mem_account.2 ⟨hissued, rfl⟩
    rw [outside, Multiset.mem_add, Multiset.mem_add, Multiset.mem_sum] at hmem
    rcases hmem with (hwaiting | hfinished) | ⟨t, -, hplaced⟩
    · obtain ⟨task, -, htask⟩ := List.mem_map.1 (Multiset.mem_coe.1 hwaiting)
      have hadded : s.hist k = [.added] := (congrArg Prod.snd htask).symm
      exact ⟨.processTasks, by rw [hadded]; decide⟩
    · obtain ⟨d, -, hd⟩ := List.mem_map.1 (Multiset.mem_coe.1 hfinished)
      have hcomplete : complete d.2 = s.hist k := congrArg Prod.snd hd
      exact ⟨d.2, by rw [hcomplete]⟩
    · obtain ⟨remover, -, hprefix, -⟩ := placed_onTheWay hplaced
      exact ⟨remover, hprefix⟩
  · rw [h.unborn k (Nat.le_of_not_lt hk)]
    exact ⟨.processTasks, List.nil_prefix⟩

theorem exactlyOnce (h : Inv s) : ExactlyOnce s where
  place _ hk := h.place hk
  same task htask := by
    rw [← Multiset.mem_coe, ← h.conserved, Multiset.mem_add, Multiset.mem_add]
    rcases htask with hin | hdisposed
    · exact .inr hin
    · exact .inl (.inr hdisposed)
  history := h.history
  queued task htask := by
    have hmem : (task, [Event.added]) ∈ waiting s.queue :=
      Multiset.mem_coe.2 (List.mem_map_of_mem htask)
    exact (h.mem_account.1 (by simp [outside, hmem])).2
  inHand task htask := by
    obtain ⟨⟨_, hist⟩, hmem, rfl⟩ := Multiset.mem_map.1 htask
    obtain ⟨t, -, hplaced⟩ := Multiset.mem_sum.1 hmem
    rw [(h.mem_account.1 (Multiset.mem_add.2 (.inr hmem))).2]
    exact placed_onTheWay hplaced
  disposed d hd := by
    have hmem : (d.1, complete d.2) ∈ finished s.disposed :=
      Multiset.mem_coe.2 (List.mem_map_of_mem hd)
    exact (h.mem_account.1 (by simp [outside, hmem])).2
  order := h.order

end Inv

/-- **Every added occurrence is delivered exactly once, in order.** -/
theorem exactly_once (h : (machine ι τ).Reach s) :
    ExactlyOnce s ∧ ∀ a fault, next s a ≠ .fault fault := by
  have hinv := inv_reach h
  exact ⟨hinv.exactlyOnce, fun a => ((hinv.next a).ne_fault)⟩

/-- `t` adds tasks 7 and 8; `u` processes: the `Run` of 7 adds 9 while `t` clears the queue. -/
def sampleInterleaving (t u : ι) : List (Label ι ℕ) :=
  [.call t (.addTask 7), .step t, .step t, .step t, .call t (.addTask 8), .step t, .step t, .step t,
    .call u .processTasksBudget, .step u, .step u, .step u, .step u, .step u,
    .call t .clearTasks, .step t, .step t, .step t, .step t, .ret t, .step t, .step t,
    .call u (.addTask 9), .step u, .step u, .step u, .ret u, .step u, .ret u, .budget u true]

theorem exactly_once_sampleInterleaving :
    ∃ s, (machine (Fin 2) ℕ).run init (sampleInterleaving 0 1) = some s ∧
      s.removed = [(7, 0), (8, 1)] ∧ s.queue = [(9, 2)] ∧
      s.disposed = [((8, 1), .clearTasks), ((7, 0), .processTasks)] ∧ ExactlyOnce s := by
  have hrun : ∃ s, (machine (Fin 2) ℕ).run init (sampleInterleaving 0 1) = some s ∧
      s.removed = [(7, 0), (8, 1)] ∧ s.queue = [(9, 2)] ∧
      s.disposed = [((8, 1), .clearTasks), ((7, 0), .processTasks)] := ⟨_, rfl, rfl, rfl, rfl⟩
  obtain ⟨s, hs, hremoved, hqueue, hdisposed⟩ := hrun
  exact ⟨s, hs, hremoved, hqueue, hdisposed, (exactly_once (Machine.reach_of_run .init hs)).1⟩

end

end SseExt.TaskQueue
