import SseExt.Tasks.TaskQueue

/-!
# `TaskQueueStatic`

The queue of tasks that are held by value. `AddTask` and `ProcessTasks` are those of `TaskQueue`,
except that there is no `Dispose`, and that the task is copied with `front()` before `pop()`.
`ClearTasks` swaps the queue with an empty one, and does so without the lock. `Size()` reads the
queue without the lock too; it is not modelled.

Two threads that are about to access `m_queue`, one of them to change it, are in a race; a step of
either is a fault then (`races`).
-/

namespace SseExt

namespace TaskQueueStatic

/-- A call of the queue, and where it is. -/
inductive Frame (τ : Type*) where
  | addLock (task : τ)
  | addEmplace (task : τ)
  | addUnlock
  | procLock
  | procEmpty
  /-- `m_lock.unlock(); break;` -/
  | procBreak
  | procFront
  | procPop (task : Ticket τ)
  | procUnlock (task : Ticket τ)
  | procRun (task : Ticket τ)
  | procRunning (task : Ticket τ)
  /-- `m_queue.swap(decltype(m_queue)())` -/
  | clearSwap

/-- The calls of the queue. -/
inductive Op (τ : Type*) where
  | addTask (task : τ)
  | processTasks
  | clearTasks

inductive Fault where
  | race
  /-- `front()` of an empty queue. -/
  | front
  /-- `pop()` of an empty queue. -/
  | pop
  deriving DecidableEq

inductive Label (ι τ : Type*) where
  /-- Thread `t` calls the queue, from a callback or from outside. -/
  | call (t : ι) (op : Op τ)
  /-- The `Run` that `t` is in returns. -/
  | ret (t : ι)
  | step (t : ι)

end TaskQueueStatic

structure TaskQueueStatic (ι τ : Type*) where
  queue : List (Ticket τ)
  /-- The holder of `m_lock`. -/
  lock : Option ι
  stack : ι → List (TaskQueueStatic.Frame τ)
  added : List τ
  removed : List (Ticket τ)
  hist : ℕ → List TaskQueue.Event

namespace TaskQueueStatic

open TaskQueue (Event)

variable {ι τ : Type*}

/-- Where a call begins. -/
def Op.enter : Op τ → Frame τ
  | addTask task => .addLock task
  | processTasks => .procLock
  | clearTasks => .clearSwap

namespace Frame

/-- The frame is in `Run`. -/
def callback : Frame τ → Bool
  | procRunning _ => true
  | _ => false

/-- The frame is between `lock()` and `unlock()`. -/
def holds : Frame τ → Bool
  | addEmplace _ | addUnlock | procEmpty | procBreak | procFront | procPop _ | procUnlock _ => true
  | _ => false

/-- The frame is about to change `m_queue`. -/
def writes : Frame τ → Bool
  | addEmplace _ | procPop _ | clearSwap => true
  | _ => false

/-- The frame is about to read or to change `m_queue`. -/
def accesses : Frame τ → Bool
  | procEmpty | procFront => true
  | frame => frame.writes

def conflicts (frame other : Frame τ) : Bool :=
  frame.accesses && other.accesses && (frame.writes || other.writes)

end Frame

def init : TaskQueueStatic ι τ := ⟨[], none, fun _ => [], [], [], fun _ => []⟩

section

variable [DecidableEq ι] (s : TaskQueueStatic ι τ)

def goto (t : ι) (stack : List (Frame τ)) : TaskQueueStatic ι τ :=
  { s with stack := Function.update s.stack t stack }

/-- `m_lock.lock()` -/
def acquire (t : ι) (stack : List (Frame τ)) : Outcome (TaskQueueStatic ι τ) Fault :=
  if s.lock.isNone then .step { s.goto t stack with lock := some t } else .blocked

/-- `m_lock.unlock()` -/
def release (t : ι) (stack : List (Frame τ)) : TaskQueueStatic ι τ :=
  { s.goto t stack with lock := none }

omit [DecidableEq ι] in
/-- An event of the occurrence `k`. -/
def record (k : ℕ) (event : Event) : TaskQueueStatic ι τ :=
  { s with hist := Function.update s.hist k (s.hist k ++ [event]) }

/-- `m_queue.emplace(task)` -/
def emplace (t : ι) (task : τ) (stack : List (Frame τ)) : TaskQueueStatic ι τ :=
  { (s.goto t stack).record s.added.length .added with
    queue := s.queue ++ [(task, s.added.length)]
    added := s.added ++ [task] }

/-- `auto task = m_queue.front();` -/
def front (t : ι) (rest : List (Frame τ)) : Outcome (TaskQueueStatic ι τ) Fault :=
  match s.queue with
  | [] => .fault .front
  | task :: _ => .step (s.goto t (.procPop task :: rest))

/-- `m_queue.pop();` -/
def pop (t : ι) (stack : List (Frame τ)) : Outcome (TaskQueueStatic ι τ) Fault :=
  match s.queue with
  | [] => .fault .pop
  | first :: queue =>
    .step { (s.goto t stack).record first.2 (.removed .processTasks) with
      queue, removed := s.removed ++ [first] }

/-- `m_queue.swap(decltype(m_queue)())` -/
def swap (t : ι) (stack : List (Frame τ)) : TaskQueueStatic ι τ :=
  { s.queue.foldl (fun s task => s.record task.2 (.removed .clearTasks)) (s.goto t stack) with
    queue := [], removed := s.removed ++ s.queue }

/-- The step of the innermost call of a thread. -/
def stepFrame (t : ι) (frame : Frame τ) (rest : List (Frame τ)) :
    Outcome (TaskQueueStatic ι τ) Fault :=
  match frame with
  | .addLock task => s.acquire t (.addEmplace task :: rest)
  | .addEmplace task => .step (s.emplace t task (.addUnlock :: rest))
  | .addUnlock => .step (s.release t rest)
  | .procLock => s.acquire t (.procEmpty :: rest)
  | .procEmpty =>
    .step (s.goto t ((if s.queue.isEmpty then .procBreak else .procFront) :: rest))
  | .procBreak => .step (s.release t rest)
  | .procFront => s.front t rest
  | .procPop task => s.pop t (.procUnlock task :: rest)
  | .procUnlock task => .step (s.release t (.procRun task :: rest))
  | .procRun task =>
    .step ((s.goto t (.procRunning task :: rest)).record task.2 .runBegin)
  | .clearSwap => .step (s.swap t rest)
  | .procRunning _ => .blocked

/-- The return of the `Run` that a frame is in. -/
def returnTo (t : ι) (frame : Frame τ) (rest : List (Frame τ)) :
    Outcome (TaskQueueStatic ι τ) Fault :=
  match frame with
  | .procRunning task => .step ((s.goto t (.procLock :: rest)).record task.2 .runEnd)
  | _ => .blocked

/-- Another thread is about to make an access that conflicts with that of the frame of `t`. -/
def races [Fintype ι] (t : ι) (frame : Frame τ) : Bool :=
  decide (∃ u, u ≠ t ∧ (s.stack u).head?.any frame.conflicts = true)

/-- A thread may call the queue when it is in none of its calls, or in a callback. -/
def mayCall (stack : List (Frame τ)) : Bool := stack.head?.all Frame.callback

def next [Fintype ι] (s : TaskQueueStatic ι τ) : Label ι τ → Outcome (TaskQueueStatic ι τ) Fault
  | .call t op =>
    if mayCall (s.stack t) then .step (s.goto t (op.enter :: s.stack t)) else .blocked
  | .ret t =>
    match s.stack t with
    | [] => .blocked
    | frame :: rest => s.returnTo t frame rest
  | .step t =>
    match s.stack t with
    | [] => .blocked
    | frame :: rest => if s.races t frame then .fault .race else s.stepFrame t frame rest

variable (ι τ) in
def machine [Fintype ι] : Machine (TaskQueueStatic ι τ) (Label ι τ) Fault := ⟨init, next⟩

end

end TaskQueueStatic

end SseExt
