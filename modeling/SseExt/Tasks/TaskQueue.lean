import SseExt.Lib.Threads
import SseExt.Lib.Tickets
import SseExt.Lib.Transition

/-!
# `TaskQueue`

Any threads call `AddTask`, `ProcessTasks()`, `ProcessTasks(budget)` and `ClearTasks()` on one
queue. The consumers call the tasks' `Run` and `Dispose`, and what these do is up to the tasks: they
may call the queue again, any number of times and to any depth.

**State.** A thread is the stack of its calls, innermost first. A frame is a call of the queue and
where it is; a frame that is in a callback (`Frame.callback`) has the callback's own calls above it.
`m_lock` is the holder of the spin lock, if it is taken. A thread that spins cannot step.

**Steps.** Taking the lock, `empty()`, `front()` with `pop()`, `emplace`, unlocking, the begin and
the end of each callback, and the comparison with the budget are steps of their own. Between two of
them any other thread may move. The clock is not modelled: the comparison goes either way. `AddTask`
makes its task under the lock; the constructor or copy that runs there is taken not to call the
queue. `Size()`, which reads the queue without the lock, is not modelled.

Occurrences of tasks are numbered as they are added. `added`, `removed`, `disposed` and `hist`, the
history of each occurrence, record what happened and are not the code's.
-/

namespace SseExt

namespace TaskQueue

/-- The two ways in which a task leaves the queue. -/
inductive Remover where
  | processTasks
  | clearTasks
  deriving DecidableEq

/-- What happens to an occurrence of a task. -/
inductive Event where
  | added
  | removed (remover : Remover)
  | runBegin
  | runEnd
  | disposeBegin
  | disposeEnd
  deriving DecidableEq

/-- A call of the queue, and where it is. `budget` says that `ProcessTasks` was called with one. -/
inductive Frame (τ : Type*) where
  | addLock (task : τ)
  | addEmplace (task : τ)
  | addUnlock
  | procLock (budget : Bool)
  | procEmpty (budget : Bool)
  /-- `m_lock.unlock(); break;` -/
  | procBreak
  | procFront (budget : Bool)
  | procUnlock (budget : Bool) (task : Ticket τ)
  | procRun (budget : Bool) (task : Ticket τ)
  | procRunning (budget : Bool) (task : Ticket τ)
  | procDispose (budget : Bool) (task : Ticket τ)
  | procDisposing (budget : Bool) (task : Ticket τ)
  /-- `IPerfCounter::delta_us(begin, IPerfCounter::Query()) > a_budget` -/
  | procBudget
  | clearLock
  | clearEmpty
  | clearFront
  | clearDispose (task : Ticket τ)
  | clearDisposing (task : Ticket τ)
  | clearUnlock

/-- The calls of the queue. -/
inductive Op (τ : Type*) where
  | addTask (task : τ)
  | processTasks
  | processTasksBudget
  | clearTasks

inductive Fault where
  /-- `front()` of an empty queue. -/
  | front
  deriving DecidableEq

inductive Label (ι τ : Type*) where
  /-- Thread `t` calls the queue, from a callback or from outside. -/
  | call (t : ι) (op : Op τ)
  /-- The callback that `t` is in returns. -/
  | ret (t : ι)
  | step (t : ι)
  /-- The comparison with the budget. -/
  | budget (t : ι) (exceeded : Bool)

/-- The thread that moves. -/
def Label.thread {ι τ : Type*} : Label ι τ → ι
  | call t _ | ret t | step t | budget t _ => t

end TaskQueue

structure TaskQueue (ι τ : Type*) where
  queue : List (Ticket τ)
  /-- The holder of `m_lock`. -/
  lock : Option ι
  stack : ι → List (TaskQueue.Frame τ)
  added : List τ
  removed : List (Ticket τ)
  disposed : List (Ticket τ × TaskQueue.Remover)
  hist : ℕ → List TaskQueue.Event

namespace TaskQueue

variable {ι τ : Type*}

namespace Op

/-- Where a call begins. -/
def enter : Op τ → Frame τ
  | addTask task => .addLock task
  | processTasks => .procLock false
  | processTasksBudget => .procLock true
  | clearTasks => .clearLock

end Op

namespace Frame

/-- The frame is in `Run` or in `Dispose`. -/
def callback : Frame τ → Bool
  | procRunning _ _ | procDisposing _ _ | clearDisposing _ => true
  | _ => false

/-- The frame is about to take the lock. -/
def wants : Frame τ → Bool
  | addLock _ | procLock _ | clearLock => true
  | _ => false

/-- The frame is between `lock()` and `unlock()`. -/
def holds : Frame τ → Bool
  | addEmplace _ | addUnlock | procEmpty _ | procBreak | procFront _ | procUnlock _ _ | clearEmpty
  | clearFront | clearDispose _ | clearDisposing _ | clearUnlock => true
  | _ => false

end Frame

def init : TaskQueue ι τ := ⟨[], none, fun _ => [], [], [], [], fun _ => []⟩

section

variable [DecidableEq ι] (s : TaskQueue ι τ)

def goto (t : ι) (stack : List (Frame τ)) : TaskQueue ι τ :=
  { s with stack := Function.update s.stack t stack }

/-- `m_lock.lock()` -/
def acquire (t : ι) (stack : List (Frame τ)) : Outcome (TaskQueue ι τ) Fault :=
  if s.lock.isNone then .step { s.goto t stack with lock := some t } else .blocked

/-- `m_lock.unlock()` -/
def release (t : ι) (stack : List (Frame τ)) : TaskQueue ι τ :=
  { s.goto t stack with lock := none }

omit [DecidableEq ι] in
/-- An event of the occurrence `k`. -/
def record (k : ℕ) (event : Event) : TaskQueue ι τ :=
  { s with hist := Function.update s.hist k (s.hist k ++ [event]) }

/-- `m_queue.emplace(task)` -/
def emplace (t : ι) (task : τ) (stack : List (Frame τ)) : TaskQueue ι τ :=
  { (s.goto t stack).record s.added.length .added with
    queue := s.queue ++ [(task, s.added.length)]
    added := s.added ++ [task] }

/-- `task = m_queue.front(); m_queue.pop();` -/
def take (t : ι) (remover : Remover) (frame : Ticket τ → Frame τ) (rest : List (Frame τ)) :
    Outcome (TaskQueue ι τ) Fault :=
  match s.queue with
  | [] => .fault .front
  | task :: queue =>
    .step { (s.goto t (frame task :: rest)).record task.2 (.removed remover) with
      queue, removed := s.removed ++ [task] }

/-- `task->Dispose()` has returned. -/
def finish (t : ι) (remover : Remover) (task : Ticket τ) (stack : List (Frame τ)) :
    TaskQueue ι τ :=
  { (s.goto t stack).record task.2 .disposeEnd with disposed := s.disposed ++ [(task, remover)] }

/-- The step of the innermost call of a thread. -/
def stepFrame (t : ι) (frame : Frame τ) (rest : List (Frame τ)) :
    Outcome (TaskQueue ι τ) Fault :=
  match frame with
  | .addLock task => s.acquire t (.addEmplace task :: rest)
  | .addEmplace task => .step (s.emplace t task (.addUnlock :: rest))
  | .addUnlock => .step (s.release t rest)
  | .procLock budget => s.acquire t (.procEmpty budget :: rest)
  | .procEmpty budget =>
    .step (s.goto t ((if s.queue.isEmpty then .procBreak else .procFront budget) :: rest))
  | .procBreak => .step (s.release t rest)
  | .procFront budget => s.take t .processTasks (.procUnlock budget) rest
  | .procUnlock budget task => .step (s.release t (.procRun budget task :: rest))
  | .procRun budget task =>
    .step ((s.goto t (.procRunning budget task :: rest)).record task.2 .runBegin)
  | .procDispose budget task =>
    .step ((s.goto t (.procDisposing budget task :: rest)).record task.2 .disposeBegin)
  | .clearLock => s.acquire t (.clearEmpty :: rest)
  | .clearEmpty =>
    .step (s.goto t ((if s.queue.isEmpty then .clearUnlock else .clearFront) :: rest))
  | .clearFront => s.take t .clearTasks .clearDispose rest
  | .clearDispose task =>
    .step ((s.goto t (.clearDisposing task :: rest)).record task.2 .disposeBegin)
  | .clearUnlock => .step (s.release t rest)
  | .procRunning _ _ | .procDisposing _ _ | .clearDisposing _ | .procBudget => .blocked

/-- The return of the callback that a frame is in. -/
def returnTo (t : ι) (frame : Frame τ) (rest : List (Frame τ)) : Outcome (TaskQueue ι τ) Fault :=
  match frame with
  | .procRunning budget task =>
    .step ((s.goto t (.procDispose budget task :: rest)).record task.2 .runEnd)
  | .procDisposing budget task =>
    .step (s.finish t .processTasks task
      ((if budget then .procBudget else .procLock false) :: rest))
  | .clearDisposing task => .step (s.finish t .clearTasks task (.clearEmpty :: rest))
  | _ => .blocked

/-- The test at the end of a round of `ProcessTasks(budget)`. -/
def testBudget (t : ι) (exceeded : Bool) (frame : Frame τ) (rest : List (Frame τ)) :
    Outcome (TaskQueue ι τ) Fault :=
  match frame with
  | .procBudget => .step (s.goto t (if exceeded then rest else .procLock true :: rest))
  | _ => .blocked

/-- A thread may call the queue when it is in none of its calls, or in a callback. -/
def mayCall (stack : List (Frame τ)) : Bool :=
  match stack with
  | [] => true
  | frame :: _ => frame.callback

def next (s : TaskQueue ι τ) : Label ι τ → Outcome (TaskQueue ι τ) Fault
  | .call t op =>
    if mayCall (s.stack t) then .step (s.goto t (op.enter :: s.stack t)) else .blocked
  | .ret t =>
    match s.stack t with
    | [] => .blocked
    | frame :: rest => s.returnTo t frame rest
  | .step t =>
    match s.stack t with
    | [] => .blocked
    | frame :: rest => s.stepFrame t frame rest
  | .budget t exceeded =>
    match s.stack t with
    | [] => .blocked
    | frame :: rest => s.testBudget t exceeded frame rest

variable (ι τ) in
def machine : Machine (TaskQueue ι τ) (Label ι τ) Fault := ⟨init, next⟩

end

end TaskQueue

end SseExt
