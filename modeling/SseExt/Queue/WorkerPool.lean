import SseExt.Lib.Tickets
import SseExt.Queue.ProducerConsumer

/-!
# `IWorkerPool`

Worker threads pump one queue. `Stop` pushes a stop marker for each thread of `m_threads`, joins
them all, and clears `m_threads`. One thread controls the pool, any threads push.

**State.** `ProducerConsumerQueue` appears as the list of its items, pushed and popped in one step,
which is all that its own steps do to it (`ProducerConsumerQueue.next_fifo`, `next_fifo`). Threads
are numbered in the order in which they are spawned. A task carries the number of its push
(`Ticket`).

The fields `pushed`, `processed`, `mark`, `live` and `ended` record what happened and are not the
code's.
-/

namespace SseExt

namespace WorkerPool

/-- `TaskWrapper`, by `m_stop`. -/
inductive TaskWrapper (T : Type*) where
  | stop
  | task (m_task : Ticket T)

/-- Where a worker is in `Pump`. -/
inductive WorkerPc (T : Type*) where
  | pop
  /-- It has popped the item. -/
  | loaded (task : TaskWrapper T)
  | process (m_task : Ticket T)
  | exited

structure Worker (T : Type*) where
  pc : WorkerPc T
  /-- The markers it has popped. -/
  stops : ℕ

/-- Where the controlling thread is. -/
inductive ControlPc where
  | idle
  /-- In the loop of `Start`. -/
  | starting (i : ℕ)
  /-- In the first loop of `Stop`. -/
  | stopping (i : ℕ)
  /-- In the second loop of `Stop`, with these threads left to join. -/
  | joining (rest : List ℕ)

variable {T : Type*}

namespace TaskWrapper

def isStop : TaskWrapper T → Bool
  | stop => true
  | task _ => false

def ticket? : TaskWrapper T → Option (Ticket T)
  | stop => none
  | task m_task => some m_task

end TaskWrapper

end WorkerPool

structure WorkerPool (T : Type*) where
  numThreads : UInt32
  queue : List (WorkerPool.TaskWrapper T)
  threads : List ℕ
  control : WorkerPool.ControlPc
  worker : ℕ → WorkerPool.Worker T
  /-- How many threads have been spawned. -/
  spawned : ℕ
  pushed : List T
  /-- What was passed to `Process`, in order. -/
  processed : List (Ticket T)
  /-- How many tasks had been pushed when the last `Stop` began. -/
  mark : ℕ
  /-- How many threads the last `Stop` found. -/
  live : ℕ
  /-- How many threads had been spawned when the last `Stop` returned. -/
  ended : ℕ

namespace WorkerPool

variable {T : Type*}

/-- `IWorkerPool(a_numThreads)` -/
def init (numThreads : UInt32) : WorkerPool T where
  numThreads := numThreads
  queue := []
  threads := []
  control := .idle
  worker _ := ⟨.pop, 0⟩
  spawned := 0
  pushed := []
  processed := []
  mark := 0
  live := 0
  ended := 0

inductive Label (T : Type*) where
  | setThreadCount (numThreads : UInt32)
  | start
  | stop
  /-- The next step of the controlling thread in `Start` or `Stop`. -/
  | control
  | push (task : T)
  | worker (w : ℕ)

/-- `m_threads.emplace_back(...)` -/
def spawn (s : WorkerPool T) : WorkerPool T :=
  { s with
    threads := s.threads ++ [s.spawned]
    worker := Function.update s.worker s.spawned ⟨.pop, 0⟩
    spawned := s.spawned + 1 }

/-- The controlling thread's loops. -/
def stepControl (s : WorkerPool T) : Outcome (WorkerPool T) Empty :=
  match s.control with
  | .idle => .blocked
  | .starting i =>
    if i < s.numThreads.toNat then .step { s.spawn with control := .starting (i + 1) }
    else .step { s with control := .idle }
  | .stopping i =>
    if i < s.threads.length then
      .step { s with queue := s.queue ++ [.stop], control := .stopping (i + 1) }
    else .step { s with control := .joining s.threads }
  | .joining (w :: rest) =>
    match (s.worker w).pc with
    | .exited => .step { s with control := .joining rest }
    | _ => .blocked
  | .joining [] => .step { s with threads := [], control := .idle, ended := s.spawned }

/-- One step of `Pump`. -/
def stepWorker (s : WorkerPool T) (w : ℕ) : Outcome (WorkerPool T) Empty :=
  let goto (pc : WorkerPc T) := Function.update s.worker w { s.worker w with pc }
  match (s.worker w).pc with
  | .pop =>
    match s.queue with
    | [] => .blocked
    | .stop :: queue =>
      .step { s with
        queue
        worker := Function.update s.worker w ⟨.loaded .stop, (s.worker w).stops + 1⟩ }
    | .task m_task :: queue => .step { s with queue, worker := goto (.loaded (.task m_task)) }
  | .loaded .stop => .step { s with worker := goto .exited }
  | .loaded (.task m_task) =>
    .step { s with worker := goto (.process m_task), processed := s.processed ++ [m_task] }
  | .process _ => .step { s with worker := goto .pop }
  | .exited => .blocked

def next (s : WorkerPool T) : Label T → Outcome (WorkerPool T) Empty
  | .setThreadCount numThreads =>
    match s.control with
    | .idle => .step { s with numThreads }
    | _ => .blocked
  | .start =>
    match s.control with
    -- `Start` throws when the count is 0.
    | .idle => .step { s with control := if s.numThreads = 0 then .idle else .starting 0 }
    | _ => .blocked
  | .stop =>
    match s.control with
    | .idle =>
      .step { s with control := .stopping 0, mark := s.pushed.length, live := s.threads.length }
    | _ => .blocked
  | .control => s.stepControl
  | .push task =>
    .step { s with
      queue := s.queue ++ [.task (task, s.pushed.length)]
      pushed := s.pushed ++ [task] }
  | .worker w => if w < s.spawned then s.stepWorker w else .blocked

variable (T) in
def machine (numThreads : UInt32) : Machine (WorkerPool T) (Label T) Empty :=
  ⟨init numThreads, next⟩

/-! ## The use of the queue -/

open ProducerConsumerQueue (FifoStep)

theorem stepWorker_fifo (s : WorkerPool T) (w : ℕ) :
    (s.stepWorker w).Leads fun s' => FifoStep s.queue s'.queue := by
  unfold stepWorker
  dsimp only
  cases hpc : (s.worker w).pc with
  | pop =>
    cases hqueue : s.queue with
    | nil => trivial
    | cons item queue => cases item <;> exact .pop _ queue
  | loaded item => cases item <;> exact .stutter _
  | process m_task => exact .stutter _
  | exited => trivial

theorem stepControl_fifo (s : WorkerPool T) :
    s.stepControl.Leads fun s' => FifoStep s.queue s'.queue := by
  unfold stepControl
  split
  case h_1 => trivial
  case h_2 => split_ifs <;> exact .stutter _
  case h_3 =>
    split_ifs
    · exact .push _ TaskWrapper.stop
    · exact .stutter _
  case h_4 =>
    split
    · exact .stutter _
    · trivial
  case h_5 => exact .stutter _

/-- **The pool pushes and pops, and does nothing else to its queue.** -/
theorem next_fifo (s : WorkerPool T) (a : Label T) :
    (next s a).Leads fun s' => FifoStep s.queue s'.queue := by
  cases a with
  | control => exact s.stepControl_fifo
  | push task => exact .push _ _
  | worker w =>
    simp only [next]
    split_ifs
    · exact s.stepWorker_fifo w
    · trivial
  | setThreadCount numThreads =>
    simp only [next]
    split
    · exact .stutter _
    · trivial
  | start =>
    simp only [next]
    split
    · exact .stutter _
    · trivial
  | stop =>
    simp only [next]
    split
    · exact .stutter _
    · trivial

end WorkerPool

end SseExt
