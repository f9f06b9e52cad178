import Mathlib.Logic.Function.Basic
import SseExt.PerfCounter

/-!
# `ITaskPool`: the tasks of a frame

Once a frame the game calls `MainLoopUpdate_Hook_Budget`, which processes the priority queue and
then the normal queue, each within its own budget, and then runs the fixed tasks. What a task does
is up to it: it may add tasks to either queue. What the clock reads is a parameter.

**Theorem (`no_starvation`).** A task at position `k` of a queue has been run after `k + 1` frames,
and in every frame the fixed tasks run once each, in order, after both queues.

The budget is compared after a task has run, so a frame takes at least one task from every queue
that has one (`processTasks_spec`). Everything else follows from the order of the queue, which
`Ran` records: what was queued and what came in is what was run and what is left.
-/

namespace SseExt

namespace ITaskPool

/-- `m_prioQueue` and `m_queue`. -/
inductive QueueId where
  | prioQueue
  | queue
  deriving DecidableEq

/-- A task that was run: one of a queue or a fixed one. -/
inductive Event (τ φ : Type*) where
  | task (q : QueueId) (t : τ)
  | fixed (f : φ)

/-- What tasks do to the world `σ`, and what they add to the queues. -/
structure Behaviour (τ φ σ : Type*) where
  run : τ → σ → σ × List (QueueId × τ)
  runFixed : φ → σ → σ × List (QueueId × τ)

end ITaskPool

open ITaskPool

/-- `ITaskPool`, with the world, the number of times the clock was read, and what was run. -/
structure ITaskPool (τ φ σ : Type*) where
  queues : QueueId → List τ
  tasksFixed : List φ
  budget : Int64
  world : σ
  reading : ℕ
  log : List (Event τ φ)

namespace ITaskPool

variable {τ φ σ : Type*} (B : Behaviour τ φ σ) (c : PerfCounter) (clock : ℕ → Int64)

/-- `AddTask` and `AddPriorityTask`. -/
def addTask (p : ITaskPool τ φ σ) (task : QueueId × τ) : ITaskPool τ φ σ :=
  { p with queues := Function.update p.queues task.1 (p.queues task.1 ++ [task.2]) }

/-- `IPerfCounter::Query` -/
def query (p : ITaskPool τ φ σ) : Int64 × ITaskPool τ φ σ :=
  (clock p.reading, { p with reading := p.reading + 1 })

/-- `Run` and `Dispose` of a task that was taken from a queue. -/
def runTask (p : ITaskPool τ φ σ) (q : QueueId) (task : τ) : ITaskPool τ φ σ :=
  let r := B.run task p.world
  r.2.foldl addTask { p with world := r.1, log := p.log ++ [.task q task] }

/-- The loop of `ProcessTasks(budget)`; `none` when `fuel` rounds are not enough. -/
def processLoop (q : QueueId) (budget begin : Int64) :
    ℕ → ITaskPool τ φ σ → Option (ITaskPool τ φ σ)
  | 0, _ => none
  | fuel + 1, p =>
    match p.queues q with
    | [] => some p
    | task :: rest =>
      let p := runTask B { p with queues := Function.update p.queues q rest } q task
      let now := p.query clock
      if c.deltaUs begin now.1 > budget then some now.2
      else processLoop q budget begin fuel now.2

/-- `TaskQueue::ProcessTasks(budget)` -/
def processTasks (fuel : ℕ) (q : QueueId) (p : ITaskPool τ φ σ) : Option (ITaskPool τ φ σ) :=
  let begin := p.query clock
  processLoop B c clock q p.budget begin.1 fuel begin.2

/-- `Run` of a fixed task. -/
def runFixedTask (p : ITaskPool τ φ σ) (cmd : φ) : ITaskPool τ φ σ :=
  let r := B.runFixed cmd p.world
  r.2.foldl addTask { p with world := r.1, log := p.log ++ [.fixed cmd] }

/-- `MainLoopUpdate_Hook_Budget` -/
def mainLoopUpdateHookBudget (fuel : ℕ) (p : ITaskPool τ φ σ) : Option (ITaskPool τ φ σ) :=
  match processTasks B c clock fuel .prioQueue p with
  | none => none
  | some p =>
    match processTasks B c clock fuel .queue p with
    | none => none
    | some p => some (p.tasksFixed.foldl (runFixedTask B) p)

/-- What happens before a frame: tasks are added, fixed tasks registered, the budget set. -/
structure Arrivals (τ φ : Type*) where
  tasks : List (QueueId × τ)
  fixed : List φ
  budget : Int64

def arrive (p : ITaskPool τ φ σ) (a : Arrivals τ φ) : ITaskPool τ φ σ :=
  { a.tasks.foldl addTask p with tasksFixed := p.tasksFixed ++ a.fixed, budget := a.budget }

/-- One frame after another, each after its arrivals. -/
def frames (fuel : ℕ) : ITaskPool τ φ σ → List (Arrivals τ φ) → Option (ITaskPool τ φ σ)
  | p, [] => some p
  | p, a :: as =>
    match mainLoopUpdateHookBudget B c clock fuel (p.arrive a) with
    | none => none
    | some p => frames fuel p as

/-! ## What was run -/

/-- The tasks of queue `q` among events. -/
def served (q : QueueId) (es : List (Event τ φ)) : List τ :=
  es.filterMap fun
    | .task q' t => if q' = q then some t else none
    | .fixed _ => none

@[simp] theorem served_append (q : QueueId) (es es' : List (Event τ φ)) :
    served q (es ++ es') = served q es ++ served q es' := List.filterMap_append

@[simp] theorem served_fixed (q : QueueId) (fs : List φ) :
    served q (fs.map .fixed : List (Event τ φ)) = [] := by
  simp [served, List.filterMap_map]

theorem served_tasks (q q' : QueueId) (ts : List τ) :
    served q (ts.map (.task q') : List (Event τ φ)) = if q' = q then ts else [] := by
  induction ts with
  | nil => simp [served]
  | cons t ts ih =>
    rw [List.map_cons, ← List.singleton_append, served_append, ih]
    split_ifs with hq <;> simp [served, hq]

/-- From `p` to `p'` the events `es` were run: what was queued and what came in is what was run and
what is left, in order. -/
structure Ran (p p' : ITaskPool τ φ σ) (es : List (Event τ φ)) : Prop where
  log : p'.log = p.log ++ es
  order : ∀ q, ∃ added, p.queues q ++ added = served q es ++ p'.queues q
  tasksFixed : p'.tasksFixed = p.tasksFixed

namespace Ran

variable {p p' p'' : ITaskPool τ φ σ} {es es' : List (Event τ φ)} {q : QueueId}

theorem refl (p : ITaskPool τ φ σ) : Ran p p [] :=
  ⟨(List.append_nil _).symm, fun q => ⟨[], by simp [served]⟩, rfl⟩

theorem trans (h : Ran p p' es) (h' : Ran p' p'' es') : Ran p p'' (es ++ es') := by
  refine ⟨by rw [h'.log, h.log, List.append_assoc], fun q => ?_,
    h'.tasksFixed.trans h.tasksFixed⟩
  obtain ⟨added, hadded⟩ := h.order q
  obtain ⟨added', hadded'⟩ := h'.order q
  refine ⟨added ++ added', ?_⟩
  rw [served_append, ← List.append_assoc, hadded, List.append_assoc, hadded', List.append_assoc]

/-- Reading the clock. -/
theorem query {clock : ℕ → Int64} (h : Ran p p' es) : Ran p (p'.query clock).2 es :=
  ⟨h.log, h.order, h.tasksFixed⟩

/-- A queue that nothing is taken from only grows. -/
theorem grows (h : Ran p p' es) (hes : served q es = []) :
    ∃ added, p'.queues q = p.queues q ++ added := by
  obtain ⟨added, hadded⟩ := h.order q
  exact ⟨added, by rw [hadded, hes, List.nil_append]⟩

theorem addTask (p : ITaskPool τ φ σ) (task : QueueId × τ) : Ran p (p.addTask task) [] := by
  refine ⟨(List.append_nil _).symm, fun q => ?_, rfl⟩
  by_cases hq : q = task.1
  · exact ⟨[task.2], by simp [hq, ITaskPool.addTask, served]⟩
  · exact ⟨[], by simp [ITaskPool.addTask, served, Function.update_of_ne hq]⟩

theorem addTasks (p : ITaskPool τ φ σ) (ts : List (QueueId × τ)) :
    Ran p (ts.foldl ITaskPool.addTask p) [] := by
  induction ts generalizing p with
  | nil => exact refl p
  | cons t ts ih => exact (addTask p t).trans (ih _)

/-- **A task runs**, the first of its queue. -/
theorem runTask (B : Behaviour τ φ σ) {task : τ} {rest : List τ}
    (hq : p.queues q = task :: rest) :
    Ran p (ITaskPool.runTask B { p with queues := Function.update p.queues q rest } q task)
      [.task q task] := by
  have htake : Ran p { p with
      queues := Function.update p.queues q rest
      world := (B.run task p.world).1
      log := p.log ++ [.task q task] } [.task q task] := by
    refine ⟨rfl, fun q' => ⟨[], ?_⟩, rfl⟩
    by_cases hq' : q' = q
    · simp [hq', hq, served]
    · simp [Function.update_of_ne hq', served, Ne.symm hq']
  exact htake.trans (addTasks _ _)

theorem runFixedTask (B : Behaviour τ φ σ) (p : ITaskPool τ φ σ) (cmd : φ) :
    Ran p (p.runFixedTask B cmd) [.fixed cmd] := by
  have hrun : Ran p { p with
      world := (B.runFixed cmd p.world).1
      log := p.log ++ [.fixed cmd] } [.fixed cmd] :=
    ⟨rfl, fun q => ⟨[], by simp [served]⟩, rfl⟩
  exact hrun.trans (addTasks _ _)

theorem runFixedTasks (B : Behaviour τ φ σ) (p : ITaskPool τ φ σ) (fs : List φ) :
    Ran p (fs.foldl (ITaskPool.runFixedTask B) p) (fs.map .fixed) := by
  induction fs generalizing p with
  | nil => exact refl p
  | cons f fs ih => exact (runFixedTask B p f).trans (ih _)

end Ran

/-! ## A frame -/

variable {B c clock} {p p' : ITaskPool τ φ σ} {fuel : ℕ} {q : QueueId}

theorem processLoop_spec {budget begin : Int64}
    (h : processLoop B c clock q budget begin fuel p = some p') :
    ∃ ts : List τ, Ran p p' (ts.map (.task q)) ∧ (p.queues q ≠ [] → ts ≠ []) := by
  induction fuel generalizing p with
  | zero => cases h
  | succ fuel ih =>
    rw [processLoop] at h
    cases hq : p.queues q with
    | nil =>
      simp only [hq, Option.some.injEq] at h
      exact ⟨[], h ▸ .refl p, fun hne => absurd rfl hne⟩
    | cons task rest =>
      have hrun := Ran.runTask B hq
      simp only [hq] at h
      split_ifs at h
      · -- The budget is spent, after one task.
        obtain rfl := Option.some.inj h
        exact ⟨[task], hrun.query, fun _ => List.cons_ne_nil _ _⟩
      · obtain ⟨ts, hts, -⟩ := ih h
        exact ⟨task :: ts, hrun.query.trans hts, fun _ => List.cons_ne_nil _ _⟩

/-- **One queue of a frame.** At least one task is taken if there is one. -/
theorem processTasks_spec (h : processTasks B c clock fuel q p = some p') :
    ∃ ts : List τ, Ran p p' (ts.map (.task q)) ∧ (p.queues q ≠ [] → ts ≠ []) := by
  obtain ⟨ts, hts, hne⟩ := processLoop_spec h
  exact ⟨ts, ⟨hts.log, hts.order, hts.tasksFixed⟩, hne⟩

/-- **One frame**: the priority queue, the normal queue, and the fixed tasks. -/
theorem frame_spec (h : mainLoopUpdateHookBudget B c clock fuel p = some p') :
    ∃ prio normal : List τ,
      Ran p p' (prio.map (.task .prioQueue) ++ normal.map (.task .queue) ++
        p.tasksFixed.map .fixed) ∧
      (p.queues .prioQueue ≠ [] → prio ≠ []) ∧ (p.queues .queue ≠ [] → normal ≠ []) := by
  unfold mainLoopUpdateHookBudget at h
  cases hprio : processTasks B c clock fuel .prioQueue p with
  | none =>
    simp only [hprio] at h
    cases h
  | some p₁ =>
    simp only [hprio] at h
    cases hnormal : processTasks B c clock fuel .queue p₁ with
    | none =>
      simp only [hnormal] at h
      cases h
    | some p₂ =>
      simp only [hnormal, Option.some.injEq] at h
      obtain ⟨prio, hran₁, hne₁⟩ := processTasks_spec hprio
      obtain ⟨normal, hran₂, hne₂⟩ := processTasks_spec hnormal
      have hran := hran₁.trans hran₂
      refine ⟨prio, normal, ?_, hne₁, fun hne => ?_⟩
      · rw [← hran.tasksFixed, ← h]
        exact hran.trans (.runFixedTasks B p₂ _)
      · -- The priority tasks take nothing from the normal queue.
        obtain ⟨added, hadded⟩ := hran₁.grows (q := .queue) (by rw [served_tasks]; rfl)
        exact hne₂ (by rw [hadded]; exact List.append_ne_nil_of_left_ne_nil hne _)

/-! ## Frame after frame -/

/-- Tasks that arrive queue up at the end. -/
theorem arrive_queues (p : ITaskPool τ φ σ) (a : Arrivals τ φ) (q : QueueId) :
    ∃ added, (p.arrive a).queues q = p.queues q ++ added := (Ran.addTasks p a.tasks).grows rfl

theorem arrive_log (p : ITaskPool τ φ σ) (a : Arrivals τ φ) : (p.arrive a).log = p.log := by
  have hlog := (Ran.addTasks p a.tasks).log
  rwa [List.append_nil] at hlog

theorem frame_served (h : mainLoopUpdateHookBudget B c clock fuel p = some p') (q : QueueId) :
    ∃ es, Ran p p' es ∧ (p.queues q ≠ [] → served q es ≠ []) := by
  obtain ⟨prio, normal, hran, hprio, hnormal⟩ := frame_spec h
  refine ⟨_, hran, fun hne => ?_⟩
  cases q with
  | prioQueue => simpa [served_tasks] using hprio hne
  | queue => simpa [served_tasks] using hnormal hne

/-- After so many frames at least so many tasks of a queue have been run, or all of them. -/
theorem frames_spec {as : List (Arrivals τ φ)} (h : frames B c clock fuel p as = some p')
    (q : QueueId) : ∃ es added, p'.log = p.log ++ es ∧
      p.queues q ++ added = served q es ++ p'.queues q ∧
      min as.length (p.queues q).length ≤ (served q es).length := by
  induction as generalizing p with
  | nil =>
    obtain rfl : p = p' := Option.some.inj h
    exact ⟨[], [], by simp, by simp [served], by simp⟩
  | cons a as ih =>
    rw [frames] at h
    cases hframe : mainLoopUpdateHookBudget B c clock fuel (p.arrive a) with
    | none =>
      simp only [hframe] at h
      cases h
    | some p₁ =>
      simp only [hframe] at h
      obtain ⟨arrived, harrived⟩ := arrive_queues p a q
      obtain ⟨es, hran, hne⟩ := frame_served hframe q
      obtain ⟨added, hadded⟩ := hran.order q
      obtain ⟨es', added', hlog, hadded', hlen⟩ := ih h
      refine ⟨es ++ es', arrived ++ (added ++ added'), ?_, ?_, ?_⟩
      · rw [hlog, hran.log, arrive_log, List.append_assoc]
      · rw [served_append, ← List.append_assoc, ← harrived, ← List.append_assoc, hadded,
          List.append_assoc, hadded', List.append_assoc]
      · have hcount := congrArg List.length hadded
        rw [List.length_append, List.length_append, harrived, List.length_append] at hcount
        rw [harrived] at hne
        rw [served_append, List.length_append, List.length_cons]
        by_cases hempty : p.queues q = []
        · simp [hempty]
        · have hpos := List.length_pos_iff.2
            (hne (List.append_ne_nil_of_left_ne_nil hempty arrived))
          omega

/-- **No starvation.** -/
theorem no_starvation (B : Behaviour τ φ σ) (c : PerfCounter) (clock : ℕ → Int64) (fuel : ℕ) :
    (∀ (p p' : ITaskPool τ φ σ) (as : List (Arrivals τ φ)) (q : QueueId) (k : ℕ) (t : τ),
      frames B c clock fuel p as = some p' → k < as.length → (p.queues q)[k]? = some t →
        ∃ es, p'.log = p.log ++ es ∧ (served q es)[k]? = some t) ∧
    ∀ p p' : ITaskPool τ φ σ, mainLoopUpdateHookBudget B c clock fuel p = some p' →
      ∃ prio normal : List τ, p'.log = p.log ++ (prio.map (.task .prioQueue) ++
        normal.map (.task .queue) ++ p.tasksFixed.map .fixed) := by
  refine ⟨fun p p' as q k t h hk ht => ?_, fun p p' h => ?_⟩
  · obtain ⟨es, added, hlog, hadded, hlen⟩ := frames_spec h q
    obtain ⟨hlt, -⟩ := List.getElem?_eq_some_iff.1 ht
    have hserved : k < (served q es).length := by omega
    refine ⟨es, hlog, ?_⟩
    rw [← List.getElem?_append_left hserved, ← hadded, List.getElem?_append_left hlt, ht]
  · obtain ⟨prio, normal, hran, -⟩ := frame_spec h
    exact ⟨prio, normal, hran.log⟩

/-- Two tasks in each queue, one fixed task, and a clock that spends every budget at once. -/
def samplePool : ITaskPool ℕ ℕ Unit := ⟨fun _ => [5, 6], [9], 0, (), 0, []⟩

/-- Every task of a queue adds a priority task like itself. -/
def sampleBehaviour : Behaviour ℕ ℕ Unit :=
  ⟨fun t _ => ((), [(.prioQueue, t)]), fun _ _ => ((), [])⟩

theorem no_starvation_sample : ∃ p',
    frames sampleBehaviour ⟨1⟩ (fun n => Int64.ofNat n) 2 samplePool
      [⟨[], [], 0⟩, ⟨[(.queue, 7)], [], 0⟩] = some p' ∧
    ∃ es, p'.log = samplePool.log ++ es ∧ (served .queue es)[1]? = some 6 := by
  have hrun : (frames sampleBehaviour ⟨1⟩ (fun n => Int64.ofNat n) 2 samplePool
      [⟨[], [], 0⟩, ⟨[(.queue, 7)], [], 0⟩]).isSome := by
    decide
  obtain ⟨p', hp'⟩ := Option.isSome_iff_exists.1 hrun
  exact ⟨p', hp', (no_starvation _ _ _ _).1 _ _ _ _ 1 6 hp' (by decide) rfl⟩

end ITaskPool

end SseExt
