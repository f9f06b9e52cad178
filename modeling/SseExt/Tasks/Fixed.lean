import SseExt.Lib.Transition
import SseExt.Tasks.Budget

/-!
# `ITaskPool`: fixed tasks that register fixed tasks

Once a frame, after the queues, both hooks go over the vector of fixed tasks, with the iterators of
its begin and end. A task may register another one, which the vector makes room for in new storage
when it is full. The iterators then point to storage that is gone.

**Theorem (`fixedTasks_iff`).** The loop uses no such iterator, and the tasks that it began with run
once each in order, if and only if what they register fits in the room that the vector had when the
loop began. What queued tasks register does no harm.

An iterator is good as long as the storage is the one it was made for. The standard is stricter
about the one past the end, which any `emplace_back` invalidates; here it is the pointer that it is
in the code, which stays good while the storage stays. The vector is part of the world of the tasks
here, since they change it; the list `tasksFixed` of the pool is not used.
-/

namespace SseExt.ITaskPool

/-- `m_tasks_fixed`. The storage is numbered by how often it was replaced. -/
structure TasksFixed (φ : Type*) where
  storage : ℕ
  capacity : ℕ
  tasks : List φ
  fits : tasks.length ≤ capacity

/-- `std::vector<TaskDelegateFixed*>::const_iterator` -/
structure ConstIterator where
  storage : ℕ
  index : ℕ
  deriving DecidableEq

namespace TasksFixed

variable {φ : Type*}

/-- The vector of a new pool. -/
def empty : TasksFixed φ := ⟨0, 0, [], Nat.le_refl 0⟩

def cbegin (v : TasksFixed φ) : ConstIterator := ⟨v.storage, 0⟩

def cend (v : TasksFixed φ) : ConstIterator := ⟨v.storage, v.tasks.length⟩

/-- `AddTaskFixed`; a full vector of capacity `n` asks for at least `grow n`. -/
def addTaskFixed (grow : ℕ → ℕ) (v : TasksFixed φ) (cmd : φ) : TasksFixed φ :=
  if h : v.tasks.length < v.capacity then
    { v with
      tasks := v.tasks ++ [cmd]
      fits := by simpa using Nat.succ_le_of_lt h }
  else
    { storage := v.storage + 1
      capacity := max (v.tasks.length + 1) (grow v.capacity)
      tasks := v.tasks ++ [cmd]
      fits := by simp }

end TasksFixed

/-- What a task does: to the world, and with `AddTask`, `AddPriorityTask` and `AddTaskFixed`. -/
structure Effect (τ φ σ : Type*) where
  world : σ
  added : List (QueueId × τ)
  registered : List φ

/-- What tasks do, if they may register fixed tasks. -/
structure Registering (τ φ σ : Type*) where
  run : τ → σ → Effect τ φ σ
  runFixed : φ → σ → Effect τ φ σ

variable {τ φ σ : Type*}

/-- The effect on the world with the vector. -/
def Effect.on (grow : ℕ → ℕ) (r : Effect τ φ σ) (v : TasksFixed φ) :
    (σ × TasksFixed φ) × List (QueueId × τ) :=
  ((r.world, r.registered.foldl (.addTaskFixed grow) v), r.added)

/-- `for (auto const& cmd : m_Instance.m_tasks_fixed)`, from `it`. -/
def runFixedTasks (B : Behaviour τ φ (σ × TasksFixed φ)) (cend : ConstIterator) :
    ℕ → ConstIterator → ITaskPool τ φ (σ × TasksFixed φ) →
      Outcome (ITaskPool τ φ (σ × TasksFixed φ)) ConstIterator
  | 0, _, _ => .blocked
  | fuel + 1, it, p =>
    if it.storage ≠ p.world.2.storage then .fault it
    else if cend.storage ≠ p.world.2.storage then .fault cend
    else if it = cend then .step p
    else
      match p.world.2.tasks[it.index]? with
      | none => .fault it
      | some cmd => runFixedTasks B cend fuel ⟨it.storage, it.index + 1⟩ (p.runFixedTask B cmd)

namespace Registering

variable (R : Registering τ φ σ) (grow : ℕ → ℕ) (c : PerfCounter) (clock : ℕ → Int64)

/-- The tasks, in the world with the vector. -/
def behaviour : Behaviour τ φ (σ × TasksFixed φ) where
  run task w := (R.run task w.1).on grow w.2
  runFixed cmd w := (R.runFixed cmd w.1).on grow w.2

/-- A frame: both queues, as `process` does, and the fixed tasks. -/
def hook (process : QueueId → ITaskPool τ φ (σ × TasksFixed φ) →
    Option (ITaskPool τ φ (σ × TasksFixed φ))) (p : ITaskPool τ φ (σ × TasksFixed φ)) :
    Outcome (ITaskPool τ φ (σ × TasksFixed φ)) ConstIterator :=
  match process .prioQueue p with
  | none => .blocked
  | some p =>
    match process .queue p with
    | none => .blocked
    | some p =>
      runFixedTasks (R.behaviour grow) p.world.2.cend (p.world.2.tasks.length + 1)
        p.world.2.cbegin p

/-- `MainLoopUpdate_Hook` -/
def mainLoopUpdateHook (fuel : ℕ) (p : ITaskPool τ φ (σ × TasksFixed φ)) :
    Outcome (ITaskPool τ φ (σ × TasksFixed φ)) ConstIterator :=
  R.hook grow (fun q => processAll (R.behaviour grow) q fuel) p

/-- `MainLoopUpdate_Hook_Budget` -/
def mainLoopUpdateHookBudget (fuel : ℕ) (p : ITaskPool τ φ (σ × TasksFixed φ)) :
    Outcome (ITaskPool τ φ (σ × TasksFixed φ)) ConstIterator :=
  R.hook grow (fun q => processTasks (R.behaviour grow) c clock fuel q) p

/-- What fixed tasks register that run one after another. -/
def registrations : List φ → σ → List φ
  | [], _ => []
  | cmd :: cmds, w =>
    (R.runFixed cmd w).registered ++ registrations cmds (R.runFixed cmd w).world

/-- What the fixed tasks register fits in the room of the vector. -/
def Fits (w : σ × TasksFixed φ) : Prop :=
  w.2.tasks.length + (R.registrations w.2.tasks w.1).length ≤ w.2.capacity

end Registering

/-- A frame from `p` in which the fixed tasks `cmds` run once each, in order, after the queues. -/
def RunsEachOnce (p : ITaskPool τ φ (σ × TasksFixed φ)) (cmds : List φ)
    (r : Outcome (ITaskPool τ φ (σ × TasksFixed φ)) ConstIterator) : Prop :=
  ∃ (p' : _) (prio normal : List τ), r = .step p' ∧
    p'.log = p.log ++ (prio.map (.task .prioQueue) ++ normal.map (.task .queue) ++
      cmds.map .fixed)

/-! ## The vector -/

namespace TasksFixed

variable {grow : ℕ → ℕ} {v : TasksFixed φ} {cmd : φ} {cmds : List φ}

@[simp] theorem tasks_addTaskFixed : (v.addTaskFixed grow cmd).tasks = v.tasks ++ [cmd] := by
  unfold addTaskFixed
  split_ifs <;> rfl

theorem addTaskFixed_of_lt (grow : ℕ → ℕ) (cmd : φ) (h : v.tasks.length < v.capacity) :
    (v.addTaskFixed grow cmd).storage = v.storage ∧
      (v.addTaskFixed grow cmd).capacity = v.capacity := by
  rw [addTaskFixed, dif_pos h]
  exact ⟨rfl, rfl⟩

theorem storage_le_addTaskFixed : v.storage ≤ (v.addTaskFixed grow cmd).storage := by
  unfold addTaskFixed
  split_ifs
  · exact Nat.le_refl _
  · exact Nat.le_succ _

theorem tasks_addTasksFixed :
    (cmds.foldl (addTaskFixed grow) v).tasks = v.tasks ++ cmds := by
  induction cmds generalizing v with
  | nil => simp
  | cons cmd cmds ih => simp [ih]

theorem storage_le_addTasksFixed :
    v.storage ≤ (cmds.foldl (addTaskFixed grow) v).storage := by
  induction cmds generalizing v with
  | nil => exact Nat.le_refl _
  | cons cmd cmds ih => exact storage_le_addTaskFixed.trans ih

/-- With room for all of them, the storage stays. -/
theorem addTasksFixed_of_le (grow : ℕ → ℕ) (h : v.tasks.length + cmds.length ≤ v.capacity) :
    (cmds.foldl (addTaskFixed grow) v).storage = v.storage ∧
      (cmds.foldl (addTaskFixed grow) v).capacity = v.capacity := by
  induction cmds generalizing v with
  | nil => exact ⟨rfl, rfl⟩
  | cons cmd cmds ih =>
    rw [List.length_cons] at h
    obtain ⟨hstorage, hcapacity⟩ := addTaskFixed_of_lt (v := v) grow cmd (by omega)
    obtain ⟨hstorage', hcapacity'⟩ := ih (v := v.addTaskFixed grow cmd) (by
      rw [tasks_addTaskFixed, hcapacity, List.length_append, List.length_singleton]
      omega)
    exact ⟨hstorage'.trans hstorage, hcapacity'.trans hcapacity⟩

/-- Without, it is replaced. -/
theorem storage_lt_addTasksFixed (grow : ℕ → ℕ) (h : v.capacity < v.tasks.length + cmds.length) :
    v.storage < (cmds.foldl (addTaskFixed grow) v).storage := by
  induction cmds generalizing v with
  | nil =>
    have hfits := v.fits
    rw [List.length_nil] at h
    omega
  | cons cmd cmds ih =>
    rw [List.length_cons] at h
    by_cases hlt : v.tasks.length < v.capacity
    · obtain ⟨hstorage, hcapacity⟩ := addTaskFixed_of_lt grow cmd hlt
      rw [← hstorage]
      refine ih ?_
      rw [tasks_addTaskFixed, hcapacity, List.length_append, List.length_singleton]
      omega
    · have hnew : v.storage < (v.addTaskFixed grow cmd).storage := by
        rw [addTaskFixed, dif_neg hlt]
        exact Nat.lt_succ_self _
      exact lt_of_lt_of_le hnew (storage_le_addTasksFixed (v := v.addTaskFixed grow cmd))

end TasksFixed

/-! ## The loop -/

variable {R : Registering τ φ σ} {grow : ℕ → ℕ} {c : PerfCounter} {clock : ℕ → Int64} {fuel : ℕ}
  {p p' p₁ p₂ : ITaskPool τ φ (σ × TasksFixed φ)} {q : QueueId} {it cend : ConstIterator}

theorem foldl_addTask_world (ts : List (QueueId × τ)) (p : ITaskPool τ φ σ) :
    (ts.foldl addTask p).world = p.world := by
  induction ts generalizing p with
  | nil => rfl
  | cons t ts ih => exact ih (p.addTask t)

theorem world_runFixedTask (R : Registering τ φ σ) (grow : ℕ → ℕ)
    (p : ITaskPool τ φ (σ × TasksFixed φ)) (cmd : φ) :
    (p.runFixedTask (R.behaviour grow) cmd).world =
      ((R.runFixed cmd p.world.1).world,
        (R.runFixed cmd p.world.1).registered.foldl (.addTaskFixed grow) p.world.2) :=
  foldl_addTask_world _ _

/-- A round with an iterator to storage that is gone. -/
theorem runFixedTasks_gone {B : Behaviour τ φ (σ × TasksFixed φ)}
    (h : it.storage ≠ p.world.2.storage) : runFixedTasks B cend (fuel + 1) it p = .fault it := by
  rw [runFixedTasks, if_pos h]

/-- The last round. -/
theorem runFixedTasks_cend {B : Behaviour τ φ (σ × TasksFixed φ)}
    (h : cend.storage = p.world.2.storage) : runFixedTasks B cend (fuel + 1) cend p = .step p := by
  rw [runFixedTasks, if_neg (not_not_intro h), if_neg (not_not_intro h), if_pos rfl]

/-- A round that runs the task `cmd`. -/
theorem runFixedTasks_cons {B : Behaviour τ φ (σ × TasksFixed φ)} {cmd : φ}
    (hit : it.storage = p.world.2.storage) (hend : cend.storage = p.world.2.storage)
    (hne : it ≠ cend) (hcmd : p.world.2.tasks[it.index]? = some cmd) :
    runFixedTasks B cend (fuel + 1) it p =
      runFixedTasks B cend fuel ⟨it.storage, it.index + 1⟩ (p.runFixedTask B cmd) := by
  rw [runFixedTasks, if_neg (not_not_intro hit), if_neg (not_not_intro hend), if_neg hne, hcmd]

/-- The loop when the tasks `todo` are left, after `done`, and `new` were registered since. -/
theorem runFixedTasks_spec (R : Registering τ φ σ) (grow : ℕ → ℕ) (done todo new : List φ)
    (htasks : p.world.2.tasks = done ++ todo ++ new)
    (hend : cend = ⟨p.world.2.storage, (done ++ todo).length⟩) :
    (p.world.2.tasks.length + (R.registrations todo p.world.1).length ≤ p.world.2.capacity →
      runFixedTasks (R.behaviour grow) cend (todo.length + 1) ⟨p.world.2.storage, done.length⟩ p =
        .step (todo.foldl (runFixedTask (R.behaviour grow)) p)) ∧
    (p.world.2.capacity < p.world.2.tasks.length + (R.registrations todo p.world.1).length →
      ∃ it, runFixedTasks (R.behaviour grow) cend (todo.length + 1)
        ⟨p.world.2.storage, done.length⟩ p = .fault it) := by
  induction todo generalizing p done new with
  | nil =>
    rw [List.append_nil] at hend
    subst hend
    refine ⟨fun _ => runFixedTasks_cend rfl, fun h => ?_⟩
    have hfits := p.world.2.fits
    rw [Registering.registrations, List.length_nil] at h
    omega
  | cons cmd todo ih =>
    have hcmd : p.world.2.tasks[done.length]? = some cmd := by
      rw [htasks]
      simp
    have hne : (⟨p.world.2.storage, done.length⟩ : ConstIterator) ≠ cend := by
      simp [hend]
    have hworld := world_runFixedTask R grow p cmd
    rw [Registering.registrations, List.length_append, List.length_cons, List.foldl_cons,
      runFixedTasks_cons rfl (congrArg ConstIterator.storage hend) hne hcmd]
    generalize p.runFixedTask (R.behaviour grow) cmd = p₁ at hworld ⊢
    generalize R.runFixed cmd p.world.1 = r at hworld ⊢
    obtain ⟨hworld, hvector⟩ := Prod.ext_iff.1 hworld
    dsimp only at hworld hvector
    have htasks₁ : p₁.world.2.tasks = p.world.2.tasks ++ r.registered := by
      rw [hvector, TasksFixed.tasks_addTasksFixed]
    by_cases hroom : p.world.2.tasks.length + r.registered.length ≤ p.world.2.capacity
    · -- The storage stays, so the iterators do.
      obtain ⟨hstorage, hcapacity⟩ := TasksFixed.addTasksFixed_of_le grow hroom
      rw [← hvector] at hstorage hcapacity
      have hrest := ih (p := p₁) (done ++ [cmd]) (new ++ r.registered)
        (by rw [htasks₁, htasks]; simp) (by rw [hend, hstorage]; simp)
      rw [htasks₁, hcapacity, hstorage, hworld] at hrest
      simpa [Nat.add_assoc] using hrest
    · -- The storage is gone when the next round begins.
      have hgone := TasksFixed.storage_lt_addTasksFixed grow (not_le.1 hroom)
      rw [← hvector] at hgone
      exact ⟨fun h => by omega, fun _ => ⟨_, runFixedTasks_gone hgone.ne⟩⟩

/-- **The loop** is the one over the list, unless the vector runs out of room. -/
theorem runFixedTasks_eq (R : Registering τ φ σ) (grow : ℕ → ℕ)
    (p : ITaskPool τ φ (σ × TasksFixed φ)) :
    (R.Fits p.world → runFixedTasks (R.behaviour grow) p.world.2.cend
      (p.world.2.tasks.length + 1) p.world.2.cbegin p =
        .step (p.world.2.tasks.foldl (runFixedTask (R.behaviour grow)) p)) ∧
    (¬ R.Fits p.world → ∃ it, runFixedTasks (R.behaviour grow) p.world.2.cend
      (p.world.2.tasks.length + 1) p.world.2.cbegin p = .fault it) := by
  obtain ⟨hstep, hfault⟩ :=
    runFixedTasks_spec (p := p) R grow [] p.world.2.tasks [] (List.append_nil _).symm rfl
  exact ⟨hstep, fun h => hfault (not_le.1 h)⟩

/-! ## Frames -/

theorem processAll_spec {B : Behaviour τ φ σ} {p p' : ITaskPool τ φ σ}
    (h : processAll B q fuel p = some p') : ∃ ts : List τ, Ran p p' (ts.map (.task q)) := by
  induction fuel generalizing p with
  | zero => cases h
  | succ fuel ih =>
    rw [processAll] at h
    cases hq : p.queues q with
    | nil =>
      simp only [hq, Option.some.injEq] at h
      exact ⟨[], h ▸ .refl p⟩
    | cons task rest =>
      simp only [hq] at h
      obtain ⟨ts, hts⟩ := ih h
      exact ⟨task :: ts, (Ran.runTask B hq).trans hts⟩

/-- A frame whose queues were processed, from `p` to `p₂`. -/
theorem hook_iff (process : QueueId → ITaskPool τ φ (σ × TasksFixed φ) →
      Option (ITaskPool τ φ (σ × TasksFixed φ)))
    (hspec : ∀ q p p', process q p = some p' → ∃ ts : List τ, Ran p p' (ts.map (.task q)))
    (hprio : process .prioQueue p = some p₁) (hnormal : process .queue p₁ = some p₂) :
    RunsEachOnce p p₂.world.2.tasks (R.hook grow process p) ↔ R.Fits p₂.world := by
  obtain ⟨prio, hran₁⟩ := hspec _ _ _ hprio
  obtain ⟨normal, hran₂⟩ := hspec _ _ _ hnormal
  obtain ⟨hstep, hfault⟩ := runFixedTasks_eq R grow p₂
  simp only [Registering.hook, hprio, hnormal]
  constructor
  · rintro ⟨p', -, -, hp', -⟩
    by_contra hfits
    obtain ⟨it, hit⟩ := hfault hfits
    rw [hit] at hp'
    cases hp'
  · intro hfits
    have hran := (hran₁.trans hran₂).trans (.runFixedTasks (R.behaviour grow) p₂ p₂.world.2.tasks)
    exact ⟨_, prio, normal, hstep hfits, hran.log⟩

/-- **Fixed tasks run once a frame**, if what they register has room. -/
theorem fixedTasks_iff (R : Registering τ φ σ) (grow : ℕ → ℕ) (c : PerfCounter)
    (clock : ℕ → Int64) (fuel : ℕ) (p p₁ p₂ : ITaskPool τ φ (σ × TasksFixed φ)) :
    (processAll (R.behaviour grow) .prioQueue fuel p = some p₁ →
      processAll (R.behaviour grow) .queue fuel p₁ = some p₂ →
        (RunsEachOnce p p₂.world.2.tasks (R.mainLoopUpdateHook grow fuel p) ↔
          R.Fits p₂.world)) ∧
    (processTasks (R.behaviour grow) c clock fuel .prioQueue p = some p₁ →
      processTasks (R.behaviour grow) c clock fuel .queue p₁ = some p₂ →
        (RunsEachOnce p p₂.world.2.tasks (R.mainLoopUpdateHookBudget grow c clock fuel p) ↔
          R.Fits p₂.world)) := by
  constructor
  · intro hprio hnormal
    exact hook_iff (fun q => processAll (R.behaviour grow) q fuel)
      (fun q p p' h => processAll_spec h) hprio hnormal
  · intro hprio hnormal
    refine hook_iff (fun q => processTasks (R.behaviour grow) c clock fuel q)
      (fun q p p' h => ?_) hprio hnormal
    obtain ⟨ts, hts, -⟩ := processTasks_spec h
    exact ⟨ts, hts⟩

/-- Every fixed task registers the next number, up to 2. -/
def countToTwo : Registering ℕ ℕ Unit where
  run _ _ := ⟨(), [], []⟩
  runFixed cmd _ := ⟨(), [], if cmd < 2 then [cmd + 1] else []⟩

/-- A pool whose fixed tasks were registered one by one. -/
def poolWithFixed (grow : ℕ → ℕ) (cmds : List ℕ) : ITaskPool ℕ ℕ (Unit × TasksFixed ℕ) :=
  ⟨fun _ => [], [], 0, ((), cmds.foldl (.addTaskFixed grow) .empty), 0, []⟩

/-- There is room for four, and one is registered. -/
theorem fixedTasks_iff_sample :
    RunsEachOnce (poolWithFixed (fun _ => 4) [1, 5]) [1, 5]
      (countToTwo.mainLoopUpdateHook (fun _ => 4) 1 (poolWithFixed (fun _ => 4) [1, 5])) :=
  ((fixedTasks_iff countToTwo (fun _ => 4) ⟨1⟩ (fun _ => 0) 1 (poolWithFixed (fun _ => 4) [1, 5])
    (poolWithFixed (fun _ => 4) [1, 5]) (poolWithFixed (fun _ => 4) [1, 5])).1 rfl rfl).2
      (show 2 + 1 ≤ 4 by decide)

/-- The vector grows by half, and has room for the first task only. -/
theorem fixed_task_gone :
    countToTwo.mainLoopUpdateHook (fun n => n + n / 2) 1 (poolWithFixed (fun n => n + n / 2) [1]) =
      .fault ⟨1, 1⟩ :=
  rfl

end SseExt.ITaskPool
