import Mathlib.Logic.Function.Iterate
import SseExt.Tasks.Frames

/-!
# `TaskQueue`: with and without a budget

`ProcessTasks()` runs tasks until the queue is empty, `ProcessTasks(budget)` may stop after any of
them, depending on the clock. Tasks may add tasks, so neither needs to end.

**Theorem (`processTasks_prefix`).** What a call with a budget has run, after any number of rounds,
is what a call without one runs first, and it leaves the same queue. Calls with a budget that empty
the queue together do what one call without a budget does.

The clock is read only by the call with a budget, so the two are compared up to the number of
readings (`SameTasks`).
-/

namespace SseExt.ITaskPool

variable {τ φ σ : Type*} (B : Behaviour τ φ σ) (c : PerfCounter) (clock : ℕ → Int64) (q : QueueId)

/-- `TaskQueue::ProcessTasks()`; `none` when `fuel` rounds are not enough. -/
def processAll : ℕ → ITaskPool τ φ σ → Option (ITaskPool τ φ σ)
  | 0, _ => none
  | fuel + 1, p =>
    match p.queues q with
    | [] => some p
    | task :: rest =>
      processAll fuel (runTask B { p with queues := Function.update p.queues q rest } q task)

/-- A round of `ProcessTasks()`; nothing happens when the queue is empty. -/
def round (p : ITaskPool τ φ σ) : ITaskPool τ φ σ :=
  match p.queues q with
  | [] => p
  | task :: rest => runTask B { p with queues := Function.update p.queues q rest } q task

/-- The loop of `ProcessTasks(budget)` after at most so many rounds, and whether it has ended. -/
def processLoopFor (budget begin : Int64) : ℕ → ITaskPool τ φ σ → ITaskPool τ φ σ × Bool
  | 0, p => (p, false)
  | n + 1, p =>
    match p.queues q with
    | [] => (p, true)
    | task :: rest =>
      let p := runTask B { p with queues := Function.update p.queues q rest } q task
      let now := p.query clock
      if c.deltaUs begin now.1 > budget then (now.2, true)
      else processLoopFor budget begin n now.2

/-- `TaskQueue::ProcessTasks(budget)` after at most so many rounds. -/
def processTasksFor (n : ℕ) (p : ITaskPool τ φ σ) : ITaskPool τ φ σ × Bool :=
  let begin := p.query clock
  processLoopFor B c clock q p.budget begin.1 n begin.2

/-- `ProcessTasks(budget)` again and again, each call with its fuel. -/
def repeatTasks : List ℕ → ITaskPool τ φ σ → Option (ITaskPool τ φ σ)
  | [], p => some p
  | fuel :: fuels, p =>
    match processTasks B c clock fuel q p with
    | none => none
    | some p => repeatTasks fuels p

/-! ## What rounds of `ProcessTasks()` run -/

/-- The tasks for one queue. -/
def tasksFor (ts : List (QueueId × τ)) : List τ :=
  ts.filterMap fun t => if t.1 = q then some t.2 else none

/-- What the first rounds run. -/
def ran : ℕ → ITaskPool τ φ σ → List τ
  | 0, _ => []
  | n + 1, p =>
    match p.queues q with
    | [] => []
    | task :: _ => task :: ran n (round B q p)

/-- What the tasks of the first rounds add to the queue. -/
def appended : ℕ → ITaskPool τ φ σ → List τ
  | 0, _ => []
  | n + 1, p =>
    match p.queues q with
    | [] => []
    | task :: _ => tasksFor q (B.run task p.world).2 ++ appended n (round B q p)

variable {B c clock q} {p p' p'' : ITaskPool τ φ σ}

theorem round_nil (h : p.queues q = []) : round B q p = p := by
  simp only [round, h]

theorem rounds_nil (h : p.queues q = []) (n : ℕ) : (round B q)^[n] p = p :=
  Function.iterate_fixed (round_nil h) n

theorem foldl_addTask_queues (ts : List (QueueId × τ)) (p : ITaskPool τ φ σ) :
    (ts.foldl addTask p).queues q = p.queues q ++ tasksFor q ts := by
  induction ts generalizing p with
  | nil => simp [tasksFor]
  | cons t ts ih =>
    rw [List.foldl_cons, ih, tasksFor, tasksFor, List.filterMap_cons]
    by_cases hq : t.1 = q
    · simp [addTask, hq]
    · simp [addTask, hq, Function.update_of_ne (Ne.symm hq)]

theorem round_of_cons {task : τ} {rest : List τ} (h : p.queues q = task :: rest) :
    round B q p = runTask B { p with queues := Function.update p.queues q rest } q task := by
  simp only [round, h]

/-- **A round** runs the first task of the queue. -/
theorem round_cons {task : τ} {rest : List τ} (h : p.queues q = task :: rest) :
    (round B q p).log = p.log ++ [.task q task] ∧
      (round B q p).queues q = rest ++ tasksFor q (B.run task p.world).2 := by
  rw [round_of_cons h]
  constructor
  · exact (Ran.runTask B h).log
  · rw [runTask, foldl_addTask_queues]
    simp

/-- **Rounds** run the queue, with what is added to it, in order. -/
theorem rounds_spec (n : ℕ) (p : ITaskPool τ φ σ) :
    ((round B q)^[n] p).log = p.log ++ (ran B q n p).map (.task q) ∧
      p.queues q ++ appended B q n p = ran B q n p ++ ((round B q)^[n] p).queues q := by
  induction n generalizing p with
  | zero => simp [ran, appended]
  | succ n ih =>
    rw [Function.iterate_succ_apply, ran, appended]
    obtain ⟨hlog, hqueue⟩ := ih (round B q p)
    cases h : p.queues q with
    | nil =>
      rw [round_nil h] at hlog hqueue ⊢
      simp [rounds_nil h, h]
    | cons task rest =>
      obtain ⟨hlog', hqueue'⟩ := round_cons (B := B) h
      rw [hqueue'] at hqueue
      constructor
      · rw [hlog, hlog', List.append_assoc, List.map_cons, List.singleton_append]
      · rw [List.cons_append, ← List.append_assoc, hqueue, List.cons_append]

theorem ran_of_nil (h : p.queues q = []) (n : ℕ) : ran B q n p = [] := by
  cases n with
  | zero => rfl
  | succ n => simp [ran, h]

theorem ran_add (m n : ℕ) (p : ITaskPool τ φ σ) :
    ran B q (m + n) p = ran B q m p ++ ran B q n ((round B q)^[m] p) := by
  induction m generalizing p with
  | zero => simp [ran]
  | succ m ih =>
    rw [Nat.succ_add, ran, ran, Function.iterate_succ_apply]
    cases hq : p.queues q with
    | nil => simp [round_nil hq, rounds_nil hq, ran_of_nil hq]
    | cons task rest => rw [List.cons_append, ← ih]

theorem ran_prefix {k m : ℕ} (hkm : k ≤ m) (p : ITaskPool τ φ σ) :
    ran B q k p <+: ran B q m p := by
  obtain ⟨n, rfl⟩ := Nat.exists_eq_add_of_le hkm
  rw [ran_add]
  exact List.prefix_append _ _

/-- Rounds after the queue is empty run nothing. -/
theorem ran_prefix_of_nil {n : ℕ} (h : ((round B q)^[n] p).queues q = []) (k : ℕ) :
    ran B q k p <+: ran B q n p := by
  rcases Nat.le_total k n with hkn | hnk
  · exact ran_prefix hkn p
  · obtain ⟨m, rfl⟩ := Nat.exists_eq_add_of_le hnk
    have hran : ran B q (n + m) p = ran B q n p := by rw [ran_add, ran_of_nil h, List.append_nil]
    exact hran ▸ List.prefix_refl _

theorem ran_ne_nil {n : ℕ} (hn : 0 < n) (h : p.queues q ≠ []) : ran B q n p ≠ [] := by
  obtain ⟨n, rfl⟩ := Nat.exists_eq_add_one_of_ne_zero (Nat.ne_of_gt hn)
  obtain ⟨task, rest, hq⟩ := List.exists_cons_of_ne_nil h
  simp [ran, hq]

/-- **`ProcessTasks()`** returns after the rounds that empty the queue. -/
theorem processAll_eq_some {fuel : ℕ} (h : processAll B q fuel p = some p') :
    ∃ n, p' = (round B q)^[n] p ∧ p'.queues q = [] := by
  induction fuel generalizing p with
  | zero => cases h
  | succ fuel ih =>
    rw [processAll] at h
    cases hq : p.queues q with
    | nil =>
      simp only [hq, Option.some.injEq] at h
      exact ⟨0, h.symm, h ▸ hq⟩
    | cons task rest =>
      simp only [hq] at h
      obtain ⟨n, hn, hempty⟩ := ih h
      refine ⟨n + 1, ?_, hempty⟩
      rw [hn, Function.iterate_succ_apply, round_of_cons hq]

theorem processAll_of_rounds {n : ℕ} (h : ((round B q)^[n] p).queues q = []) :
    processAll B q (n + 1) p = some ((round B q)^[n] p) := by
  induction n generalizing p with
  | zero =>
    simp only [Function.iterate_zero, id_eq] at h ⊢
    simp only [processAll, h]
  | succ n ih =>
    rw [Function.iterate_succ_apply] at h ⊢
    rw [processAll]
    cases hq : p.queues q with
    | nil =>
      rw [round_nil hq, rounds_nil hq]
    | cons task rest =>
      rw [round_of_cons hq] at h ⊢
      exact ih h

/-! ## With a budget -/

/-- The two differ at most in how often the clock was read. -/
def SameTasks (p p' : ITaskPool τ φ σ) : Prop := ∃ r, p' = { p with reading := r }

theorem SameTasks.refl (p : ITaskPool τ φ σ) : SameTasks p p := ⟨p.reading, rfl⟩

theorem SameTasks.trans (h : SameTasks p p') (h' : SameTasks p' p'') : SameTasks p p'' := by
  obtain ⟨r, rfl⟩ := h
  obtain ⟨r', rfl⟩ := h'
  exact ⟨r', rfl⟩

theorem foldl_addTask_reading (ts : List (QueueId × τ)) (p : ITaskPool τ φ σ) (r : ℕ) :
    ts.foldl addTask { p with reading := r } = { ts.foldl addTask p with reading := r } := by
  induction ts generalizing p with
  | nil => rfl
  | cons t ts ih => exact ih (p.addTask t)

/-- Tasks do not see the clock. -/
theorem SameTasks.round (h : SameTasks p p') : SameTasks (round B q p) (round B q p') := by
  obtain ⟨r, rfl⟩ := h
  refine ⟨r, ?_⟩
  unfold ITaskPool.round
  cases hq : p.queues q with
  | nil => simp only
  | cons task rest => simp only [runTask, ← foldl_addTask_reading]

theorem SameTasks.rounds (h : SameTasks p p') (n : ℕ) :
    SameTasks ((ITaskPool.round B q)^[n] p) ((ITaskPool.round B q)^[n] p') := by
  induction n generalizing p p' with
  | zero => exact h
  | succ n ih => exact ih h.round

/-- **The loop with a budget** does rounds of the loop without one. -/
theorem processLoopFor_spec (B : Behaviour τ φ σ) (c : PerfCounter) (clock : ℕ → Int64)
    (q : QueueId) (budget begin : Int64) (n : ℕ) (p : ITaskPool τ φ σ) :
    ∃ k ≤ n, SameTasks ((round B q)^[k] p) (processLoopFor B c clock q budget begin n p).1 ∧
      (0 < n → p.queues q ≠ [] → 0 < k) := by
  induction n generalizing p with
  | zero => exact ⟨0, Nat.le_refl 0, .refl p, fun hn => absurd hn (Nat.lt_irrefl 0)⟩
  | succ n ih =>
    rw [processLoopFor]
    cases hq : p.queues q with
    | nil => exact ⟨0, Nat.zero_le _, .refl p, fun _ hne => absurd rfl hne⟩
    | cons task rest =>
      dsimp only
      rw [← round_of_cons hq]
      have hquery : SameTasks (round B q p) ((round B q p).query clock).2 := ⟨_, rfl⟩
      split_ifs
      · -- The budget is spent, after this round.
        exact ⟨1, Nat.succ_le_succ n.zero_le, hquery, fun _ _ => Nat.one_pos⟩
      · obtain ⟨k, hk, hsame, -⟩ := ih ((round B q p).query clock).2
        exact ⟨k + 1, Nat.succ_le_succ hk, (hquery.rounds k).trans hsame, fun _ _ => k.succ_pos⟩

theorem processTasksFor_spec (B : Behaviour τ φ σ) (c : PerfCounter) (clock : ℕ → Int64)
    (q : QueueId) (n : ℕ) (p : ITaskPool τ φ σ) :
    ∃ k ≤ n, SameTasks ((round B q)^[k] p) (processTasksFor B c clock q n p).1 ∧
      (0 < n → p.queues q ≠ [] → 0 < k) := by
  obtain ⟨k, hk, hsame, hpos⟩ :=
    processLoopFor_spec B c clock q p.budget (p.query clock).1 n (p.query clock).2
  have hquery : SameTasks p (p.query clock).2 := ⟨_, rfl⟩
  exact ⟨k, hk, (hquery.rounds k).trans hsame, hpos⟩

theorem processLoop_eq_some {budget begin : Int64} {fuel : ℕ}
    (h : processLoop B c clock q budget begin fuel p = some p') :
    processLoopFor B c clock q budget begin fuel p = (p', true) := by
  induction fuel generalizing p with
  | zero => cases h
  | succ fuel ih =>
    rw [processLoop] at h
    rw [processLoopFor]
    cases hq : p.queues q with
    | nil =>
      simp only [hq, Option.some.injEq] at h ⊢
      rw [h]
    | cons task rest =>
      simp only [hq] at h ⊢
      split_ifs at h ⊢ with hstop
      · rw [Option.some.inj h]
      · exact ih h

theorem processTasks_eq_some {fuel : ℕ} (h : processTasks B c clock fuel q p = some p') :
    processTasksFor B c clock q fuel p = (p', true) := processLoop_eq_some h

/-- **Calls with a budget**, one after another. -/
theorem repeatTasks_spec {fuels : List ℕ} (h : repeatTasks B c clock q fuels p = some p') :
    ∃ n, SameTasks ((round B q)^[n] p) p' := by
  induction fuels generalizing p with
  | nil => exact ⟨0, Option.some.inj h ▸ .refl p⟩
  | cons fuel fuels ih =>
    rw [repeatTasks] at h
    cases hcall : processTasks B c clock fuel q p with
    | none =>
      simp only [hcall] at h
      cases h
    | some p₁ =>
      simp only [hcall] at h
      obtain ⟨k, -, hsame, -⟩ := processTasksFor_spec B c clock q fuel p
      rw [processTasks_eq_some hcall] at hsame
      obtain ⟨n, hn⟩ := ih h
      refine ⟨n + k, ?_⟩
      rw [Function.iterate_add_apply]
      exact (hsame.rounds n).trans hn

/-- `p'` is what `ProcessTasks()` leaves of `p` after `k` rounds: it has run the first `k` tasks,
and the rest of the queue and what these tasks added are left. -/
structure AfterRounds (B : Behaviour τ φ σ) (q : QueueId) (k : ℕ) (p p' : ITaskPool τ φ σ) :
    Prop where
  same : SameTasks ((round B q)^[k] p) p'
  log : p'.log = p.log ++ (ran B q k p).map (.task q)
  left : p.queues q ++ appended B q k p = ran B q k p ++ p'.queues q

theorem SameTasks.afterRounds {k : ℕ} (h : SameTasks ((ITaskPool.round B q)^[k] p) p') :
    AfterRounds B q k p p' := by
  obtain ⟨hlog, hleft⟩ := rounds_spec (B := B) (q := q) k p
  refine ⟨h, ?_, ?_⟩ <;> obtain ⟨r, rfl⟩ := h
  · exact hlog
  · exact hleft

/-- **A budget cuts `ProcessTasks()` short** and changes nothing else. -/
theorem processTasks_prefix (B : Behaviour τ φ σ) (c : PerfCounter) (clock : ℕ → Int64)
    (q : QueueId) (p : ITaskPool τ φ σ) :
    -- What has been run is a prefix of what `ProcessTasks()` runs, and not empty.
    (∀ n, ∃ k ≤ n, AfterRounds B q k p (processTasksFor B c clock q n p).1 ∧
      (0 < n → p.queues q ≠ [] → ran B q k p ≠ [])) ∧
    (∀ k m, k ≤ m → ran B q k p <+: ran B q m p) ∧
    (∀ fuel p', processAll B q fuel p = some p' →
      ∃ n, AfterRounds B q n p p' ∧ ∀ k, ran B q k p <+: ran B q n p) ∧
    (∀ fuel p', processTasks B c clock fuel q p = some p' →
      processTasksFor B c clock q fuel p = (p', true)) ∧
    -- Calls that empty the queue together do what one call without a budget does.
    ∀ fuels p', repeatTasks B c clock q fuels p = some p' → p'.queues q = [] →
      ∃ fuel p'', processAll B q fuel p = some p'' ∧ SameTasks p'' p' ∧ p'.log = p''.log := by
  refine ⟨fun n => ?_, fun k m hkm => ran_prefix hkm p, fun fuel p' h => ?_,
    fun fuel p' h => processTasks_eq_some h, fun fuels p' h hempty => ?_⟩
  · obtain ⟨k, hk, hsame, hpos⟩ := processTasksFor_spec B c clock q n p
    exact ⟨k, hk, hsame.afterRounds, fun hn hne => ran_ne_nil (hpos hn hne) hne⟩
  · obtain ⟨n, rfl, hempty⟩ := processAll_eq_some h
    exact ⟨n, (SameTasks.refl _).afterRounds, ran_prefix_of_nil hempty⟩
  · obtain ⟨n, hsame⟩ := repeatTasks_spec h
    have hqueue : ((round B q)^[n] p).queues q = [] := by
      obtain ⟨r, rfl⟩ := hsame
      exact hempty
    refine ⟨n + 1, _, processAll_of_rounds hqueue, hsame, ?_⟩
    obtain ⟨r, rfl⟩ := hsame
    rfl

/-- Two calls that run one task each, against one call that runs both. -/
theorem processTasks_prefix_sample : ∃ p',
    repeatTasks sampleBehaviour ⟨1⟩ (fun n => Int64.ofNat n) .queue [2, 2] samplePool = some p' ∧
    ∃ fuel p'', processAll sampleBehaviour .queue fuel samplePool = some p'' ∧
      p'.log = p''.log := by
  obtain ⟨p', hp', hempty⟩ : ∃ p', repeatTasks sampleBehaviour ⟨1⟩ (fun n => Int64.ofNat n) .queue
      [2, 2] samplePool = some p' ∧ p'.queues .queue = [] := ⟨_, rfl, rfl⟩
  obtain ⟨-, -, -, -, hrepeat⟩ :=
    processTasks_prefix sampleBehaviour ⟨1⟩ (fun n => Int64.ofNat n) .queue samplePool
  obtain ⟨fuel, p'', hall, -, hlog⟩ := hrepeat [2, 2] p' hp' hempty
  exact ⟨p', hp', fuel, p'', hall, hlog⟩

end SseExt.ITaskPool
