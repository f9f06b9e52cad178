import SseExt.Lib.Trace
import SseExt.Tasks.Reentry

/-!
# Calls of `TaskQueue` return

The calls that are under way go on by themselves: the code takes its next step, callbacks return,
and the budget is compared. Such steps are `internal`; only a new call is not.

**Theorem (`calls_finish`).** From any state of any run, only so many internal steps are possible
(`work`), in whatever order the threads move. They end when all calls have returned, or else with a
thread that spins on a lock of its own. All calls can return if and only if there is no such thread.

The work is a sum over the frames of all threads. A task that is waiting has been paid for: what its
removal, its `Run` and its `Dispose` cost is more than any of the steps of a round without it. When
the lock is taken, the thread that holds it can go on, since it is there with its innermost call
(`OnTop`) or spins on its own lock (`onTop_or_selfLocked`). When it is free, every thread can.
-/

namespace SseExt.TaskQueue

variable {ι τ : Type*}

/-- No call begins. -/
def Label.internal : Label ι τ → Bool
  | .call _ _ => false
  | _ => true

/-- What a call has to do before it returns, apart from the tasks that wait. -/
def Frame.work : Frame τ → ℕ
  | addLock _ => 12
  | addEmplace _ => 11
  | addUnlock => 1
  | procLock _ => 3
  | procEmpty _ => 2
  | procBreak => 1
  | procFront _ => 1
  | procUnlock _ _ => 9
  | procRun _ _ => 8
  | procRunning _ _ => 7
  | procDispose _ _ => 6
  | procDisposing _ _ => 5
  | procBudget => 4
  | clearLock => 4
  | clearEmpty => 3
  | clearFront => 2
  | clearDispose _ => 5
  | clearDisposing _ => 4
  | clearUnlock => 1

def workOf : List (Frame τ) → ℕ
  | [] => 0
  | frame :: rest => frame.work + workOf rest

section

variable [Fintype ι]

/-- **The work** of all calls and of the tasks that wait. -/
def work (s : TaskQueue ι τ) : ℕ := 9 * s.queue.length + ∑ t, workOf (s.stack t)

variable [DecidableEq ι] {s s' : TaskQueue ι τ} {t : ι} {frame : Frame τ} {rest : List (Frame τ)}

/-- A step that costs its thread something. -/
theorem work_update {queue : List (Ticket τ)} {frames : List (Frame τ)}
    (hstack : s'.stack = Function.update s.stack t frames) (hqueue : s'.queue = queue)
    (hlt : 9 * queue.length + workOf frames < 9 * s.queue.length + workOf (s.stack t)) :
    s'.work < s.work := by
  have hsum := sum_update workOf s.stack (Finset.mem_univ t) frames
  rw [work, work, hstack, hqueue]
  omega

theorem acquire_work {frame' : Frame τ} (hstack : s.stack t = frame :: rest)
    (hlt : frame'.work < frame.work) :
    (s.acquire t (frame' :: rest)).Leads fun s' => s'.work < s.work := by
  unfold acquire
  split_ifs
  · have hless : 9 * s.queue.length + workOf (frame' :: rest) <
        9 * s.queue.length + workOf (s.stack t) := by
      rw [hstack, workOf, workOf]
      omega
    exact work_update rfl rfl hless
  · trivial

theorem take_work {remover : Remover} {frame' : Ticket τ → Frame τ}
    (hstack : s.stack t = frame :: rest) (hlt : ∀ task, (frame' task).work < 9 + frame.work) :
    (s.take t remover frame' rest).Leads fun s' => s'.work < s.work := by
  unfold take
  cases hqueue : s.queue with
  | nil => trivial
  | cons task queue =>
    have hframe := hlt task
    have hless : 9 * queue.length + workOf (frame' task :: rest) <
        9 * s.queue.length + workOf (s.stack t) := by
      rw [hstack, hqueue, workOf, workOf, List.length_cons]
      omega
    exact work_update rfl rfl hless

/-- A task that is added is work for whoever removes it. -/
theorem emplace_work {task : τ} (hstack : s.stack t = .addEmplace task :: rest) :
    (s.emplace t task (.addUnlock :: rest)).work < s.work := by
  have hless : 9 * (s.queue ++ [(task, s.added.length)]).length + workOf (.addUnlock :: rest) <
      9 * s.queue.length + workOf (s.stack t) := by
    simp only [hstack, workOf, Frame.work, List.length_append, List.length_singleton]
    omega
  exact work_update rfl rfl hless

/-- The innermost call goes on. -/
theorem goto_work {frames : List (Frame τ)} (hstack : s.stack t = frame :: rest)
    (hs : s'.stack = Function.update s.stack t frames) (hqueue : s'.queue = s.queue)
    (hlt : workOf frames < frame.work + workOf rest) : s'.work < s.work := by
  refine work_update hs hqueue ?_
  rw [hstack, workOf]
  omega

/-- **Every internal step lowers the work.** -/
theorem next_work {a : Label ι τ} (ha : a.internal = true) :
    (next s a).Leads fun s' => s'.work < s.work := by
  cases a with
  | call t op => cases ha
  | ret t =>
    simp only [next]
    cases hstack : s.stack t with
    | nil => trivial
    | cons frame rest =>
      cases frame with
      | procRunning | clearDisposing =>
        refine goto_work hstack rfl rfl ?_
        simp [workOf, Frame.work]
      | procDisposing budget =>
        refine goto_work hstack rfl rfl ?_
        cases budget <;> simp [workOf, Frame.work]
      | _ => trivial
  | budget t exceeded =>
    simp only [next]
    cases hstack : s.stack t with
    | nil => trivial
    | cons frame rest =>
      cases frame with
      | procBudget =>
        refine goto_work hstack rfl rfl ?_
        cases exceeded <;> simp [workOf, Frame.work]
      | _ => trivial
  | step t =>
    simp only [next]
    cases hstack : s.stack t with
    | nil => trivial
    | cons frame rest =>
      cases frame with
      | addLock | procLock | clearLock =>
        refine acquire_work hstack ?_
        simp [Frame.work]
      | procFront | clearFront =>
        refine take_work hstack fun task => ?_
        simp [Frame.work]
      | addEmplace task =>
        exact emplace_work hstack
      | addUnlock | procBreak | clearUnlock | procUnlock | procRun | procDispose | clearDispose =>
        refine goto_work hstack rfl rfl ?_
        simp [workOf, Frame.work]
      | procEmpty | clearEmpty =>
        refine goto_work hstack rfl rfl ?_
        split_ifs <;> simp [workOf, Frame.work]
      | procRunning | procDisposing | clearDisposing | procBudget => trivial

/-! ## Threads that can go on -/

omit [DecidableEq ι] [Fintype ι] in
theorem Frame.not_wants_of_holds (h : frame.holds = true) : frame.wants = false := by
  cases frame <;> first | rfl | cases h

/-- With its innermost call alone inside the lock, a thread does not spin on its own lock. -/
theorem OnTop.not_selfLocked (h : Inv s) (hontop : OnTop (s.stack t)) : ¬ SelfLocked s t := by
  intro ⟨hlock, frame, rest, hstack, hwants⟩
  have hexclusive := h.exclusive t
  have hholds := Frame.not_holds_of_wants hwants
  rw [hstack] at hexclusive hontop
  have hbelow : rest.countP Frame.holds = 0 := hontop
  rw [if_pos hlock, List.countP_cons_of_neg (by simp [hholds]), hbelow] at hexclusive
  cases hexclusive

omit [DecidableEq ι] [Fintype ι] in
/-- A call from `clearDisposing` is the only one that is not quiet. -/
theorem of_not_disposeQuiet {a : Label ι τ} (h : ¬ DisposeQuiet s a) :
    ∃ t op task rest, a = .call t op ∧ s.stack t = .clearDisposing task :: rest := by
  cases a with
  | call t op =>
    cases hstack : s.stack t with
    | nil => exact absurd h (by simp [DisposeQuiet, hstack, disposing])
    | cons frame rest =>
      cases frame with
      | clearDisposing task => exact ⟨t, op, task, rest, rfl, hstack⟩
      | _ => exact absurd h (by simp [DisposeQuiet, hstack, disposing])
  | ret | step | budget => exact absurd trivial h

omit [Fintype ι] in
/-- The other threads stay where they are. -/
theorem stack_of_ne {a : Label ι τ} (hnext : next s a = .step s') (ht : t ≠ a.thread) :
    s'.stack t = s.stack t := by
  have hmoves := next_moves s a
  rw [hnext] at hmoves
  obtain ⟨⟨frames, hstack, -⟩, -⟩ := hmoves
  rw [hstack, Function.update_of_ne ht]

omit [Fintype ι] in
/-- A quiet step keeps calls inside the lock on top. -/
theorem onTop_next {a : Label ι τ} (hnext : next s a = .step s') (hquiet : DisposeQuiet s a)
    (hontop : OnTop (s.stack t)) : OnTop (s'.stack t) := by
  by_cases ht : t = a.thread
  · subst ht
    have hmoves := next_moves s a
    rw [hnext] at hmoves
    obtain ⟨⟨frames, hstack, hstep⟩, -⟩ := hmoves
    rw [hstack, Function.update_self]
    apply hstep.onTop hontop
    intro u op ha
    rw [ha] at hquiet ⊢
    exact hquiet
  · rw [stack_of_ne hnext ht]
    exact hontop

/-- A thread is inside the lock with its innermost call only, or it spins on its own lock. -/
theorem onTop_or_selfLocked (h : (machine ι τ).Reach s) :
    ∀ t, OnTop (s.stack t) ∨ SelfLocked s t := by
  induction h with
  | init =>
    intro t
    exact .inl rfl
  | @step s s' a hs _ hnext ih =>
    intro t
    rcases ih t with hontop | hself
    · by_cases hquiet : DisposeQuiet s a
      · exact .inl (onTop_next hnext hquiet hontop)
      · obtain ⟨u, op, task, rest, rfl, hstack⟩ := of_not_disposeQuiet hquiet
        obtain ⟨s₁, hcall, hself⟩ := selfLocked_of_call hs hstack op
        cases hcall.symm.trans hnext
        by_cases ht : t = u
        · exact .inr (ht ▸ hself)
        · left
          rw [stack_of_ne hcall ht]
          exact hontop
    · have hforever := hself.forever hs a
      rw [show next s a = .step s' from hnext] at hforever
      exact .inr hforever

theorem onTop_iff (h : (machine ι τ).Reach s) : OnTop (s.stack t) ↔ ¬ SelfLocked s t :=
  ⟨OnTop.not_selfLocked (inv_reach h), (onTop_or_selfLocked h t).resolve_right⟩

/-- A call goes on unless it waits for the lock. -/
theorem goes_on (h : Inv s) (hstack : s.stack t = frame :: rest)
    (hfree : frame.wants = true → s.lock = none) :
    ∃ a s', a.internal = true ∧ next s a = .step s' := by
  cases frame with
  | addLock | procLock | clearLock =>
    have hlock := hfree rfl
    exact ⟨.step t, by simp [next, hstack, stepFrame, acquire, hlock, Label.internal]⟩
  | procFront | clearFront =>
    have hqueue := h.front t _ (by rw [hstack]; exact List.mem_cons_self) rfl
    obtain ⟨task, queue, hcons⟩ := List.exists_cons_of_ne_nil hqueue
    exact ⟨.step t, by simp [next, hstack, stepFrame, take, hcons, Label.internal]⟩
  | procRunning | procDisposing | clearDisposing =>
    exact ⟨.ret t, by simp [next, hstack, returnTo, Label.internal]⟩
  | procBudget => exact ⟨.budget t true, by simp [next, hstack, testBudget, Label.internal]⟩
  | _ => exact ⟨.step t, by simp [next, hstack, stepFrame, Label.internal]⟩

/-- The thread that holds the lock is there with its innermost call. -/
theorem holder_on_top (h : Inv s) (hlock : s.lock = some t) (hontop : OnTop (s.stack t)) :
    ∃ frame rest, s.stack t = frame :: rest ∧ frame.holds = true := by
  have hexclusive := h.exclusive t
  rw [if_pos hlock] at hexclusive
  cases hstack : s.stack t with
  | nil =>
    rw [hstack] at hexclusive
    cases hexclusive
  | cons frame rest =>
    refine ⟨frame, rest, rfl, ?_⟩
    rw [hstack] at hexclusive hontop
    have hbelow : rest.countP Frame.holds = 0 := hontop
    rw [List.countP_cons, hbelow] at hexclusive
    by_contra hholds
    simp [hholds] at hexclusive

/-! ## All calls return -/

/-- The steps of the calls that are under way. -/
def going (_ : TaskQueue ι τ) (a : Label ι τ) : Bool := a.internal

/-- All calls have returned. -/
def Quiet (s : TaskQueue ι τ) : Prop := ∀ t, s.stack t = []

omit [Fintype ι] in
theorem Quiet.stuck (h : Quiet s) : (machine ι τ).Stuck going s := by
  intro a ha s' hnext
  have hnone : next s a = .blocked := by
    cases a with
    | call t op => cases ha
    | ret t | step t | budget t _ => simp only [next, h t]
  cases hnone.symm.trans hnext

/-- **No deadlock** but by threads that lock themselves out. -/
theorem quiet_of_stuck (h : (machine ι τ).Reach s) (hstuck : (machine ι τ).Stuck going s)
    (hself : ∀ t, ¬ SelfLocked s t) : Quiet s := by
  have hinv := inv_reach h
  have hnone : ∀ t frame rest, s.stack t = frame :: rest →
      ¬ (frame.wants = true → s.lock = none) := by
    intro t frame rest hstack hfree
    obtain ⟨a, s', ha, hnext⟩ := goes_on hinv hstack hfree
    exact hstuck a ha s' hnext
  cases hlock : s.lock with
  | some u =>
    obtain ⟨frame, rest, hstack, hholds⟩ := holder_on_top hinv hlock ((onTop_iff h).2 (hself u))
    have hwants := Frame.not_wants_of_holds hholds
    exact absurd (fun e => absurd e (by simp [hwants])) (hnone u frame rest hstack)
  | none =>
    intro t
    cases hstack : s.stack t with
    | nil => rfl
    | cons frame rest => exact absurd (fun _ => hlock) (hnone t frame rest hstack)

/-- Internal steps lock nobody out, and let nobody in. -/
theorem selfLocked_next (h : (machine ι τ).Reach s) {a : Label ι τ} (ha : a.internal = true)
    (hnext : next s a = .step s') : SelfLocked s' t ↔ SelfLocked s t := by
  have h' : (machine ι τ).Reach s' := .step h trivial hnext
  have hquiet : DisposeQuiet s a := by
    cases a with
    | call => cases ha
    | ret | step | budget => trivial
  constructor
  · intro hself
    by_contra hnot
    exact (onTop_iff h').1 (onTop_next hnext hquiet ((onTop_iff h).2 hnot)) hself
  · intro hself
    have hforever := hself.forever h a
    rw [hnext] at hforever
    exact hforever

/-- What holds along the steps of the calls that are under way. -/
structure Goes (s₀ s : TaskQueue ι τ) : Prop where
  reach : (machine ι τ).Reach s
  self : ∀ t, SelfLocked s t ↔ SelfLocked s₀ t

theorem Goes.step {s₀ : TaskQueue ι τ} (s : TaskQueue ι τ) (a : Label ι τ) (s' : TaskQueue ι τ)
    (h : Goes s₀ s) (ha : going s a = true) (hnext : (machine ι τ).next s a = .step s') :
    Goes s₀ s' ∧ s'.work < s.work := by
  have hwork := next_work (s := s) ha
  rw [show next s a = .step s' from hnext] at hwork
  refine ⟨⟨.step h.reach trivial hnext, fun t => ?_⟩, hwork⟩
  exact (selfLocked_next h.reach ha hnext).trans (h.self t)

/-- **The calls that are under way return**, unless a thread spins on its own lock: their steps come
to an end, in whatever order the threads move, and then all calls have returned. -/
theorem calls_finish (h : (machine ι τ).Reach s) :
    (∀ as s', (machine ι τ).runIf going s as = some s' →
      as.length ≤ s.work ∧
      ((machine ι τ).Stuck going s' → (Quiet s' ↔ ∀ t, ¬ SelfLocked s t))) ∧
    ((∃ as s', (machine ι τ).runIf going s as = some s' ∧ Quiet s') ↔ ∀ t, ¬ SelfLocked s t) := by
  have hgoes : Goes s s := ⟨h, fun _ => Iff.rfl⟩
  have hrun : ∀ as s', (machine ι τ).runIf going s as = some s' →
      as.length ≤ s.work ∧
      ((machine ι τ).Stuck going s' → (Quiet s' ↔ ∀ t, ¬ SelfLocked s t)) := by
    intro as s' has
    have hlength := Machine.runIf_length_le Goes.step hgoes has
    have hgoes' : Goes s s' := Machine.runIf_invariant (fun s a s' hs ha hnext =>
      (Goes.step s a s' hs ha hnext).1) hgoes has
    refine ⟨by omega, fun hstuck => ⟨fun hquiet t hself => ?_, fun hself => ?_⟩⟩
    · obtain ⟨-, frame, rest, hstack, -⟩ := (hgoes'.self t).2 hself
      rw [hquiet t] at hstack
      cases hstack
    · exact quiet_of_stuck hgoes'.reach hstuck fun t ht => hself t ((hgoes'.self t).1 ht)
  refine ⟨hrun, fun ⟨as, s', has, hquiet⟩ => ?_, fun hself => ?_⟩
  · exact ((hrun as s' has).2 hquiet.stuck).1 hquiet
  · obtain ⟨as, s', has, hstuck⟩ := Machine.exists_runIf_stuck Goes.step hgoes
    exact ⟨as, s', has, ((hrun as s' has).2 hstuck).2 hself⟩

/-- Thread 0 disposes of a task that it has cleared, and thread 1 runs another one. -/
theorem calls_finish_sampleInterleaving :
    ∃ s, (machine (Fin 2) ℕ).run init ((sampleInterleaving 0 1).take 19) = some s ∧
      s.stack 0 = [.clearDisposing (8, 1)] ∧ s.stack 1 = [.procRunning true (7, 0)] ∧
      ∃ as s', (machine (Fin 2) ℕ).runIf going s as = some s' ∧ Quiet s' ∧ as.length ≤ 11 := by
  obtain ⟨s, hs, hwork, h0, h1⟩ : ∃ s,
      (machine (Fin 2) ℕ).run init ((sampleInterleaving 0 1).take 19) = some s ∧ s.work = 11 ∧
      s.stack 0 = [.clearDisposing (8, 1)] ∧ s.stack 1 = [.procRunning true (7, 0)] :=
    ⟨_, rfl, rfl, rfl, rfl⟩
  have h : (machine (Fin 2) ℕ).Reach s := Machine.reach_of_run .init hs
  have hontop : ∀ t, OnTop (s.stack t) :=
    Fin.forall_fin_two.2 ⟨by rw [h0]; rfl, by rw [h1]; rfl⟩
  obtain ⟨as, s', has, hquiet⟩ := (calls_finish h).2.2 fun t => (onTop_iff h).1 (hontop t)
  exact ⟨s, hs, h0, h1, as, s', has, hquiet, hwork ▸ ((calls_finish h).1 as s' has).1⟩

end

end SseExt.TaskQueue
