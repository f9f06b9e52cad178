import SseExt.SpinLock
import SseExt.Tasks.Delivery

/-!
# The lock of a task queue

The queue takes its `FastSpinLock` by hand in `ProcessTasks`, and with an `IScopedLock` elsewhere.

**Theorem (`spins_safely`).** In every run of a queue the lock is taken only while it is free and
given back only by the thread that holds it. So what happens to the lock is what happens in some run
of the spin lock without an `unlock()` for another thread.
-/

namespace SseExt.TaskQueue

variable {ι τ : Type*} [DecidableEq ι] {s s' : TaskQueue ι τ} {t : ι} {frame : Frame τ}
  {rest : List (Frame τ)} {a : Label ι τ}

/-- What a step of the thread `t` does to the lock: nothing, or `t` takes it while it is free, or it
is given back by a call of `t` that is inside it. -/
def LockStep (lock : Option ι) (stack : List (Frame τ)) (t : ι) (lock' : Option ι) : Prop :=
  lock' = lock ∨ (lock = none ∧ lock' = some t) ∨
    (lock' = none ∧ ∃ frame ∈ stack, frame.holds = true)

theorem acquire_lock (s : TaskQueue ι τ) (t : ι) (stack frames : List (Frame τ)) :
    (s.acquire t frames).Leads fun s' => LockStep s.lock stack t s'.lock := by
  unfold acquire
  split_ifs with hfree
  · exact .inr (.inl ⟨Option.isNone_iff_eq_none.1 hfree, rfl⟩)
  · trivial

theorem take_lock (s : TaskQueue ι τ) (t : ι) (stack : List (Frame τ)) (remover : Remover)
    (frame : Ticket τ → Frame τ) (rest : List (Frame τ)) :
    (s.take t remover frame rest).Leads fun s' => LockStep s.lock stack t s'.lock := by
  unfold take
  cases s.queue with
  | nil => trivial
  | cons task queue => exact .inl rfl

theorem release_lock (s : TaskQueue ι τ) (t : ι) (frames : List (Frame τ))
    (hholds : frame.holds = true) :
    LockStep s.lock (frame :: rest) t (s.release t frames).lock :=
  .inr (.inr ⟨rfl, frame, List.mem_cons_self, hholds⟩)

theorem next_lock (s : TaskQueue ι τ) (a : Label ι τ) :
    (next s a).Leads fun s' => LockStep s.lock (s.stack a.thread) a.thread s'.lock := by
  cases a with
  | call t op =>
    simp only [next]
    split_ifs
    · exact .inl rfl
    · trivial
  | ret t =>
    simp only [next]
    cases s.stack t with
    | nil => trivial
    | cons frame rest =>
      cases frame with
      | procRunning | procDisposing | clearDisposing => exact .inl rfl
      | _ => trivial
  | budget t exceeded =>
    simp only [next]
    cases s.stack t with
    | nil => trivial
    | cons frame rest =>
      cases frame with
      | procBudget => exact .inl rfl
      | _ => trivial
  | step t =>
    simp only [next, Label.thread]
    cases s.stack t with
    | nil => trivial
    | cons frame rest =>
      cases frame with
      | addLock | procLock | clearLock => exact acquire_lock s t _ _
      | procFront | clearFront => exact take_lock s t _ _ _ _
      | addUnlock | procBreak | clearUnlock | procUnlock => exact release_lock s t _ rfl
      | procRunning | procDisposing | clearDisposing | procBudget => trivial
      | _ => exact .inl rfl

/-! ## The trace of the lock -/

/-- What the change of the lock from `lock` to `lock'` in a step of `t` shows. -/
def lockEvent (t : ι) (lock lock' : Option ι) : Option (Lock.Label ι) :=
  if lock' = lock then none
  else if lock'.isSome then some (.acquire t)
  else some (.release t)

/-- What a step does to the lock. -/
def emits (s : TaskQueue ι τ) (a : Label ι τ) : Option (Lock.Label ι) :=
  match next s a with
  | .step s' => lockEvent a.thread s.lock s'.lock
  | _ => none

theorem emits_step (h : next s a = .step s') : emits s a = lockEvent a.thread s.lock s'.lock := by
  simp only [emits, h]

/-- **The lock changes hands as an ideal lock does.** -/
theorem LockStep.follows {lock lock' : Option ι} {stack : List (Frame τ)}
    (h : LockStep lock stack t lock')
    (hheld : (∃ frame ∈ stack, frame.holds = true) → lock = some t) :
    (Lock.machine ι).Follows lock (lockEvent t lock lock') lock' := by
  rcases h with rfl | ⟨rfl, rfl⟩ | ⟨rfl, hholds⟩
  · rw [lockEvent, if_pos rfl]
    rfl
  · rw [lockEvent, if_neg nofun]
    exact Lock.next_acquire t
  · rw [hheld hholds, lockEvent, if_neg nofun]
    exact Lock.next_release t

variable [Fintype ι]

theorem Inv.lock_follows (h : Inv s) (hnext : TaskQueue.next s a = .step s') :
    (Lock.machine ι).Follows s.lock (emits s a) s'.lock := by
  have hlock := next_lock s a
  rw [hnext] at hlock
  rw [emits_step hnext]
  exact hlock.follows fun ⟨frame, hmem, hholds⟩ => h.exclusive.holder hmem hholds

/-- **The queue keeps to the rules of its lock.** -/
theorem spins_safely {as : List (Label ι τ)} (h : (machine ι τ).run init as = some s) :
    ∃ bs q, (FastSpinLock.machine ι).runIf FastSpinLock.safe FastSpinLock.init bs = some q ∧
      (FastSpinLock.machine ι).trace FastSpinLock.emits FastSpinLock.init bs =
        (machine ι τ).trace emits init as ∧
      q.Stands s.lock := by
  have hstep : ∀ (s : TaskQueue ι τ) (o : Option ι) (a : Label ι τ) (s' : TaskQueue ι τ),
      (Inv s ∧ o = s.lock) → true = true → (machine ι τ).next s a = .step s' →
        ∃ o', (Lock.machine ι).Follows o (emits s a) o' ∧ Inv s' ∧ o' = s'.lock := by
    intro s o a s' hs _ hnext
    obtain ⟨hinv, rfl⟩ := hs
    have hinv' := hinv.next a
    rw [show next s a = .step s' from hnext] at hinv'
    exact ⟨s'.lock, hinv.lock_follows hnext, hinv', rfl⟩
  obtain ⟨o, hrun, -, rfl⟩ := Machine.run_trace hstep ⟨Inv.init, rfl⟩ h
  obtain ⟨q, hq, htrace, hstands⟩ := FastSpinLock.stands_init.of_run (fun _ => rfl) hrun
  exact ⟨_, q, hq, htrace, hstands⟩

/-- Thread 0 takes the lock to clear the queue while the task that thread 1 has taken runs. -/
theorem spins_safely_sampleInterleaving :
    ∃ s bs q, (machine (Fin 2) ℕ).run init (sampleInterleaving 0 1) = some s ∧
      (FastSpinLock.machine (Fin 2)).runIf FastSpinLock.safe FastSpinLock.init bs = some q ∧
      (FastSpinLock.machine (Fin 2)).trace FastSpinLock.emits FastSpinLock.init bs =
        [.acquire 0, .release 0, .acquire 0, .release 0, .acquire 1, .release 1,
          .acquire 0, .release 0, .acquire 1, .release 1] ∧ q.Stands s.lock := by
  obtain ⟨s, hrun, htrace⟩ : ∃ s, (machine (Fin 2) ℕ).run init (sampleInterleaving 0 1) = some s ∧
      (machine (Fin 2) ℕ).trace emits init (sampleInterleaving 0 1) =
        [.acquire 0, .release 0, .acquire 0, .release 0, .acquire 1, .release 1,
          .acquire 0, .release 0, .acquire 1, .release 1] := ⟨_, rfl, rfl⟩
  obtain ⟨bs, q, hq, hbs, hstands⟩ := spins_safely hrun
  exact ⟨s, bs, q, hrun, hq, hbs.trans htrace, hstands⟩

end SseExt.TaskQueue
