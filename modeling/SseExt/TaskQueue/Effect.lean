import SseExt.TaskQueue.RunConcurrent

/-!
# What a step does to the caller's frame

`Effect` says for every step of the machine what becomes of the caller, of the workers and of `c`.
Invariants about these three are proved by cases on it and never look at the step functions.
-/

namespace SseExt.TaskWorkerPool

variable {n num : ℕ} {s : TaskWorkerPool n} {w : Fin n} {pc : WorkerPc}

/-- A step of the caller itself. -/
structure CallerMoves (num : ℕ) (s s' : TaskWorkerPool n) : Prop where
  worker : s'.worker = s.worker
  c : s'.c = s.c
  finished : s'.finished = s.finished
  returned : s'.caller = .returned → s.caller = .enter ∧ num = 0 ∨ s.caller = .check ∧ s.c = num
  block : s'.caller = .block → s.c ≠ num
  blocked : s'.caller = .blocked → s.caller = .block

/-- Worker `w` moves on to `pc` and leaves the caller's frame alone. -/
structure WorkerMoves (s : TaskWorkerPool n) (w : Fin n) (pc : WorkerPc)
    (s' : TaskWorkerPool n) : Prop where
  worker : s'.worker = (s.goto w pc).worker
  caller : s'.caller = s.caller
  c : s'.c = s.c
  finished : s.finished ⊆ s'.finished
  notify : s.worker w ≠ .notify
  next : pc ≠ .notify

/-- The steps, by what they do to the caller's frame. -/
inductive Effect (num : ℕ) (s : TaskWorkerPool n) : Cmd n → TaskWorkerPool n → Prop
  | caller {s' : TaskWorkerPool n} : CallerMoves num s s' → Effect num s .caller s'
  | spurious : s.caller = .blocked → Effect num s .spurious { s with caller := .woken }
  | post (item : Item) : Effect num s (.post item) (s.push item)
  | worker {w : Fin n} {pc : WorkerPc} {s' : TaskWorkerPool n} :
      WorkerMoves s w pc s' → Effect num s (.worker w) s'
  | raise {w : Fin n} {pc : WorkerPc} {s' : TaskWorkerPool n} :
      WorkerMoves s w pc s' → Effect num s (.raise w) s'
  | increment {w : Fin n} : s.worker w = .increment → s.caller ≠ .returned →
      Effect num s (.worker w)
        { s.goto w (if s.c + 1 = num then .notify else .pop) with c := s.c + 1 }
  | notify {w : Fin n} : s.worker w = .notify → s.caller ≠ .returned →
      Effect num s (.worker w)
        { s.goto w .pop with caller := if s.caller = .blocked then .woken else s.caller }

theorem runConcurrentTasks_effect :
    (runConcurrentTasks num s).Leads (CallerMoves num s) := by
  unfold runConcurrentTasks
  cases hs : s.caller with
  | enter =>
    by_cases h0 : num = 0
    · exact ⟨rfl, rfl, rfl, fun _ => .inl ⟨hs, h0⟩, by simp [h0], by simp [h0]⟩
    · exact ⟨rfl, rfl, rfl, by simp [h0], by simp [h0], by simp [h0]⟩
  | push i =>
    dsimp only
    split_ifs
    · exact ⟨rfl, rfl, rfl, nofun, nofun, nofun⟩
    · exact ⟨rfl, rfl, rfl, nofun, nofun, nofun⟩
  | check =>
    by_cases hc : s.c = num
    · exact ⟨rfl, rfl, rfl, fun _ => .inr ⟨hs, hc⟩, by simp [hc], by simp [hc]⟩
    · exact ⟨rfl, rfl, rfl, by simp [hc], fun _ => hc, by simp [hc]⟩
  | block => exact ⟨rfl, rfl, rfl, nofun, nofun, fun _ => hs⟩
  | blocked => trivial
  | woken => exact ⟨rfl, rfl, rfl, nofun, nofun, nofun⟩
  | returned => trivial

theorem endCall_effect (w : Fin n) (i : ℕ) (hw : s.worker w = .run i) :
    WorkerMoves s w .increment (s.endCall w i) where
  worker := rfl
  caller := rfl
  c := rfl
  finished := List.subset_append_left _ _
  notify := by simp [hw]
  next := nofun

theorem pump_effect : (pump num s w).Leads (Effect num s (.worker w)) := by
  unfold pump
  cases hw : s.worker w with
  | pop =>
    have hne : s.worker w ≠ .notify := by simp [hw]
    cases s.queue with
    | nil => trivial
    | cons item queue =>
      cases item with
      | call i =>
        exact @Effect.worker n num s w (.run i) _
          ⟨rfl, rfl, rfl, List.Subset.refl _, hne, nofun⟩
      | other =>
        exact @Effect.worker n num s w .runOther _
          ⟨rfl, rfl, rfl, List.Subset.refl _, hne, nofun⟩
      | stop =>
        exact @Effect.worker n num s w .exited _
          ⟨rfl, rfl, rfl, List.Subset.refl _, hne, nofun⟩
  | run i => exact .worker (endCall_effect w i hw)
  | runOther =>
    exact @Effect.worker n num s w .pop _
      ⟨rfl, rfl, rfl, List.Subset.refl _, by simp [hw], nofun⟩
  | increment =>
    simp only [TaskWorkerPool.increment]
    by_cases hret : s.caller = .returned
    · rw [if_pos hret]
      trivial
    · rw [if_neg hret]
      exact .increment hw hret
  | notify =>
    simp only [TaskWorkerPool.notifyOne]
    by_cases hret : s.caller = .returned
    · rw [if_pos hret]
      trivial
    · rw [if_neg hret]
      exact .notify hw hret
  | exited => trivial

theorem raise_effect : (raise s w).Leads (Effect num s (.raise w)) := by
  unfold raise
  cases hw : s.worker w with
  | run i => exact .raise (endCall_effect w i hw)
  | _ => trivial

/-- **Every step is one of these.** -/
theorem step_effect (s : TaskWorkerPool n) (a : Cmd n) : (step num s a).Leads (Effect num s a) := by
  cases a with
  | caller => exact runConcurrentTasks_effect.mono fun _ h => .caller h
  | spurious =>
    simp only [step]
    split_ifs with hs
    · exact .spurious hs
    · trivial
  | post item =>
    simp only [step]
    split_ifs
    · exact .post item
    · trivial
  | worker w => exact pump_effect
  | raise w => exact raise_effect

/-- Who uses the frame of a call that has returned. -/
theorem deadFrame_cases {a : Cmd n} (h : step num s a = .fault .deadFrame) :
    s.caller = .returned ∧
      ∃ w, a = .worker w ∧ (s.worker w = .increment ∨ s.worker w = .notify) := by
  cases a with
  | caller =>
    simp only [step, runConcurrentTasks] at h
    split at h
    case h_2 => split_ifs at h
    all_goals cases h
  | spurious =>
    simp only [step] at h
    split_ifs at h
  | post item =>
    simp only [step] at h
    split_ifs at h
  | worker w =>
    simp only [step, pump] at h
    cases hw : s.worker w with
    | increment =>
      simp only [hw, increment] at h
      split_ifs at h with hret
      all_goals exact ⟨hret, w, rfl, .inl hw⟩
    | notify =>
      simp only [hw, notifyOne] at h
      split_ifs at h with hret
      all_goals exact ⟨hret, w, rfl, .inr hw⟩
    | pop =>
      simp only [hw] at h
      split at h <;> cases h
    | run i => simp [hw] at h
    | runOther => simp [hw] at h
    | exited => simp [hw] at h
  | raise w =>
    simp only [step, raise] at h
    split at h <;> cases h

end SseExt.TaskWorkerPool
