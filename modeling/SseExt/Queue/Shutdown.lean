import SseExt.Lib.Trace
import SseExt.Queue.Drain

/-!
# `Stop` returns

The controlling thread and the workers go on by themselves, as long as `Process` returns. Pushes
come from outside, at any time.

**Theorem (`stop_returns`).** From any state of any run, only so many steps of these threads are
possible, a push being good for four of them, whichever threads move. When no step is left, `Start`
and `Stop` have returned. If it was `Stop`, the pool is as `Stop` leaves it (`Drained`); and if
there are threads, every task that was pushed has been processed, once.

**Theorem (`processed_of_started`).** After a `Start` with a count that is not 0 there are threads
until the next `Stop` (`Manned`), so that this `Stop` has the tasks from before it processed. A pool
without threads processes nothing, and `Stop` leaves its tasks where they are.

A worker that a `Stop` waits for can always go on (`join_not_stuck`), and the threads of `m_threads`
are alive while no `Stop` runs (`Inv.alive`), so those that are left wait at an empty queue.
-/

namespace SseExt.WorkerPool

open Finset

variable {T : Type*}

/-- The steps of a worker until it pops again or has exited. -/
def WorkerPc.work : WorkerPc T → ℕ
  | loaded (.task _) => 2
  | loaded .stop | process _ => 1
  | pop | exited => 0

/-- The steps of the controlling thread, with those that its markers cause. -/
def controlWork (s : WorkerPool T) : ℕ :=
  match s.control with
  | .idle => 0
  | .starting i => s.numThreads.toNat - i + 1
  | .stopping i => 4 * (s.threads.length - i) + s.threads.length + 2
  | .joining rest => rest.length + 1

/-- **The work** of the controlling thread, the workers and the items. -/
def work (s : WorkerPool T) : ℕ :=
  3 * s.queue.length + ∑ w ∈ range s.spawned, (s.worker w).pc.work + s.controlWork

/-- No call of the controlling thread begins. -/
def Label.going : Label T → Bool
  | .setThreadCount _ | .start | .stop => false
  | _ => true

def Label.isPush : Label T → Bool
  | .push _ => true
  | _ => false

/-- Steps of calls that are under way and of the workers, and pushes. -/
def going (_ : WorkerPool T) (a : Label T) : Bool := a.going

/-- Steps of calls that are under way and of the workers. -/
def forced (_ : WorkerPool T) (a : Label T) : Bool := a.going && !a.isPush

/-- The controlling thread is in `Stop`. -/
def ControlPc.inStop : ControlPc → Bool
  | stopping _ | joining _ => true
  | _ => false

variable {s s' : WorkerPool T}

/-! ## What a step costs -/

theorem worker_work {w : ℕ} (hw : w < s.spawned) (x : Worker T) {queue : List (TaskWrapper T)}
    {processed : List (Ticket T)}
    (hwork : 3 * queue.length + x.pc.work < 3 * s.queue.length + (s.worker w).pc.work) :
    work { s with worker := Function.update s.worker w x, queue, processed } < s.work := by
  have hsum := sum_update (fun y : Worker T => y.pc.work) s.worker (mem_range.2 hw) x
  show 3 * queue.length + ∑ u ∈ range s.spawned, (Function.update s.worker w x u).pc.work +
    s.controlWork < 3 * s.queue.length + ∑ u ∈ range s.spawned, (s.worker u).pc.work + s.controlWork
  omega

theorem stepWorker_work {w : ℕ} (hw : w < s.spawned) :
    (s.stepWorker w).Leads fun s' => s'.work < s.work := by
  unfold stepWorker
  dsimp only
  cases hpc : (s.worker w).pc with
  | pop =>
    cases hqueue : s.queue with
    | nil => trivial
    | cons item queue =>
      cases item with
      | stop =>
        refine worker_work hw _ ?_
        simp [hpc, hqueue, WorkerPc.work]
        omega
      | task m_task =>
        refine worker_work hw _ ?_
        simp [hpc, hqueue, WorkerPc.work]
        omega
  | loaded item => cases item <;> exact worker_work hw _ (by simp [hpc, WorkerPc.work])
  | process m_task => exact worker_work hw _ (by simp [hpc, WorkerPc.work])
  | exited => trivial

theorem stepControl_work (s : WorkerPool T) : s.stepControl.Leads fun s' => s'.work < s.work := by
  unfold stepControl
  cases hcontrol : s.control with
  | idle => trivial
  | starting i =>
    simp only
    split_ifs with hi
    · have hsum := sum_spawn (f := fun y : Worker T => y.pc.work) s.worker s.spawned
        (x := ⟨.pop, 0⟩) rfl
      simp only [Outcome.Leads, work, controlWork, spawn, hcontrol, hsum]
      omega
    · simp only [Outcome.Leads, work, controlWork, hcontrol]
      omega
  | stopping i =>
    simp only
    split_ifs with hi
    · simp only [Outcome.Leads, work, controlWork, hcontrol, List.length_append,
        List.length_singleton]
      omega
    · simp only [Outcome.Leads, work, controlWork, hcontrol]
      omega
  | joining rest =>
    cases rest with
    | nil =>
      simp only [Outcome.Leads, work, controlWork, hcontrol]
      omega
    | cons w rest =>
      simp only
      cases (s.worker w).pc with
      | exited =>
        simp only [Outcome.Leads, work, controlWork, hcontrol, List.length_cons]
        omega
      | _ => trivial

/-- **Every step of the pool lowers the work**, and a push raises it by three. -/
theorem next_work {a : Label T} (ha : a.going = true) :
    (next s a).Leads fun s' => s'.work + 1 ≤ s.work + if a.isPush then 4 else 0 := by
  cases a with
  | setThreadCount | start | stop => cases ha
  | control => exact s.stepControl_work
  | worker w => exact .guard fun hw => stepWorker_work hw
  | push task =>
    simp only [next, Outcome.Leads, work, controlWork, Label.isPush, List.length_append,
      List.length_singleton, if_true]
    omega

/-! ## States without a step -/

/-- A worker has exited or waits for an item, in a state without a step. -/
theorem worker_of_stuck {numThreads : UInt32} (hstuck : (machine T numThreads).Stuck forced s)
    {w : ℕ} (hw : w < s.spawned) :
    (s.worker w).pc = .exited ∨ ((s.worker w).pc = .pop ∧ s.queue = []) := by
  have hblocked : ∀ s', s.stepWorker w ≠ .step s' := by
    intro s' hstep
    exact hstuck (.worker w) rfl s' ((if_pos hw).trans hstep)
  cases hpc : (s.worker w).pc with
  | exited => exact .inl rfl
  | pop =>
    cases hqueue : s.queue with
    | nil => exact .inr ⟨rfl, rfl⟩
    | cons item queue =>
      cases item <;> exact absurd (by simp [stepWorker, hpc, hqueue]; rfl) (hblocked _)
  | loaded item => cases item <;> exact absurd (by simp [stepWorker, hpc]; rfl) (hblocked _)
  | process m_task => exact absurd (by simp [stepWorker, hpc]; rfl) (hblocked _)

/-- **`Start` and `Stop` have returned**, in a state without a step. -/
theorem idle_of_stuck {numThreads : UInt32} (h : (machine T numThreads).Reach s)
    (hstuck : (machine T numThreads).Stuck forced s) : s.control = .idle := by
  have hblocked : ∀ s', s.stepControl ≠ .step s' := fun s' => hstuck .control rfl s'
  cases hcontrol : s.control with
  | idle => rfl
  | starting i =>
    by_cases hi : i < s.numThreads.toNat <;>
      exact absurd (by simp [stepControl, hcontrol, hi]; rfl) (hblocked _)
  | stopping i =>
    by_cases hi : i < s.threads.length <;>
      exact absurd (by simp [stepControl, hcontrol, hi]; rfl) (hblocked _)
  | joining rest =>
    cases rest with
    | nil => exact absurd (by simp [stepControl, hcontrol]; rfl) (hblocked _)
    | cons w rest =>
      by_cases hexited : (s.worker w).pc = .exited
      · exact absurd (by simp [stepControl, hcontrol, hexited]; rfl) (hblocked _)
      · cases hnext : next s (.worker w) with
        | blocked => exact absurd hnext (join_not_stuck h hcontrol hexited)
        | fault e => cases e
        | step s' => exact absurd hnext (hstuck (.worker w) rfl s')

/-- Between `Start` and `Stop` the threads of `m_threads` are alive. -/
theorem Inv.alive (h : Inv s) (hcontrol : s.control = .idle) {w : ℕ} (hw : w ∈ s.threads) :
    (s.worker w).pc ≠ .exited := by
  intro hexited
  have hleaving := (h.no_markers (by rw [hcontrol]; rfl)).2
  have hended : w ∉ range s.ended := by
    have hnodup : (List.range s.ended ++ s.threads).Nodup := h.threads ▸ List.nodup_range
    intro hmem
    exact (List.nodup_append.1 hnodup).2.2 w (List.mem_range.2 (mem_range.1 hmem)) w hw rfl
  have hsubset : insert w (range s.ended) ⊆ range s.spawned := by
    have hlength := h.length_threads
    intro u hu
    rcases mem_insert.1 hu with rfl | hu
    · exact mem_range.2 (h.mem_threads hw)
    · exact mem_range.2 ((mem_range.1 hu).trans_le (by omega))
  have hgone : ∑ u ∈ range s.ended, (s.worker u).pc.leaving = s.ended := by
    rw [sum_congr rfl fun u hu => congrArg WorkerPc.leaving (h.gone u (mem_range.1 hu))]
    simp [WorkerPc.leaving]
  have hle := sum_le_sum_of_subset (f := fun u => (s.worker u).pc.leaving) hsubset
  rw [sum_insert hended, hgone, hexited] at hle
  change 1 + s.ended ≤ s.leaving at hle
  omega

/-- **What there is to do has been done**, in a state without a step. -/
theorem Inv.processed_of_stuck (h : Inv s) {numThreads : UInt32}
    (hstuck : (machine T numThreads).Stuck forced s) (hcontrol : s.control = .idle)
    (hthreads : s.threads ≠ []) : s.processed.Perm (tickets s.pushed) := by
  obtain ⟨w, hw⟩ := List.exists_mem_of_ne_nil _ hthreads
  have halive := h.alive hcontrol hw
  obtain ⟨-, hqueue⟩ := (worker_of_stuck hstuck (h.mem_threads hw)).resolve_left halive
  have hholding : s.holding = 0 := by
    refine sum_eq_zero fun u hu => ?_
    rcases worker_of_stuck hstuck (mem_range.1 hu) with hpc | ⟨hpc, -⟩ <;> rw [hpc] <;> rfl
  have hconserved := h.conserved
  rw [hholding, add_zero, hqueue] at hconserved
  exact Multiset.coe_eq_coe.1 (by simpa [tasks] using hconserved)

/-! ## Runs -/

/-- The controlling thread is in `Stop`, or has returned from it. -/
def Stopped (s : WorkerPool T) : Prop :=
  s.control.inStop = true ∨ (s.control = .idle ∧ s.threads = [])

theorem Stopped.stepControl (h : Stopped s) : s.stepControl.Leads Stopped := by
  unfold WorkerPool.stepControl
  rcases h with hstop | ⟨hidle, -⟩
  · cases hcontrol : s.control with
    | idle | starting => simp [hcontrol, ControlPc.inStop] at hstop
    | stopping i =>
      simp only
      split_ifs
      · exact .inl rfl
      · exact .inl rfl
    | joining rest =>
      cases rest with
      | nil => exact .inr ⟨rfl, rfl⟩
      | cons w rest =>
        simp only
        cases (s.worker w).pc with
        | exited => exact .inl rfl
        | _ => trivial
  · rw [hidle]
    trivial

/-- What a worker leaves alone. -/
theorem stepWorker_frame (s : WorkerPool T) (w : ℕ) : (s.stepWorker w).Leads fun s' =>
    ∃ worker queue processed, s' = { s with worker, queue, processed } := by
  unfold stepWorker
  dsimp only
  cases (s.worker w).pc with
  | pop =>
    cases s.queue with
    | nil => trivial
    | cons item queue => cases item <;> exact ⟨_, _, _, rfl⟩
  | loaded item => cases item <;> exact ⟨_, _, _, rfl⟩
  | process m_task => exact ⟨_, _, _, rfl⟩
  | exited => trivial

theorem Stopped.next (h : Stopped s) {a : Label T} (ha : a.going = true) :
    (next s a).Leads Stopped := by
  cases a with
  | setThreadCount | start | stop => cases ha
  | control => exact h.stepControl
  | push task => exact h
  | worker w =>
    refine .guard fun _ => (stepWorker_frame s w).mono ?_
    intro s' ⟨worker, queue, processed, hs'⟩
    rw [hs']
    exact h

/-- What holds along the steps of calls that are under way. -/
structure Runs (numThreads : UInt32) (s₀ s : WorkerPool T) : Prop where
  reach : (machine T numThreads).Reach s
  stopped : s₀.control.inStop = true → Stopped s

variable {numThreads : UInt32}

theorem Runs.step {s₀ : WorkerPool T} (s : WorkerPool T) (a : Label T) (s' : WorkerPool T)
    (h : Runs numThreads s₀ s) (ha : going s a = true)
    (hnext : (machine T numThreads).next s a = .step s') :
    Runs numThreads s₀ s' ∧ s'.work + 1 ≤ s.work + (if a.isPush then 4 else 0) := by
  have hwork := next_work (s := s) ha
  rw [show next s a = .step s' from hnext] at hwork
  refine ⟨⟨.step h.reach trivial hnext, fun hstop => ?_⟩, hwork⟩
  have hstopped := (h.stopped hstop).next ha
  rw [show next s a = .step s' from hnext] at hstopped
  exact hstopped

/-- **`Stop` returns**, and the tasks are processed, while any threads push. -/
theorem stop_returns (h : (machine T numThreads).Reach s) {as : List (Label T)}
    (has : (machine T numThreads).runIf going s as = some s') :
    as.length ≤ s.work + 4 * as.countP Label.isPush ∧
    ((machine T numThreads).Stuck forced s' →
      s'.control = .idle ∧ (s.control.inStop = true → Drained s') ∧
        (s'.threads ≠ [] → s'.processed.Perm (tickets s'.pushed))) := by
  have hruns : Runs numThreads s s := ⟨h, .inl⟩
  have hend : Runs numThreads s s' := Machine.runIf_invariant
    (fun s a s' hs ha hnext => (Runs.step s a s' hs ha hnext).1) hruns has
  have hinv := inv_reach hend.reach
  refine ⟨?_, fun hstuck => ?_⟩
  · have hlength := Machine.runIf_length_le_add Runs.step hruns has
    omega
  · have hidle := idle_of_stuck hend.reach hstuck
    refine ⟨hidle, fun hstop => ?_, hinv.processed_of_stuck hstuck hidle⟩
    rcases hend.stopped hstop with hin | ⟨-, hthreads⟩
    · rw [hidle] at hin
      cases hin
    · exact hinv.drained hidle hthreads

/-- What comes after `Stop` in `sampleCycle`, until it has returned. Two tasks are pushed meanwhile,
of which one is left. -/
def sampleStop : List (Label ℕ) := sampleCycle.drop 6 ++ [.control]

theorem stop_returns_sampleCycle :
    ∃ s s', (machine ℕ 2).run (init 2) (sampleCycle.take 6) = some s ∧
      (machine ℕ 2).runIf going s sampleStop = some s' ∧
      s'.processed = [(7, 0), (8, 1)] ∧ sampleStop.length ≤ 15 + 4 * 2 ∧
      Drained s' := by
  obtain ⟨s, s', hs, hs', hwork, hstop, hprocessed, hidle, hspawned, hexited⟩ : ∃ s s',
      (machine ℕ 2).run (init 2) (sampleCycle.take 6) = some s ∧
      (machine ℕ 2).runIf going s sampleStop = some s' ∧
      s.work = 15 ∧ s.control.inStop = true ∧ s'.processed = [(7, 0), (8, 1)] ∧
      s'.control = .idle ∧ s'.spawned = 2 ∧
      (s'.worker 0).pc = .exited ∧ (s'.worker 1).pc = .exited :=
    ⟨_, _, rfl, rfl, rfl, rfl, rfl, rfl, rfl, rfl, rfl⟩
  have hstuck : (machine ℕ 2).Stuck forced s' := by
    intro a ha s'' hnext
    have hblocked : next s' a = .blocked := by
      cases a with
      | setThreadCount | start | stop | push => cases ha
      | control => simp [next, stepControl, hidle]
      | worker w =>
        by_cases hw : w < 2
        · have hpc : (s'.worker w).pc = .exited := by
            rcases (by omega : w = 0 ∨ w = 1) with rfl | rfl
            · exact hexited.1
            · exact hexited.2
          simp [next, stepWorker, hpc]
        · simp [next, hspawned, hw]
    cases hblocked.symm.trans hnext
  have hreturns := stop_returns (Machine.reach_of_run .init hs) hs'
  refine ⟨s, s', hs, hs', hprocessed, hwork ▸ hreturns.1, (hreturns.2 hstuck).2.1 hstop⟩

/-! ## A started pool -/

/-- The pool has threads, or `Start` is about to spawn one; and it is not being stopped. -/
def Manned (s : WorkerPool T) : Prop :=
  match s.control with
  | .idle => s.threads ≠ []
  | .starting i => s.threads = [] → i < s.numThreads.toNat
  | .stopping _ | .joining _ => False

def Label.isStop : Label T → Bool
  | .stop => true
  | _ => false

/-- No `Stop` begins. -/
def unstopped (_ : WorkerPool T) (a : Label T) : Bool := !a.isStop

theorem manned_start (hidle : s.control = .idle) (hcount : s.numThreads ≠ 0) :
    (next s .start).Leads Manned := by
  have hpos : 0 < s.numThreads.toNat := Nat.pos_of_ne_zero fun h0 => hcount (UInt32.toNat_inj.1 h0)
  simp only [next, hidle, if_neg hcount]
  exact fun _ => hpos

theorem Manned.stepControl (h : s.Manned) : s.stepControl.Leads Manned := by
  unfold WorkerPool.stepControl
  unfold Manned at h
  cases hcontrol : s.control with
  | idle => trivial
  | starting i =>
    rw [hcontrol] at h
    simp only
    split_ifs with hi
    · intro hnil
      exact absurd hnil (List.append_ne_nil_of_right_ne_nil _ (List.cons_ne_nil _ _))
    · exact fun hnil => hi (h hnil)
  | stopping i | joining rest =>
    rw [hcontrol] at h
    exact h.elim

/-- **Only `Stop` takes the threads of a started pool away.** -/
theorem Manned.next (h : s.Manned) {a : Label T} (ha : a.isStop = false) :
    (next s a).Leads Manned := by
  cases a with
  | stop => cases ha
  | control => exact h.stepControl
  | push task => exact h
  | worker w =>
    refine .guard fun _ => (stepWorker_frame s w).mono ?_
    intro s' ⟨worker, queue, processed, hs'⟩
    rw [hs']
    exact h
  | setThreadCount n =>
    simp only [WorkerPool.next]
    cases hcontrol : s.control with
    | idle =>
      simp only [Manned, hcontrol] at h
      simp only [Outcome.Leads, Manned]
      exact h
    | _ => trivial
  | start =>
    simp only [WorkerPool.next]
    cases hcontrol : s.control with
    | idle =>
      simp only [Manned, hcontrol] at h
      split_ifs
      · exact h
      · exact fun hnil => absurd hnil h
    | _ => trivial

/-- What a `Stop` has found is not touched until the next one. -/
theorem next_mark {a : Label T} (ha : a.going = true) :
    (next s a).Leads fun s' => s'.mark = s.mark ∧ s'.live = s.live := by
  cases a with
  | setThreadCount | start | stop => cases ha
  | push task => exact ⟨rfl, rfl⟩
  | worker w =>
    refine .guard fun _ => (stepWorker_frame s w).mono ?_
    intro s' ⟨worker, queue, processed, hs'⟩
    rw [hs']
    exact ⟨rfl, rfl⟩
  | control =>
    show s.stepControl.Leads _
    unfold stepControl
    cases s.control with
    | idle => trivial
    | starting i =>
      simp only
      split_ifs <;> exact ⟨rfl, rfl⟩
    | stopping i =>
      simp only
      split_ifs <;> exact ⟨rfl, rfl⟩
    | joining rest =>
      cases rest with
      | nil => exact ⟨rfl, rfl⟩
      | cons w rest =>
        simp only
        cases (s.worker w).pc with
        | exited => exact ⟨rfl, rfl⟩
        | _ => trivial

/-- **A pool that was started** with a count that is not 0 processes what is pushed before the next
`Stop`: once that has returned, each of these tasks has been processed once. -/
theorem processed_of_started {s₁ s₂ s₃ s₄ : WorkerPool T} {as bs : List (Label T)}
    (h : (machine T numThreads).Reach s) (hidle : s.control = .idle) (hcount : s.numThreads ≠ 0)
    (hstart : next s .start = .step s₁)
    (has : (machine T numThreads).runIf unstopped s₁ as = some s₂)
    (hstop : next s₂ .stop = .step s₃)
    (hbs : (machine T numThreads).runIf going s₃ bs = some s₄)
    (hreturned : s₄.control = .idle) :
    ∀ k < s₂.pushed.length, (numbers s₄.processed).count k = 1 := by
  have hmanned₁ : s₁.Manned := by
    have hleads := manned_start hidle hcount
    rwa [hstart] at hleads
  have hmanned₂ : s₂.Manned := Machine.runIf_invariant (fun s a s' hs ha hnext => by
    have hleads := hs.next (a := a) (by simpa [unstopped] using ha)
    rwa [show next s a = .step s' from hnext] at hleads) hmanned₁ has
  have hreach₁ : (machine T numThreads).Reach s₁ := .step (a := .start) h trivial hstart
  have hreach₂ : (machine T numThreads).Reach s₂ :=
    Machine.reachIf_of_runIf (fun _ _ _ => trivial) hreach₁ has
  -- `Stop` finds the pool idle, with threads.
  obtain ⟨hidle₂, hcontrol₃, hmark, hlive⟩ : s₂.control = .idle ∧ s₃.control = .stopping 0 ∧
      s₃.mark = s₂.pushed.length ∧ s₃.live = s₂.threads.length := by
    simp only [next] at hstop
    cases hcontrol : s₂.control with
    | idle =>
      rw [hcontrol] at hstop
      cases hstop
      exact ⟨rfl, rfl, rfl, rfl⟩
    | starting | stopping | joining =>
      rw [hcontrol] at hstop
      cases hstop
  have hthreads : s₂.threads ≠ [] := by
    unfold Manned at hmanned₂
    rwa [hidle₂] at hmanned₂
  have hreach₃ : (machine T numThreads).Reach s₃ := .step (a := .stop) hreach₂ trivial hstop
  obtain ⟨hruns, hmark₄, hlive₄⟩ : Runs numThreads s₃ s₄ ∧ s₄.mark = s₃.mark ∧
      s₄.live = s₃.live := by
    refine Machine.runIf_invariant (I := fun s => Runs numThreads s₃ s ∧ s.mark = s₃.mark ∧
      s.live = s₃.live) (fun s a s' hs ha hnext => ?_) ⟨⟨hreach₃, .inl⟩, rfl, rfl⟩ hbs
    have hkept := next_mark (s := s) ha
    rw [show next s a = .step s' from hnext] at hkept
    exact ⟨(Runs.step s a s' hs.1 ha hnext).1, hkept.1.trans hs.2.1, hkept.2.trans hs.2.2⟩
  have hdrained : Drained s₄ := by
    rcases hruns.stopped (by rw [hcontrol₃]; rfl) with hin | ⟨-, hnil⟩
    · rw [hreturned] at hin
      cases hin
    · exact (inv_reach hruns.reach).drained hreturned hnil
  intro k hk
  refine hdrained.before ?_ k (by rwa [hmark₄, hmark])
  rw [hlive₄, hlive]
  exact List.length_pos_iff.2 hthreads

end SseExt.WorkerPool
