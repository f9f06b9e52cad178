import SseExt.Queue.WorkerPool

/-!
# `Stop` drains the pool

**Theorem (`stop_drains`).** When `Stop` returns, the tasks pushed before it began have been passed
to `Process`, once each; every worker has popped one stop marker and exited; no marker is left in
the queue; and every other task was processed once or is queued.

`Inv.markers` counts the markers: those in the queue and those popped are the workers of earlier
cycles and the markers the current `Stop` has pushed. When all of `m_threads` are joined, each has
popped one, so none is left in the queue. `Inv.phase` carries the order: behind a marker there is no
task from before the `Stop` (`Behind`), so once a marker has been popped no such task is queued
(`Fresh`).
-/

namespace SseExt.WorkerPool

open Finset

variable {T : Type*}

/-! ## What the workers hold -/

namespace WorkerPc

/-- The task popped and not yet passed to `Process`. -/
def held : WorkerPc T → Multiset (Ticket T)
  | loaded (.task m_task) => {m_task}
  | _ => 0

/-- The worker is on its way out. -/
def leaving : WorkerPc T → ℕ
  | loaded .stop | exited => 1
  | _ => 0

end WorkerPc

/-- The tasks of the queue. -/
def tasks (queue : List (TaskWrapper T)) : List (Ticket T) := queue.filterMap TaskWrapper.ticket?

/-- The stop markers of the queue. -/
def markersIn (queue : List (TaskWrapper T)) : ℕ := queue.countP TaskWrapper.isStop

section

variable (queue queue' : List (TaskWrapper T)) (m_task : Ticket T)

@[simp] theorem tasks_stop : tasks (.stop :: queue) = tasks queue := rfl

@[simp] theorem tasks_task : tasks (.task m_task :: queue) = m_task :: tasks queue := rfl

@[simp] theorem tasks_append : tasks (queue ++ queue') = tasks queue ++ tasks queue' :=
  List.filterMap_append

@[simp] theorem markersIn_stop : markersIn (.stop :: queue) = markersIn queue + 1 :=
  List.countP_cons_of_pos rfl

@[simp] theorem markersIn_task : markersIn (.task m_task :: queue) = markersIn queue := rfl

@[simp] theorem markersIn_append :
    markersIn (queue ++ queue') = markersIn queue + markersIn queue' :=
  List.countP_append

end

def holding (s : WorkerPool T) : Multiset (Ticket T) := ∑ w ∈ range s.spawned, (s.worker w).pc.held

def leaving (s : WorkerPool T) : ℕ := ∑ w ∈ range s.spawned, (s.worker w).pc.leaving

/-! ## The order of the queue -/

/-- The item is not a task pushed before the last `Stop` began. -/
def New (mark : ℕ) : TaskWrapper T → Prop
  | .stop => True
  | .task m_task => mark ≤ m_task.2

/-- Every task from before the last `Stop` has left the queue. -/
def Fresh (mark : ℕ) (queue : List (TaskWrapper T)) : Prop := ∀ item ∈ queue, New mark item

/-- No task from before the last `Stop` is behind a marker. -/
def Behind (mark : ℕ) (queue : List (TaskWrapper T)) : Prop :=
  queue.Pairwise fun a b => a.isStop = true → New mark b

section

variable {mark : ℕ} {queue queue' : List (TaskWrapper T)} {item : TaskWrapper T}

theorem Fresh.sublist (h : Fresh mark queue) (hq : queue'.Sublist queue) : Fresh mark queue' :=
  fun item hitem => h item (hq.subset hitem)

theorem Fresh.snoc (h : Fresh mark queue) (hitem : New mark item) :
    Fresh mark (queue ++ [item]) := by
  intro i hi
  rcases List.mem_append.1 hi with hi | hi
  · exact h i hi
  · rw [List.mem_singleton.1 hi]
    exact hitem

theorem Fresh.le (h : Fresh mark queue) {t : Ticket T} (ht : t ∈ tasks queue) : mark ≤ t.2 := by
  obtain ⟨item, hitem, hticket⟩ := List.mem_filterMap.1 ht
  cases item with
  | stop => cases hticket
  | task m_task =>
    cases hticket
    exact h _ hitem

theorem Behind.of_no_markers (h : markersIn queue = 0) : Behind mark queue := by
  apply List.pairwise_iff_forall_sublist.2
  intro a b hsub hstop
  have ha : a ∈ queue := hsub.subset List.mem_cons_self
  exact absurd hstop (List.countP_eq_zero.1 h a ha)

theorem Behind.snoc (h : Behind mark queue) (hitem : New mark item) :
    Behind mark (queue ++ [item]) := by
  apply List.pairwise_append.2
  refine ⟨h, List.pairwise_singleton _ _, fun a _ b hb _ => ?_⟩
  rw [List.mem_singleton.1 hb]
  exact hitem

/-- **Behind a popped marker everything is new.** -/
theorem Behind.fresh (h : Behind mark (.stop :: queue)) : Fresh mark queue :=
  fun item hitem => (List.pairwise_cons.1 h).1 item hitem rfl

end

/-! ## The invariant -/

/-- The markers the current `Stop` has pushed. -/
def ControlPc.pushed (threads : List ℕ) : ControlPc → ℕ
  | idle | starting _ => 0
  | stopping i => i
  | joining _ => threads.length

/-- While a `Stop` runs: the order of the queue, and what a popped marker says. -/
structure Stopping (s : WorkerPool T) : Prop where
  live : s.live = s.threads.length
  behind : Behind s.mark s.queue
  fresh : s.ended < s.leaving → Fresh s.mark s.queue

/-- What holds at each point of the controlling thread. -/
def Phase (s : WorkerPool T) : Prop :=
  match s.control with
  | .idle | .starting _ => 1 ≤ s.live → Fresh s.mark s.queue
  | .stopping i => i ≤ s.threads.length ∧ Stopping s
  | .joining rest =>
    (∃ joined, s.threads = joined ++ rest ∧ ∀ w ∈ joined, (s.worker w).pc = .exited) ∧ Stopping s

structure Inv (s : WorkerPool T) : Prop where
  /-- No task is lost or doubled. -/
  conserved : ↑(s.processed ++ tasks s.queue) + s.holding = (tickets s.pushed : Multiset (Ticket T))
  stops : ∀ w < s.spawned, (s.worker w).stops = (s.worker w).pc.leaving
  /-- The threads spawned since the last `Stop` are those of `m_threads`. -/
  threads : List.range s.ended ++ s.threads = List.range s.spawned
  gone : ∀ w < s.ended, (s.worker w).pc = .exited
  markers : markersIn s.queue + s.leaving = s.ended + s.control.pushed s.threads
  mark_le : s.mark ≤ s.pushed.length
  phase : Phase s

namespace Inv

variable {s : WorkerPool T}

theorem init (numThreads : UInt32) : Inv (init numThreads : WorkerPool T) where
  conserved := rfl
  stops _ _ := rfl
  threads := rfl
  gone w hw := absurd hw (Nat.not_lt_zero w)
  markers := rfl
  mark_le := le_rfl
  phase h := absurd h (by simp [WorkerPool.init])

theorem length_threads (h : Inv s) : s.ended + s.threads.length = s.spawned := by
  have hlength := congrArg List.length h.threads
  simpa using hlength

theorem mem_threads (h : Inv s) {w : ℕ} (hw : w ∈ s.threads) : w < s.spawned := by
  have hmem : w ∈ List.range s.ended ++ s.threads := List.mem_append_right _ hw
  rw [h.threads] at hmem
  exact List.mem_range.1 hmem

/-- A worker is of an earlier cycle or in `m_threads`. -/
theorem mem_threads_or (h : Inv s) {w : ℕ} (hw : w < s.spawned) : w < s.ended ∨ w ∈ s.threads := by
  have hmem : w ∈ List.range s.ended ++ s.threads := by
    rw [h.threads]
    exact List.mem_range.2 hw
  simpa using hmem

/-! ### The workers -/

/-- A step of a worker. What it takes from the queue it holds or has processed; when it pops a
marker, what is left of the queue is new. -/
theorem move (h : Inv s) {w : ℕ} (hw : w < s.spawned) (hpc : (s.worker w).pc ≠ .exited)
    (x : Worker T) {queue : List (TaskWrapper T)} {processed : List (Ticket T)}
    (hconserved : (↑(processed ++ tasks queue) : Multiset (Ticket T)) + x.pc.held =
      ↑(s.processed ++ tasks s.queue) + (s.worker w).pc.held)
    (hstops : x.stops = x.pc.leaving)
    (hmarkers : markersIn queue + x.pc.leaving = markersIn s.queue + (s.worker w).pc.leaving)
    (hqueue : queue.Sublist s.queue)
    (hfresh : (s.worker w).pc.leaving < x.pc.leaving → Behind s.mark s.queue → Fresh s.mark queue) :
    Inv { s with worker := Function.update s.worker w x, queue, processed } := by
  have hmem : w ∈ range s.spawned := mem_range.2 hw
  have hexited : ∀ u, (s.worker u).pc = .exited →
      (Function.update s.worker w x u).pc = .exited := by
    intro u hu
    have huw : u ≠ w := by
      rintro rfl
      exact hpc hu
    rw [Function.update_of_ne huw]
    exact hu
  have hleaving := sum_update (fun y : Worker T => y.pc.leaving) s.worker hmem x
  have hstopping : Stopping s →
      Stopping { s with worker := Function.update s.worker w x, queue, processed } := by
    intro hs
    refine ⟨hs.live, hs.behind.sublist hqueue, fun hended => ?_⟩
    by_cases hpop : (s.worker w).pc.leaving < x.pc.leaving
    · exact hfresh hpop hs.behind
    · have hbefore : s.ended < s.leaving := by
        change s.ended <
          ∑ u ∈ range s.spawned, (Function.update s.worker w x u).pc.leaving at hended
        change s.ended < ∑ u ∈ range s.spawned, (s.worker u).pc.leaving
        omega
      exact (hs.fresh hbefore).sublist hqueue
  refine ⟨?_, ?_, h.threads, fun u hu => hexited u (h.gone u hu), ?_, h.mark_le, ?_⟩
  · exact (add_sum_update (fun y : Worker T => y.pc.held) hmem hconserved).trans h.conserved
  · intro u hu
    by_cases huw : u = w
    · simp only [huw, Function.update_self]
      exact hstops
    · simp only [Function.update_of_ne huw]
      exact h.stops u hu
  · exact (add_sum_update (fun y : Worker T => y.pc.leaving) hmem hmarkers).trans h.markers
  · have hphase := h.phase
    simp only [Phase] at hphase ⊢
    split at hphase
    · exact fun hlive => (hphase hlive).sublist hqueue
    · exact fun hlive => (hphase hlive).sublist hqueue
    · exact ⟨hphase.1, hstopping hphase.2⟩
    · obtain ⟨⟨joined, hthreads, hjoined⟩, hs⟩ := hphase
      exact ⟨⟨joined, hthreads, fun u hu => hexited u (hjoined u hu)⟩, hstopping hs⟩

/-- `move` for a step that pops no marker. -/
theorem advance (h : Inv s) {w : ℕ} (hw : w < s.spawned) {pc pc' : WorkerPc T}
    (hpc : (s.worker w).pc = pc) (hrun : pc ≠ .exited) {queue : List (TaskWrapper T)}
    {processed : List (Ticket T)}
    (hconserved : (↑(processed ++ tasks queue) : Multiset (Ticket T)) + pc'.held =
      ↑(s.processed ++ tasks s.queue) + pc.held)
    (hleaving : pc'.leaving = pc.leaving) (hmarkers : markersIn queue = markersIn s.queue)
    (hqueue : queue.Sublist s.queue) :
    Inv { s with
      worker := Function.update s.worker w { s.worker w with pc := pc' }, queue, processed } := by
  subst hpc
  apply h.move hw hrun _ hconserved _ _ hqueue
  · intro hlt
    exact absurd hleaving (Nat.ne_of_gt hlt)
  · exact (h.stops w hw).trans hleaving.symm
  · rw [hmarkers, hleaving]

theorem stepWorker (h : Inv s) {w : ℕ} (hw : w < s.spawned) : (s.stepWorker w).Ensures Inv := by
  unfold WorkerPool.stepWorker
  dsimp only
  cases hpc : (s.worker w).pc with
  | pop =>
    simp only
    cases hqueue : s.queue with
    | nil => trivial
    | cons item queue =>
      have htail : queue.Sublist s.queue := by
        rw [hqueue]
        exact List.sublist_cons_self _ _
      cases item with
      | stop =>
        apply h.move hw (by simp [hpc]) _ _ _ _ htail
        · intro _ hbehind
          rw [hqueue] at hbehind
          exact hbehind.fresh
        · simp [hqueue, hpc, WorkerPc.held]
        · rw [h.stops w hw, hpc]
          rfl
        · simp [hqueue, hpc, WorkerPc.leaving]
      | task m_task =>
        refine h.advance hw hpc nofun ?_ ?_ ?_ htail
        · rw [hqueue, tasks_task, coe_middle]
          simp [WorkerPc.held]
        · rfl
        · rw [hqueue, markersIn_task]
  | loaded item =>
    cases item with
    | stop => exact h.advance hw hpc nofun rfl rfl rfl (.refl _)
    | task m_task =>
      refine h.advance hw hpc nofun ?_ ?_ rfl (.refl _)
      · rw [List.append_assoc, List.singleton_append, coe_middle]
        simp [WorkerPc.held]
      · rfl
  | process m_task => exact h.advance hw hpc nofun rfl rfl rfl (.refl _)
  | exited => trivial

/-! ### The other threads -/

theorem push (h : Inv s) (task : T) :
    Inv { s with
      queue := s.queue ++ [.task (task, s.pushed.length)]
      pushed := s.pushed ++ [task] } := by
  have hnew : New s.mark (.task (task, s.pushed.length)) := h.mark_le
  have hstopping : Stopping s → Stopping { s with
      queue := s.queue ++ [.task (task, s.pushed.length)]
      pushed := s.pushed ++ [task] } := fun hs =>
    ⟨hs.live, hs.behind.snoc hnew, fun hended => (hs.fresh hended).snoc hnew⟩
  refine ⟨?_, h.stops, h.threads, h.gone, ?_, ?_, ?_⟩
  · simp only [tasks_append, tickets_snoc, ← List.append_assoc]
    rw [← Multiset.coe_add, ← Multiset.coe_add _ [_], ← h.conserved, add_right_comm]
    rfl
  · show markersIn (s.queue ++ [_]) + s.leaving = _
    rw [markersIn_append]
    exact h.markers
  · have hle := h.mark_le
    simp only [List.length_append]
    omega
  · have hphase := h.phase
    simp only [Phase] at hphase ⊢
    split at hphase
    · exact fun hlive => (hphase hlive).snoc hnew
    · exact fun hlive => (hphase hlive).snoc hnew
    · exact ⟨hphase.1, hstopping hphase.2⟩
    · exact ⟨hphase.1, hstopping hphase.2⟩

/-! ### The controlling thread -/

theorem le_leaving {n : ℕ} (hn : n ≤ s.spawned) (hexited : ∀ w < n, (s.worker w).pc = .exited) :
    n ≤ s.leaving := by
  calc n = ∑ w ∈ range n, 1 := by simp
    _ = ∑ w ∈ range n, (s.worker w).pc.leaving := by
      apply sum_congr rfl
      intro w hw
      rw [hexited w (mem_range.1 hw)]
      rfl
    _ ≤ s.leaving := sum_le_sum_of_subset (range_mono hn)

theorem ended_le (h : Inv s) : s.ended ≤ s.leaving :=
  le_leaving (h.length_threads ▸ Nat.le_add_right _ _) h.gone

/-- Between `Start` and `Stop` there is no marker. -/
theorem no_markers (h : Inv s) (hcontrol : s.control.pushed s.threads = 0) :
    markersIn s.queue = 0 ∧ s.leaving = s.ended := by
  have hmarkers := h.markers
  have hle := h.ended_le
  omega

theorem spawn (h : Inv s) {i j : ℕ} (hcontrol : s.control = .starting i) :
    Inv { s.spawn with control := .starting j } := by
  have hphase : 1 ≤ s.live → Fresh s.mark s.queue := by
    have hphase := h.phase
    rwa [Phase, hcontrol] at hphase
  refine ⟨?_, ?_, ?_, ?_, ?_, h.mark_le, hphase⟩
  · have hsum := sum_spawn (f := fun y : Worker T => y.pc.held) s.worker s.spawned
      (x := ⟨.pop, 0⟩) rfl
    exact (congrArg _ hsum).trans h.conserved
  · intro w hw
    by_cases hnew : w = s.spawned
    · simp only [WorkerPool.spawn, hnew, Function.update_self]
      rfl
    · simp only [WorkerPool.spawn, Function.update_of_ne hnew]
      exact h.stops w (by simp only [WorkerPool.spawn] at hw; omega)
  · show List.range s.ended ++ (s.threads ++ [s.spawned]) = List.range (s.spawned + 1)
    rw [← List.append_assoc, h.threads, List.range_succ]
  · intro w hw
    have hlength := h.length_threads
    have hold : w ≠ s.spawned := by
      change w < s.ended at hw
      omega
    simp only [WorkerPool.spawn, Function.update_of_ne hold]
    exact h.gone w hw
  · have hsum := sum_spawn (f := fun y : Worker T => y.pc.leaving) s.worker s.spawned
      (x := ⟨.pop, 0⟩) rfl
    have hmarkers := h.markers
    rw [hcontrol] at hmarkers
    exact (congrArg _ hsum).trans hmarkers

/-- Once the second loop of `Stop` is through, every worker has exited. -/
theorem all_exited (h : Inv s) (hcontrol : s.control = .joining []) :
    ∀ w < s.spawned, (s.worker w).pc = .exited := by
  intro w hw
  have hphase := h.phase
  rw [Phase, hcontrol] at hphase
  obtain ⟨⟨joined, hthreads, hjoined⟩, -⟩ := hphase
  rcases h.mem_threads_or hw with hold | hmem
  · exact h.gone w hold
  · rw [hthreads, List.append_nil] at hmem
    exact hjoined w hmem

/-- **All of the markers have been popped when `Stop` returns.** -/
theorem joined (h : Inv s) (hcontrol : s.control = .joining []) :
    Inv { s with threads := [], control := .idle, ended := s.spawned } := by
  have hexited := h.all_exited hcontrol
  have hlength := h.length_threads
  have hleaving := le_leaving le_rfl hexited
  have hmarkers := h.markers
  rw [hcontrol] at hmarkers
  change markersIn s.queue + s.leaving = s.ended + s.threads.length at hmarkers
  refine ⟨h.conserved, h.stops, List.append_nil _, hexited, ?_, h.mark_le, ?_⟩
  · show markersIn s.queue + s.leaving = s.spawned + 0
    omega
  · intro hlive
    change 1 ≤ s.live at hlive
    have hphase := h.phase
    rw [Phase, hcontrol] at hphase
    obtain ⟨-, hs⟩ := hphase
    have hthreads := hs.live
    apply hs.fresh
    omega

theorem stepControl (h : Inv s) : s.stepControl.Ensures Inv := by
  have hphase := h.phase
  have hmarkers := h.markers
  unfold WorkerPool.stepControl
  rw [Phase] at hphase
  split
  case h_1 => trivial
  case h_2 i hcontrol =>
    simp only [hcontrol] at hphase hmarkers
    split
    · exact h.spawn hcontrol
    · exact ⟨h.conserved, h.stops, h.threads, h.gone, hmarkers, h.mark_le, hphase⟩
  case h_3 i hcontrol =>
    simp only [hcontrol] at hphase hmarkers
    obtain ⟨hi, hs⟩ := hphase
    split
    case isTrue hlt =>
      refine ⟨?_, h.stops, h.threads, h.gone, ?_, h.mark_le, hlt, ?_⟩
      · simp only [tasks_append]
        exact (congrArg (fun l => (↑(s.processed ++ l) : Multiset (Ticket T)) + s.holding)
          (List.append_nil _)).trans h.conserved
      · show markersIn (s.queue ++ [.stop]) + s.leaving = s.ended + (i + 1)
        rw [markersIn_append]
        change markersIn s.queue + s.leaving = s.ended + i at hmarkers
        show markersIn s.queue + 1 + s.leaving = s.ended + (i + 1)
        omega
      · exact ⟨hs.live, hs.behind.snoc trivial, fun hended => (hs.fresh hended).snoc trivial⟩
    case isFalse hge =>
      have hlength : i = s.threads.length := Nat.le_antisymm hi (Nat.le_of_not_lt hge)
      refine ⟨h.conserved, h.stops, h.threads, h.gone, ?_, h.mark_le,
        ⟨[], rfl, fun _ hw => absurd hw List.not_mem_nil⟩, hs.live, hs.behind, hs.fresh⟩
      rw [hlength] at hmarkers
      exact hmarkers
  case h_4 w rest hcontrol =>
    simp only [hcontrol] at hphase hmarkers
    obtain ⟨⟨joined, hthreads, hjoined⟩, hs⟩ := hphase
    split
    case h_2 => trivial
    case h_1 hexited =>
      refine ⟨h.conserved, h.stops, h.threads, h.gone, hmarkers, h.mark_le,
        ⟨joined ++ [w], ?_, ?_⟩, hs.live, hs.behind, hs.fresh⟩
      · rw [List.append_assoc]
        exact hthreads
      · intro u hu
        rcases List.mem_append.1 hu with hu | hu
        · exact hjoined u hu
        · rw [List.mem_singleton.1 hu]
          exact hexited
  case h_5 hcontrol =>
    simp only [hcontrol] at hphase hmarkers
    exact h.joined hcontrol

theorem stop (h : Inv s) (hcontrol : s.control = .idle) :
    Inv { s with control := .stopping 0, mark := s.pushed.length, live := s.threads.length } := by
  have hnone := h.no_markers (by rw [hcontrol]; rfl)
  have hmarkers := h.markers
  rw [hcontrol] at hmarkers
  exact ⟨h.conserved, h.stops, h.threads, h.gone, hmarkers, le_rfl, Nat.zero_le _, rfl,
    .of_no_markers hnone.1, fun hended => absurd hnone.2 (Nat.ne_of_gt hended)⟩

/-- **Every step keeps the invariant.** -/
theorem next (h : Inv s) (a : Label T) : (next s a).Ensures Inv := by
  have hphase := h.phase
  have hmarkers := h.markers
  rw [Phase] at hphase
  cases a with
  | setThreadCount numThreads =>
    simp only [WorkerPool.next]
    split
    case h_1 hcontrol =>
      simp only [hcontrol] at hphase hmarkers
      exact ⟨h.conserved, h.stops, h.threads, h.gone, by rwa [hcontrol], h.mark_le,
        by rwa [Phase, hcontrol]⟩
    case h_2 => trivial
  | start =>
    simp only [WorkerPool.next]
    split
    case h_1 hcontrol =>
      simp only [hcontrol] at hphase hmarkers
      split_ifs
      · exact ⟨h.conserved, h.stops, h.threads, h.gone, hmarkers, h.mark_le, hphase⟩
      · exact ⟨h.conserved, h.stops, h.threads, h.gone, hmarkers, h.mark_le, hphase⟩
    case h_2 => trivial
  | stop =>
    simp only [WorkerPool.next]
    split
    case h_1 hcontrol => exact h.stop hcontrol
    case h_2 => trivial
  | control => exact h.stepControl
  | push task => exact h.push task
  | worker w => exact .guard fun hw => h.stepWorker hw

end Inv

variable {s : WorkerPool T} {numThreads : UInt32}

theorem inv_reach (h : (machine T numThreads).Reach s) : Inv s :=
  h.invariant (.init numThreads) fun _ a hs => (hs.next a).mono fun _ h' _ => h'

/-! ## The return of `Stop` -/

/-- What holds of the pool from the return of `Stop` to the next `Start`. -/
structure Drained (s : WorkerPool T) : Prop where
  threads : s.threads = []
  /-- Every worker has popped one marker. -/
  exited : ∀ w < s.spawned, (s.worker w).pc = .exited ∧ (s.worker w).stops = 1
  no_marker : .stop ∉ s.queue
  /-- The tasks pushed before the `Stop` began, when it had threads to stop. -/
  before : 1 ≤ s.live → ∀ k < s.mark, (numbers s.processed).count k = 1
  /-- All the tasks. -/
  after : ∀ k < s.pushed.length,
    (numbers s.processed).count k + (numbers (tasks s.queue)).count k = 1
  /-- What is processed or queued under number `k` is what was pushed `k`-th. -/
  same : ∀ t ∈ s.processed ++ tasks s.queue, s.pushed[t.2]? = some t.1

/-- The pool is as `Stop` leaves it. -/
theorem Inv.drained (h : Inv s) (hcontrol : s.control = .idle) (hthreads : s.threads = []) :
    Drained s := by
  have hended : s.ended = s.spawned := by
    have hlength := h.length_threads
    rwa [hthreads] at hlength
  have hgone : ∀ w < s.spawned, (s.worker w).pc = .exited := fun w hw => h.gone w (hended ▸ hw)
  have hholding : s.holding = 0 := by
    apply sum_eq_zero
    intro w hw
    rw [hgone w (mem_range.1 hw)]
    rfl
  have hperm : (s.processed ++ tasks s.queue).Perm (tickets s.pushed) := by
    have hconserved := h.conserved
    rw [hholding, add_zero] at hconserved
    exact Multiset.coe_eq_coe.1 hconserved
  have hcount : ∀ k < s.pushed.length,
      (numbers s.processed).count k + (numbers (tasks s.queue)).count k = 1 := by
    intro k hk
    rw [← List.count_append, numbers, numbers, ← List.map_append, (hperm.map Prod.snd).count_eq]
    exact count_numbers_tickets hk
  refine ⟨hthreads, fun w hw => ⟨hgone w hw, ?_⟩, ?_, fun hlive k hk => ?_, hcount, ?_⟩
  · rw [h.stops w hw, hgone w hw]
    rfl
  · have hnone := (h.no_markers (by rw [hcontrol]; rfl)).1
    intro hmem
    exact List.countP_eq_zero.1 hnone _ hmem rfl
  · have hphase := h.phase
    rw [Phase, hcontrol] at hphase
    have hqueued : k ∉ numbers (tasks s.queue) := by
      intro hmem
      obtain ⟨t, ht, rfl⟩ := List.mem_map.1 hmem
      exact absurd hk (Nat.not_lt_of_le ((hphase hlive).le ht))
    have hk' := hcount k (hk.trans_le h.mark_le)
    rwa [List.count_eq_zero_of_not_mem hqueued] at hk'
  · intro t ht
    exact mem_tickets.1 (hperm.mem_iff.1 ht)

/-- **`Stop` drains the pool.** It holds when the second loop of `Stop` is through, and as long as
the pool has no threads. -/
theorem stop_drains (h : (machine T numThreads).Reach s) :
    (s.control = .joining [] → ∃ s', next s .control = .step s' ∧ s'.control = .idle ∧
      s'.mark = s.mark ∧ s'.live = s.live ∧ Drained s') ∧
    (s.control = .idle → s.threads = [] → Drained s) := by
  have hinv := inv_reach h
  refine ⟨fun hcontrol => ?_, fun hcontrol hthreads => hinv.drained hcontrol hthreads⟩
  refine ⟨{ s with threads := [], control := .idle, ended := s.spawned }, ?_, rfl, rfl, rfl,
    (hinv.joined hcontrol).drained rfl rfl⟩
  simp only [WorkerPool.next, WorkerPool.stepControl, hcontrol]

/-- Two threads; the task pushed while `Stop` runs is left in the queue. -/
def sampleCycle : List (Label ℕ) :=
  [.start, .control, .control, .control, .push 7, .stop, .control, .worker 0, .push 8, .control,
    .control, .worker 1, .worker 0, .worker 1, .worker 0, .push 9, .worker 0, .worker 0, .worker 0,
    .worker 0, .worker 0, .control, .control]

theorem stop_drains_sampleCycle : ∃ s, (machine ℕ 2).run (init 2) sampleCycle = some s ∧
    ∃ s', next s .control = .step s' ∧ s'.control = .idle ∧ s'.mark = s.mark ∧ s'.live = s.live ∧
      Drained s' := by
  have hrun : ((machine ℕ 2).run (init 2) sampleCycle).map (·.control) = some (.joining []) := rfl
  obtain ⟨s, hs, hcontrol⟩ := Option.map_eq_some_iff.1 hrun
  exact ⟨s, hs, (stop_drains (Machine.reach_of_run .init hs)).1 hcontrol⟩

/-! ## `join` does not hang -/

/-- **A thread that `Stop` waits for can always go on.** -/
theorem join_not_stuck (h : (machine T numThreads).Reach s) {w : ℕ} {rest : List ℕ}
    (hcontrol : s.control = .joining (w :: rest)) (hw : (s.worker w).pc ≠ .exited) :
    next s (.worker w) ≠ .blocked := by
  have hinv := inv_reach h
  have hphase := hinv.phase
  rw [Phase, hcontrol] at hphase
  obtain ⟨⟨joined, hthreads, -⟩, -⟩ := hphase
  have hspawned : w < s.spawned := hinv.mem_threads (by rw [hthreads]; simp)
  simp only [WorkerPool.next, if_pos hspawned]
  cases hpc : (s.worker w).pc with
  | exited => exact absurd hpc hw
  | loaded item => cases item <;> simp [WorkerPool.stepWorker, hpc]
  | process m_task => simp [WorkerPool.stepWorker, hpc]
  | pop =>
    -- The worker has not popped its marker, so there is one in the queue.
    have hleaving : s.leaving < s.spawned := by
      calc s.leaving < ∑ u ∈ range s.spawned, 1 := by
            apply sum_lt_sum _ ⟨w, mem_range.2 hspawned, by rw [hpc]; exact Nat.one_pos⟩
            intro u _
            cases hu : (s.worker u).pc with
            | loaded item => cases item <;> simp [WorkerPc.leaving]
            | _ => simp [WorkerPc.leaving]
        _ = s.spawned := by simp
    have hmarkers := hinv.markers
    have hlength := hinv.length_threads
    rw [hcontrol] at hmarkers
    change markersIn s.queue + s.leaving = s.ended + s.threads.length at hmarkers
    cases hqueue : s.queue with
    | nil =>
      rw [hqueue] at hmarkers
      change 0 + s.leaving = s.ended + s.threads.length at hmarkers
      omega
    | cons item queue => cases item <;> simp [WorkerPool.stepWorker, hpc, hqueue]

end SseExt.WorkerPool
