import Mathlib.Algebra.BigOperators.Fin
import Mathlib.Data.Multiset.Range
import Mathlib.Tactic.Abel
import SseExt.Lib.Threads
import SseExt.Lib.Transition

/-!
# `RunConcurrentTasks` and its workers

One caller hands its list of functions to a pool of `n` workers and waits for them. The pool's
queue is shared: other threads may push tasks of their own, or stop markers, at any time. The
machine below has one step for each atomic action of the code: a locked `push` or `pop`, the end
of a function, the interlocked increment of the caller's counter `c`, `notify_one`, the caller's
predicate check, and its unlock-and-block.

The caller's mutex does not occur: nobody but the caller ever locks it.

**Theorem (`counts_reach`).** In every run the functions of the list are taken in list order, each
by one worker, and `c` counts those whose worker has incremented it.
-/

namespace SseExt

open Finset

/-- An item of the pool's queue: the closure over the `i`-th function of the list, a task of
somebody else, or a default-constructed wrapper with `m_stop` set. -/
inductive Item where
  | call (i : ℕ)
  | other
  | stop
deriving DecidableEq

/-- The function of the list an item calls. -/
def Item.calls : Item → List ℕ
  | .call i => [i]
  | .other | .stop => []

/-- Where the caller stands. -/
inductive CallerPc where
  | enter
  /-- At the head of the loop, about to push the `i`-th closure. -/
  | push (i : ℕ)
  /-- `wait`: about to look at the predicate. -/
  | check
  /-- The predicate was false; about to unlock and block. -/
  | block
  | blocked
  | woken
  | returned
deriving DecidableEq

/-- Where a worker stands. -/
inductive WorkerPc where
  /-- At the head of `Pump`, about to pop. -/
  | pop
  | run (i : ℕ)
  | runOther
  /-- The function is over, by return or by a swallowed exception; about to increment `c`. -/
  | increment
  /-- The increment gave `num`; about to call `notify_one`. -/
  | notify
  | exited
deriving DecidableEq

/-- The pool with `n` workers and one call of `RunConcurrentTasks`. `taken` and `finished` record
the functions of the list in the order in which they were popped and in which they ended. -/
structure TaskWorkerPool (n : ℕ) where
  queue : List Item
  caller : CallerPc
  worker : Fin n → WorkerPc
  c : ℕ
  taken : List ℕ
  finished : List ℕ

namespace TaskWorkerPool

variable {n : ℕ}

inductive Fault where
  /-- `c` or `cond` is used after `RunConcurrentTasks` has returned. -/
  | deadFrame
  /-- An exception leaves `Pump`. -/
  | terminate
deriving DecidableEq

/-- Who moves. `post` is a push by another thread, `raise` the exception of a running task. -/
inductive Cmd (n : ℕ) where
  | caller
  | spurious
  | post (item : Item)
  | worker (w : Fin n)
  | raise (w : Fin n)

def init : TaskWorkerPool n := ⟨[], .enter, fun _ => .pop, 0, [], []⟩

/-- Worker `w` moves on to `pc`. -/
def goto (s : TaskWorkerPool n) (w : Fin n) (pc : WorkerPc) : TaskWorkerPool n :=
  { s with worker := Function.update s.worker w pc }

/-- `ProducerConsumerQueue::push` -/
def push (s : TaskWorkerPool n) (item : Item) : TaskWorkerPool n :=
  { s with queue := s.queue ++ [item] }

/-- The caller's steps, on a list of `num` functions. -/
def runConcurrentTasks (num : ℕ) (s : TaskWorkerPool n) : Outcome (TaskWorkerPool n) Fault :=
  match s.caller with
  | .enter => .step { s with caller := if num = 0 then .returned else .push 0 }
  | .push i =>
    if i < num then .step { s.push (.call i) with caller := .push (i + 1) }
    else .step { s with caller := .check }
  | .check => .step { s with caller := if s.c = num then .returned else .block }
  | .block => .step { s with caller := .blocked }
  | .blocked => .blocked
  | .woken => .step { s with caller := .check }
  | .returned => .blocked

/-- `func()` is over. -/
def endCall (s : TaskWorkerPool n) (w : Fin n) (i : ℕ) : TaskWorkerPool n :=
  { s.goto w .increment with finished := s.finished ++ [i] }

/-- `InterlockedIncrementAcquire(&c) == num` -/
def increment (num : ℕ) (s : TaskWorkerPool n) (w : Fin n) : Outcome (TaskWorkerPool n) Fault :=
  if s.caller = .returned then .fault .deadFrame
  else .step { s.goto w (if s.c + 1 = num then .notify else .pop) with c := s.c + 1 }

/-- `cond.notify_one()`, which wakes the caller only if it is blocked. -/
def notifyOne (s : TaskWorkerPool n) (w : Fin n) : Outcome (TaskWorkerPool n) Fault :=
  if s.caller = .returned then .fault .deadFrame
  else .step { s.goto w .pop with caller := if s.caller = .blocked then .woken else s.caller }

/-- The steps of worker `w`: `Pump`, `Process` and the closure. -/
def pump (num : ℕ) (s : TaskWorkerPool n) (w : Fin n) : Outcome (TaskWorkerPool n) Fault :=
  match s.worker w with
  | .pop =>
    match s.queue with
    | [] => .blocked
    | .call i :: queue => .step { s.goto w (.run i) with queue, taken := s.taken ++ [i] }
    | .other :: queue => .step { s.goto w .runOther with queue }
    | .stop :: queue => .step { s.goto w .exited with queue }
  | .run i => .step (s.endCall w i)
  | .runOther => .step (s.goto w .pop)
  | .increment => increment num s w
  | .notify => notifyOne s w
  | .exited => .blocked

/-- The task of worker `w` throws: the closure swallows it, `Pump` does not. -/
def raise (s : TaskWorkerPool n) (w : Fin n) : Outcome (TaskWorkerPool n) Fault :=
  match s.worker w with
  | .run i => .step (s.endCall w i)
  | .runOther => .fault .terminate
  | _ => .blocked

def step (num : ℕ) (s : TaskWorkerPool n) : Cmd n → Outcome (TaskWorkerPool n) Fault
  | .caller => runConcurrentTasks num s
  | .spurious => if s.caller = .blocked then .step { s with caller := .woken } else .blocked
  | .post item => if item.calls = [] then .step (s.push item) else .blocked
  | .worker w => pump num s w
  | .raise w => raise s w

/-- `n` workers and a list of `num` functions. -/
def machine (n num : ℕ) : Machine (TaskWorkerPool n) (Cmd n) Fault := ⟨init, step num⟩

end TaskWorkerPool

/-! ## Counting -/

/-- How many closures the caller has pushed. -/
def CallerPc.pushed (num : ℕ) : CallerPc → ℕ
  | .enter => 0
  | .push i => i
  | _ => num

/-- The function of the list a worker is in. -/
@[simp] def WorkerPc.running : WorkerPc → Multiset ℕ
  | .run i => {i}
  | _ => 0

/-- One for a worker about to increment `c`. -/
@[simp] def WorkerPc.incrementing : WorkerPc → ℕ
  | .increment => 1
  | _ => 0

/-- One for a worker about to call `notify_one`. -/
@[simp] def WorkerPc.notifying : WorkerPc → ℕ
  | .notify => 1
  | _ => 0

/-- How many workers may be about to call `notify_one`. -/
def quota (num c : ℕ) : ℕ := if c = num then 1 else 0

namespace TaskWorkerPool

variable {n num : ℕ} {s : TaskWorkerPool n} {w : Fin n} {pc : WorkerPc}

@[simp] theorem goto_queue (s : TaskWorkerPool n) : (s.goto w pc).queue = s.queue := rfl
@[simp] theorem goto_caller (s : TaskWorkerPool n) : (s.goto w pc).caller = s.caller := rfl
@[simp] theorem goto_c (s : TaskWorkerPool n) : (s.goto w pc).c = s.c := rfl
@[simp] theorem goto_taken (s : TaskWorkerPool n) : (s.goto w pc).taken = s.taken := rfl
@[simp] theorem goto_finished (s : TaskWorkerPool n) :
    (s.goto w pc).finished = s.finished := rfl

/-- A sum over all workers after worker `w` moves on. -/
theorem sum_goto {M : Type*} [AddCommMonoid M] (f : WorkerPc → M) (s : TaskWorkerPool n)
    (w : Fin n) (pc : WorkerPc) :
    ∑ u, f ((s.goto w pc).worker u) + f (s.worker w) = ∑ u, f (s.worker u) + f pc :=
  sum_update f s.worker (mem_univ w) pc

theorem one_le_sum {f : WorkerPc → ℕ} (hw : f (s.worker w) = 1) : 1 ≤ ∑ u, f (s.worker u) :=
  hw ▸ le_sum f s.worker (mem_univ w)

/-- The bookkeeping of one call. -/
structure Counts (num : ℕ) (s : TaskWorkerPool n) : Prop where
  pushed_le : s.caller.pushed num ≤ num
  /-- The closures leave the queue in list order. -/
  order : s.taken ++ s.queue.flatMap Item.calls = List.range (s.caller.pushed num)
  running : ∑ u, (s.worker u).running + (s.finished : Multiset ℕ) = s.taken
  counter : s.c + ∑ u, (s.worker u).incrementing = s.finished.length
  /-- Only the increment that gives `num` leads to a `notify_one`. -/
  notifying : ∑ u, (s.worker u).notifying ≤ quota num s.c

namespace Counts

theorem init : Counts num (init : TaskWorkerPool n) where
  pushed_le := Nat.zero_le _
  order := rfl
  running := by simp [TaskWorkerPool.init]
  counter := by simp [TaskWorkerPool.init]
  notifying := by simp [TaskWorkerPool.init]

/-- Every function that was taken was pushed. -/
theorem taken_le (h : Counts num s) : (s.taken : Multiset ℕ) ≤ Multiset.range num := by
  have hpushed : (s.taken : Multiset ℕ) ≤ Multiset.range (s.caller.pushed num) := by
    rw [Multiset.range, ← h.order]
    exact Multiset.coe_le.2 (List.sublist_append_left _ _).subperm
  exact hpushed.trans (Multiset.range_le.2 h.pushed_le)

/-- Every function that ended was taken. -/
theorem finished_le (h : Counts num s) : (s.finished : Multiset ℕ) ≤ Multiset.range num := by
  calc (s.finished : Multiset ℕ)
      ≤ s.taken := h.running ▸ Multiset.le_add_left _ _
    _ ≤ Multiset.range num := h.taken_le

theorem length_le (h : Counts num s) : s.finished.length ≤ num := by
  simpa using Multiset.card_le_card h.finished_le

/-- **Once `c` is `num`, every function of the list has ended, once.** -/
theorem finished_eq (h : Counts num s) (hc : s.c = num) :
    (s.finished : Multiset ℕ) = Multiset.range num := by
  have hcount := h.counter
  apply Multiset.eq_of_le_of_card_le h.finished_le
  simp only [Multiset.card_range, Multiset.coe_card]
  omega

theorem ended {i : ℕ} (h : Counts num s) (hc : s.c = num) (hi : i < num) : i ∈ s.finished := by
  rw [← Multiset.mem_coe, h.finished_eq hc, Multiset.mem_range]
  exact hi

/-- While a worker is about to call `notify_one`, `c` is `num`. -/
theorem done_of_notify (h : Counts num s) (hw : s.worker w = .notify) : s.c = num := by
  have hone : 1 ≤ ∑ u, (s.worker u).notifying := one_le_sum (w := w) (by rw [hw]; rfl)
  have hquota : quota num s.c ≠ 0 := Nat.one_le_iff_ne_zero.1 (hone.trans h.notifying)
  by_contra hc
  exact hquota (if_neg hc)

/-- There is one `notify_one` at most. -/
theorem no_other_notify (h : Counts num s) (hw : s.worker w = .notify) (u : Fin n) :
    (s.goto w .pop).worker u ≠ .notify := by
  have hsum := sum_goto WorkerPc.notifying s w .pop
  have hle := h.notifying
  rw [h.done_of_notify hw, quota, if_pos rfl] at hle
  have hold : (s.worker w).notifying = 1 := by rw [hw]; rfl
  have hnew : WorkerPc.pop.notifying = 0 := rfl
  have hzero : ∑ u, ((s.goto w .pop).worker u).notifying = 0 := by omega
  intro hu
  have := sum_eq_zero_iff.1 hzero u (mem_univ u)
  rw [hu] at this
  cases this

/-! ### Steps -/

/-- Worker `w` moves on to `pc`: what leaves one part of the books enters another. -/
theorem goto {s' : TaskWorkerPool n} (h : Counts num s) (w : Fin n) (pc : WorkerPc)
    (hw : s'.worker = (s.goto w pc).worker)
    (hp : s'.caller.pushed num = s.caller.pushed num)
    (ho : s'.taken ++ s'.queue.flatMap Item.calls = s.taken ++ s.queue.flatMap Item.calls)
    (hr : pc.running + s'.finished + s.taken = (s.worker w).running + s.finished + s'.taken)
    (hc : s'.c + pc.incrementing + s.finished.length =
      s.c + (s.worker w).incrementing + s'.finished.length)
    (hn : pc.notifying + quota num s.c ≤ (s.worker w).notifying + quota num s'.c) :
    Counts num s' where
  pushed_le := hp ▸ h.pushed_le
  order := by rw [ho, hp, h.order]
  running := by
    have hsum := sum_goto WorkerPc.running s w pc
    rw [hw]
    apply add_right_cancel (b := (s.worker w).running + s.finished)
    calc ∑ u, ((s.goto w pc).worker u).running + (s'.finished : Multiset ℕ)
          + ((s.worker w).running + s.finished)
        = (∑ u, ((s.goto w pc).worker u).running + (s.worker w).running)
          + s.finished + s'.finished := by abel
      _ = (∑ u, (s.worker u).running + s.finished) + (pc.running + s'.finished) := by
          rw [hsum]; abel
      _ = pc.running + s'.finished + s.taken := by rw [h.running, add_comm]
      _ = s'.taken + ((s.worker w).running + s.finished) := by rw [hr, add_comm]
  counter := by
    have hsum := sum_goto WorkerPc.incrementing s w pc
    have hold := h.counter
    rw [hw]
    omega
  notifying := by
    have hsum := sum_goto WorkerPc.notifying s w pc
    have hold := h.notifying
    rw [hw]
    omega

/-- `c` has not reached `num` while a worker is about to increment it. -/
theorem lt_of_increment (h : Counts num s) (hw : s.worker w = .increment) : s.c < num := by
  have hone : 1 ≤ ∑ u, (s.worker u).incrementing := one_le_sum (w := w) (by rw [hw]; rfl)
  have hcount := h.counter
  have hle := h.length_le
  omega

theorem endCall {i : ℕ} (h : Counts num s) (hw : s.worker w = .run i) :
    Counts num (s.endCall w i) := by
  refine h.goto w .increment rfl rfl rfl ?_ ?_ ?_
  · simp only [TaskWorkerPool.endCall, hw, WorkerPc.running, ← Multiset.coe_add,
      ← Multiset.coe_singleton, goto_taken]
    abel
  · simp [TaskWorkerPool.endCall, hw]
    omega
  · simp [TaskWorkerPool.endCall, hw]

theorem increment (h : Counts num s) (hw : s.worker w = .increment) :
    (increment num s w).Leads (Counts num) := by
  have hlt := h.lt_of_increment hw
  unfold TaskWorkerPool.increment
  split_ifs with hret hlast
  · trivial
  · refine h.goto w .notify rfl rfl rfl ?_ ?_ ?_ <;> simp [hw, quota, hlast, hlt.ne]
  · refine h.goto w .pop rfl rfl rfl ?_ ?_ ?_ <;> simp [hw, quota, hlast, hlt.ne]

theorem notifyOne (h : Counts num s) (hw : s.worker w = .notify) :
    (notifyOne s w).Leads (Counts num) := by
  unfold TaskWorkerPool.notifyOne
  split_ifs with hret hblocked
  · trivial
  · refine h.goto w .pop rfl ?_ rfl ?_ ?_ ?_ <;> simp [hw, hblocked, CallerPc.pushed]
  · refine h.goto w .pop rfl rfl rfl ?_ ?_ ?_ <;> simp [hw]

theorem pump (h : Counts num s) : (pump num s w).Leads (Counts num) := by
  unfold TaskWorkerPool.pump
  cases hw : s.worker w with
  | pop =>
    cases hq : s.queue with
    | nil => trivial
    | cons item queue =>
      cases item with
      | call i =>
        refine h.goto w (.run i) rfl rfl ?_ ?_ ?_ ?_
        · simp [hq, Item.calls]
        · simp only [hw, WorkerPc.running, ← Multiset.coe_add, ← Multiset.coe_singleton,
            goto_finished]
          abel
        · simp [hw]
        · simp [hw]
      | other => refine h.goto w .runOther rfl rfl ?_ ?_ ?_ ?_ <;> simp [hw, hq, Item.calls]
      | stop => refine h.goto w .exited rfl rfl ?_ ?_ ?_ ?_ <;> simp [hw, hq, Item.calls]
  | run i => exact h.endCall hw
  | runOther => refine h.goto w .pop rfl rfl rfl ?_ ?_ ?_ <;> simp [hw]
  | increment => exact h.increment hw
  | notify => exact h.notifyOne hw
  | exited => trivial

theorem raise (h : Counts num s) : (raise s w).Leads (Counts num) := by
  unfold TaskWorkerPool.raise
  split
  · exact h.endCall ‹_›
  · trivial
  · trivial

/-- The caller moves on without pushing. -/
theorem caller {pc : CallerPc} (h : Counts num s) (hp : pc.pushed num = s.caller.pushed num) :
    Counts num { s with caller := pc } where
  pushed_le := hp ▸ h.pushed_le
  order := by rw [hp, h.order]
  running := h.running
  counter := h.counter
  notifying := h.notifying

theorem push {i : ℕ} (h : Counts num s) (hs : s.caller = .push i) (hi : i < num) :
    Counts num { s.push (.call i) with caller := .push (i + 1) } where
  pushed_le := hi
  order := by
    have hold := h.order
    simp only [hs, CallerPc.pushed] at hold
    simp [TaskWorkerPool.push, Item.calls, CallerPc.pushed, List.range_succ, ← hold]
  running := h.running
  counter := h.counter
  notifying := h.notifying

theorem runConcurrentTasks (h : Counts num s) :
    (runConcurrentTasks num s).Leads (Counts num) := by
  unfold TaskWorkerPool.runConcurrentTasks
  have hle := h.pushed_le
  cases hs : s.caller with
  | enter =>
    apply h.caller
    split_ifs with h0 <;> simp [hs, h0, CallerPc.pushed]
  | push i =>
    simp only [hs, CallerPc.pushed] at hle
    dsimp only
    split_ifs with hi
    · exact h.push hs hi
    · apply h.caller
      simp only [hs, CallerPc.pushed]
      omega
  | check =>
    apply h.caller
    split_ifs <;> simp [hs, CallerPc.pushed]
  | block => exact h.caller (by simp [hs, CallerPc.pushed])
  | blocked => trivial
  | woken => exact h.caller (by simp [hs, CallerPc.pushed])
  | returned => trivial

theorem step (h : Counts num s) (a : Cmd n) : (step num s a).Leads (Counts num) := by
  cases a with
  | caller => exact h.runConcurrentTasks
  | spurious =>
    simp only [TaskWorkerPool.step]
    split_ifs with hs
    · exact h.caller (by simp [hs, CallerPc.pushed])
    · trivial
  | post item =>
    simp only [TaskWorkerPool.step]
    split_ifs with hitem
    · exact ⟨h.pushed_le, by simp [TaskWorkerPool.push, hitem, h.order], h.running, h.counter,
        h.notifying⟩
    · trivial
  | worker w => exact h.pump
  | raise w => exact h.raise

end Counts

/-- **The books balance in every run.** -/
theorem counts_reach (h : (machine n num).Reach s) : Counts num s :=
  h.preserved (I := Counts num) .init fun _ a _ hs => hs.step a

end TaskWorkerPool

end SseExt
