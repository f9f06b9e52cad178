import SseExt.Lib.Threads
import SseExt.Lib.Transition

/-!
# `ProducerConsumerQueue`

`push` enqueues under the mutex, unlocks, and only then calls `notify_one`; `pop` waits in a loop
until it finds the queue non-empty. Any threads call either, in any interleaving.

**Steps.** Taking the mutex, enqueueing, unlocking, `notify_one`, the test of the loop, the atomic
unlock-and-wait and the wake-up are steps of their own. The test that ends the loop and the removal
of the front are one step: the mutex is held from one to the other and guards every use of the
queue. `notify_one` wakes some blocked thread, if there is one; a thread may also wake spuriously.

**Theorem (`loses_nothing`).** What was popped is a prefix of what was pushed, the rest being the
queue. While some consumer is blocked, at least as many notifications are owed, or delivered to
consumers that have not re-checked, as there are items.

The count is carried by `Heard`. What makes it go through at `notify_one` with nobody blocked is
`Waiting`: a consumer on its way to block holds the mutex since it found the queue empty.
-/

namespace SseExt

/-- Where a thread is. -/
inductive ProducerConsumerQueue.Pc (α : Type*) where
  | idle
  | pushLock (item : α)
  | pushEmplace (item : α)
  | pushUnlock
  | pushNotify
  | popLock
  /-- `while (m_queue.empty())`, and the removal when it is not; `notified` says that the thread
  comes from a `notify_one`. -/
  | popCheck (notified : Bool)
  | popWait
  | blocked
  | woken (notified : Bool)
  /-- Leaving the scope of the lock, to return `item`. -/
  | popUnlock (item : α)

/-- The queue, the threads that use it, and what has gone through it. -/
structure ProducerConsumerQueue (ι α : Type*) where
  queue : List α
  /-- The holder of `m_mutex`. -/
  mutex : Option ι
  pc : ι → ProducerConsumerQueue.Pc α
  pushed : List α
  popped : List α

namespace ProducerConsumerQueue

variable {ι α : Type*}

namespace Pc

def isBlocked : Pc α → Bool
  | blocked => true
  | _ => false

/-- The thread is inside the mutex. -/
def holds : Pc α → Bool
  | pushEmplace _ | pushUnlock | popCheck _ | popWait | popUnlock _ => true
  | _ => false

/-- Notifications the thread has still to issue for an item it enqueued. -/
def owed : Pc α → ℕ
  | pushUnlock | pushNotify => 1
  | _ => 0

/-- Notifications the thread has received and not yet re-checked for. -/
def delivered : Pc α → ℕ
  | woken true | popCheck true => 1
  | _ => 0

end Pc

def init : ProducerConsumerQueue ι α := ⟨[], none, fun _ => .idle, [], []⟩

inductive Label (ι α : Type*) where
  | push (t : ι) (item : α)
  | pop (t : ι)
  /-- The next step of a call, other than `notify_one`. -/
  | step (t : ι)
  | notify (t : ι) (target : Option ι)
  | spurious (t : ι)

section

variable [DecidableEq ι]

def goto (s : ProducerConsumerQueue ι α) (t : ι) (pc : Pc α) : ProducerConsumerQueue ι α :=
  { s with pc := Function.update s.pc t pc }

/-- Take the mutex, when it is free. -/
def lock (s : ProducerConsumerQueue ι α) (t : ι) (pc : Pc α) :
    Outcome (ProducerConsumerQueue ι α) Empty :=
  if s.mutex.isNone then .step { s.goto t pc with mutex := some t } else .blocked

def unlock (s : ProducerConsumerQueue ι α) (t : ι) (pc : Pc α) : ProducerConsumerQueue ι α :=
  { s.goto t pc with mutex := none }

def stepThread (s : ProducerConsumerQueue ι α) (t : ι) :
    Outcome (ProducerConsumerQueue ι α) Empty :=
  match s.pc t with
  | .pushLock item => s.lock t (.pushEmplace item)
  | .pushEmplace item =>
    .step { s.goto t .pushUnlock with queue := s.queue ++ [item], pushed := s.pushed ++ [item] }
  | .pushUnlock => .step (s.unlock t .pushNotify)
  | .popLock => s.lock t (.popCheck false)
  | .popCheck _ =>
    match s.queue with
    | [] => .step (s.goto t .popWait)
    | item :: queue =>
      .step { s.goto t (.popUnlock item) with queue, popped := s.popped ++ [item] }
  | .popWait => .step (s.unlock t .blocked)
  | .woken notified => s.lock t (.popCheck notified)
  | .popUnlock _ => .step (s.unlock t .idle)
  | .idle | .pushNotify | .blocked => .blocked

variable [Fintype ι]

def next (s : ProducerConsumerQueue ι α) : Label ι α → Outcome (ProducerConsumerQueue ι α) Empty
  | .push t item =>
    match s.pc t with
    | .idle => .step (s.goto t (.pushLock item))
    | _ => .blocked
  | .pop t =>
    match s.pc t with
    | .idle => .step (s.goto t .popLock)
    | _ => .blocked
  | .step t => s.stepThread t
  | .notify t target =>
    match s.pc t with
    | .pushNotify =>
      match target with
      | some u =>
        if (s.pc u).isBlocked then .step ((s.goto u (.woken true)).goto t .idle) else .blocked
      | none => if ∀ u, (s.pc u).isBlocked = false then .step (s.goto t .idle) else .blocked
    | _ => .blocked
  | .spurious t => if (s.pc t).isBlocked then .step (s.goto t (.woken false)) else .blocked

variable (ι α) in
def machine : Machine (ProducerConsumerQueue ι α) (Label ι α) Empty := ⟨init, next⟩

end

/-! ## The queue as its users see it -/

/-- What one step does to a queue whose items are pushed and popped in one step. -/
inductive FifoStep : List α → List α → Prop
  | stutter (queue : List α) : FifoStep queue queue
  | push (queue : List α) (item : α) : FifoStep queue (queue ++ [item])
  | pop (item : α) (queue : List α) : FifoStep (item :: queue) queue

section

variable [DecidableEq ι] (s : ProducerConsumerQueue ι α)

theorem lock_fifo (t : ι) (pc : Pc α) :
    (s.lock t pc).Leads fun s' => FifoStep s.queue s'.queue := by
  unfold lock
  split_ifs
  · exact .stutter _
  · trivial

theorem stepThread_fifo (t : ι) :
    (s.stepThread t).Leads fun s' => FifoStep s.queue s'.queue := by
  unfold stepThread
  split
  case h_1 => exact s.lock_fifo t _
  case h_2 item _ => exact .push _ item
  case h_3 => exact .stutter _
  case h_4 => exact s.lock_fifo t _
  case h_5 =>
    split
    case h_1 => exact .stutter _
    case h_2 item queue hqueue =>
      show FifoStep s.queue queue
      rw [hqueue]
      exact .pop item queue
  case h_6 => exact .stutter _
  case h_7 => exact s.lock_fifo t _
  case h_8 => exact .stutter _
  all_goals trivial

/-- **The steps between enqueueing and removing do not show.** -/
theorem next_fifo [Fintype ι] (a : Label ι α) :
    (next s a).Leads fun s' => FifoStep s.queue s'.queue := by
  cases a with
  | step t => exact s.stepThread_fifo t
  | push t item =>
    simp only [next]
    split
    · exact .stutter _
    · trivial
  | pop t =>
    simp only [next]
    split
    · exact .stutter _
    · trivial
  | notify t target =>
    simp only [next]
    split
    · cases target with
      | none =>
        simp only
        split_ifs
        · exact .stutter _
        · trivial
      | some u =>
        simp only
        split_ifs
        · exact .stutter _
        · trivial
    · trivial
  | spurious t =>
    simp only [next]
    split_ifs
    · exact .stutter _
    · trivial

end

/-! ## The invariant -/

section

variable [DecidableEq ι] {q q' : ℕ} {queue queue' : List α} {pc : ι → Pc α}
  {item : α} {t u : ι} {x : Pc α}

/-- A thread on its way to block found the queue empty. -/
def Waiting (queue : List α) (pc : ι → Pc α) : Prop := ∀ t, pc t = .popWait → queue = []

theorem Waiting.move (hothers : ∀ u ≠ t, pc u = .popWait → queue = [])
    (hx : x = .popWait → queue = []) : Waiting queue (Function.update pc t x) := by
  intro u hu
  by_cases hut : u = t
  · rw [hut, Function.update_self] at hu
    exact hx hu
  · rw [Function.update_of_ne hut] at hu
    exact hothers u hut hu

variable [Fintype ι]

/-- While a thread is blocked, every item has a notification owed or delivered. -/
def Heard (q : ℕ) (pc : ι → Pc α) : Prop :=
  (∃ t, (pc t).isBlocked = true) → q ≤ ∑ t, (pc t).owed + ∑ t, (pc t).delivered

/-- A move that takes no more notifications than items keeps the count. -/
theorem Heard.move (h : Heard q pc)
    (hq : q' + (pc t).owed + (pc t).delivered ≤ q + x.owed + x.delivered)
    (hx : x.isBlocked = false ∨ q' = 0) : Heard q' (Function.update pc t x) := by
  intro ⟨u, hu⟩
  rcases hx with hx | hx
  · have hut : u ≠ t := by
      rintro rfl
      rw [Function.update_self, hx] at hu
      cases hu
    rw [Function.update_of_ne hut] at hu
    have hle := h ⟨u, hu⟩
    have howed := sum_update Pc.owed pc (Finset.mem_univ t) x
    have hdelivered := sum_update Pc.delivered pc (Finset.mem_univ t) x
    omega
  · rw [hx]
    exact Nat.zero_le _

theorem Heard.stay (h : Heard q pc)
    (hle : (pc t).owed + (pc t).delivered ≤ x.owed + x.delivered)
    (hx : x.isBlocked = false ∨ q = 0) : Heard q (Function.update pc t x) :=
  h.move (by omega) hx

structure Inv (s : ProducerConsumerQueue ι α) : Prop where
  order : s.popped ++ s.queue = s.pushed
  mutex : Held s.mutex Pc.holds s.pc
  waiting : Waiting s.queue s.pc
  heard : Heard s.queue.length s.pc

namespace Inv

variable {s : ProducerConsumerQueue ι α}

omit [DecidableEq ι] in
theorem init : Inv (init : ProducerConsumerQueue ι α) where
  order := rfl
  mutex _ := ⟨nofun, nofun⟩
  waiting _ := nofun
  heard := nofun

omit [DecidableEq ι] in
/-- The thread inside the mutex is the only one that can be about to block. -/
theorem waiting_ne (h : Inv s) (ht : (s.pc t).holds = true) {u : ι} (hut : u ≠ t) :
    s.pc u ≠ .popWait := by
  intro hu
  exact hut (h.mutex.unique (by rw [hu]; rfl) ht)

theorem lock (h : Inv s) (hle : (s.pc t).owed + (s.pc t).delivered ≤ x.owed + x.delivered)
    (hx : x.holds = true) (hwait : x ≠ .popWait) (hb : x.isBlocked = false) :
    (s.lock t x).Ensures Inv := by
  apply Outcome.Ensures.guard
  intro hfree
  have hmutex := h.mutex
  rw [Option.isNone_iff_eq_none.1 hfree] at hmutex
  exact ⟨h.order, hmutex.enter hx, .move (fun u _ => h.waiting u) fun e => absurd e hwait,
    h.heard.stay hle (.inl hb)⟩

theorem unlock (h : Inv s) (ht : (s.pc t).holds = true)
    (hle : (s.pc t).owed + (s.pc t).delivered ≤ x.owed + x.delivered) (hx : x.holds = false)
    (hb : x.isBlocked = false ∨ s.queue.length = 0) : Inv (s.unlock t x) := by
  refine ⟨h.order, h.mutex.leave ht hx, .move (fun u _ => h.waiting u) ?_, h.heard.stay hle hb⟩
  rintro rfl
  exact absurd hx (by simp [Pc.holds])

/-- A move that leaves the mutex and the queue alone. -/
theorem goto (h : Inv s) (hle : (s.pc t).owed + (s.pc t).delivered ≤ x.owed + x.delivered)
    (hx : x.holds = (s.pc t).holds) (hwait : x = .popWait → s.queue = [])
    (hb : x.isBlocked = false) : Inv (s.goto t x) :=
  ⟨h.order, h.mutex.stay hx, .move (fun u _ => h.waiting u) hwait, h.heard.stay hle (.inl hb)⟩

theorem enqueue (h : Inv s) (ht : s.pc t = .pushEmplace item) :
    Inv { s.goto t .pushUnlock with queue := s.queue ++ [item], pushed := s.pushed ++ [item] } := by
  refine ⟨?_, h.mutex.stay (by rw [ht]; rfl), ?_, ?_⟩
  · show s.popped ++ (s.queue ++ [item]) = s.pushed ++ [item]
    rw [← List.append_assoc, h.order]
  · exact .move (fun u hu hw => absurd hw (h.waiting_ne (by rw [ht]; rfl) hu)) nofun
  · apply h.heard.move _ (.inl rfl)
    simp [ht, Pc.owed, Pc.delivered]

theorem dequeue (h : Inv s) {notified : Bool} (ht : s.pc t = .popCheck notified)
    (hqueue : s.queue = item :: queue) :
    Inv { s.goto t (.popUnlock item) with queue, popped := s.popped ++ [item] } := by
  refine ⟨?_, h.mutex.stay (by rw [ht]; rfl), ?_, ?_⟩
  · show (s.popped ++ [item]) ++ queue = s.pushed
    rw [List.append_assoc, ← h.order, hqueue]
    rfl
  · exact .move (fun u hu hw => absurd hw (h.waiting_ne (by rw [ht]; rfl) hu)) nofun
  · -- A notification is used up only together with an item.
    apply h.heard.move _ (.inl rfl)
    cases notified <;> simp [ht, hqueue, Pc.owed, Pc.delivered]

/-- A consumer that finds the queue empty uses up a notification for nothing. -/
theorem recheck (h : Inv s) {notified : Bool} (ht : s.pc t = .popCheck notified)
    (hqueue : s.queue = []) : Inv (s.goto t .popWait) := by
  refine ⟨h.order, h.mutex.stay (by rw [ht]; rfl),
    .move (fun u _ => h.waiting u) fun _ => hqueue, ?_⟩
  intro _
  show s.queue.length ≤ _
  rw [hqueue]
  exact Nat.zero_le _

/-- `notify_one` hands the notification over. -/
theorem notify (h : Inv s) (ht : s.pc t = .pushNotify) (hu : (s.pc u).isBlocked = true) :
    Inv ((s.goto u (.woken true)).goto t .idle) := by
  have hut : t ≠ u := by
    rintro rfl
    rw [ht] at hu
    cases hu
  have hpc : (s.goto u (.woken true)).pc t = .pushNotify := by
    rw [← ht]
    exact Function.update_of_ne hut _ _
  have hinside : (s.pc u).holds = false := by
    cases hpcu : s.pc u <;> simp_all [Pc.isBlocked, Pc.holds]
  have hzero : (s.pc u).owed + (s.pc u).delivered = 0 := by
    cases hpcu : s.pc u <;> simp_all [Pc.isBlocked, Pc.owed, Pc.delivered]
  have hwoken : Inv (s.goto u (.woken true)) := h.goto (by omega) (by rw [hinside]; rfl) nofun rfl
  refine ⟨h.order, hwoken.mutex.stay (by rw [hpc]; rfl),
    .move (fun v _ => hwoken.waiting v) nofun, ?_⟩
  -- The woken thread has received one more than there are items.
  have hmore : Heard (s.queue.length + 1) (s.goto u (.woken true)).pc := by
    apply h.heard.move _ (.inl rfl)
    show s.queue.length + 1 + (s.pc u).owed + (s.pc u).delivered ≤ s.queue.length + 0 + 1
    omega
  apply hmore.move _ (.inl rfl)
  rw [hpc]
  simp [Pc.owed, Pc.delivered]
  rfl

theorem notify_none (h : Inv s) (ht : s.pc t = .pushNotify)
    (hnone : ∀ u, (s.pc u).isBlocked = false) : Inv (s.goto t .idle) := by
  refine ⟨h.order, h.mutex.stay (by rw [ht]; rfl), .move (fun u _ => h.waiting u) nofun, ?_⟩
  intro ⟨u, hu⟩
  change (Function.update s.pc t .idle u).isBlocked = true at hu
  by_cases hut : u = t
  · rw [hut, Function.update_self] at hu
    cases hu
  · rw [Function.update_of_ne hut, hnone u] at hu
    cases hu

theorem stepThread (h : Inv s) (t : ι) : (s.stepThread t).Ensures Inv := by
  unfold ProducerConsumerQueue.stepThread
  split
  case h_1 item ht => exact h.lock (by simp [ht, Pc.owed, Pc.delivered]) rfl nofun rfl
  case h_2 item ht => exact h.enqueue ht
  case h_3 ht =>
    exact h.unlock (by rw [ht]; rfl) (by simp [ht, Pc.owed, Pc.delivered]) rfl (.inl rfl)
  case h_4 ht => exact h.lock (by simp [ht, Pc.owed, Pc.delivered]) rfl nofun rfl
  case h_5 notified ht =>
    split
    case h_1 hqueue => exact h.recheck ht hqueue
    case h_2 item queue hqueue => exact h.dequeue ht hqueue
  case h_6 ht =>
    have hqueue : s.queue = [] := h.waiting t ht
    exact h.unlock (by rw [ht]; rfl) (by simp [ht, Pc.owed, Pc.delivered]) rfl
      (.inr (by rw [hqueue]; rfl))
  case h_7 notified ht =>
    exact h.lock (by cases notified <;> simp [ht, Pc.owed, Pc.delivered]) rfl nofun rfl
  case h_8 item ht =>
    exact h.unlock (by rw [ht]; rfl) (by simp [ht, Pc.owed, Pc.delivered]) rfl (.inl rfl)
  all_goals trivial

/-- **Every step keeps the invariant.** -/
theorem next (h : Inv s) (a : Label ι α) : (next s a).Ensures Inv := by
  cases a with
  | push t item =>
    simp only [ProducerConsumerQueue.next]
    split
    case h_1 ht => exact h.goto (by simp [ht, Pc.owed, Pc.delivered]) (by rw [ht]; rfl) nofun rfl
    case h_2 => trivial
  | pop t =>
    simp only [ProducerConsumerQueue.next]
    split
    case h_1 ht => exact h.goto (by simp [ht, Pc.owed, Pc.delivered]) (by rw [ht]; rfl) nofun rfl
    case h_2 => trivial
  | step t => exact h.stepThread t
  | notify t target =>
    simp only [ProducerConsumerQueue.next]
    split
    case h_2 => trivial
    case h_1 ht =>
      cases target with
      | some u => exact .guard fun hu => h.notify ht hu
      | none => exact .guard fun hnone => h.notify_none ht hnone
  | spurious t =>
    apply Outcome.Ensures.guard
    intro hb
    cases ht : s.pc t <;> simp_all [Pc.isBlocked]
    exact h.goto (by simp [ht, Pc.owed, Pc.delivered]) (by rw [ht]; rfl) nofun rfl

end Inv

theorem inv_reach {s : ProducerConsumerQueue ι α} (h : (machine ι α).Reach s) : Inv s :=
  h.invariant .init fun _ a hs => (hs.next a).mono fun _ h' _ => h'

/-! ## Nobody sleeps beside an item -/

/-- A step of a call of the thread is available. -/
def CanMove (s : ProducerConsumerQueue ι α) (t : ι) : Prop :=
  s.stepThread t ≠ .blocked ∨ ∃ target, next s (.notify t target) ≠ .blocked

namespace Inv

variable {s : ProducerConsumerQueue ι α}

/-- The thread inside the mutex waits for no other. -/
theorem holder_canMove (h : Inv s) (ht : s.mutex = some t) : CanMove s t := by
  have hinside : (s.pc t).holds = true := (h.mutex t).2 ht
  apply Or.inl
  cases hpc : s.pc t with
  | popCheck notified => cases hq : s.queue <;> simp [ProducerConsumerQueue.stepThread, hpc, hq]
  | pushEmplace item => simp [ProducerConsumerQueue.stepThread, hpc]
  | pushUnlock => simp [ProducerConsumerQueue.stepThread, hpc]
  | popWait => simp [ProducerConsumerQueue.stepThread, hpc]
  | popUnlock item => simp [ProducerConsumerQueue.stepThread, hpc]
  | _ => simp [hpc, Pc.holds] at hinside

/-- A thread with a notification to issue or to re-check for waits for the mutex at most. -/
theorem notifier_canMove (h : Inv s) (ht : 0 < (s.pc t).owed + (s.pc t).delivered) :
    CanMove s t ∨ ∃ u, s.mutex = some u ∧ CanMove s u := by
  cases hmutex : s.mutex with
  | some u => exact .inr ⟨u, rfl, h.holder_canMove hmutex⟩
  | none =>
    apply Or.inl
    have houtside : (s.pc t).holds = false := by
      cases hholds : (s.pc t).holds with
      | false => rfl
      | true => exact absurd ((h.mutex t).1 hholds) (by simp [hmutex])
    cases hpc : s.pc t with
    | pushNotify =>
      apply Or.inr
      by_cases hb : ∃ u, (s.pc u).isBlocked = true
      · obtain ⟨u, hu⟩ := hb
        exact ⟨some u, by simp [ProducerConsumerQueue.next, hpc, hu]⟩
      · have hnone : ∀ u, (s.pc u).isBlocked = false := by simpa using hb
        exact ⟨none, by simp [ProducerConsumerQueue.next, hpc, hnone]⟩
    | woken notified =>
      apply Or.inl
      simp [ProducerConsumerQueue.stepThread, ProducerConsumerQueue.lock, hpc, hmutex]
    | _ => simp [hpc, Pc.holds, Pc.owed, Pc.delivered] at ht houtside

omit [DecidableEq ι] in
/-- Beside a blocked consumer and an item there is a notification on its way. -/
theorem notifier (h : Inv s) (hb : (s.pc t).isBlocked = true) (hqueue : s.queue ≠ []) :
    ∃ u, 0 < (s.pc u).owed + (s.pc u).delivered := by
  have hle := h.heard ⟨t, hb⟩
  have hpos : 0 < s.queue.length := List.length_pos_iff.2 hqueue
  rw [← Finset.sum_add_distrib] at hle
  obtain ⟨u, -, hu⟩ := Finset.exists_ne_zero_of_sum_ne_zero (Nat.ne_of_gt (hpos.trans_le hle))
  exact ⟨u, Nat.pos_of_ne_zero hu⟩

end Inv

/-- **The queue loses nothing and misses no wake-up.** -/
theorem loses_nothing {s : ProducerConsumerQueue ι α} (h : (machine ι α).Reach s) :
    (s.popped <+: s.pushed ∧ s.popped ++ s.queue = s.pushed) ∧
    ∀ t, s.pc t = .blocked →
      s.queue.length ≤ ∑ u, (s.pc u).owed + ∑ u, (s.pc u).delivered ∧
      (s.queue ≠ [] → ∃ u, 0 < (s.pc u).owed + (s.pc u).delivered ∧
        (CanMove s u ∨ ∃ v, s.mutex = some v ∧ CanMove s v)) := by
  have hinv := inv_reach h
  refine ⟨⟨⟨s.queue, hinv.order⟩, hinv.order⟩, fun t ht => ?_⟩
  have hb : (s.pc t).isBlocked = true := by rw [ht]; rfl
  refine ⟨hinv.heard ⟨t, hb⟩, fun hqueue => ?_⟩
  obtain ⟨u, hu⟩ := hinv.notifier hb hqueue
  exact ⟨u, hu, hinv.notifier_canMove hu⟩

/-- Consumers 0 and 1 block, producer 2 pushes two items, notifies the first of them, and still owes
the second notification. -/
def samplePushes : List (Label (Fin 3) ℕ) :=
  [.pop 0, .step 0, .step 0, .step 0, .pop 1, .step 1, .step 1, .step 1,
    .push 2 7, .step 2, .step 2, .step 2, .notify 2 (some 0), .push 2 8, .step 2, .step 2, .step 2]

theorem loses_nothing_samplePushes : ∃ s, (machine (Fin 3) ℕ).run init samplePushes = some s ∧
    s.queue.length ≤ ∑ u, (s.pc u).owed + ∑ u, (s.pc u).delivered := by
  have hrun : ∃ s, (machine (Fin 3) ℕ).run init samplePushes = some s ∧ s.pc 1 = .blocked :=
    ⟨_, rfl, rfl⟩
  obtain ⟨s, hs, hb⟩ := hrun
  exact ⟨s, hs, ((loses_nothing (Machine.reach_of_run .init hs)).2 1 hb).1⟩

end

end ProducerConsumerQueue

end SseExt
