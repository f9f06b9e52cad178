import SseExt.Lib.Trace
import SseExt.Queue.ProducerConsumer

/-!
# Calls of `ProducerConsumerQueue` return

The calls that are under way go on by themselves, by `step` and by `notify_one`; new calls and
spurious wake-ups come from outside.

**Theorem (`calls_return`).** From any state of any run, only so many steps are possible without a
new call, spurious wake-ups costing four steps each, whichever threads move and whichever thread a
notification wakes. When no step is left, every thread is idle or waits, and exactly as many
consumers wait as there are too few items for those that were in `pop`. So all calls can return if
and only if there are enough items.

No step changes by how much the consumers without an item outnumber the items (`Balanced`); a
`push` that has not got to `emplace` counts as an item. A notification pays for the steps of the
thread that it wakes. In the end no notification is owed or on its way, so nobody waits while there
is an item (`Inv.heard`).
-/

namespace SseExt.ProducerConsumerQueue

variable {ι α : Type*}

namespace Pc

/-- In `pop`, without an item. -/
def takes : Pc α → ℕ
  | popLock | popCheck _ | popWait | blocked | woken _ => 1
  | _ => 0

/-- In `push`, before `emplace`. -/
def gives : Pc α → ℕ
  | pushLock _ | pushEmplace _ => 1
  | _ => 0

/-- The steps that a thread has to do, with those of the thread that it wakes. -/
def work : Pc α → ℕ
  | pushLock _ => 7
  | pushEmplace _ => 6
  | pushUnlock => 5
  | pushNotify => 4
  | popLock | woken _ => 3
  | popCheck _ => 2
  | popWait | popUnlock _ => 1
  | idle | blocked => 0

end Pc

/-- No call begins. -/
def Label.going : Label ι α → Bool
  | .push _ _ | .pop _ => false
  | _ => true

def Label.isSpurious : Label ι α → Bool
  | .spurious _ => true
  | _ => false

/-- Steps of the calls that are under way, and spurious wake-ups. -/
def going (_ : ProducerConsumerQueue ι α) (a : Label ι α) : Bool := a.going

/-- Steps of the calls that are under way. -/
def forced (_ : ProducerConsumerQueue ι α) (a : Label ι α) : Bool := a.going && !a.isSpurious

section

variable [Fintype ι] (s : ProducerConsumerQueue ι α)

def work : ℕ := ∑ t, (s.pc t).work

/-- The consumers without an item. -/
def takers : ℕ := ∑ t, (s.pc t).takes

/-- The items that are in the queue or about to be. -/
def available : ℕ := s.queue.length + ∑ t, (s.pc t).gives

/-- The consumers that wait. -/
def waiters : ℕ := ∑ t, (s.pc t).isBlocked.toNat

end

/-! ## What a step does -/

section

variable [Fintype ι] {s s' s'' : ProducerConsumerQueue ι α} {t u : ι} {x : Pc α}

/-- The consumers without an item outnumber the items by as much as before. -/
def Balanced (s s' : ProducerConsumerQueue ι α) : Prop :=
  s'.takers + s.available = s.takers + s'.available

theorem Balanced.trans (h : Balanced s s') (h' : Balanced s' s'') : Balanced s s'' := by
  simp only [Balanced] at h h' ⊢
  omega

variable [DecidableEq ι]

theorem work_update (hpc : s'.pc = Function.update s.pc t x) :
    s'.work + (s.pc t).work = s.work + x.work := by
  rw [work, hpc]
  exact sum_update Pc.work s.pc (Finset.mem_univ t) x

theorem balanced_update (hpc : s'.pc = Function.update s.pc t x)
    (h : x.takes + (s.queue.length + (s.pc t).gives) =
      (s.pc t).takes + (s'.queue.length + x.gives)) : Balanced s s' := by
  have htakes := sum_update Pc.takes s.pc (Finset.mem_univ t) x
  have hgives := sum_update Pc.gives s.pc (Finset.mem_univ t) x
  simp only [Balanced, takers, available, hpc]
  omega

/-- A step that costs its thread something, unless the thread is woken spuriously. -/
structure Goes (c : ℕ) (s s' : ProducerConsumerQueue ι α) : Prop where
  work : s'.work + 1 ≤ s.work + c
  balanced : Balanced s s'

theorem Goes.move {c : ℕ} (hpc : s'.pc = Function.update s.pc t x)
    (hwork : x.work + 1 ≤ (s.pc t).work + c)
    (h : x.takes + (s.queue.length + (s.pc t).gives) =
      (s.pc t).takes + (s'.queue.length + x.gives)) : Goes c s s' := by
  have hsum := work_update hpc
  exact ⟨by omega, balanced_update hpc h⟩

theorem lock_goes (hwork : x.work + 1 ≤ (s.pc t).work)
    (h : x.takes = (s.pc t).takes ∧ x.gives = (s.pc t).gives) :
    (s.lock t x).Leads (Goes 0 s) := by
  unfold lock
  split_ifs
  · refine .move (t := t) rfl hwork ?_
    rw [h.1, h.2]
    rfl
  · trivial

theorem stepThread_goes (s : ProducerConsumerQueue ι α) (t : ι) :
    (s.stepThread t).Leads (Goes 0 s) := by
  unfold stepThread
  cases hpc : s.pc t with
  | pushLock | popLock | woken =>
    exact lock_goes (by simp [hpc, Pc.work]) (by simp [hpc, Pc.takes, Pc.gives])
  | idle | pushNotify | blocked => trivial
  | popCheck notified =>
    cases hqueue : s.queue with
    | nil =>
      refine .move (t := t) rfl (by simp [hpc, Pc.work]) ?_
      simp [hpc, Pc.takes, Pc.gives, goto]
    | cons item queue =>
      -- The item is taken together with the need for it.
      refine .move (t := t) rfl (by simp [hpc, Pc.work]) ?_
      simp [hpc, hqueue, Pc.takes, Pc.gives, Nat.add_comm]
  | _ =>
    refine .move (t := t) rfl (by simp [hpc, Pc.work]) ?_
    simp [hpc, Pc.takes, Pc.gives, goto, unlock]

/-- The thread that is woken takes over some of the work. -/
theorem notify_goes (ht : s.pc t = .pushNotify) (hu : (s.pc u).isBlocked = true) :
    Goes 0 s ((s.goto u (.woken true)).goto t .idle) := by
  have hut : t ≠ u := by
    intro htu
    rw [← htu, ht] at hu
    cases hu
  have hpcu : s.pc u = .blocked := by
    cases hpc : s.pc u <;> first | rfl | simp [hpc, Pc.isBlocked] at hu
  have hpct : (s.goto u (.woken true)).pc t = .pushNotify :=
    (Function.update_of_ne hut _ _).trans ht
  have hwake : Balanced s (s.goto u (.woken true)) :=
    balanced_update rfl (by simp [hpcu, Pc.takes, Pc.gives, goto])
  have hidle : Balanced (s.goto u (.woken true)) ((s.goto u (.woken true)).goto t .idle) :=
    balanced_update rfl (by simp only [hpct]; rfl)
  have hwork : (s.goto u (.woken true)).work + (s.pc u).work =
      s.work + (Pc.woken true : Pc α).work := work_update rfl
  have hwork' : ((s.goto u (.woken true)).goto t .idle).work +
      ((s.goto u (.woken true)).pc t).work =
      (s.goto u (.woken true)).work + (Pc.idle : Pc α).work := work_update rfl
  rw [hpcu] at hwork
  rw [hpct] at hwork'
  simp only [Pc.work] at hwork hwork'
  exact ⟨by omega, hwake.trans hidle⟩

/-- **What a step costs and what it keeps.** -/
theorem next_goes (s : ProducerConsumerQueue ι α) {a : Label ι α} (ha : a.going = true) :
    (next s a).Leads (Goes (if a.isSpurious then 4 else 0) s) := by
  cases a with
  | push t item => cases ha
  | pop t => cases ha
  | step t => exact s.stepThread_goes t
  | notify t target =>
    simp only [next]
    cases ht : s.pc t with
    | pushNotify =>
      cases target with
      | some u => exact .guard fun hu => notify_goes ht hu
      | none =>
        refine .guard fun _ => .move (t := t) rfl (by simp [ht, Pc.work, Label.isSpurious]) ?_
        simp [ht, Pc.takes, Pc.gives, goto]
    | _ => trivial
  | spurious t =>
    refine .guard fun ht => ?_
    have hpc : s.pc t = .blocked := by
      cases hpc : s.pc t <;> first | rfl | simp [hpc, Pc.isBlocked] at ht
    refine .move (t := t) rfl (by simp [hpc, Pc.work, Label.isSpurious]) ?_
    simp [hpc, Pc.takes, Pc.gives, goto]

/-! ## States without a step -/

theorem CanMove.unstuck (h : CanMove s t) : ¬ (machine ι α).Stuck forced s := by
  intro hstuck
  have hstep : ∀ a, forced s a = true → next s a = .blocked := by
    intro a ha
    cases hnext : next s a with
    | blocked => rfl
    | fault e => cases e
    | step s' => exact absurd hnext (hstuck a ha s')
  rcases h with hmove | ⟨target, hmove⟩
  · exact hmove (hstep (.step t) rfl)
  · exact hmove (hstep (.notify t target) rfl)

/-- In a state without a step every thread is idle or waits. -/
theorem Inv.of_stuck (h : Inv s) (hstuck : (machine ι α).Stuck forced s) (t : ι) :
    s.pc t = .idle ∨ s.pc t = .blocked := by
  have hfree : s.mutex = none := by
    cases hmutex : s.mutex with
    | none => rfl
    | some u => exact absurd hstuck (h.holder_canMove hmutex).unstuck
  have hmove : ¬ CanMove s t := fun hmove => hmove.unstuck hstuck
  have hholds : (s.pc t).holds = false := by
    cases hholds : (s.pc t).holds with
    | false => rfl
    | true => exact absurd ((h.mutex t).1 hholds) (by simp [hfree])
  cases hpc : s.pc t with
  | idle => exact .inl rfl
  | blocked => exact .inr rfl
  | pushLock | popLock | woken =>
    exact absurd (.inl (by simp [ProducerConsumerQueue.stepThread, hpc,
      ProducerConsumerQueue.lock, hfree])) hmove
  | pushNotify =>
    rcases h.notifier_canMove (t := t) (by simp [hpc, Pc.owed]) with ht | ⟨u, -, hu⟩
    · exact absurd ht hmove
    · exact absurd hstuck hu.unstuck
  | _ => simp [hpc, Pc.holds] at hholds

/-- **Nobody waits while there is an item**, in a state without a step. -/
theorem Inv.waiters_of_stuck (h : Inv s) (hstuck : (machine ι α).Stuck forced s) :
    s.takers = s.waiters ∧ s.available = s.queue.length ∧
      (s.waiters = 0 ∨ s.queue.length = 0) := by
  have hpc := h.of_stuck hstuck
  have htakes : s.takers = s.waiters := by
    refine Finset.sum_congr rfl fun t _ => ?_
    rcases hpc t with ht | ht <;> rw [ht] <;> rfl
  have hgives : ∑ t, (s.pc t).gives = 0 := by
    refine Finset.sum_eq_zero fun t _ => ?_
    rcases hpc t with ht | ht <;> rw [ht] <;> rfl
  refine ⟨htakes, by rw [available, hgives, Nat.add_zero], ?_⟩
  by_cases hwaiters : s.waiters = 0
  · exact .inl hwaiters
  · obtain ⟨t, -, ht⟩ := Finset.exists_ne_zero_of_sum_ne_zero hwaiters
    have hblocked : (s.pc t).isBlocked = true := by simpa using ht
    have howed : ∑ t, (s.pc t).owed = 0 := by
      refine Finset.sum_eq_zero fun t _ => ?_
      rcases hpc t with ht | ht <;> rw [ht] <;> rfl
    have hdelivered : ∑ t, (s.pc t).delivered = 0 := by
      refine Finset.sum_eq_zero fun t _ => ?_
      rcases hpc t with ht | ht <;> rw [ht] <;> rfl
    have hheard := h.heard ⟨t, hblocked⟩
    omega

/-! ## All calls return -/

/-- What holds along the steps of the calls that are under way. -/
structure Runs (s₀ s : ProducerConsumerQueue ι α) : Prop where
  inv : Inv s
  balanced : Balanced s₀ s

theorem Runs.step {s₀ : ProducerConsumerQueue ι α} (s : ProducerConsumerQueue ι α)
    (a : Label ι α) (s' : ProducerConsumerQueue ι α) (h : Runs s₀ s) (ha : going s a = true)
    (hnext : (machine ι α).next s a = .step s') :
    Runs s₀ s' ∧ s'.work + 1 ≤ s.work + (if a.isSpurious then 4 else 0) := by
  have hinv := h.inv.next a
  have hgoes := next_goes s ha
  rw [show next s a = .step s' from hnext] at hinv hgoes
  exact ⟨⟨hinv, h.balanced.trans hgoes.balanced⟩, hgoes.work⟩

theorem Runs.force {s₀ : ProducerConsumerQueue ι α} (s : ProducerConsumerQueue ι α)
    (a : Label ι α) (s' : ProducerConsumerQueue ι α) (h : Runs s₀ s) (ha : forced s a = true)
    (hnext : (machine ι α).next s a = .step s') : Runs s₀ s' ∧ s'.work < s.work := by
  obtain ⟨hgoing, hspurious⟩ := Bool.and_eq_true_iff.1 ha
  obtain ⟨hruns, hwork⟩ := h.step s a s' hgoing hnext
  rw [if_neg (by simpa using hspurious)] at hwork
  exact ⟨hruns, hwork⟩

/-- The end of a run: as many consumers wait as there are too few items. -/
theorem Runs.end {s₀ : ProducerConsumerQueue ι α} (h : Runs s₀ s)
    (hstuck : (machine ι α).Stuck forced s) :
    (∀ t, s.pc t = .idle ∨ s.pc t = .blocked) ∧ s.waiters = s₀.takers - s₀.available ∧
      s.queue.length = s₀.available - s₀.takers := by
  obtain ⟨htakers, havailable, hnone⟩ := h.inv.waiters_of_stuck hstuck
  have hbalanced := h.balanced
  rw [Balanced, htakers, havailable] at hbalanced
  exact ⟨h.inv.of_stuck hstuck, by omega, by omega⟩

/-- All threads are idle. -/
def Idle (s : ProducerConsumerQueue ι α) : Prop := ∀ t, s.pc t = .idle

theorem Idle.stuck (h : Idle s) : (machine ι α).Stuck forced s := by
  intro a ha s' hnext
  have hnone : next s a = .blocked := by
    cases a with
    | push | pop | spurious => cases ha
    | step t => simp [next, stepThread, h t]
    | notify t target => simp [next, h t]
  cases hnone.symm.trans hnext

/-- **The calls that are under way return**, up to those that wait for want of an item. -/
theorem calls_return (h : (machine ι α).Reach s) :
    (∀ as s', (machine ι α).runIf going s as = some s' →
      as.length ≤ s.work + 4 * as.countP Label.isSpurious ∧
      ((machine ι α).Stuck forced s' →
        (∀ t, s'.pc t = .idle ∨ s'.pc t = .blocked) ∧ s'.waiters = s.takers - s.available ∧
          s'.queue.length = s.available - s.takers)) ∧
    ((∃ as s', (machine ι α).runIf going s as = some s' ∧ Idle s') ↔ s.takers ≤ s.available) := by
  have hruns : Runs s s := ⟨inv_reach h, rfl⟩
  have hend : ∀ as s', (machine ι α).runIf going s as = some s' → Runs s s' := by
    intro as s' has
    exact Machine.runIf_invariant (fun s a s' hs ha hnext => (Runs.step s a s' hs ha hnext).1)
      hruns has
  refine ⟨fun as s' has => ⟨?_, (hend as s' has).end⟩,
    fun ⟨as, s', has, hidle⟩ => ?_, fun hle => ?_⟩
  · have hlength := Machine.runIf_length_le_add Runs.step hruns has
    omega
  · obtain ⟨-, hwaiters, -⟩ := (hend as s' has).end hidle.stuck
    have hzero : s'.waiters = 0 := Finset.sum_eq_zero fun t _ => by rw [hidle t]; rfl
    omega
  · obtain ⟨as, s', has, hstuck⟩ := Machine.exists_runIf_stuck Runs.force hruns
    have has' : (machine ι α).runIf going s as = some s' := Machine.runIf_mono
      (fun s a ha => (Bool.and_eq_true_iff.1 ha).1) has
    obtain ⟨hpc, hwaiters, -⟩ := (hend as s' has').end hstuck
    refine ⟨as, s', has', fun t => (hpc t).resolve_right fun ht => ?_⟩
    have hpos := le_sum (fun pc : Pc α => pc.isBlocked.toNat) s'.pc (Finset.mem_univ t)
    change (s'.pc t).isBlocked.toNat ≤ s'.waiters at hpos
    rw [ht, hwaiters, Nat.sub_eq_zero_of_le hle] at hpos
    cases hpos

end

/-- Two consumers wait, two items have been pushed, and one notification is still owed. -/
theorem calls_return_samplePushes :
    ∃ s, (machine (Fin 3) ℕ).run init samplePushes = some s ∧ s.pc 1 = .blocked ∧
      ∃ as s', (machine (Fin 3) ℕ).runIf going s as = some s' ∧ Idle s' := by
  obtain ⟨s, hs, h1, hle⟩ : ∃ s, (machine (Fin 3) ℕ).run init samplePushes = some s ∧
      s.pc 1 = .blocked ∧ s.takers ≤ s.available := ⟨_, rfl, rfl, by decide⟩
  have h : (machine (Fin 3) ℕ).Reach s := Machine.reach_of_run .init hs
  exact ⟨s, hs, h1, (calls_return h).2.2 hle⟩

end SseExt.ProducerConsumerQueue
