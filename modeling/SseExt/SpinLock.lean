import SseExt.Lib.Threads
import SseExt.Lib.Trace

/-!
# `FastSpinLock`

`lock()` is a loop of two `test_and_set` with a pause between them; `unlock()` clears the flag,
whoever calls it. The threads that have got the lock and not given it back are recorded beside the
flag.

**Theorem (`trace_iff`).** As long as nobody unlocks for another thread, the sequences in which the
lock is got and given back are exactly those of an ideal lock with one owner. An `unlock()` of a
lock that nobody holds does nothing, and is safe too.

**Theorem (`excludes_iff`).** An `unlock()` by a thread that does not hold the lock is harmless
exactly when nobody does; otherwise there can be two holders from then on.

**Theorem (`relock_forever`).** The lock is not reentrant: once a thread that holds it is in
`lock()`, it stays there and the lock is neither got nor given back again.
-/

namespace SseExt

/-! ## An ideal lock -/

namespace Lock

inductive Label (ι : Type*) where
  | acquire (t : ι)
  | release (t : ι)

variable {ι : Type*} [DecidableEq ι]

/-- A free lock is given to whoever comes, and taken back from its owner. -/
def next : Option ι → Label ι → Outcome (Option ι) Empty
  | none, .acquire t => .step (some t)
  | some u, .release t => if u = t then .step none else .blocked
  | _, _ => .blocked

variable (ι) in
def machine : Machine (Option ι) (Label ι) Empty := ⟨none, next⟩

theorem next_acquire (t : ι) : next none (.acquire t) = .step (some t) := rfl

theorem next_release (t : ι) : next (some t) (.release t) = .step none := if_pos rfl

end Lock

/-! ## The spin lock -/

/-- Where a thread is in `lock()`: at the condition of the loop, at `_mm_pause()`, at the second
`try_lock()`, or at `SwitchToThread()`. -/
inductive FastSpinLock.Spin where
  | test
  | pause
  | again
  | yield

/-- The flag, the threads in `lock()`, and the threads that hold the lock. -/
structure FastSpinLock (ι : Type*) where
  flag : Bool
  spin : ι → Option FastSpinLock.Spin
  holds : ι → Bool

namespace FastSpinLock

/-- A thread calls one of the functions, or takes the next step of `lock()`. -/
inductive Label (ι : Type*) where
  | lock (t : ι)
  | tryLock (t : ι)
  | unlock (t : ι)
  | step (t : ι)

section

variable {ι : Type*} [DecidableEq ι]

def init : FastSpinLock ι := ⟨false, fun _ => none, fun _ => false⟩

/-- The thread goes to `x`. -/
def goto (s : FastSpinLock ι) (t : ι) (x : Option Spin) : FastSpinLock ι :=
  { s with spin := Function.update s.spin t x }

/-- `test_and_set`: the thread has the lock if the flag was clear, and goes to `x` otherwise. -/
def tryLock (s : FastSpinLock ι) (t : ι) (x : Option Spin) : FastSpinLock ι :=
  if s.flag then s.goto t x
  else { s.goto t none with flag := true, holds := Function.update s.holds t true }

def unlock (s : FastSpinLock ι) (t : ι) : FastSpinLock ι :=
  { s with flag := false, holds := Function.update s.holds t false }

/-- A step of `lock()`. -/
def advance (s : FastSpinLock ι) (t : ι) : Spin → FastSpinLock ι
  | .test => s.tryLock t (some .pause)
  | .pause => s.goto t (some .again)
  | .again => s.tryLock t (some .yield)
  | .yield => s.goto t (some .test)

def next (s : FastSpinLock ι) : Label ι → Outcome (FastSpinLock ι) Empty
  | .lock t => if s.spin t = none then .step (s.goto t (some .test)) else .blocked
  | .tryLock t => if s.spin t = none then .step (s.tryLock t none) else .blocked
  | .unlock t => if s.spin t = none then .step (s.unlock t) else .blocked
  | .step t =>
    match s.spin t with
    | some x => .step (s.advance t x)
    | none => .blocked

variable (ι) in
def machine : Machine (FastSpinLock ι) (Label ι) Empty := ⟨init, next⟩

/-- The thread holds the lock that it unlocks, or nobody holds it. -/
def safe (s : FastSpinLock ι) : Label ι → Bool
  | .unlock t => s.holds t || !s.flag
  | _ => true

/-- What a call of `try_lock()` shows. -/
def got (s : FastSpinLock ι) (t : ι) : Option (Lock.Label ι) :=
  if s.flag then none else some (.acquire t)

/-- The lock is got or given back in a step. -/
def emits (s : FastSpinLock ι) : Label ι → Option (Lock.Label ι)
  | .lock _ => none
  | .tryLock t => s.got t
  | .unlock t => if s.holds t then some (.release t) else none
  | .step t =>
    match s.spin t with
    | some .test => s.got t
    | some .again => s.got t
    | _ => none

/-- At most one thread holds the lock. -/
def Exclusive (s : FastSpinLock ι) : Prop :=
  ∀ t u, s.holds t = true → s.holds u = true → t = u

/-- The lock is what the ideal lock with owner `o` would be. -/
structure Stands (s : FastSpinLock ι) (o : Option ι) : Prop where
  flag : s.flag = o.isSome
  holder : Held o id s.holds

/-! ## Steps -/

variable {s s' : FastSpinLock ι} {t u : ι} {a : Label ι} {o : Option ι} {x : Option Spin}
  {as : List (Label ι)}

theorem tryLock_set (h : s.flag = true) (t : ι) (x : Option Spin) : s.tryLock t x = s.goto t x :=
  if_pos h

theorem tryLock_clear (h : s.flag = false) (t : ι) (x : Option Spin) :
    s.tryLock t x =
      { s.goto t none with flag := true, holds := Function.update s.holds t true } := by
  rw [tryLock, h]
  rfl

omit [DecidableEq ι] in
theorem got_set (h : s.flag = true) (t : ι) : s.got t = none := if_pos h

omit [DecidableEq ι] in
theorem got_clear (h : s.flag = false) (t : ι) : s.got t = some (.acquire t) := by
  rw [got, h]
  rfl

/-- **The steps**: a move inside `lock()` or into it, a `try_lock()`, or an `unlock()`. -/
theorem next_cases (h : s.next a = .step s') :
    (∃ t x, s' = s.goto t x ∧ s.emits a = none) ∨
    (∃ t x, s' = s.tryLock t x ∧ s.emits a = s.got t) ∨
    ∃ t, a = .unlock t ∧ s.spin t = none ∧ s' = s.unlock t := by
  cases a with
  | lock t =>
    simp only [next] at h
    split_ifs at h
    cases h
    exact .inl ⟨t, some .test, rfl, rfl⟩
  | tryLock t =>
    simp only [next] at h
    split_ifs at h
    cases h
    exact .inr (.inl ⟨t, none, rfl, rfl⟩)
  | unlock t =>
    simp only [next] at h
    split_ifs at h with hspin
    cases h
    exact .inr (.inr ⟨t, rfl, hspin, rfl⟩)
  | step t =>
    cases hspin : s.spin t with
    | none => simp only [next, hspin, reduceCtorEq] at h
    | some x =>
      simp only [next, hspin, Outcome.step.injEq] at h
      subst h
      cases x with
      | test => exact .inr (.inl ⟨t, some .pause, rfl, by simp only [emits, hspin]⟩)
      | pause => exact .inl ⟨t, some .again, rfl, by simp only [emits, hspin]⟩
      | again => exact .inr (.inl ⟨t, some .yield, rfl, by simp only [emits, hspin]⟩)
      | yield => exact .inl ⟨t, some .test, rfl, by simp only [emits, hspin]⟩

/-! ## The ideal lock behind it -/

omit [DecidableEq ι] in
theorem stands_init : (init : FastSpinLock ι).Stands none where
  flag := rfl
  holder t := by simp [init]

omit [DecidableEq ι] in
theorem Stands.exclusive (h : s.Stands o) : s.Exclusive := fun _ _ ht hu => h.holder.unique ht hu

theorem Stands.goto (h : s.Stands o) (t : ι) (x : Option Spin) : (s.goto t x).Stands o where
  flag := h.flag
  holder := h.holder

/-- A `try_lock()` gets the lock from the ideal lock, if that is free. -/
theorem Stands.tryLock (h : s.Stands o) (t : ι) (x : Option Spin) :
    ∃ o', (Lock.machine ι).Follows o (s.got t) o' ∧ (s.tryLock t x).Stands o' := by
  cases o with
  | none =>
    have hflag : s.flag = false := h.flag
    refine ⟨some t, ?_, ?_⟩
    · rw [got_clear hflag]
      exact Lock.next_acquire t
    · rw [tryLock_clear hflag]
      exact ⟨rfl, h.holder.enter rfl⟩
  | some u =>
    have hflag : s.flag = true := h.flag
    refine ⟨some u, ?_, ?_⟩
    · rw [got_set hflag]
      rfl
    · rw [tryLock_set hflag]
      exact h.goto t x

/-- A safe `unlock()` gives the lock back to the ideal lock, or changes nothing. -/
theorem Stands.unlock (h : s.Stands o) (hsafe : s.safe (.unlock t) = true) :
    ∃ o', (Lock.machine ι).Follows o (s.emits (.unlock t)) o' ∧ (s.unlock t).Stands o' := by
  cases ht : s.holds t with
  | true =>
    have ho : o = some t := (h.holder t).1 ht
    subst ho
    refine ⟨none, ?_, rfl, h.holder.leave ht rfl⟩
    simp only [emits, ht, if_true]
    exact Lock.next_release t
  | false =>
    have hflag : s.flag = false := by simpa [safe, ht] using hsafe
    have ho : o = none := by
      have hsome := h.flag
      rw [hflag] at hsome
      exact Option.isSome_eq_false_iff.1 hsome.symm |> Option.isNone_iff_eq_none.1
    subst ho
    refine ⟨none, ?_, rfl, h.holder.stay ?_⟩
    · simp only [emits, ht, Bool.false_eq_true, if_false]
      rfl
    · exact ht.symm

theorem Stands.next (h : s.Stands o) (hsafe : s.safe a = true) (hnext : s.next a = .step s') :
    ∃ o', (Lock.machine ι).Follows o (s.emits a) o' ∧ s'.Stands o' := by
  rcases next_cases hnext with ⟨t, x, rfl, hemits⟩ | ⟨t, x, rfl, hemits⟩ | ⟨t, rfl, -, rfl⟩
  · rw [hemits]
    exact ⟨o, rfl, h.goto t x⟩
  · rw [hemits]
    exact h.tryLock t x
  · exact h.unlock hsafe

/-- **Every safe run is a run of the ideal lock.** -/
theorem Stands.run (h : s.Stands o) (hrun : (machine ι).runIf safe s as = some s') :
    ∃ o', (Lock.machine ι).run o ((machine ι).trace emits s as) = some o' ∧ s'.Stands o' :=
  Machine.run_trace (R := Stands) (fun _ _ _ _ h hsafe hnext => h.next hsafe hnext) h hrun

/-- The lock at rest: nobody is in `lock()`. -/
def AtRest (s : FastSpinLock ι) : Prop := ∀ t, s.spin t = none

/-- A step of the ideal lock is a call that nobody disturbs. -/
def callOf : Lock.Label ι → Label ι
  | .acquire t => .tryLock t
  | .release t => .unlock t

/-- **Every step of the ideal lock is a safe step.** -/
theorem Stands.of_next (h : s.Stands o) (hrest : s.AtRest) {b : Lock.Label ι} {o' : Option ι}
    (hnext : Lock.next o b = .step o') :
    ∃ s', s.next (callOf b) = .step s' ∧ s.safe (callOf b) = true ∧ s.emits (callOf b) = some b ∧
      s'.Stands o' ∧ s'.AtRest := by
  cases b with
  | acquire t =>
    cases o with
    | some u => cases hnext
    | none =>
      cases hnext
      have hflag : s.flag = false := h.flag
      refine ⟨s.tryLock t none, if_pos (hrest t), rfl, got_clear hflag t, ?_, ?_⟩
      · rw [tryLock_clear hflag]
        exact ⟨rfl, h.holder.enter rfl⟩
      · intro u
        rw [tryLock_clear hflag]
        by_cases hu : u = t
        · simp [FastSpinLock.goto, hu]
        · simp [FastSpinLock.goto, hu, hrest u]
  | release t =>
    cases o with
    | none => cases hnext
    | some u =>
      simp only [Lock.next] at hnext
      split_ifs at hnext with hut
      cases hnext
      have ht : s.holds t = true := (h.holder t).2 (congrArg some hut)
      refine ⟨s.unlock t, if_pos (hrest t), ?_, ?_, ⟨rfl, h.holder.leave ht rfl⟩, hrest⟩
      · simp [callOf, safe, ht]
      · simp [callOf, emits, ht]

theorem Stands.of_run (h : s.Stands o) (hrest : s.AtRest) {bs : List (Lock.Label ι)}
    {o' : Option ι} (hrun : (Lock.machine ι).run o bs = some o') :
    ∃ s', (machine ι).runIf safe s (bs.map callOf) = some s' ∧
      (machine ι).trace emits s (bs.map callOf) = bs ∧ s'.Stands o' := by
  induction bs generalizing s o with
  | nil =>
    cases hrun
    exact ⟨s, rfl, rfl, h⟩
  | cons b bs ih =>
    obtain ⟨o₁, hnext, -, hbs⟩ := Machine.of_runIf_cons hrun
    obtain ⟨s₁, hstep, hsafe, hemits, h₁, hrest₁⟩ := h.of_next hrest hnext
    obtain ⟨s', hrun', htrace, h'⟩ := ih h₁ hrest₁ hbs
    refine ⟨s', ?_, ?_, h'⟩
    · rw [List.map_cons, Machine.runIf_cons hstep hsafe]
      exact hrun'
    · rw [List.map_cons, Machine.trace_cons hstep, hemits, htrace]
      rfl

/-- **The spin lock is the ideal lock.** What safe runs of the one show is what runs of the other
are. -/
theorem trace_iff (bs : List (Lock.Label ι)) :
    (∃ as s, (machine ι).runIf safe init as = some s ∧ (machine ι).trace emits init as = bs) ↔
      ∃ o, (Lock.machine ι).run none bs = some o := by
  constructor
  · intro ⟨as, s, hrun, htrace⟩
    obtain ⟨o, ho, -⟩ := stands_init.run hrun
    rw [htrace] at ho
    exact ⟨o, ho⟩
  · intro ⟨o, ho⟩
    obtain ⟨s, hrun, htrace, -⟩ := stands_init.of_run (fun _ => rfl) ho
    exact ⟨bs.map callOf, s, hrun, htrace⟩

/-! ## Calls of `unlock()` for another thread -/

/-- After an `unlock()` that is not safe, a thread can get the lock that another one holds. -/
theorem Stands.unsafe_unlock (h : s.Stands o) (hsafe : s.safe (.unlock t) = false)
    (hspin : s.spin t = none) :
    ∃ s', (s.unlock t).next (.tryLock t) = .step s' ∧ ¬ s'.Exclusive := by
  obtain ⟨ht, hflag⟩ : s.holds t = false ∧ s.flag = true := by simpa [safe] using hsafe
  obtain ⟨u, hu⟩ : ∃ u, o = some u := Option.isSome_iff_exists.1 (h.flag.symm.trans hflag)
  have hne : u ≠ t := by
    intro e
    have hut := (h.holder u).2 hu
    rw [e] at hut
    exact Bool.false_ne_true (ht.symm.trans hut)
  refine ⟨(s.unlock t).tryLock t none, if_pos hspin, ?_⟩
  intro hex
  apply hne
  apply hex
  · rw [tryLock_clear rfl]
    simpa [FastSpinLock.unlock, hne] using (h.holder u).2 hu
  · rw [tryLock_clear rfl]
    simp

/-- **What `unlock()` may be called for.** From a state that is reached by safe steps, a step is
safe exactly when at most one thread ever holds the lock in the safe runs after it. -/
theorem excludes_iff (hrun : (machine ι).runIf safe init as = some s)
    (hnext : s.next a = .step s') :
    s.safe a = true ↔
      ∀ bs s'', (machine ι).runIf safe s' bs = some s'' → s''.Exclusive := by
  obtain ⟨o, -, ho⟩ := stands_init.run hrun
  constructor
  · intro hsafe bs s'' hbs
    obtain ⟨o', -, ho'⟩ := ho.next hsafe hnext
    obtain ⟨o'', -, ho''⟩ := ho'.run hbs
    exact ho''.exclusive
  · intro hall
    cases a with
    | unlock t =>
      simp only [next] at hnext
      split_ifs at hnext with hspin
      cases hnext
      by_contra hsafe
      obtain ⟨s'', hstep, hnot⟩ := ho.unsafe_unlock (Bool.eq_false_of_not_eq_true hsafe) hspin
      exact hnot (hall [.tryLock t] s'' (by rw [Machine.runIf_cons hstep rfl]; rfl))
    | lock t => rfl
    | tryLock t => rfl
    | step t => rfl

/-- Thread 1 unlocks the lock that thread 0 has got. -/
theorem excludes_iff_stray : ∃ s s', (machine (Fin 2)).runIf safe init [.tryLock 0] = some s ∧
    s.next (.unlock 1) = .step s' ∧ s.safe (.unlock 1) = false ∧
    ¬ ∀ bs s'', (machine (Fin 2)).runIf safe s' bs = some s'' → s''.Exclusive := by
  obtain ⟨s, s', hrun, hnext, hsafe⟩ : ∃ s s',
      (machine (Fin 2)).runIf safe init [.tryLock 0] = some s ∧
      s.next (.unlock 1) = .step s' ∧ s.safe (.unlock 1) = false := ⟨_, _, rfl, rfl, rfl⟩
  refine ⟨s, s', hrun, hnext, hsafe, ?_⟩
  intro hall
  exact Bool.false_ne_true (hsafe.symm.trans ((excludes_iff hrun hnext).2 hall))

/-! ## Locking twice -/

/-- The only thread that holds the lock is in `lock()`. -/
structure Relocked (s : FastSpinLock ι) (t : ι) : Prop where
  flag : s.flag = true
  spin : s.spin t ≠ none
  holds : s.holds t = true
  only : ∀ u, s.holds u = true → u = t

theorem Relocked.goto (h : s.Relocked t) (hx : u = t → x ≠ none) : (s.goto u x).Relocked t where
  flag := h.flag
  spin := by
    by_cases hut : t = u
    · simpa [FastSpinLock.goto, hut] using hx hut.symm
    · simpa [FastSpinLock.goto, hut] using h.spin
  holds := h.holds
  only := h.only

theorem Relocked.next (h : s.Relocked t) (hsafe : s.safe a = true) (hnext : s.next a = .step s') :
    s.emits a = none ∧ s'.Relocked t := by
  have hidle : ∀ {u}, s.spin u = none → u ≠ t := by
    intro u hu e
    exact h.spin (e ▸ hu)
  cases a with
  | lock u =>
    simp only [FastSpinLock.next] at hnext
    split_ifs at hnext with hu
    cases hnext
    exact ⟨rfl, h.goto fun e => absurd e (hidle hu)⟩
  | tryLock u =>
    simp only [FastSpinLock.next] at hnext
    split_ifs at hnext with hu
    cases hnext
    rw [tryLock_set h.flag]
    exact ⟨got_set h.flag u, h.goto fun e => absurd e (hidle hu)⟩
  | unlock u =>
    simp only [FastSpinLock.next] at hnext
    split_ifs at hnext with hu
    have hholds : s.holds u = true := by simpa [safe, h.flag] using hsafe
    exact absurd (h.only u hholds) (hidle hu)
  | step u =>
    cases hu : s.spin u with
    | none => simp only [FastSpinLock.next, hu, reduceCtorEq] at hnext
    | some x =>
      simp only [FastSpinLock.next, hu, Outcome.step.injEq] at hnext
      subst hnext
      -- The flag is set: both calls of `try_lock()` fail, and the loop goes on.
      cases x with
      | test =>
        simp only [emits, hu, advance, tryLock_set h.flag]
        exact ⟨got_set h.flag u, h.goto (by simp)⟩
      | pause => exact ⟨by simp only [emits, hu], h.goto (by simp)⟩
      | again =>
        simp only [emits, hu, advance, tryLock_set h.flag]
        exact ⟨got_set h.flag u, h.goto (by simp)⟩
      | yield => exact ⟨by simp only [emits, hu], h.goto (by simp)⟩

theorem Relocked.run (h : s.Relocked t) (hrun : (machine ι).runIf safe s as = some s') :
    (machine ι).trace emits s as = [] ∧ s'.Relocked t := by
  induction as generalizing s with
  | nil =>
    cases hrun
    exact ⟨rfl, h⟩
  | cons a as ih =>
    obtain ⟨s₁, hnext, hsafe, hrest⟩ := Machine.of_runIf_cons hrun
    obtain ⟨hemits, h₁⟩ := h.next hsafe hnext
    obtain ⟨htrace, h'⟩ := ih h₁ hrest
    refine ⟨?_, h'⟩
    rw [Machine.trace_cons hnext, hemits, htrace]
    rfl

/-- **The lock is not reentrant.** When a thread that holds the lock has called `lock()`, no safe
run gets it out of there, and the lock is neither got nor given back again. -/
theorem relock_forever (hrun : (machine ι).runIf safe init as = some s) (ht : s.holds t = true)
    (hspin : s.spin t ≠ none) {bs : List (Label ι)}
    (hbs : (machine ι).runIf safe s bs = some s') :
    (machine ι).trace emits s bs = [] ∧ s'.spin t ≠ none ∧
      ∀ u, s'.holds u = true ↔ u = t := by
  obtain ⟨o, -, ho⟩ := stands_init.run hrun
  have hflag : s.flag = true := by
    rw [ho.flag, (ho.holder t).1 ht]
    rfl
  have hre : s.Relocked t := ⟨hflag, hspin, ht, fun u hu => ho.exclusive u t hu ht⟩
  obtain ⟨htrace, hre'⟩ := hre.run hbs
  refine ⟨htrace, hre'.spin, ?_⟩
  intro u
  exact ⟨hre'.only u, fun e => e ▸ hre'.holds⟩

/-- A thread gets the lock and calls `lock()`; another one comes to wait for it. -/
def relock (t u : ι) : List (Label ι) :=
  [.step t, .step t, .lock u, .step u, .step t, .step t, .step t]

theorem relock_forever_sample : ∃ s s', (machine (Fin 2)).runIf safe init
      [.tryLock 0, .lock 0] = some s ∧
    (machine (Fin 2)).runIf safe s (relock 0 1) = some s' ∧
    (machine (Fin 2)).trace emits s (relock 0 1) = [] ∧ s'.spin 0 ≠ none ∧
    ∀ u, s'.holds u = true ↔ u = 0 := by
  obtain ⟨s, s', hrun, hholds, hspin, hbs⟩ : ∃ s s', (machine (Fin 2)).runIf safe init
      [.tryLock 0, .lock 0] = some s ∧ s.holds 0 = true ∧ s.spin 0 = some .test ∧
      (machine (Fin 2)).runIf safe s (relock 0 1) = some s' := ⟨_, _, rfl, rfl, rfl, rfl⟩
  have hin : s.spin 0 ≠ none := by
    rw [hspin]
    exact nofun
  exact ⟨s, s', hrun, hbs, relock_forever hrun hholds hin hbs⟩

end

end FastSpinLock

end SseExt
