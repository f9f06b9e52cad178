import SseExt.Lib.Transition
import SseExt.StringCache.Pool

/-!
# The string cache under threads

Each thread runs operations on objects that only it modifies. An operation is cut into the atomic
steps of the code: the `fetch_sub` of `dec_refcount`, the `fetch_add` of `inc_refcount`, taking
the pool lock, the insert, the second look at the counter, the erase, and the unlock. Between two
steps of one thread any other thread may move.

`try_release<true>` drops the counter to zero *before* it takes the lock. Until then another
thread may insert the same text, revive the entry, drop it again and erase it; the first thread
then reads the counter of an erased entry (`stale_read`). This takes an erase of an entry some
thread still waits to look at. `no_fault` shows that nothing else goes wrong: in a run that never
erases such an entry, no thread ever reads or erases an erased entry and no `HALT` is reached.
`erase_waiting_faults` is the converse: any such erase can be continued into a stale read.
-/

namespace SseExt

/-- A thread. -/
abbrev Tid := ℕ

/-- What an operation does to its object once `try_release<true>` is over. -/
inductive After where
  | destroy
  | clear
  | copyFrom (src : Obj)
  | moveFrom (src : Obj)

/-- Where a thread stands. An object whose reference was given up is carried by its thread. -/
inductive Pc where
  | idle
  /-- `try_release<true>` is over. -/
  | finish (o : Obj) (k : After)
  /-- `dec_refcount` on `r` returned 1; about to take the lock. -/
  | wantLock (o : Obj) (r : Ref) (k : After)
  /-- About to look at the counter of `r` again. -/
  | test (o : Obj) (r : Ref) (k : After)
  /-- The counter was zero; about to erase `r`. -/
  | erase (o : Obj) (r : Ref) (k : After)
  | unlock (o : Obj) (k : After)
  /-- `set_impl`: about to take the lock. -/
  | setLock (o : Obj) (value : Bytes)
  | setInsert (o : Obj) (value : Bytes)
  /-- `assign_ref<false>`: the insert returned `r`. -/
  | setDec (o : Obj) (r : Ref)
  /-- `try_release<false>`: `dec_refcount` on `old` returned 1; about to erase it. -/
  | setErase (o : Obj) (old r : Ref)
  | setAcquire (o : Obj) (r : Ref)
  | setUnlock

/-- The pool, its lock, the objects at rest and the threads. -/
structure Threads where
  pool : DataPool
  objs : Handles Obj Ref
  lock : Option Tid
  pc : Tid → Pc

/-- What a thread may do: begin an operation when idle, or take the next step of the one it is
in. `release` begins a destruction, `clear` or a copy or move assignment. -/
inductive Cmd where
  | construct (o : Obj)
  | constructFrom (o : Obj) (value : Bytes)
  | copy (o src : Obj)
  | moveCtor (o src : Obj)
  | assign (o : Obj) (value : Bytes)
  | release (o : Obj) (k : After)
  | next

namespace Threads

def init : Threads := ⟨DataPool.init, ⟨∅, fun _ => 0⟩, none, fun _ => .idle⟩

/-- Thread `t` moves on to `pc`. -/
def goto (s : Threads) (t : Tid) (pc : Pc) : Threads := { s with pc := Function.update s.pc t pc }

/-- `m_ref = r; try_acquire()` on the object carried by thread `t`. -/
def acquire (s : Threads) (t : Tid) (o : Obj) (r : Ref) (pc : Pc) : Outcome Threads Fault :=
  if r ≠ s.pool.icaseEmpty then
    match s.pool.incRefcount r with
    | .error f => .fault f
    | .ok pool => .step { s.goto t pc with pool, objs := s.objs.set o r }
  else .step { s.goto t pc with objs := s.objs.set o r }

/-- `m_ref = src.m_ref; src.m_ref = get_empty()` -/
def steal (s : Threads) (t : Tid) (o src : Obj) : Outcome Threads Fault :=
  .step { s.goto t .idle with
    objs := (s.objs.set o (s.objs.ref src)).set src s.pool.icaseEmpty }

/-- The `fetch_sub` of either `try_release`, taken when the reference is not the empty one;
`last` is where the thread goes when it returned 1. -/
def giveUp (s : Threads) (t : Tid) (o : Obj) (last other : Pc) : Outcome Threads Fault :=
  if s.objs.ref o ≠ s.pool.icaseEmpty then
    match s.pool.decRefcount (s.objs.ref o) with
    | .error f => .fault f
    | .ok (count, pool) =>
      .step { s.goto t (if count ≠ 1 then other else last) with pool, objs := s.objs.drop o }
  else .step { s.goto t other with objs := s.objs.drop o }

/-- `data_pool::release`, with the lock held. -/
def eraseEntry (s : Threads) (t : Tid) (r : Ref) (pc : Pc) : Outcome Threads Fault :=
  match s.pool.release r with
  | .error f => .fault f
  | .ok pool => .step { s.goto t pc with pool }

/-- Take the lock if it is free. -/
def takeLock (s : Threads) (t : Tid) (pc : Pc) : Outcome Threads Fault :=
  if s.lock = none then .step { s.goto t pc with lock := some t } else .blocked

/-- A copy or move assignment from another object at rest; a move also needs to own it. -/
def After.Fits (owner : Obj → Tid) (s : Threads) (t : Tid) (o : Obj) : After → Prop
  | .destroy | .clear => True
  | .copyFrom src => src ≠ o ∧ src ∈ s.objs.live
  | .moveFrom src => src ≠ o ∧ src ∈ s.objs.live ∧ owner src = t

instance (owner : Obj → Tid) (s : Threads) (t : Tid) (o : Obj) (k : After) :
    Decidable (After.Fits owner s t o k) := by
  cases k <;> unfold After.Fits <;> infer_instance

/-- The steps of thread `t`, when `owner` says which thread modifies which object. -/
def step (owner : Obj → Tid) (s : Threads) (a : Tid × Cmd) : Outcome Threads Fault :=
  let t := a.1
  match s.pc t, a.2 with
  | .idle, .construct o =>
    if owner o = t ∧ o ∉ s.objs.live then
      .step { s.goto t .idle with objs := s.objs.set o s.pool.icaseEmpty }
    else .blocked
  | .idle, .constructFrom o value =>
    if owner o = t ∧ o ∉ s.objs.live then
      .step { s.goto t (.setLock o value) with objs := s.objs.set o s.pool.icaseEmpty }
    else .blocked
  | .idle, .copy o src =>
    if owner o = t ∧ o ∉ s.objs.live ∧ src ∈ s.objs.live then s.acquire t o (s.objs.ref src) .idle
    else .blocked
  | .idle, .moveCtor o src =>
    if owner o = t ∧ owner src = t ∧ o ∉ s.objs.live ∧ src ∈ s.objs.live then s.steal t o src
    else .blocked
  | .idle, .assign o value =>
    if owner o = t ∧ o ∈ s.objs.live then .step (s.goto t (.setLock o value)) else .blocked
  | .idle, .release o k =>
    if owner o = t ∧ o ∈ s.objs.live ∧ After.Fits owner s t o k then
      s.giveUp t o (.wantLock o (s.objs.ref o) k) (.finish o k)
    else .blocked
  | .finish _ .destroy, .next => .step (s.goto t .idle)
  | .finish o .clear, .next =>
    .step { s.goto t .idle with objs := s.objs.set o s.pool.icaseEmpty }
  | .finish o (.copyFrom src), .next =>
    if src ∈ s.objs.live then s.acquire t o (s.objs.ref src) .idle else .blocked
  | .finish o (.moveFrom src), .next =>
    if src ∈ s.objs.live ∧ owner src = t then s.steal t o src else .blocked
  | .wantLock o r k, .next => s.takeLock t (.test o r k)
  | .test o r k, .next =>
    match s.pool.useCount r with
    | .error f => .fault f
    | .ok count => .step (s.goto t (if count = 0 then .erase o r k else .unlock o k))
  | .erase o r k, .next => s.eraseEntry t r (.unlock o k)
  | .unlock o k, .next => .step { s.goto t (.finish o k) with lock := none }
  | .setLock o value, .next => s.takeLock t (.setInsert o value)
  | .setInsert o value, .next =>
    let (pool, r) := s.pool.insert (computeHash value) value
    .step { s.goto t (.setDec o r) with pool }
  | .setDec o r, .next =>
    if r ≠ s.objs.ref o then s.giveUp t o (.setErase o (s.objs.ref o) r) (.setAcquire o r)
    else .step (s.goto t .setUnlock)
  | .setErase o old r, .next => s.eraseEntry t old (.setAcquire o r)
  | .setAcquire o r, .next => s.acquire t o r .setUnlock
  | .setUnlock, .next => .step { s.goto t .idle with lock := none }
  | _, _ => .blocked

/-- All threads together. -/
def machine (owner : Obj → Tid) : Machine Threads (Tid × Cmd) Fault := ⟨init, step owner⟩

/-! ## The defect -/

/-- Thread 0 builds object 0 from `"a"` and gives up its reference; before it takes the lock,
thread 1 builds and destroys object 1 from the same text. -/
def reviveAndKill : List (Tid × Cmd) :=
  [(0, .constructFrom 0 [0x61]), (0, .next), (0, .next), (0, .next), (0, .next), (0, .next),
   (0, .release 0 .destroy),
   (1, .constructFrom 1 [0x61]), (1, .next), (1, .next), (1, .next), (1, .next), (1, .next),
   (1, .release 1 .destroy), (1, .next), (1, .next), (1, .next), (1, .next),
   (0, .next)]

/-- Thread 0 now looks at the counter of an erased entry. -/
theorem stale_read : ∃ s, (machine id).Reach s ∧ step id s (0, .next) = .fault .dangling := by
  have h : ∃ s, (machine id).run init reviveAndKill = some s ∧
      step id s (0, .next) = .fault .dangling := ⟨_, rfl, rfl⟩
  obtain ⟨s, hs, hf⟩ := h
  exact ⟨s, Machine.reach_of_run .init hs, hf⟩

end Threads

/-! ## The invariant -/

/-- The program points inside a critical section. -/
def Pc.holdsLock : Pc → Bool
  | .test .. | .erase .. | .unlock .. | .setInsert .. | .setDec .. | .setErase .. | .setAcquire ..
  | .setUnlock => true
  | _ => false

/-- There is an entry at `r`. -/
def DataPool.Alive (p : DataPool) (r : Ref) : Prop := ∃ k, p.mData r = some k

namespace Threads

open DataPool

/-- What thread `t` knows at a program point: it owns the object in hand, the entries it is about
to touch are there, and an entry it is about to erase has no handles. -/
def PcOk (owner : Obj → Tid) (p : DataPool) (h : Handles Obj Ref) (t : Tid) : Pc → Prop
  | .idle | .setUnlock => True
  | .finish o _ | .unlock o _ => owner o = t ∧ o ∉ h.live
  | .wantLock o r _ | .test o r _ => owner o = t ∧ o ∉ h.live ∧ r ≠ p.icaseEmpty ∧ p.Alive r
  | .erase o r _ => owner o = t ∧ o ∉ h.live ∧ r ≠ p.icaseEmpty ∧ p.Alive r ∧ h.count r = 0
  | .setLock o _ | .setInsert o _ => owner o = t ∧ o ∈ h.live
  | .setDec o r => owner o = t ∧ o ∈ h.live ∧ p.Alive r
  | .setErase o old r => owner o = t ∧ o ∉ h.live ∧ old ≠ p.icaseEmpty ∧ p.Alive old ∧
      h.count old = 0 ∧ old ≠ r ∧ p.Alive r
  | .setAcquire o r => owner o = t ∧ o ∉ h.live ∧ p.Alive r

structure Inv (owner : Obj → Tid) (s : Threads) : Prop where
  counts : Counts s.pool s.objs
  locked : ∀ t, s.lock = some t ↔ (s.pc t).holdsLock
  pcOk : ∀ t, PcOk owner s.pool s.objs t (s.pc t)

/-- The entry thread `t` is about to erase. -/
def erasing (s : Threads) (t : Tid) : Option Ref :=
  match s.pc t with
  | .erase _ r _ | .setErase _ r _ => some r
  | _ => none

/-- Thread `t` waits for the lock to look at the counter of `r` again. -/
def Waits (s : Threads) (t : Tid) (r : Ref) : Prop := ∃ o k, s.pc t = .wantLock o r k

/-- The step does not erase an entry some thread still waits to look at. -/
def NoWaiter (s : Threads) (a : Tid × Cmd) : Prop :=
  ∀ r, s.erasing a.1 = some r → ∀ t, ¬ s.Waits t r

/-! ## What a step of one thread means to the others -/

/-- The effect of a step of `t`, which may erase `er`: it touches its own objects only, keeps
every other entry, and outside the critical section revives no entry. -/
structure Moves (owner : Obj → Tid) (s : Threads) (t : Tid) (er : Option Ref) (p' : DataPool)
    (h' : Handles Obj Ref) : Prop where
  empty : p'.icaseEmpty = s.pool.icaseEmpty
  objs : ∀ o, owner o ≠ t → (o ∈ h'.live ↔ o ∈ s.objs.live)
  alive : ∀ r, s.pool.Alive r → er ≠ some r → p'.Alive r
  zero : s.lock ≠ some t → ∀ r, r ≠ s.pool.icaseEmpty → s.objs.count r = 0 → h'.count r = 0

variable {owner : Obj → Tid} {s : Threads} {t : Tid} {o src : Obj} {r : Ref} {er : Option Ref}
  {p' : DataPool} {h' : Handles Obj Ref} {pc : Pc}

/-- What another thread knows survives the step. -/
theorem PcOk.frame {u : Tid} (hu : u ≠ t) (hp : PcOk owner s.pool s.objs u pc)
    (hl : pc.holdsLock → s.lock = some u) (hm : Moves owner s t er p' h')
    (her : ∀ r, er = some r → s.lock = some t ∧ ∀ o k, pc ≠ .wantLock o r k) :
    PcOk owner p' h' u pc := by
  have hown : ∀ {o}, owner o = u → (o ∈ h'.live ↔ o ∈ s.objs.live) := fun h =>
    hm.objs _ (h ▸ hu)
  -- A thread inside its critical section is not disturbed by an erase.
  have hin : pc.holdsLock → s.lock ≠ some t ∧ er = none := by
    intro h
    have hne : s.lock ≠ some t := by
      rw [hl h]; exact fun e => hu (Option.some.inj e)
    refine ⟨hne, ?_⟩
    cases er with
    | none => rfl
    | some r => exact absurd (her r rfl).1 hne
  have halive : pc.holdsLock → ∀ {r}, s.pool.Alive r → p'.Alive r := fun h r hr =>
    hm.alive r hr (by rw [(hin h).2]; exact Option.some_ne_none r ∘ Eq.symm)
  cases pc with
  | idle => trivial
  | setUnlock => trivial
  | finish o k => exact ⟨hp.1, mt (hown hp.1).1 hp.2⟩
  | unlock o k => exact ⟨hp.1, mt (hown hp.1).1 hp.2⟩
  | wantLock o r k =>
    obtain ⟨h1, h2, h3, h4⟩ := hp
    refine ⟨h1, mt (hown h1).1 h2, hm.empty ▸ h3, hm.alive r h4 fun e => ?_⟩
    exact (her r e).2 o k rfl
  | test o r k =>
    obtain ⟨h1, h2, h3, h4⟩ := hp
    exact ⟨h1, mt (hown h1).1 h2, hm.empty ▸ h3, halive rfl h4⟩
  | erase o r k =>
    obtain ⟨h1, h2, h3, h4, h5⟩ := hp
    exact ⟨h1, mt (hown h1).1 h2, hm.empty ▸ h3, halive rfl h4, hm.zero (hin rfl).1 r h3 h5⟩
  | setLock o v => exact ⟨hp.1, (hown hp.1).2 hp.2⟩
  | setInsert o v => exact ⟨hp.1, (hown hp.1).2 hp.2⟩
  | setDec o r => exact ⟨hp.1, (hown hp.1).2 hp.2.1, halive rfl hp.2.2⟩
  | setErase o old r =>
    obtain ⟨h1, h2, h3, h4, h5, h6, h7⟩ := hp
    exact ⟨h1, mt (hown h1).1 h2, hm.empty ▸ h3, halive rfl h4, hm.zero (hin rfl).1 old h3 h5, h6,
      halive rfl h7⟩
  | setAcquire o r => exact ⟨hp.1, mt (hown hp.1).1 hp.2.1, halive rfl hp.2.2⟩

/-- **Assembling a step.** The stepping thread restores the invariant for itself, `Moves` does it
for the others. -/
theorem Inv.moves (hi : Inv owner s) {lock' : Option Tid} (hm : Moves owner s t er p' h')
    (hc : Counts p' h') (hl : ∀ u ≠ t, lock' = some u ↔ s.lock = some u)
    (ht : lock' = some t ↔ pc.holdsLock) (hpc : PcOk owner p' h' t pc)
    (her : ∀ r, er = some r → s.lock = some t ∧ ∀ u, ¬ s.Waits u r) :
    Inv owner ⟨p', h', lock', Function.update s.pc t pc⟩ where
  counts := hc
  locked u := by
    by_cases hu : u = t
    · subst hu; simpa using ht
    · simpa [Function.update_of_ne hu, hl u hu] using hi.locked u
  pcOk u := by
    by_cases hu : u = t
    · subst hu; simpa using hpc
    · simp only [Function.update_of_ne hu]
      refine (hi.pcOk u).frame hu (hi.locked u).2 hm fun r hr => ⟨(her r hr).1, fun o k e => ?_⟩
      exact (her r hr).2 u ⟨o, k, e⟩

/-- `Inv.moves` for a step that erases nothing. -/
theorem Inv.moves_keep (hi : Inv owner s) {lock' : Option Tid} (hm : Moves owner s t none p' h')
    (hc : Counts p' h') (hl : ∀ u ≠ t, lock' = some u ↔ s.lock = some u)
    (ht : lock' = some t ↔ pc.holdsLock) (hpc : PcOk owner p' h' t pc) :
    Inv owner ⟨p', h', lock', Function.update s.pc t pc⟩ :=
  hi.moves hm hc hl ht hpc fun _ h => nomatch h

theorem Moves.same : Moves owner s t none s.pool s.objs :=
  ⟨rfl, fun _ _ => Iff.rfl, fun _ h _ => h, fun _ _ _ h => h⟩

/-- A step that only moves the thread. -/
theorem Inv.goto (hi : Inv owner s) (ht : s.lock = some t ↔ pc.holdsLock)
    (hpc : PcOk owner s.pool s.objs t pc) : Inv owner (s.goto t pc) :=
  hi.moves_keep .same hi.counts (fun _ _ => Iff.rfl) ht hpc

/-- An object of the thread is put on the empty entry. -/
theorem Inv.setEmpty (hi : Inv owner s) (ho : owner o = t) (hnl : o ∉ s.objs.live)
    (ht : s.lock = some t ↔ pc.holdsLock)
    (hpc : PcOk owner s.pool (s.objs.set o s.pool.icaseEmpty) t pc) :
    Inv owner { s.goto t pc with objs := s.objs.set o s.pool.icaseEmpty } := by
  refine hi.moves_keep ⟨rfl, fun q hq => ?_, fun _ h _ => h, fun _ r hr h0 => ?_⟩
    (hi.counts.setEmpty hnl) (fun _ _ => Iff.rfl) ht hpc
  · have hqo : q ≠ o := fun e => hq (e ▸ ho)
    simp [hqo]
  · rwa [Handles.count_set_of_ne hnl hr]

/-- Acquiring a live entry: inside the critical section, or one that has handles already. -/
theorem Inv.acquire (pc : Pc) (hi : Inv owner s) (ho : owner o = t) (hnl : o ∉ s.objs.live)
    (hr : s.pool.Alive r) (hz : s.lock = some t ∨ 0 < s.objs.count r)
    (ht : s.lock = some t ↔ pc.holdsLock) (hpc : ∀ p h, PcOk owner p h t pc) :
    (s.acquire t o r pc).Ensures (Inv owner) := by
  unfold Threads.acquire
  by_cases he : r = s.pool.icaseEmpty
  · subst he
    rw [if_neg (not_not.2 rfl)]
    exact hi.setEmpty ho hnl ht (hpc _ _)
  · obtain ⟨k, hk⟩ := hr
    rw [if_pos he, incRefcount_eq hk]
    refine hi.moves_keep ⟨rfl, fun q hq => ?_, fun q ⟨l, hl⟩ _ => ?_, fun hlt q hq h0 => ?_⟩
      (hi.counts.inc hnl hk he) (fun _ _ => Iff.rfl) ht (hpc _ _)
    · have hqo : q ≠ o := fun e => hq (e ▸ ho)
      simp [hqo]
    · obtain ⟨n, hn⟩ := keeps_put hk (k.refcount + 1) q l hl
      exact ⟨_, hn⟩
    · have hqr : q ≠ r := by
        intro e
        rcases hz with hz | hz
        · exact hlt hz
        · rw [← e, h0] at hz; exact absurd hz (lt_irrefl 0)
      rwa [Handles.count_set_of_ne hnl hqr]

/-- Stealing the reference of another object of the thread. -/
theorem Inv.steal (hi : Inv owner s) (ho : owner o = t) (hsrc : owner src = t)
    (hnl : o ∉ s.objs.live) (hsl : src ∈ s.objs.live) (ht : s.lock ≠ some t) :
    (s.steal t o src).Ensures (Inv owner) := by
  have hne : src ≠ o := fun e => hnl (e ▸ hsl)
  have hse : src ∉ ((s.objs.drop src).set o (s.objs.ref src)).live := by simp [hne]
  have hfin := (hi.counts.steal hsl hnl).setEmpty hse
  rw [Handles.drop_set_set] at hfin
  refine hi.moves_keep ⟨rfl, fun q hq => ?_, fun _ h _ => h, fun _ r hr h0 => ?_⟩ hfin
    (fun _ _ => Iff.rfl) (iff_of_false ht Bool.false_ne_true) trivial
  · have hqo : q ≠ o := fun e => hq (e ▸ ho)
    have hqs : q ≠ src := fun e => hq (e ▸ hsrc)
    simp [hqo, hqs]
  · rw [← Handles.drop_set_set, Handles.count_set_of_ne hse hr, Handles.count_drop_set hsl hnl]
    exact h0

/-- Giving up the reference of an object of the thread. -/
theorem Inv.giveUp {last other : Pc} (hi : Inv owner s) (ho : owner o = t) (hol : o ∈ s.objs.live)
    (hlast : s.lock = some t ↔ last.holdsLock) (hother : s.lock = some t ↔ other.holdsLock)
    (hpo : ∀ p, (∀ q, s.pool.Alive q → p.Alive q) → PcOk owner p (s.objs.drop o) t other)
    (hpl : ∀ p, p.icaseEmpty = s.pool.icaseEmpty → (∀ q, s.pool.Alive q → p.Alive q) →
      s.objs.ref o ≠ s.pool.icaseEmpty → (s.objs.drop o).count (s.objs.ref o) = 0 →
      PcOk owner p (s.objs.drop o) t last) :
    (s.giveUp t o last other).Ensures (Inv owner) := by
  have hobjs : ∀ q, owner q ≠ t → (q ∈ (s.objs.drop o).live ↔ q ∈ s.objs.live) := by
    intro q hq
    have hqo : q ≠ o := fun e => hq (e ▸ ho)
    simp [hqo]
  have hzero : ∀ r, s.objs.count r = 0 → (s.objs.drop o).count r = 0 := fun r h0 => by
    have := Handles.count_drop (r := r) hol
    omega
  unfold Threads.giveUp
  by_cases he : s.objs.ref o = s.pool.icaseEmpty
  · rw [if_neg (not_not.2 he)]
    exact hi.moves_keep ⟨rfl, hobjs, fun _ h _ => h, fun _ r _ => hzero r⟩
      (hi.counts.dropEmpty hol he) (fun _ _ => Iff.rfl) hother (hpo _ fun _ h => h)
  · obtain ⟨k, hk⟩ := hi.counts.valid o hol
    set p' := s.pool.put (s.objs.ref o) { k with refcount := k.refcount - 1 }
    have halive : ∀ q, s.pool.Alive q → p'.Alive q := fun q ⟨l, hl⟩ => by
      obtain ⟨n, hn⟩ := keeps_put hk (k.refcount - 1) q l hl
      exact ⟨_, hn⟩
    have hm : Moves owner s t none p' (s.objs.drop o) :=
      ⟨rfl, hobjs, fun q h _ => halive q h, fun _ r _ => hzero r⟩
    have hc : Counts p' (s.objs.drop o) := hi.counts.dec hol hk he
    rw [if_pos he, decRefcount_eq hk]
    change Inv owner { s.goto t (if k.refcount ≠ 1 then other else last) with
      pool := p', objs := s.objs.drop o }
    by_cases h1 : k.refcount = 1
    · have h0 : (s.objs.drop o).count (s.objs.ref o) = 0 := by
        have hcnt := hi.counts.counted hk he
        have hdrop := Handles.count_drop_self hol
        omega
      rw [if_neg (not_not.2 h1)]
      exact hi.moves_keep hm hc (fun _ _ => Iff.rfl) hlast (hpl _ rfl halive he h0)
    · rw [if_pos h1]
      exact hi.moves_keep hm hc (fun _ _ => Iff.rfl) hother (hpo _ halive)

/-- Erasing an entry without handles that nobody waits for. -/
theorem Inv.eraseEntry (pc : Pc) (hi : Inv owner s) (ht : s.lock = some t)
    (hr : r ≠ s.pool.icaseEmpty) (ha : s.pool.Alive r) (h0 : s.objs.count r = 0) (hk : pc.holdsLock)
    (hpc : ∀ p, (∀ q ≠ r, s.pool.Alive q → p.Alive q) → PcOk owner p s.objs t pc) :
    (s.eraseEntry t r pc).Ensures fun s' => (∀ u, ¬ s.Waits u r) → Inv owner s' := by
  obtain ⟨k, hkr⟩ := ha
  have halive : ∀ q ≠ r, s.pool.Alive q → (s.pool.remove r).Alive q := fun q hq ⟨l, hl⟩ =>
    ⟨l, by rw [remove_of_ne hq]; exact hl⟩
  have hm : Moves owner s t (some r) (s.pool.remove r) s.objs :=
    ⟨rfl, fun _ _ => Iff.rfl, fun q h hq => halive q (fun e => hq (e ▸ rfl)) h, fun _ _ _ h => h⟩
  unfold Threads.eraseEntry
  rw [hi.counts.wf.release_eq hkr]
  intro hw
  refine hi.moves hm (hi.counts.remove hr h0) (fun _ _ => Iff.rfl) (iff_of_true ht hk)
    (hpc _ halive) fun q hq => ⟨ht, ?_⟩
  cases hq
  exact hw

theorem Inv.takeLock (pc : Pc) (hi : Inv owner s) (hk : pc.holdsLock)
    (hpc : PcOk owner s.pool s.objs t pc) : (s.takeLock t pc).Ensures (Inv owner) := by
  unfold Threads.takeLock
  split_ifs with h
  · refine hi.moves_keep .same hi.counts (fun u hu => ?_) (iff_of_true rfl hk) hpc
    rw [h]
    exact iff_of_false (fun e => hu (Option.some.inj e).symm) (Option.some_ne_none u).symm
  · trivial

/-- The end of a critical section. -/
theorem Inv.unlock (hi : Inv owner s) (ht : s.lock = some t) (hk : pc.holdsLock = false)
    (hpc : PcOk owner s.pool s.objs t pc) : Inv owner { s.goto t pc with lock := none } := by
  refine hi.moves_keep .same hi.counts (fun u hu => ?_) (by simp [hk]) hpc
  rw [ht]
  exact iff_of_false (Option.some_ne_none u).symm fun e => hu (Option.some.inj e).symm

/-! ## Every step -/

/-- `data_pool::insert`, with the lock held. -/
theorem Inv.insert {value : Bytes} (hi : Inv owner s) (hk : pc.holdsLock) (ht : s.lock = some t)
    (hpc : PcOk owner (s.pool.insert (computeHash value) value).1 s.objs t pc) :
    Inv owner { s.goto t pc with pool := (s.pool.insert (computeHash value) value).1 } := by
  obtain ⟨-, hempty, -, hcase⟩ := hi.counts.wf.insert value
  refine hi.moves_keep ⟨hempty, fun _ _ => Iff.rfl, fun q ⟨l, hl⟩ _ => ?_, fun _ _ _ h => h⟩
    (hi.counts.insert value) (fun _ _ => Iff.rfl) (iff_of_true ht hk) hpc
  rcases hcase with hsame | ⟨hnone, -, hother⟩
  · exact ⟨l, by rw [hsame]; exact hl⟩
  · have hne : q ≠ (s.pool.insert (computeHash value) value).2 := by
      intro e
      rw [e, hnone] at hl
      cases hl
    exact ⟨l, by rw [hother q hne]; exact hl⟩

theorem inv_init : Inv owner init where
  counts := .init
  locked _ := iff_of_false (Option.some_ne_none _).symm Bool.false_ne_true
  pcOk _ := trivial

/-- **One step.** It does not go wrong, and if it erases no entry that some thread still waits to
look at, it keeps the invariant. -/
theorem step_ensures (hi : Inv owner s) (a : Tid × Cmd) :
    (step owner s a).Ensures fun s' => s.NoWaiter a → Inv owner s' := by
  obtain ⟨t, c⟩ := a
  have hp := hi.pcOk t
  have hl := hi.locked t
  have hcount : ∀ {q}, q ∈ s.objs.live → 0 < s.objs.count (s.objs.ref q) := Handles.count_pos
  unfold step
  dsimp only
  split <;> rename_i hs <;> try rw [hs] at hp hl
  · rename_i o
    exact .guard fun ⟨ho, hn⟩ _ => hi.setEmpty ho hn hl trivial
  · rename_i o value
    exact .guard fun ⟨ho, hn⟩ _ => hi.setEmpty ho hn hl ⟨ho, by simp⟩
  · rename_i o src
    refine .guard fun ⟨ho, hn, hsrc⟩ => .mono ?_ fun _ h _ => h
    exact hi.acquire .idle ho hn (hi.counts.valid src hsrc) (Or.inr (hcount hsrc)) hl
      fun _ _ => trivial
  · rename_i o src
    refine .guard fun ⟨ho, hos, hn, hsrc⟩ => .mono ?_ fun _ h _ => h
    exact hi.steal ho hos hn hsrc (mt hl.1 Bool.false_ne_true)
  · rename_i o value
    exact .guard fun h _ => hi.goto hl h
  · rename_i o k
    refine .guard fun ⟨ho, hlive, _⟩ => .mono ?_ fun _ h _ => h
    refine hi.giveUp ho hlive hl hl (fun p _ => ⟨ho, by simp⟩) fun p he ha hne _ => ?_
    exact ⟨ho, by simp, he ▸ hne, ha _ (hi.counts.valid o hlive)⟩
  · exact fun _ => hi.goto hl trivial
  · exact fun _ => hi.setEmpty hp.1 hp.2 hl trivial
  · rename_i o src
    refine .guard fun hsrc => .mono ?_ fun _ h _ => h
    exact hi.acquire .idle hp.1 hp.2 (hi.counts.valid src hsrc) (Or.inr (hcount hsrc)) hl
      fun _ _ => trivial
  · rename_i o src
    refine .guard fun ⟨hsrc, hos⟩ => .mono ?_ fun _ h _ => h
    exact hi.steal hp.1 hos hp.2 hsrc (mt hl.1 Bool.false_ne_true)
  · rename_i o r k
    exact (hi.takeLock (.test o r k) rfl hp).mono fun _ h _ => h
  · rename_i o r k
    obtain ⟨ho, hn, hr, l, hk⟩ := hp
    rw [useCount_eq hk]
    intro _
    refine hi.goto ?_ ?_
    · split_ifs <;> exact hl
    · split_ifs with h0
      · exact ⟨ho, hn, hr, ⟨l, hk⟩, by rw [← hi.counts.counted hk hr]; exact h0⟩
      · exact ⟨ho, hn⟩
  · rename_i o r k
    obtain ⟨ho, hn, hr, ha, h0⟩ := hp
    have herase := hi.eraseEntry (.unlock o k) (hl.2 rfl) hr ha h0 rfl fun _ _ => ⟨ho, hn⟩
    exact herase.mono fun _ h hw => h (hw r (by simp [erasing, hs]))
  · exact fun _ => hi.unlock (hl.2 rfl) rfl hp
  · rename_i o value
    exact (hi.takeLock (.setInsert o value) rfl hp).mono fun _ h _ => h
  · rename_i o value
    obtain ⟨-, -, ⟨l, hk, -⟩, -⟩ := hi.counts.wf.insert value
    exact fun _ => hi.insert rfl (hl.2 rfl) ⟨hp.1, hp.2, l, hk⟩
  · rename_i o r
    obtain ⟨ho, hlive, ha⟩ := hp
    split_ifs with hne
    · refine .mono ?_ fun _ h _ => h
      refine hi.giveUp ho hlive hl hl (fun p hp => ⟨ho, by simp, hp r ha⟩) fun p he hp hr h0 => ?_
      exact ⟨ho, by simp, he ▸ hr, hp _ (hi.counts.valid o hlive), h0, hne.symm, hp r ha⟩
    · exact fun _ => hi.goto hl trivial
  · rename_i o old r
    obtain ⟨ho, hn, hr, ha, h0, hne, ha'⟩ := hp
    have herase := hi.eraseEntry (.setAcquire o r) (hl.2 rfl) hr ha h0 rfl
      fun p hp => ⟨ho, hn, hp r hne.symm ha'⟩
    exact herase.mono fun _ h hw => h (hw old (by simp [erasing, hs]))
  · rename_i o r
    obtain ⟨ho, hn, ha⟩ := hp
    have hacquired := hi.acquire .setUnlock ho hn ha (Or.inl (hl.2 rfl)) hl fun _ _ => trivial
    exact hacquired.mono fun _ h _ => h
  · exact fun _ => hi.unlock (hl.2 rfl) rfl trivial
  · trivial

/-- **Safety.** While no step erases an entry that some thread still waits to look at, no thread
ever reads or erases an erased entry, and the `HALT` is not reached. -/
theorem no_fault {s : Threads} (h : (machine owner).ReachIf NoWaiter s) (a : Tid × Cmd)
    (f : Fault) : step owner s a ≠ .fault f :=
  have hi : Inv owner s := h.invariant (I := Inv owner) inv_init fun _ a hi => step_ensures hi a
  (step_ensures hi a).ne_fault f

/-- Thread 1 revives the entry while thread 0 waits to look at it, and keeps its object: thread 0
then finds the counter at one. -/
theorem no_fault_revived : ∃ s, (machine id).run init
      (reviveAndKill.take 13 ++ [(0, .next)]) = some s ∧ ∀ f, step id s (0, .next) ≠ .fault f := by
  have h : ∃ s, (machine id).runIf (fun s a => (s.erasing a.1).isNone) init
      (reviveAndKill.take 13 ++ [(0, .next)]) = some s := ⟨_, rfl⟩
  obtain ⟨s, hs⟩ := h
  have hreach : (machine id).ReachIf NoWaiter s :=
    Machine.reachIf_of_runIf (fun s a hb r hr => by rw [hr] at hb; cases hb) .init hs
  exact ⟨s, by cases hs; rfl, no_fault hreach (0, .next)⟩

/-! ## The condition is sharp -/

/-- A thread that waits for the lock to look at an erased entry reads it. -/
theorem reads_erased {u : Tid} {o' : Obj} {k : After} (hs : (machine owner).Reach s)
    (hl : s.lock = none) (hu : s.pc u = .wantLock o' r k) (hr : s.pool.mData r = none) :
    ∃ s', (machine owner).Reach s' ∧ step owner s' (u, .next) = .fault .dangling := by
  refine ⟨{ s.goto u (.test o' r k) with lock := some u },
    .step (a := (u, .next)) hs trivial ?_, ?_⟩
  · change step owner s (u, .next) = _
    simp [step, hu, takeLock, hl]
  · simp [step, Threads.goto, useCount, hr]

/-- Acquiring an entry brings no erased one back. -/
theorem acquire_eq (s : Threads) (t : Tid) (o : Obj) (pc : Pc) (hr : s.pool.Alive r) :
    ∃ p', s.acquire t o r pc = .step { s.goto t pc with pool := p', objs := s.objs.set o r } ∧
      ∀ q, s.pool.mData q = none → p'.mData q = none := by
  obtain ⟨k, hk⟩ := hr
  unfold Threads.acquire
  split_ifs with he
  · rw [incRefcount_eq hk]
    refine ⟨_, rfl, fun q hq => ?_⟩
    have hqr : q ≠ r := by rintro rfl; rw [hk] at hq; cases hq
    rw [put_of_ne hqr]
    exact hq
  · exact ⟨s.pool, rfl, fun _ h => h⟩

/-- **Sharpness.** A run that erases an entry some thread waits to look at can be continued into
a read of the erased entry. -/
theorem erase_waiting_faults {s : Threads} {t u : Tid} {r : Ref}
    (h : (machine owner).ReachIf NoWaiter s) (her : s.erasing t = some r) (hw : s.Waits u r) :
    ∃ s', (machine owner).Reach s' ∧ step owner s' (u, .next) = .fault .dangling := by
  have hi : Inv owner s := h.invariant (I := Inv owner) inv_init fun _ a hi => step_ensures hi a
  obtain ⟨o', k', hu⟩ := hw
  have hut : u ≠ t := by
    rintro rfl
    simp [erasing, hu] at her
  have hp := hi.pcOk t
  unfold erasing at her
  split at her <;> cases her <;> rename_i hs <;> rw [hs] at hp
  · rename_i o k
    obtain ⟨-, -, -, ⟨l, hk⟩, -⟩ := hp
    let s₁ : Threads := { s.goto t (.unlock o k) with pool := s.pool.remove r }
    let s₂ : Threads := { s₁.goto t (.finish o k) with lock := none }
    have h₁ : step owner s (t, .next) = .step s₁ := by
      simp [step, hs, eraseEntry, hi.counts.wf.release_eq hk, s₁]
    have h₂ : step owner s₁ (t, .next) = .step s₂ := by simp [step, s₁, s₂, Threads.goto]
    have hu₂ : s₂.pc u = .wantLock o' r k' := by simpa [s₂, s₁, Threads.goto, hut] using hu
    exact reads_erased (.step (.step h.reach trivial h₁) trivial h₂) rfl hu₂ remove_self
  · rename_i o r'
    obtain ⟨-, -, -, ⟨l, hk⟩, -, hne, l', hk'⟩ := hp
    let s₁ : Threads := { s.goto t (.setAcquire o r') with pool := s.pool.remove r }
    have h₁ : step owner s (t, .next) = .step s₁ := by
      simp [step, hs, eraseEntry, hi.counts.wf.release_eq hk, s₁]
    obtain ⟨p', hacq, hnone⟩ := acquire_eq s₁ t o .setUnlock ⟨l', (remove_of_ne hne.symm).trans hk'⟩
    let s₂ : Threads := { s₁.goto t .setUnlock with pool := p', objs := s₁.objs.set o r' }
    have h₂ : step owner s₁ (t, .next) = .step s₂ := by
      simp only [step, s₁, Threads.goto, Function.update_self]
      exact hacq
    let s₃ : Threads := { s₂.goto t .idle with lock := none }
    have h₃ : step owner s₂ (t, .next) = .step s₃ := by simp [step, s₂, s₃, Threads.goto]
    have hreach : (machine owner).Reach s₃ :=
      .step (.step (.step h.reach trivial h₁) trivial h₂) trivial h₃
    have hu₃ : s₃.pc u = .wantLock o' r k' := by simpa [s₃, s₂, s₁, Threads.goto, hut] using hu
    exact reads_erased hreach rfl hu₃ (hnone r remove_self)

end Threads

end SseExt
