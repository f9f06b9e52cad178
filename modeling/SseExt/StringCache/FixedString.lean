import SseExt.Lib.Ends
import SseExt.StringCache.Pool

/-!
# `fixed_string`: handles on the pool, one thread

Every special member of `fixed_string` acquires, releases or steals a reference in its own way.
`step` runs one operation; an argument text may alias the pooled text of a live object.

**Theorem (`run_refInv`).** After any sequence of operations that respects object lifetimes, every
live object is on an entry of the pool, every entry but the empty one counts its objects and has
at least one, the empty entry is there with counter zero, and no two entries are equal. No
operation reads a stale pointer or reaches the `HALT`.

**Theorem (`run_ok_iff`).** A history returns if and only if it respects lifetimes
(`RespectsLifetimes`), so a run that ends with `notLive` is the caller's fault.

The invariant `Inv` says this and, for `SseExt.StringCache.Interning`, which text each object was
last built from. It is proved for `InvBut x`, which lets one entry `x` be unreferenced: `insert`
runs before the new entry is acquired, and the old one is released in between.
-/

namespace SseExt

/-- The pool and the live objects with their `m_ref`. -/
structure Cache where
  pool : DataPool
  objs : Handles Obj Ref

/-- A text argument: a text of the caller's, or the pooled text of a live object. -/
inductive TextArg where
  | text (s : Bytes)
  | pooled (src : Obj)

namespace Cache

def init : Cache := ⟨DataPool.init, ⟨∅, fun _ => 0⟩⟩

/-- `m_ref = r` -/
def setRef (s : Cache) (o : Obj) (r : Ref) : Cache := { s with objs := s.objs.set o r }

/-- `fixed_string::try_release<_Lock>` -/
def tryRelease (lock : Bool) (s : Cache) (o : Obj) : Except Fault Cache :=
  if s.objs.ref o ≠ s.pool.icaseEmpty then do
    let pool ← s.pool.tryRelease lock (s.objs.ref o)
    return { s with pool }
  else return s

/-- `fixed_string::try_acquire` -/
def tryAcquire (s : Cache) (o : Obj) : Except Fault Cache :=
  if s.objs.ref o ≠ s.pool.icaseEmpty then do
    let pool ← s.pool.incRefcount (s.objs.ref o)
    return { s with pool }
  else return s

/-- `fixed_string::assign_ref<_Lock>` -/
def assignRef (lock : Bool) (s : Cache) (o : Obj) (r : Ref) : Except Fault Cache :=
  if r ≠ s.objs.ref o then do
    let s ← s.tryRelease lock o
    (s.setRef o r).tryAcquire o
  else return s

/-- `fixed_string::set_impl`, which holds the lock from the insert on. -/
def setImpl (s : Cache) (o : Obj) (value : Bytes) : Except Fault Cache :=
  let hash := computeHash value
  let (pool, r) := s.pool.insert hash value
  { s with pool }.assignRef false o r

/-- `fixed_string::clear` -/
def clear (s : Cache) (o : Obj) : Except Fault Cache := do
  let s ← s.tryRelease true o
  return s.setRef o s.pool.icaseEmpty

/-- `fixed_string::set(const char*)`: a null pointer clears, another is read up to its NUL. -/
def set (s : Cache) (o : Obj) : Option Bytes → Except Fault Cache
  | none => s.clear o
  | some value => s.setImpl o (cPart value)

/-- `operator=(const fixed_string&)` -/
def assignCopy (s : Cache) (o src : Obj) : Except Fault Cache :=
  if o ≠ src then do
    let s ← s.tryRelease true o
    (s.setRef o (s.objs.ref src)).tryAcquire o
  else return s

/-- `operator=(fixed_string&&)` -/
def assignMove (s : Cache) (o src : Obj) : Except Fault Cache :=
  if o ≠ src then do
    let s ← s.tryRelease true o
    return (s.setRef o (s.objs.ref src)).setRef src s.pool.icaseEmpty
  else return s

end Cache

/-! ## Operations -/

/-- The special members, assignments and `clear`; `load` is the deserialisation of a live object. -/
inductive Op where
  | ctorDefault (o : Obj)
  | ctorNull (o : Obj)
  | ctorString (o : Obj) (value : TextArg)
  | ctorCStr (o : Obj) (value : Option TextArg)
  | ctorCopy (o src : Obj)
  | ctorMove (o src : Obj)
  | assignCopy (o src : Obj)
  | assignMove (o src : Obj)
  | assignString (o : Obj) (value : TextArg)
  | assignCStr (o : Obj) (value : Option TextArg)
  | clear (o : Obj)
  | load (o : Obj) (value : Bytes)
  | destroy (o : Obj)

namespace Cache

/-- The caller may use `o` only during its life. -/
def needLive (s : Cache) (o : Obj) : Except Fault Unit :=
  if o ∈ s.objs.live then return () else throw .notLive

/-- A constructor needs storage without a live object. -/
def needFresh (s : Cache) (o : Obj) : Except Fault Unit :=
  if o ∈ s.objs.live then throw .notLive else return ()

/-- Read an argument. -/
def readArg (s : Cache) : TextArg → Except Fault Bytes
  | .text value => return value
  | .pooled src => do
    s.needLive src
    match s.pool.mData (s.objs.ref src) with
    | none => throw .dangling
    | some k => return k.value

def readCArg (s : Cache) : Option TextArg → Except Fault (Option Bytes)
  | none => return none
  | some value => return some (← s.readArg value)

def step (s : Cache) : Op → Except Fault Cache
  | .ctorDefault o => do
    s.needFresh o
    return s.setRef o s.pool.icaseEmpty
  | .ctorNull o => do
    s.needFresh o
    return s.setRef o s.pool.icaseEmpty
  | .ctorString o value => do
    s.needFresh o
    (s.setRef o s.pool.icaseEmpty).setImpl o (← s.readArg value)
  | .ctorCStr o value => do
    s.needFresh o
    (s.setRef o s.pool.icaseEmpty).set o (← s.readCArg value)
  | .ctorCopy o src => do
    s.needFresh o
    s.needLive src
    (s.setRef o (s.objs.ref src)).tryAcquire o
  | .ctorMove o src => do
    s.needFresh o
    s.needLive src
    return (s.setRef o (s.objs.ref src)).setRef src s.pool.icaseEmpty
  | .assignCopy o src => do
    s.needLive o
    s.needLive src
    s.assignCopy o src
  | .assignMove o src => do
    s.needLive o
    s.needLive src
    s.assignMove o src
  | .assignString o value => do
    s.needLive o
    s.setImpl o (← s.readArg value)
  | .assignCStr o value => do
    s.needLive o
    s.set o (← s.readCArg value)
  | .clear o => do
    s.needLive o
    s.clear o
  | .load o value => do
    s.needLive o
    s.setImpl o value
  | .destroy o => do
    s.needLive o
    let s ← s.tryRelease true o
    return { s with objs := s.objs.drop o }

/-- A history of operations. -/
def run (s : Cache) : List Op → Except Fault Cache
  | [] => return s
  | op :: ops => do (← s.step op).run ops

example : (init.run [.ctorString 0 (.text [0x61]), .ctorString 1 (.text [0x41])]).map
    (fun s => (s.objs.ref 0, s.objs.ref 1, s.pool.fresh)) = .ok (1, 1, 2) := by decide

end Cache

/-! ## The invariant -/

/-- Which text each object was last built from. -/
abbrev Contents := Obj → Bytes

/-- The invariant on a pool and its handles, with `x` allowed to be unreferenced. -/
structure InvBut (x : Ref) (p : DataPool) (h : Handles Obj Ref) (c : Contents) : Prop where
  counts : Counts p h
  used : ∀ {r k}, p.mData r = some k → r ≠ p.icaseEmpty → r ≠ x → 0 < h.count r
  held : ∀ o ∈ h.live, ∃ k, p.mData (h.ref o) = some k ∧ (IcaseKey.ofText (c o)).eq k

/-- The invariant of the cache: only the empty entry may be unreferenced. -/
def Inv (s : Cache) (c : Contents) : Prop := InvBut s.pool.icaseEmpty s.pool s.objs c

namespace InvBut

open DataPool

variable {x r : Ref} {p : DataPool} {h : Handles Obj Ref} {c : Contents} {o src : Obj} {t : Bytes}

theorem weaken (hi : Inv ⟨p, h⟩ c) (x : Ref) : InvBut x p h c :=
  ⟨hi.counts, fun hk hr _ => hi.used hk hr hr, hi.held⟩

/-- The empty entry is the entry of the empty text. -/
theorem held_empty (hc : Counts p h) :
    ∃ k, p.mData p.icaseEmpty = some k ∧ (IcaseKey.ofText []).eq k := by
  obtain ⟨k, hk, hv⟩ := hc.wf.empty
  refine ⟨k, hk, IcaseKey.eq_iff.2 ⟨?_, ?_, ?_⟩⟩
  · rw [hc.wf.hashed hk, hv]; rfl
  · rw [hv]; rfl
  · rw [hv]; rfl

/-- What the objects hold after `o` got a text of its own. -/
theorem held_set
    (hheld : ∀ q ∈ h.live, ∃ k, p.mData (h.ref q) = some k ∧ (IcaseKey.ofText (c q)).eq k)
    (hk : ∃ k, p.mData r = some k ∧ (IcaseKey.ofText t).eq k) :
    ∀ q ∈ (h.set o r).live, ∃ k, p.mData ((h.set o r).ref q) = some k ∧
      (IcaseKey.ofText (Function.update c o t q)).eq k := by
  intro q hq
  by_cases hqo : q = o
  · subst hqo; rw [Handles.ref_set_self, Function.update_self]; exact hk
  · rw [Handles.ref_set_of_ne hqo, Function.update_of_ne hqo]
    exact hheld q ((Handles.mem_live_set.1 hq).resolve_left hqo)

/-- A counter that moved does not change what an entry holds. -/
theorem held_keeps {p' : DataPool} {r : Ref} {t : Bytes} (hkeep : Keeps p p' r)
    (hk : ∃ k, p.mData r = some k ∧ (IcaseKey.ofText t).eq k) :
    ∃ k, p'.mData r = some k ∧ (IcaseKey.ofText t).eq k := by
  obtain ⟨k, hk, heq⟩ := hk
  obtain ⟨n, hn⟩ := hkeep k hk
  exact ⟨_, hn, by rwa [IcaseKey.eq_congr ⟨rfl, rfl⟩ ⟨rfl, rfl⟩]⟩

/-- `try_release` on an object takes it out of the handles and leaves `x` alone. -/
theorem release (hi : InvBut x p h c) (ho : o ∈ h.live)
    (hx : h.ref o ≠ p.icaseEmpty → x ≠ h.ref o) (lock : Bool) :
    ∃ p', (Cache.mk p h).tryRelease lock o = .ok ⟨p', h⟩ ∧ InvBut x p' (h.drop o) c ∧
      p'.icaseEmpty = p.icaseEmpty ∧ p'.mData x = p.mData x := by
  by_cases hr : h.ref o = p.icaseEmpty
  · refine ⟨p, if_neg (not_not.2 hr), ⟨hi.counts.dropEmpty ho hr, fun {s k} hk hs hsx => ?_,
      fun q hq => hi.held q (Handles.mem_live_drop.1 hq).2⟩, rfl, rfl⟩
    rw [Handles.count_drop_of_ne ho (hr ▸ hs)]
    exact hi.used hk hs hsx
  · obtain ⟨p', hrel, hc, hempty, hcount, hkeep, hother⟩ := hi.counts.tryRelease ho hr lock
    refine ⟨p', ?_, ⟨hc, fun {s k} hk hs hsx => ?_, fun q hq => ?_⟩, hempty, hother x (hx hr)⟩
    · unfold Cache.tryRelease
      rw [if_pos hr, hrel]; rfl
    · by_cases hso : s = h.ref o
      · exact hso ▸ hcount k (hso ▸ hk)
      · rw [Handles.count_drop_of_ne ho hso]
        rw [hother s hso] at hk
        exact hi.used hk (hempty ▸ hs) hsx
    · have hheld := hi.held q (Handles.mem_live_drop.1 hq).2
      by_cases hqo : h.ref q = h.ref o
      · -- Another object on the same entry: the entry is not the last one's.
        have hpos : 0 < (h.drop o).count (h.ref o) := by
          rw [← hqo]; exact Handles.count_pos (h := h.drop o) hq
        rw [Handles.ref_drop, hqo]
        rw [hqo] at hheld
        exact held_keeps (hkeep hpos.ne') hheld
      · rw [Handles.ref_drop, hother _ hqo]; exact hheld

/-- `m_ref = r; try_acquire()` on an object that holds nothing. -/
theorem acquire (hi : InvBut r p h c) (ho : o ∉ h.live)
    (hk : ∃ k, p.mData r = some k ∧ (IcaseKey.ofText t).eq k) :
    ∃ s', ((Cache.mk p h).setRef o r).tryAcquire o = .ok s' ∧ Inv s' (Function.update c o t) := by
  unfold Cache.tryAcquire Cache.setRef
  simp only [Handles.ref_set_self]
  by_cases hr : r = p.icaseEmpty
  · subst hr
    refine ⟨_, if_neg (not_not.2 rfl), hi.counts.setEmpty ho, fun {s k} hs hse hsx => ?_,
      held_set hi.held hk⟩
    rw [Handles.count_set_of_ne ho hsx]
    exact hi.used hs hse hsx
  · have hentry := hk
    obtain ⟨k, hrk, -⟩ := hentry
    refine ⟨⟨p.put r { k with refcount := k.refcount + 1 }, h.set o r⟩, ?_, hi.counts.inc ho hrk hr,
      fun {s l} hs hse _ => ?_, held_set (fun q hq => ?_) ?_⟩
    · rw [if_pos hr, incRefcount_eq hrk]; rfl
    · change s ≠ p.icaseEmpty at hse
      by_cases hsr : s = r
      · subst hsr; rw [Handles.count_set_self ho]; exact Nat.succ_pos _
      · change (p.put r _).mData s = some l at hs
        rw [put_of_ne hsr] at hs
        rw [Handles.count_set_of_ne ho hsr]
        exact hi.used hs hse hsr
    · exact held_keeps (keeps_put hrk _ _) (hi.held q hq)
    · exact held_keeps (keeps_put hrk _ _) hk

/-- An object on the empty entry holds no reference. -/
theorem setEmpty (hi : Inv ⟨p, h⟩ c) (ho : o ∉ h.live) :
    Inv ((Cache.mk p h).setRef o p.icaseEmpty) (Function.update c o []) where
  counts := hi.counts.setEmpty ho
  used {s k} hk hs hsx := by
    change s ≠ p.icaseEmpty at hs
    change 0 < (h.set o p.icaseEmpty).count s
    rw [Handles.count_set_of_ne ho hs]
    exact hi.used hk hs hs
  held := held_set hi.held (held_empty hi.counts)

/-- Stealing a reference renames its handle. -/
theorem steal (hi : Inv ⟨p, h⟩ c) (hsrc : src ∈ h.live) (ho : o ∉ h.live) :
    Inv ⟨p, (h.drop src).set o (h.ref src)⟩ (Function.update c o (c src)) := by
  refine ⟨hi.counts.steal hsrc ho, fun {s k} hk hs hsx => ?_,
    held_set (fun q hq => hi.held q (Handles.mem_live_drop.1 hq).2) (hi.held src hsrc)⟩
  change 0 < ((h.drop src).set o (h.ref src)).count s
  rw [Handles.count_drop_set hsrc ho]
  exact hi.used hk hs hsx

end InvBut

/-! ## The members -/

namespace Cache

open InvBut

variable {s : Cache} {c : Contents} {o src : Obj} {value : Bytes}

theorem clear_spec (hi : Inv s c) (ho : o ∈ s.objs.live) :
    ∃ s', s.clear o = .ok s' ∧ Inv s' (Function.update c o []) := by
  obtain ⟨p', hrel, hinv, hempty, -⟩ := InvBut.release hi ho (fun h => h.symm) true
  have hinv' : Inv ⟨p', s.objs.drop o⟩ c := by unfold Inv; rw [hempty]; exact hinv
  refine ⟨(Cache.mk p' s.objs).setRef o p'.icaseEmpty, ?_, ?_⟩
  · unfold Cache.clear; rw [hrel]; rfl
  · have := setEmpty hinv' (o := o) (by simp)
    unfold setRef at this ⊢
    rwa [Handles.drop_set] at this

theorem setImpl_spec (hi : Inv s c) (ho : o ∈ s.objs.live) (value : Bytes) :
    ∃ s', s.setImpl o value = .ok s' ∧ Inv s' (Function.update c o value) := by
  obtain ⟨hwf, hempty, hfind, hcase⟩ := hi.counts.wf.insert value
  unfold setImpl
  set q := s.pool.insert (computeHash value) value
  have hq : InvBut q.2 q.1 s.objs c := by
    refine ⟨hi.counts.insert value, fun {r k} hk hr hrq => ?_, fun x hx => ?_⟩
    · rcases hcase with hsame | ⟨-, -, hother⟩
      · rw [hsame] at hk hr; exact hi.used hk hr hr
      · rw [hother r hrq] at hk
        exact hi.used hk (hempty ▸ hr) (hempty ▸ hr)
    · obtain ⟨k, hk, heq⟩ := hi.held x hx
      rcases hcase with hsame | ⟨hnone, -, hother⟩
      · exact ⟨k, by rw [hsame]; exact hk, heq⟩
      · have hne : s.objs.ref x ≠ q.2 := fun e => by rw [e, hnone] at hk; cases hk
        exact ⟨k, by rw [hother _ hne]; exact hk, heq⟩
  change ∃ s', (Cache.mk q.1 s.objs).assignRef false o q.2 = .ok s' ∧ _
  unfold assignRef
  by_cases hr : q.2 = s.objs.ref o
  · -- The object is already on the entry of this text.
    refine ⟨⟨q.1, s.objs⟩, if_neg (not_not.2 hr), hq.counts, fun {r k} hk hre _ => ?_,
      fun x hx => ?_⟩
    · by_cases hrq : r = q.2
      · rw [hrq, hr]; exact Handles.count_pos ho
      · exact hq.used hk hre hrq
    · by_cases hxo : x = o
      · subst hxo
        rw [Function.update_self]
        change ∃ k, q.1.mData (s.objs.ref x) = some k ∧ _
        rw [← hr]; exact hfind
      · rw [Function.update_of_ne hxo]; exact hq.held x hx
  · rw [if_pos hr]
    obtain ⟨p', hrel, hinv, -, hx⟩ := hq.release ho (fun _ => hr) false
    obtain ⟨s', hacq, hs'⟩ := hinv.acquire (o := o) (by simp) (by rw [hx]; exact hfind)
    refine ⟨s', ?_, hs'⟩
    rw [hrel]
    unfold setRef at hacq
    rw [Handles.drop_set] at hacq
    exact hacq

theorem set_spec (hi : Inv s c) (ho : o ∈ s.objs.live) (value : Option Bytes) :
    ∃ s', s.set o value = .ok s' ∧ Inv s' (Function.update c o ((value.map cPart).getD [])) := by
  cases value with
  | none => exact clear_spec hi ho
  | some value => exact setImpl_spec hi ho (cPart value)

theorem assignCopy_spec (hi : Inv s c) (ho : o ∈ s.objs.live) (hsrc : src ∈ s.objs.live) :
    ∃ s', s.assignCopy o src = .ok s' ∧ Inv s' (Function.update c o (c src)) := by
  unfold assignCopy
  by_cases hne : o = src
  · subst hne
    exact ⟨s, if_neg (not_not.2 rfl), by rwa [Function.update_eq_self]⟩
  · rw [if_pos hne]
    obtain ⟨p', hrel, hinv, hempty, -⟩ := InvBut.release hi ho (fun h => h.symm) true
    have hinv' : Inv ⟨p', s.objs.drop o⟩ c := by unfold Inv; rw [hempty]; exact hinv
    have hsrc' : src ∈ (s.objs.drop o).live := Handles.mem_live_drop.2 ⟨Ne.symm hne, hsrc⟩
    obtain ⟨s', hacq, hs'⟩ := (weaken hinv' (s.objs.ref src)).acquire (o := o) (by simp)
      (hinv'.held src hsrc')
    refine ⟨s', ?_, hs'⟩
    rw [hrel]
    unfold setRef at hacq
    rw [Handles.drop_set] at hacq
    exact hacq

theorem assignMove_spec (hi : Inv s c) (ho : o ∈ s.objs.live) (hsrc : src ∈ s.objs.live)
    (hne : o ≠ src) : ∃ s', s.assignMove o src = .ok s' ∧
      Inv s' (Function.update (Function.update c o (c src)) src []) := by
  unfold assignMove
  rw [if_pos hne]
  obtain ⟨p', hrel, hinv, hempty, -⟩ := InvBut.release hi ho (fun h => h.symm) true
  have hinv' : Inv ⟨p', s.objs.drop o⟩ c := by unfold Inv; rw [hempty]; exact hinv
  have hsrc' : src ∈ (s.objs.drop o).live := Handles.mem_live_drop.2 ⟨hne.symm, hsrc⟩
  have hstolen := setEmpty (steal hinv' hsrc' (o := o) (by simp)) (o := src) (by simp [hne.symm])
  refine ⟨((Cache.mk p' s.objs).setRef o (s.objs.ref src)).setRef src p'.icaseEmpty, ?_, ?_⟩
  · rw [hrel]; rfl
  · unfold setRef at hstolen ⊢
    rwa [Handles.drop_set_set, Handles.drop_set] at hstolen

/-! ## Steps and runs -/

/-- The text an argument stands for. -/
def argText (s : Cache) : TextArg → Bytes
  | .text value => value
  | .pooled src => ((s.pool.mData (s.objs.ref src)).map IcaseKey.value).getD []

/-- Which text each object is built from after an operation: the argument of the last
construction, assignment or load, passed on by copies and moves. -/
def contents (s : Cache) (c : Contents) : Op → Contents
  | .ctorDefault o | .ctorNull o | .clear o => Function.update c o []
  | .ctorString o value | .assignString o value => Function.update c o (s.argText value)
  | .ctorCStr o value | .assignCStr o value =>
    Function.update c o ((value.map fun v => cPart (s.argText v)).getD [])
  | .ctorCopy o src | .assignCopy o src => Function.update c o (c src)
  | .ctorMove o src => Function.update (Function.update c o (c src)) src []
  | .assignMove o src =>
    if o = src then c else Function.update (Function.update c o (c src)) src []
  | .load o value => Function.update c o value
  | .destroy _ => c

theorem needLive_spec (s : Cache) (o : Obj) :
    Ends (· = Fault.notLive) (fun _ => o ∈ s.objs.live) (s.needLive o) := by
  unfold needLive
  split_ifs with h
  · exact h
  · rfl

theorem needFresh_spec (s : Cache) (o : Obj) :
    Ends (· = Fault.notLive) (fun _ => o ∉ s.objs.live) (s.needFresh o) := by
  unfold needFresh
  split_ifs with h
  · rfl
  · exact h

theorem readArg_spec (hi : Inv s c) (value : TextArg) :
    Ends (· = Fault.notLive) (· = s.argText value) (s.readArg value) := by
  cases value with
  | text value => rfl
  | pooled src =>
    apply (needLive_spec s src).bind
    intro _ hsrc
    obtain ⟨k, hk⟩ := hi.counts.valid src hsrc
    simp [argText, hk]

theorem readCArg_spec (hi : Inv s c) (value : Option TextArg) :
    Ends (· = Fault.notLive) (· = value.map s.argText) (s.readCArg value) := by
  cases value with
  | none => rfl
  | some value => exact (readArg_spec hi value).bind fun t ht => by rw [ht]; rfl

/-- A computation that returns meets its postcondition. -/
theorem ends_of_ok {x : Except Fault Cache} {P : Cache → Prop} (h : ∃ s', x = .ok s' ∧ P s') :
    Ends (· = Fault.notLive) P x := by
  obtain ⟨s', rfl, hs'⟩ := h
  exact hs'

/-- A constructor starts on the empty entry. -/
theorem new_spec (hi : Inv s c) (ho : o ∉ s.objs.live) :
    Inv (s.setRef o s.pool.icaseEmpty) (Function.update c o []) ∧
      o ∈ (s.setRef o s.pool.icaseEmpty).objs.live :=
  ⟨setEmpty hi ho, Handles.mem_live_set.2 (Or.inl rfl)⟩

/-- **One operation.** It keeps the invariant, or the caller used an object outside its life. -/
theorem step_spec (hi : Inv s c) (op : Op) :
    Ends (· = Fault.notLive) (Inv · (s.contents c op)) (s.step op) := by
  cases op with
  | ctorDefault o => exact (needFresh_spec s o).bind fun _ ho => (new_spec hi ho).1
  | ctorNull o => exact (needFresh_spec s o).bind fun _ ho => (new_spec hi ho).1
  | ctorString o value =>
    refine (needFresh_spec s o).bind fun _ ho => (readArg_spec hi value).bind fun t ht => ?_
    have h := setImpl_spec (new_spec hi ho).1 (new_spec hi ho).2 t
    rw [Function.update_idem, ht] at h
    rw [ht]
    exact ends_of_ok h
  | ctorCStr o value =>
    refine (needFresh_spec s o).bind fun _ ho => (readCArg_spec hi value).bind fun t ht => ?_
    have h := set_spec (new_spec hi ho).1 (new_spec hi ho).2 t
    rw [Function.update_idem, ht, Option.map_map] at h
    rw [ht]
    exact ends_of_ok h
  | ctorCopy o src =>
    refine (needFresh_spec s o).bind fun _ ho => (needLive_spec s src).bind fun _ hsrc => ?_
    exact ends_of_ok ((weaken hi _).acquire ho (hi.held src hsrc))
  | ctorMove o src =>
    refine (needFresh_spec s o).bind fun _ ho => (needLive_spec s src).bind fun _ hsrc => ?_
    have hne : src ≠ o := fun e => ho (e ▸ hsrc)
    have h := setEmpty (steal hi hsrc ho) (o := src) (by simp [hne])
    unfold setRef at h
    rw [Handles.drop_set_set] at h
    exact h
  | assignCopy o src =>
    refine (needLive_spec s o).bind fun _ ho => (needLive_spec s src).bind fun _ hsrc => ?_
    exact ends_of_ok (assignCopy_spec hi ho hsrc)
  | assignMove o src =>
    refine (needLive_spec s o).bind fun _ ho => (needLive_spec s src).bind fun _ hsrc => ?_
    by_cases hne : o = src
    · rw [show s.contents c (.assignMove o src) = c from if_pos hne]
      exact ends_of_ok ⟨s, if_neg (not_not.2 hne), hi⟩
    · rw [show s.contents c (.assignMove o src) = _ from if_neg hne]
      exact ends_of_ok (assignMove_spec hi ho hsrc hne)
  | assignString o value =>
    refine (needLive_spec s o).bind fun _ ho => (readArg_spec hi value).bind fun t ht => ?_
    rw [ht]
    exact ends_of_ok (setImpl_spec hi ho _)
  | assignCStr o value =>
    refine (needLive_spec s o).bind fun _ ho => (readCArg_spec hi value).bind fun t ht => ?_
    have h := set_spec hi ho t
    rw [ht, Option.map_map] at h
    rw [ht]
    exact ends_of_ok h
  | clear o => exact (needLive_spec s o).bind fun _ ho => ends_of_ok (clear_spec hi ho)
  | load o value => exact (needLive_spec s o).bind fun _ ho => ends_of_ok (setImpl_spec hi ho value)
  | destroy o =>
    apply (needLive_spec s o).bind
    intro _ ho
    obtain ⟨p', hrel, hinv, hempty, -⟩ := InvBut.release hi ho (fun h => h.symm) true
    refine ends_of_ok ⟨⟨p', s.objs.drop o⟩, by rw [hrel]; rfl, ?_⟩
    unfold Inv
    rw [hempty]
    exact hinv

/-- The texts after a history. -/
def runContents (s : Cache) (c : Contents) : List Op → Contents
  | [] => c
  | op :: ops =>
    match s.step op with
    | .ok s' => s'.runContents (s.contents c op) ops
    | .error _ => c

/-- **Histories.** -/
theorem run_spec (hi : Inv s c) (ops : List Op) :
    Ends (· = Fault.notLive) (Inv · (s.runContents c ops)) (s.run ops) := by
  induction ops generalizing s c with
  | nil => exact hi
  | cons op ops ih =>
    have hstep := step_spec hi op
    unfold run runContents
    cases h : s.step op with
    | ok s' =>
      rw [h] at hstep
      exact ih hstep
    | error f =>
      rw [h] at hstep
      exact hstep

theorem inv_init (c : Contents) : Inv init c where
  counts := .init
  used hk hr := absurd (DataPool.init_mData hk).1 hr
  held o ho := by simp [init] at ho

/-! ## The reference counts -/

/-- What holds of the cache between operations. -/
structure RefInv (s : Cache) : Prop where
  handles : ∀ o ∈ s.objs.live, ∃ k, s.pool.mData (s.objs.ref o) = some k
  counts : ∀ r k, s.pool.mData r = some k → r ≠ s.pool.icaseEmpty →
    k.refcount = s.objs.count r ∧ 1 ≤ s.objs.count r
  empty : ∃ k, s.pool.mData s.pool.icaseEmpty = some k ∧ k.value = [] ∧ k.refcount = 0
  unique : ∀ r r' k k', s.pool.mData r = some k → s.pool.mData r' = some k' → r ≠ r' → ¬ k.eq k'

theorem refInv_of_inv (hi : Inv s c) : RefInv s where
  handles := hi.counts.valid
  counts _ _ hk hr := ⟨hi.counts.counted hk hr, hi.used hk hr hr⟩
  empty := by
    obtain ⟨k, hk, hv⟩ := hi.counts.wf.empty
    exact ⟨k, hk, hv, hi.counts.emptyCount hk⟩
  unique _ _ _ _ hk hk' hne heq := hne (hi.counts.wf.distinct hk hk' heq)

/-- **Reference counts.** Every history from the empty cache ends with the counts right, unless
the caller uses an object outside its life; it never reads a stale pointer and never halts. -/
theorem run_refInv (ops : List Op) :
    Ends (fun f => f = Fault.notLive) RefInv (init.run ops) :=
  (run_spec (inv_init fun _ => []) ops).mono fun _ hs => refInv_of_inv hs

end Cache

/-! ## Lifetimes -/

/-- A pooled text is that of a live object. -/
def TextArg.Respects (live : Finset Obj) : TextArg → Prop
  | .text _ => True
  | .pooled src => src ∈ live

/-- The operation uses live objects, and constructs where there is none. -/
def Op.Respects (live : Finset Obj) : Op → Prop
  | .ctorDefault o | .ctorNull o => o ∉ live
  | .ctorString o value => o ∉ live ∧ value.Respects live
  | .ctorCStr o value => o ∉ live ∧ ∀ v ∈ value, v.Respects live
  | .ctorCopy o src | .ctorMove o src => o ∉ live ∧ src ∈ live
  | .assignCopy o src | .assignMove o src => o ∈ live ∧ src ∈ live
  | .assignString o value => o ∈ live ∧ value.Respects live
  | .assignCStr o value => o ∈ live ∧ ∀ v ∈ value, v.Respects live
  | .clear o | .load o _ | .destroy o => o ∈ live

/-- The live objects after an operation. -/
def Op.liveAfter (live : Finset Obj) : Op → Finset Obj
  | .ctorDefault o | .ctorNull o | .ctorString o _ | .ctorCStr o _ | .ctorCopy o _
  | .ctorMove o _ => insert o live
  | .destroy o => live.erase o
  | _ => live

/-- The history respects object lifetimes. -/
def RespectsLifetimes (live : Finset Obj) : List Op → Prop
  | [] => True
  | op :: ops => op.Respects live ∧ RespectsLifetimes (op.liveAfter live) ops

namespace Cache

variable {s s' : Cache} {c : Contents} {o src : Obj} {op : Op}

theorem needLive_ok (ho : o ∈ s.objs.live) : s.needLive o = .ok () := if_pos ho

theorem needFresh_ok (ho : o ∉ s.objs.live) : s.needFresh o = .ok () := if_neg ho

theorem readArg_ok (hi : Inv s c) {value : TextArg} (hvalue : value.Respects s.objs.live) :
    s.readArg value = .ok (s.argText value) := by
  cases value with
  | text value => rfl
  | pooled src =>
    obtain ⟨k, hk⟩ := hi.counts.valid src hvalue
    simp [readArg, needLive_ok hvalue, argText, hk]

theorem readCArg_ok (hi : Inv s c) {value : Option TextArg}
    (hvalue : ∀ v ∈ value, v.Respects s.objs.live) :
    s.readCArg value = .ok (value.map s.argText) := by
  cases value with
  | none => rfl
  | some value =>
    rw [readCArg, readArg_ok hi (hvalue value rfl)]
    rfl

/-- **An operation that respects lifetimes returns.** -/
theorem step_ok (hi : Inv s c) (h : op.Respects s.objs.live) : ∃ s', s.step op = .ok s' := by
  cases op with
  | ctorDefault o | ctorNull o =>
    rw [step, needFresh_ok h]
    exact ⟨_, rfl⟩
  | ctorString o value =>
    obtain ⟨hnew, ho⟩ := new_spec hi h.1
    obtain ⟨s', hs', -⟩ := setImpl_spec hnew ho (s.argText value)
    rw [step, needFresh_ok h.1, readArg_ok hi h.2]
    exact ⟨s', hs'⟩
  | ctorCStr o value =>
    obtain ⟨hnew, ho⟩ := new_spec hi h.1
    obtain ⟨s', hs', -⟩ := set_spec hnew ho (value.map s.argText)
    rw [step, needFresh_ok h.1, readCArg_ok hi h.2]
    exact ⟨s', hs'⟩
  | ctorCopy o src =>
    obtain ⟨s', hs', -⟩ := (InvBut.weaken hi _).acquire h.1 (hi.held src h.2)
    rw [step, needFresh_ok h.1, needLive_ok h.2]
    exact ⟨s', hs'⟩
  | ctorMove o src =>
    rw [step, needFresh_ok h.1, needLive_ok h.2]
    exact ⟨_, rfl⟩
  | assignCopy o src =>
    obtain ⟨s', hs', -⟩ := assignCopy_spec hi h.1 h.2
    rw [step, needLive_ok h.1, needLive_ok h.2]
    exact ⟨s', hs'⟩
  | assignMove o src =>
    rw [step, needLive_ok h.1, needLive_ok h.2]
    by_cases hne : o = src
    · exact ⟨s, if_neg (not_not.2 hne)⟩
    · obtain ⟨s', hs', -⟩ := assignMove_spec hi h.1 h.2 hne
      exact ⟨s', hs'⟩
  | assignString o value =>
    obtain ⟨s', hs', -⟩ := setImpl_spec hi h.1 (s.argText value)
    rw [step, needLive_ok h.1, readArg_ok hi h.2]
    exact ⟨s', hs'⟩
  | assignCStr o value =>
    obtain ⟨s', hs', -⟩ := set_spec hi h.1 (value.map s.argText)
    rw [step, needLive_ok h.1, readCArg_ok hi h.2]
    exact ⟨s', hs'⟩
  | clear o =>
    obtain ⟨s', hs', -⟩ := clear_spec hi h
    rw [step, needLive_ok h]
    exact ⟨s', hs'⟩
  | load o value =>
    obtain ⟨s', hs', -⟩ := setImpl_spec hi h value
    rw [step, needLive_ok h]
    exact ⟨s', hs'⟩
  | destroy o =>
    obtain ⟨p', hrel, -⟩ := InvBut.release hi h (fun h => h.symm) true
    rw [step, needLive_ok h]
    refine ⟨⟨p', s.objs.drop o⟩, ?_⟩
    show (s.tryRelease true o >>= fun s => pure { s with objs := s.objs.drop o }) = _
    rw [hrel]
    rfl

theorem tryRelease_objs (lock : Bool) (s : Cache) (o : Obj) :
    Ends (fun _ => True) (fun s' => s'.objs = s.objs) (s.tryRelease lock o) := by
  unfold tryRelease
  split_ifs
  · cases s.pool.tryRelease lock (s.objs.ref o) with
    | ok pool => rfl
    | error f => trivial
  · rfl

theorem tryAcquire_objs (s : Cache) (o : Obj) :
    Ends (fun _ => True) (fun s' => s'.objs = s.objs) (s.tryAcquire o) := by
  unfold tryAcquire
  split_ifs
  · cases s.pool.incRefcount (s.objs.ref o) with
    | ok pool => rfl
    | error f => trivial
  · rfl

/-- `m_ref = r; try_acquire()` begins the life of an object, or goes on with it. -/
theorem acquire_live (s : Cache) (o : Obj) (r : Ref) :
    Ends (fun _ => True) (fun s' => s'.objs.live = insert o s.objs.live)
      ((s.setRef o r).tryAcquire o) :=
  (tryAcquire_objs (s.setRef o r) o).mono fun _ hs' => congrArg Handles.live hs'

theorem setImpl_live (ho : o ∈ s.objs.live) (value : Bytes) :
    Ends (fun _ => True) (fun s' => s'.objs.live = s.objs.live) (s.setImpl o value) := by
  unfold setImpl assignRef
  dsimp only
  split_ifs
  · refine (tryRelease_objs false _ o).bind fun s₁ h₁ => (acquire_live s₁ o _).mono fun s₂ h₂ => ?_
    rw [h₂, h₁, Finset.insert_eq_of_mem ho]
  · rfl

theorem clear_live (ho : o ∈ s.objs.live) :
    Ends (fun _ => True) (fun s' => s'.objs.live = s.objs.live) (s.clear o) := by
  refine (tryRelease_objs true s o).bind fun s₁ h₁ => ?_
  show insert o s₁.objs.live = s.objs.live
  rw [h₁, Finset.insert_eq_of_mem ho]

theorem set_live (ho : o ∈ s.objs.live) (value : Option Bytes) :
    Ends (fun _ => True) (fun s' => s'.objs.live = s.objs.live) (s.set o value) := by
  cases value with
  | none => exact clear_live ho
  | some value => exact setImpl_live ho (cPart value)

theorem assignCopy_live (ho : o ∈ s.objs.live) :
    Ends (fun _ => True) (fun s' => s'.objs.live = s.objs.live) (s.assignCopy o src) := by
  unfold assignCopy
  split_ifs
  · refine (tryRelease_objs true s o).bind fun s₁ h₁ => (acquire_live s₁ o _).mono fun s₂ h₂ => ?_
    rw [h₂, h₁, Finset.insert_eq_of_mem ho]
  · rfl

theorem assignMove_live (ho : o ∈ s.objs.live) (hsrc : src ∈ s.objs.live) :
    Ends (fun _ => True) (fun s' => s'.objs.live = s.objs.live) (s.assignMove o src) := by
  unfold assignMove
  split_ifs
  · refine (tryRelease_objs true s o).bind fun s₁ h₁ => ?_
    show insert src (insert o s₁.objs.live) = s.objs.live
    rw [h₁, Finset.insert_eq_of_mem ho, Finset.insert_eq_of_mem hsrc]
  · rfl

theorem readArg_live (s : Cache) (value : TextArg) :
    Ends (fun _ => True) (fun _ => value.Respects s.objs.live) (s.readArg value) := by
  cases value with
  | text value => trivial
  | pooled src =>
    refine ((needLive_spec s src).imp fun _ _ => trivial).bind fun _ hsrc => ?_
    cases s.pool.mData (s.objs.ref src) with
    | none => trivial
    | some k => exact hsrc

theorem readCArg_live (s : Cache) (value : Option TextArg) :
    Ends (fun _ => True) (fun _ => ∀ v ∈ value, v.Respects s.objs.live) (s.readCArg value) := by
  cases value with
  | none =>
    intro v hv
    cases hv
  | some value =>
    refine (readArg_live s value).bind fun t ht => ?_
    intro v hv
    cases hv
    exact ht

/-- **What an operation that returns did to the lifetimes.** -/
theorem step_live (s : Cache) (op : Op) :
    Ends (fun _ => True) (fun s' => op.Respects s.objs.live ∧
      s'.objs.live = op.liveAfter s.objs.live) (s.step op) := by
  have hlive o : Ends (fun _ => True) (fun _ => o ∈ s.objs.live) (s.needLive o) :=
    (needLive_spec s o).imp fun _ _ => trivial
  have hfresh o : Ends (fun _ => True) (fun _ => o ∉ s.objs.live) (s.needFresh o) :=
    (needFresh_spec s o).imp fun _ _ => trivial
  have hnew o : o ∈ (s.setRef o s.pool.icaseEmpty).objs.live := Finset.mem_insert_self _ _
  cases op with
  | ctorDefault o => exact (hfresh o).bind fun _ ho => ⟨ho, rfl⟩
  | ctorNull o => exact (hfresh o).bind fun _ ho => ⟨ho, rfl⟩
  | ctorString o value =>
    refine (hfresh o).bind fun _ ho => (readArg_live s value).bind fun t ht => ?_
    exact (setImpl_live (hnew o) t).mono fun _ hs' => ⟨⟨ho, ht⟩, hs'⟩
  | ctorCStr o value =>
    refine (hfresh o).bind fun _ ho => (readCArg_live s value).bind fun t ht => ?_
    exact (set_live (hnew o) t).mono fun _ hs' => ⟨⟨ho, ht⟩, hs'⟩
  | ctorCopy o src =>
    refine (hfresh o).bind fun _ ho => (hlive src).bind fun _ hsrc => ?_
    exact (acquire_live s o _).mono fun _ hs' => ⟨⟨ho, hsrc⟩, hs'⟩
  | ctorMove o src =>
    refine (hfresh o).bind fun _ ho => (hlive src).bind fun _ hsrc => ⟨⟨ho, hsrc⟩, ?_⟩
    exact Finset.insert_eq_of_mem (Finset.mem_insert_of_mem hsrc)
  | assignCopy o src =>
    refine (hlive o).bind fun _ ho => (hlive src).bind fun _ hsrc => ?_
    exact (assignCopy_live ho).mono fun _ hs' => ⟨⟨ho, hsrc⟩, hs'⟩
  | assignMove o src =>
    refine (hlive o).bind fun _ ho => (hlive src).bind fun _ hsrc => ?_
    exact (assignMove_live ho hsrc).mono fun _ hs' => ⟨⟨ho, hsrc⟩, hs'⟩
  | assignString o value =>
    refine (hlive o).bind fun _ ho => (readArg_live s value).bind fun t ht => ?_
    exact (setImpl_live ho t).mono fun _ hs' => ⟨⟨ho, ht⟩, hs'⟩
  | assignCStr o value =>
    refine (hlive o).bind fun _ ho => (readCArg_live s value).bind fun t ht => ?_
    exact (set_live ho t).mono fun _ hs' => ⟨⟨ho, ht⟩, hs'⟩
  | clear o =>
    exact (hlive o).bind fun _ ho => (clear_live ho).mono fun _ hs' => ⟨ho, hs'⟩
  | load o value =>
    exact (hlive o).bind fun _ ho => (setImpl_live ho value).mono fun _ hs' => ⟨ho, hs'⟩
  | destroy o =>
    refine (hlive o).bind fun _ ho => (tryRelease_objs true s o).bind fun s₁ h₁ => ⟨ho, ?_⟩
    show s₁.objs.live.erase o = s.objs.live.erase o
    rw [h₁]

/-- **Only the caller can go wrong.** A history returns if and only if it respects lifetimes. -/
theorem run_ok_iff (ops : List Op) :
    (∃ s, init.run ops = .ok s) ↔ RespectsLifetimes ∅ ops := by
  suffices h : ∀ (s : Cache) c, Inv s c →
      ((∃ s', s.run ops = .ok s') ↔ RespectsLifetimes s.objs.live ops) from
    h init (fun _ => []) (inv_init _)
  induction ops with
  | nil => exact fun s _ _ => ⟨fun _ => trivial, fun _ => ⟨s, rfl⟩⟩
  | cons op ops ih =>
    intro s c hi
    have hlive := step_live s op
    have hspec := step_spec hi op
    unfold run
    cases hstep : s.step op with
    | ok s₁ =>
      rw [hstep] at hlive hspec
      obtain ⟨hop, hafter⟩ := hlive
      refine (ih s₁ _ hspec).trans ?_
      rw [hafter]
      exact ⟨fun hrest => ⟨hop, hrest⟩, And.right⟩
    | error f =>
      constructor
      · intro ⟨s', hs'⟩
        cases hs'
      · intro h
        obtain ⟨s', hs'⟩ := step_ok hi h.1
        rw [hstep] at hs'
        cases hs'

end Cache

end SseExt
