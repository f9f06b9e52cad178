import SseExt.Lib.Handles
import SseExt.StringCache.Key

/-!
# `data_pool`: the pool of entries

The pool is a hash set of nodes with stable addresses. `mData r` is the entry at address `r`,
`none` before it is inserted and after it is erased; addresses are handed out once, so a stale
pointer is one whose entry is `none`. Reading through a stale pointer is the fault `dangling`,
and an erase that finds nothing is the source's `HALT`.

`Counts p h` relates a pool to the handles on it: the counter of every entry but the empty one is
the number of handles on that entry. Each primitive (`insert`, `inc_refcount`, `dec_refcount`,
`release`) gets one lemma saying what it does to `Counts`; the sequential operations and the
threads are both assembled from these.
-/

namespace SseExt

/-- The address of a node of the pool. -/
abbrev Ref := ℕ

/-- A `fixed_string` object. -/
abbrev Obj := ℕ

/-- What can go wrong: a read or erase through a stale pointer, the `HALT` of `release`, or a
caller that uses an object outside its lifetime. -/
inductive Fault where
  | dangling
  | halt
  | notLive
deriving DecidableEq

structure DataPool where
  mData : Ref → Option IcaseKey
  icaseEmpty : Ref
  /-- The next address the allocator hands out. -/
  fresh : Ref

namespace DataPool

/-- The constructor: an entry for the empty text, whose address is kept. -/
def init : DataPool where
  mData := Function.update (fun _ => none) 0 (some (IcaseKey.ofText []))
  icaseEmpty := 0
  fresh := 1

/-- Write the entry at an address. -/
def put (p : DataPool) (r : Ref) (k : IcaseKey) : DataPool :=
  { p with mData := Function.update p.mData r (some k) }

/-- The lookup of the hash set: the node equal to the key, if there is one. -/
def find (p : DataPool) (k : IcaseKey) : Option Ref :=
  (List.range p.fresh).find? fun r => (p.mData r).any k.eq

/-- `data_pool::insert`: `emplace`, which leaves an equal entry in place. -/
def insert (p : DataPool) (hash : UInt64) (string : Bytes) : DataPool × Ref :=
  match p.find ⟨hash, string, 0⟩ with
  | some r => (p, r)
  | none => ({ p.put p.fresh ⟨hash, string, 0⟩ with fresh := p.fresh + 1 }, p.fresh)

/-- `unordered_set::erase(key)`, with the number of entries erased. -/
def erase (p : DataPool) (k : IcaseKey) : ℕ × DataPool :=
  match p.find k with
  | some r => (1, { p with mData := Function.update p.mData r none })
  | none => (0, p)

/-- `icase_key::use_count`. -/
def useCount (p : DataPool) (r : Ref) : Except Fault ℕ :=
  match p.mData r with
  | none => .error .dangling
  | some k => .ok k.refcount

/-- `icase_key::inc_refcount`. -/
def incRefcount (p : DataPool) (r : Ref) : Except Fault DataPool :=
  match p.mData r with
  | none => .error .dangling
  | some k => .ok (p.put r { k with refcount := k.refcount + 1 })

/-- `icase_key::dec_refcount`, with the counter before the step. -/
def decRefcount (p : DataPool) (r : Ref) : Except Fault (ℕ × DataPool) :=
  match p.mData r with
  | none => .error .dangling
  | some k => .ok (k.refcount, p.put r { k with refcount := k.refcount - 1 })

/-- `data_pool::release`. -/
def release (p : DataPool) (r : Ref) : Except Fault DataPool :=
  match p.mData r with
  | none => .error .dangling
  | some k => if (p.erase k).1 = 0 then .error .halt else .ok (p.erase k).2

/-- `data_pool::try_release<_Lock>`. The locked variant looks at the counter again. -/
def tryRelease (lock : Bool) (p : DataPool) (r : Ref) : Except Fault DataPool := do
  let (count, p) ← p.decRefcount r
  if count ≠ 1 then
    return p
  else if lock then
    if (← p.useCount r) = 0 then p.release r else return p
  else
    p.release r

/-! ## Well-formed pools -/

/-- Every address is fresh or was handed out, no two entries are equal, every entry carries its
own hash, and the empty entry is there. -/
structure WF (p : DataPool) : Prop where
  fresh : ∀ r, p.fresh ≤ r → p.mData r = none
  distinct : ∀ {r r' k k'}, p.mData r = some k → p.mData r' = some k' → k.eq k' → r = r'
  hashed : ∀ {r k}, p.mData r = some k → k.hash = computeHash k.value
  empty : ∃ k, p.mData p.icaseEmpty = some k ∧ k.value = []

/-- The empty entry is the only one at first. -/
theorem init_mData {r : Ref} {k : IcaseKey} (h : init.mData r = some k) :
    r = 0 ∧ k = IcaseKey.ofText [] := by
  by_cases hr : r = 0
  · subst hr; cases h; exact ⟨rfl, rfl⟩
  · simp [init, Function.update_of_ne hr] at h

theorem wf_init : init.WF where
  fresh r hr := by simp [init, Function.update_of_ne (Nat.ne_of_gt hr)]
  distinct h h' _ := (init_mData h).1.trans (init_mData h').1.symm
  hashed h := by rw [(init_mData h).2]; rfl
  empty := ⟨_, rfl, rfl⟩

variable {p : DataPool} {r r' : Ref} {k k' : IcaseKey}

@[simp] theorem put_self : (p.put r k).mData r = some k := Function.update_self ..

theorem put_of_ne (h : r' ≠ r) : (p.put r k).mData r' = p.mData r' := Function.update_of_ne h ..

@[simp] theorem put_icaseEmpty : (p.put r k).icaseEmpty = p.icaseEmpty := rfl

theorem lt_fresh (hp : p.WF) (hk : p.mData r = some k) : r < p.fresh := by
  by_contra h
  rw [hp.fresh r (Nat.le_of_not_lt h)] at hk
  cases hk

/-- The entry at `r` still has its hash and text; its counter may have moved. -/
def Keeps (p p' : DataPool) (r : Ref) : Prop :=
  ∀ k, p.mData r = some k → ∃ n, p'.mData r = some { k with refcount := n }

/-- Moving the counter of an entry keeps every entry. -/
theorem keeps_put (hk : p.mData r = some k) (n : ℕ) (r' : Ref) :
    Keeps p (p.put r { k with refcount := n }) r' := by
  intro k' hk'
  by_cases h : r' = r
  · subst h
    rw [hk, Option.some.injEq] at hk'
    exact ⟨n, by rw [put_self, hk']⟩
  · exact ⟨k'.refcount, by rw [put_of_ne h]; exact hk'⟩

/-- Moving a counter keeps the pool well formed. -/
theorem WF.put (hp : p.WF) (hk : p.mData r = some k) (n : ℕ) :
    (p.put r { k with refcount := n }).WF := by
  -- Every entry of the new pool has hash and text of the one that was there.
  have hold : ∀ {s l}, (p.put r { k with refcount := n }).mData s = some l →
      ∃ l', p.mData s = some l' ∧ l'.hash = l.hash ∧ l'.value = l.value := by
    intro s l hl
    by_cases h : s = r
    · subst h
      rw [put_self, Option.some.injEq] at hl
      exact ⟨k, hk, by rw [← hl], by rw [← hl]⟩
    · rw [put_of_ne h] at hl
      exact ⟨l, hl, rfl, rfl⟩
  refine ⟨fun s hs => ?_, fun {s s' l l'} hl hl' heq => ?_, fun {s l} hl => ?_, ?_⟩
  · have hsr : s ≠ r := by rintro rfl; exact absurd (lt_fresh hp hk) (Nat.not_lt.2 hs)
    rw [put_of_ne hsr]; exact hp.fresh s hs
  · obtain ⟨m, hm, hmv⟩ := hold hl
    obtain ⟨m', hm', hmv'⟩ := hold hl'
    exact hp.distinct hm hm' (by rwa [IcaseKey.eq_congr hmv hmv'])
  · obtain ⟨m, hm, h₁, h₂⟩ := hold hl
    rw [← h₁, ← h₂]; exact hp.hashed hm
  · obtain ⟨e, he, hev⟩ := hp.empty
    obtain ⟨m, hm⟩ := keeps_put hk n p.icaseEmpty e he
    exact ⟨_, hm, hev⟩

/-! ## Lookup -/

theorem find_some (h : p.find k = some r) : ∃ k', p.mData r = some k' ∧ k.eq k' := by
  have := List.find?_some h
  cases hr : p.mData r with
  | none => simp [hr] at this
  | some k' => exact ⟨k', rfl, by simpa [hr] using this⟩

theorem find_none (hp : p.WF) (h : p.find k = none) (hr : p.mData r = some k') : ¬ k.eq k' := by
  have := List.find?_eq_none.1 h r (List.mem_range.2 (lt_fresh hp hr))
  simpa [hr] using this

/-- An entry finds itself. -/
theorem WF.find_eq (hp : p.WF) (hr : p.mData r = some k) : p.find k = some r := by
  cases h : p.find k with
  | none => exact absurd (IcaseKey.eq_refl k) (find_none hp h hr)
  | some s =>
    obtain ⟨l, hl, heq⟩ := find_some h
    rw [hp.distinct hr hl heq]

/-! ## The primitives on well-formed pools -/

theorem incRefcount_eq (hk : p.mData r = some k) :
    p.incRefcount r = .ok (p.put r { k with refcount := k.refcount + 1 }) := by
  simp [incRefcount, hk]

theorem decRefcount_eq (hk : p.mData r = some k) :
    p.decRefcount r = .ok (k.refcount, p.put r { k with refcount := k.refcount - 1 }) := by
  simp [decRefcount, hk]

theorem useCount_eq (hk : p.mData r = some k) : p.useCount r = .ok k.refcount := by
  simp [useCount, hk]

/-- The pool without the entry at `r`. -/
def remove (p : DataPool) (r : Ref) : DataPool := { p with mData := Function.update p.mData r none }

@[simp] theorem remove_self : (p.remove r).mData r = none := Function.update_self ..

theorem remove_of_ne (h : r' ≠ r) : (p.remove r).mData r' = p.mData r' := Function.update_of_ne h ..

/-- Releasing an entry that is there erases that entry and nothing else. -/
theorem WF.release_eq (hp : p.WF) (hk : p.mData r = some k) : p.release r = .ok (p.remove r) := by
  simp [release, hk, erase, hp.find_eq hk, remove]

theorem WF.remove (hp : p.WF) (hr : r ≠ p.icaseEmpty) : (p.remove r).WF := by
  have hold : ∀ {s l}, (p.remove r).mData s = some l → p.mData s = some l := by
    intro s l hl
    by_cases h : s = r
    · subst h; rw [remove_self] at hl; cases hl
    · rwa [remove_of_ne h] at hl
  refine ⟨fun s hs => ?_, fun hl hl' => hp.distinct (hold hl) (hold hl'),
    fun hl => hp.hashed (hold hl), ?_⟩
  · by_cases h : s = r
    · subst h; exact remove_self
    · rw [remove_of_ne h]; exact hp.fresh s hs
  · obtain ⟨e, he, hev⟩ := hp.empty
    exact ⟨e, by rw [← he]; exact remove_of_ne hr.symm, hev⟩

/-- **What `insert` does.** It returns an entry equal to the text: the one that was there, or a
new one with counter zero at an address not used before. No other entry changes. -/
theorem WF.insert (hp : p.WF) (s : Bytes) :
    let q := p.insert (computeHash s) s
    q.1.WF ∧ q.1.icaseEmpty = p.icaseEmpty ∧
      (∃ k, q.1.mData q.2 = some k ∧ (IcaseKey.ofText s).eq k) ∧
      ((q.1 = p) ∨ (p.mData q.2 = none ∧ q.1.mData q.2 = some (IcaseKey.ofText s) ∧
        ∀ r ≠ q.2, q.1.mData r = p.mData r)) := by
  intro q
  cases h : p.find (IcaseKey.ofText s) with
  | some r =>
    have hq : q = (p, r) := by
      change p.insert _ _ = _
      unfold DataPool.insert
      rw [show p.find ⟨computeHash s, s, 0⟩ = some r from h]
    rw [hq]
    exact ⟨hp, rfl, find_some h, Or.inl rfl⟩
  | none =>
    have hq : q = ({ p.put p.fresh (IcaseKey.ofText s) with fresh := p.fresh + 1 }, p.fresh) := by
      change p.insert _ _ = _
      unfold DataPool.insert
      rw [show p.find ⟨computeHash s, s, 0⟩ = none from h]
      rfl
    have hfresh : p.mData p.fresh = none := hp.fresh _ le_rfl
    have hself : q.1.mData q.2 = some (IcaseKey.ofText s) := by rw [hq]; exact put_self
    have hother : ∀ r ≠ q.2, q.1.mData r = p.mData r := by
      rw [hq]; exact fun r hr => put_of_ne hr
    have hnew : ∀ {r k}, p.mData r = some k → ¬ (IcaseKey.ofText s).eq k :=
      fun hr => find_none hp h hr
    refine ⟨⟨fun r hr => ?_, fun {r r' k k'} hk hk' heq => ?_, fun {r k} hk => ?_, ?_⟩,
      by rw [hq]; rfl, ⟨_, hself, IcaseKey.eq_refl _⟩,
      Or.inr ⟨by rw [hq]; exact hfresh, hself, hother⟩⟩
    · have hle : p.fresh + 1 ≤ r := by rw [hq] at hr; exact hr
      have hne : r ≠ q.2 := by rw [hq]; exact Nat.ne_of_gt hle
      rw [hother r hne]
      exact hp.fresh r (Nat.le_of_succ_le hle)
    · by_cases hr : r = q.2 <;> by_cases hr' : r' = q.2
      · rw [hr, hr']
      · subst hr
        rw [hself, Option.some.injEq] at hk
        rw [hother r' hr'] at hk'
        exact absurd (hk ▸ heq) (hnew hk')
      · subst hr'
        rw [hself, Option.some.injEq] at hk'
        rw [hother r hr] at hk
        exact absurd (IcaseKey.eq_symm (hk' ▸ heq)) (hnew hk)
      · rw [hother r hr] at hk
        rw [hother r' hr'] at hk'
        exact hp.distinct hk hk' heq
    · by_cases hr : r = q.2
      · subst hr
        rw [hself, Option.some.injEq] at hk
        rw [← hk]; rfl
      · rw [hother r hr] at hk
        exact hp.hashed hk
    · obtain ⟨e, he, hev⟩ := hp.empty
      have hne : p.icaseEmpty ≠ q.2 := by
        rw [hq]; exact Nat.ne_of_lt (lt_fresh hp he)
      have hempty : q.1.icaseEmpty = p.icaseEmpty := by rw [hq]; rfl
      exact ⟨e, by rw [hempty, hother _ hne]; exact he, hev⟩

end DataPool

/-! ## Counted pools -/

/-- The pool is well formed, every live handle is on an entry of it, and every entry but the empty
one, which is not counted, counts its handles. -/
structure Counts (p : DataPool) (h : Handles Obj Ref) : Prop where
  wf : p.WF
  valid : ∀ o ∈ h.live, ∃ k, p.mData (h.ref o) = some k
  counted : ∀ {r k}, p.mData r = some k → r ≠ p.icaseEmpty → k.refcount = h.count r
  emptyCount : ∀ {k}, p.mData p.icaseEmpty = some k → k.refcount = 0

namespace Counts

open DataPool

variable {p : DataPool} {h : Handles Obj Ref} {o : Obj} {r : Ref} {k : IcaseKey}

theorem init {ref : Obj → Ref} : Counts DataPool.init ⟨∅, ref⟩ where
  wf := wf_init
  valid o ho := by simp at ho
  counted hk hr := absurd (init_mData hk).1 hr
  emptyCount hk := by rw [(init_mData hk).2]; rfl

/-- A handle on the empty entry needs no counting. -/
theorem setEmpty (hc : Counts p h) (ho : o ∉ h.live) : Counts p (h.set o p.icaseEmpty) where
  wf := hc.wf
  valid x hx := by
    by_cases hxo : x = o
    · subst hxo
      obtain ⟨k, hk, -⟩ := hc.wf.empty
      exact ⟨k, by rw [Handles.ref_set_self]; exact hk⟩
    · rw [Handles.ref_set_of_ne hxo]
      exact hc.valid x ((Handles.mem_live_set.1 hx).resolve_left hxo)
  counted hk hr := by rw [Handles.count_set_of_ne ho hr]; exact hc.counted hk hr
  emptyCount := hc.emptyCount

theorem dropEmpty (hc : Counts p h) (ho : o ∈ h.live) (hr : h.ref o = p.icaseEmpty) :
    Counts p (h.drop o) where
  wf := hc.wf
  valid x hx := hc.valid x (Handles.mem_live_drop.1 hx).2
  counted hk hne := by rw [Handles.count_drop_of_ne ho (hr ▸ hne)]; exact hc.counted hk hne
  emptyCount := hc.emptyCount

/-- `inc_refcount` makes room for one more handle. -/
theorem inc (hc : Counts p h) (ho : o ∉ h.live) (hk : p.mData r = some k) (hr : r ≠ p.icaseEmpty) :
    Counts (p.put r { k with refcount := k.refcount + 1 }) (h.set o r) where
  wf := hc.wf.put hk _
  valid x hx := by
    by_cases hxo : x = o
    · subst hxo; exact ⟨_, by rw [Handles.ref_set_self, put_self]⟩
    · rw [Handles.ref_set_of_ne hxo]
      obtain ⟨l, hl⟩ := hc.valid x ((Handles.mem_live_set.1 hx).resolve_left hxo)
      obtain ⟨n, hn⟩ := keeps_put hk (k.refcount + 1) (h.ref x) l hl
      exact ⟨_, hn⟩
  counted {s l} hl hs := by
    by_cases hsr : s = r
    · subst hsr
      rw [put_self, Option.some.injEq] at hl
      rw [Handles.count_set_self ho, ← hc.counted hk hr, ← hl]
    · rw [put_of_ne hsr] at hl
      rw [Handles.count_set_of_ne ho hsr]
      exact hc.counted hl hs
  emptyCount {l} hl := by
    rw [put_icaseEmpty, put_of_ne hr.symm] at hl
    exact hc.emptyCount hl

/-- `dec_refcount` ends one handle. -/
theorem dec (hc : Counts p h) (ho : o ∈ h.live) (hk : p.mData (h.ref o) = some k)
    (hr : h.ref o ≠ p.icaseEmpty) :
    Counts (p.put (h.ref o) { k with refcount := k.refcount - 1 }) (h.drop o) where
  wf := hc.wf.put hk _
  valid x hx := by
    obtain ⟨l, hl⟩ := hc.valid x (Handles.mem_live_drop.1 hx).2
    obtain ⟨n, hn⟩ := keeps_put hk (k.refcount - 1) (h.ref x) l hl
    exact ⟨_, hn⟩
  counted {s l} hl hs := by
    by_cases hsr : s = h.ref o
    · subst hsr
      rw [put_self, Option.some.injEq] at hl
      have hcnt := hc.counted hk hr
      have hdrop := Handles.count_drop_self ho
      rw [← hl]
      change k.refcount - 1 = _
      omega
    · rw [put_of_ne hsr] at hl
      rw [Handles.count_drop_of_ne ho hsr]
      exact hc.counted hl hs
  emptyCount {l} hl := by
    rw [put_icaseEmpty, put_of_ne hr.symm] at hl
    exact hc.emptyCount hl

/-- A handle is handed over from one object to another. -/
theorem steal {src : Obj} (hc : Counts p h) (hsrc : src ∈ h.live) (ho : o ∉ h.live) :
    Counts p ((h.drop src).set o (h.ref src)) where
  wf := hc.wf
  valid q hq := by
    by_cases hqo : q = o
    · subst hqo; rw [Handles.ref_set_self]; exact hc.valid src hsrc
    · rw [Handles.ref_set_of_ne hqo]
      exact hc.valid q (Handles.mem_live_drop.1 ((Handles.mem_live_set.1 hq).resolve_left hqo)).2
  counted hk hr := by rw [Handles.count_drop_set hsrc ho]; exact hc.counted hk hr
  emptyCount := hc.emptyCount

/-- Erasing an entry nobody refers to. -/
theorem remove (hc : Counts p h) (hr : r ≠ p.icaseEmpty) (h0 : h.count r = 0) :
    Counts (p.remove r) h where
  wf := hc.wf.remove hr
  valid x hx := by
    obtain ⟨l, hl⟩ := hc.valid x hx
    exact ⟨l, by rw [remove_of_ne (Handles.count_eq_zero.1 h0 x hx)]; exact hl⟩
  counted {s l} hl hs := by
    by_cases hsr : s = r
    · subst hsr; rw [remove_self] at hl; cases hl
    · rw [remove_of_ne hsr] at hl; exact hc.counted hl hs
  emptyCount {l} hl := by
    rw [show (p.remove r).icaseEmpty = p.icaseEmpty from rfl, remove_of_ne hr.symm] at hl
    exact hc.emptyCount hl

/-- An address without an entry has no handles. -/
theorem count_of_none (hc : Counts p h) (hr : p.mData r = none) : h.count r = 0 :=
  Handles.count_eq_zero.2 fun x hx e => by
    obtain ⟨k, hk⟩ := hc.valid x hx
    rw [e, hr] at hk
    cases hk

theorem insert (hc : Counts p h) (s : Bytes) : Counts (p.insert (computeHash s) s).1 h := by
  obtain ⟨hwf, hempty, -, hsame | ⟨hnone, hself, hother⟩⟩ := hc.wf.insert s
  · rw [hsame]; exact hc
  · set q := p.insert (computeHash s) s
    refine ⟨hwf, fun x hx => ?_, fun {r l} hl hr => ?_, fun {l} hl => ?_⟩
    · obtain ⟨k, hk⟩ := hc.valid x hx
      have hne : h.ref x ≠ q.2 := fun e => by rw [e, hnone] at hk; cases hk
      exact ⟨k, by rw [hother _ hne]; exact hk⟩
    · by_cases hrq : r = q.2
      · subst hrq
        rw [hself, Option.some.injEq] at hl
        rw [hc.count_of_none hnone, ← hl]; rfl
      · rw [hother r hrq] at hl
        exact hc.counted hl (hempty ▸ hr)
    · obtain ⟨e, he, -⟩ := hc.wf.empty
      have hne : p.icaseEmpty ≠ q.2 := fun e' => by rw [e', hnone] at he; cases he
      rw [hempty, hother _ hne] at hl
      exact hc.emptyCount hl

/-- **Giving up a handle.** Both variants of `try_release` end with a counted pool on the other
handles, and erase the entry exactly when nobody refers to it any more. -/
theorem tryRelease (hc : Counts p h) (ho : o ∈ h.live) (hr : h.ref o ≠ p.icaseEmpty) (lock : Bool) :
    ∃ p', p.tryRelease lock (h.ref o) = .ok p' ∧ Counts p' (h.drop o) ∧
      p'.icaseEmpty = p.icaseEmpty ∧
      (∀ k, p'.mData (h.ref o) = some k → 0 < (h.drop o).count (h.ref o)) ∧
      ((h.drop o).count (h.ref o) ≠ 0 → Keeps p p' (h.ref o)) ∧
      (∀ r ≠ h.ref o, p'.mData r = p.mData r) := by
  obtain ⟨k, hk⟩ := hc.valid o ho
  have hdec := hc.dec ho hk hr
  have hcnt := hc.counted hk hr
  have hdrop := Handles.count_drop_self ho
  set q := p.put (h.ref o) { k with refcount := k.refcount - 1 }
  have hq : q.mData (h.ref o) = some { k with refcount := k.refcount - 1 } := put_self
  by_cases h1 : k.refcount = 1
  · -- The last handle: the counter is zero, so both variants erase.
    have h0 : (h.drop o).count (h.ref o) = 0 := by omega
    refine ⟨q.remove (h.ref o), ?_, hdec.remove hr h0, rfl, fun l hl => ?_, fun h => absurd h0 h,
      fun r hne => by rw [remove_of_ne hne, put_of_ne hne]⟩
    · have huse : q.useCount (h.ref o) = .ok 0 := by rw [useCount_eq hq, h1]
      have hrel := hdec.wf.release_eq hq
      unfold DataPool.tryRelease
      rw [decRefcount_eq hk]
      change (if k.refcount ≠ 1 then pure q else if lock then do
          if (← q.useCount (h.ref o)) = 0 then q.release (h.ref o) else return q
        else q.release (h.ref o)) = _
      rw [if_neg (not_not.2 h1)]
      cases lock
      · exact hrel
      · rw [if_pos rfl, huse]; exact hrel
    · rw [remove_self] at hl; cases hl
  · have h0 : 0 < (h.drop o).count (h.ref o) := by
      have := Handles.count_pos ho
      omega
    refine ⟨q, ?_, hdec, rfl, fun _ _ => h0, fun _ => keeps_put hk _ _, fun r hne => put_of_ne hne⟩
    unfold DataPool.tryRelease
    rw [decRefcount_eq hk]
    exact if_pos h1

end Counts

end SseExt
