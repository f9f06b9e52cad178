import Mathlib.Data.Finset.Card
import Mathlib.Data.Finset.Range
import Mathlib.Data.List.Nodup
import Mathlib.Data.Nat.Basic
import SseExt.Lib.Ends

/-!
# `EventDispatcher`

`SendEvent` is a range `for` over `m_sinks`: `begin` and `end` are computed once, and the calls of
`Receive` may add and remove sinks in between.

**Theorem (`sendEvent_iff`).** A dispatch stays inside the vector and reaches every sink that is
registered throughout exactly once if and only if every `Receive` is `Harmless`: it adds no new sink
to a full vector, it leaves as many sinks as the loop still needs, and it leaves the sinks that stay
behind the position of the loop.

A sink that stays only moves towards the front. So it meets the position of the loop once, or is
carried past it.
-/

namespace SseExt

/-- `m_sinks`, with the capacity of the vector and the buffer it is in. -/
structure EventDispatcher (S : Type*) where
  sinks : List S
  nodup : sinks.Nodup
  capacity : ℕ
  fits : sinks.length ≤ capacity
  /-- Another number after each reallocation. -/
  buffer : ℕ

namespace EventDispatcher

variable {S : Type*} [DecidableEq S]

/-! ## The code -/

/-- `AddSink`, the vector growing by half. -/
def addSink (d : EventDispatcher S) (s : S) : EventDispatcher S :=
  if hs : s ∈ d.sinks then d
  else
    have hnodup : (d.sinks ++ [s]).Nodup := List.nodup_append.2 ⟨d.nodup, List.nodup_singleton s,
      fun a ha b hb => by
        rintro rfl
        exact hs (List.mem_singleton.1 hb ▸ ha)⟩
    if hroom : d.sinks.length < d.capacity then
      { d with
        sinks := d.sinks ++ [s]
        nodup := hnodup
        fits := by rw [List.length_append]; exact hroom }
    else
      { sinks := d.sinks ++ [s]
        nodup := hnodup
        capacity := max (d.capacity + d.capacity / 2) (d.sinks.length + 1)
        fits := by rw [List.length_append]; exact le_max_right _ _
        buffer := d.buffer + 1 }

/-- `RemoveSink` -/
def removeSink (d : EventDispatcher S) (s : S) : EventDispatcher S :=
  { d with
    sinks := d.sinks.erase s
    nodup := d.nodup.erase s
    fits := List.length_erase_le.trans d.fits }

/-- What a `Receive` may call. -/
inductive Op (S : Type*) where
  | addSink (s : S)
  | removeSink (s : S)

def exec (d : EventDispatcher S) : Op S → EventDispatcher S
  | .addSink s => d.addSink s
  | .removeSink s => d.removeSink s

def execAll (d : EventDispatcher S) (ops : List (Op S)) : EventDispatcher S := ops.foldl exec d

/-- What an iterator is used for against the rules. -/
inductive Fault where
  | pastEnd
  | invalidated

/-- The element of an iterator at `pos` of a buffer. Advancing the iterator asks for one, too. -/
def deref (d : EventDispatcher S) (buffer pos : ℕ) : Except Fault S :=
  if d.buffer ≠ buffer then .error .invalidated
  else
    match d.sinks[pos]? with
    | none => .error .pastEnd
    | some e => .ok e

/-- The loop of `SendEvent` with `left` positions to go. The `Receive` at a position makes the calls
`calls pos`; the result is the sinks that received the event. -/
def sendFrom (calls : ℕ → List (Op S)) (buffer : ℕ) :
    ℕ → ℕ → EventDispatcher S → Except Fault (List S × EventDispatcher S)
  | 0, _, d => .ok ([], d)
  | left + 1, pos, d => do
    let e ← d.deref buffer pos
    let d' := d.execAll (calls pos)
    let _ ← d'.deref buffer pos
    let rest ← sendFrom calls buffer left (pos + 1) d'
    return (e :: rest.1, rest.2)

/-- `SendEvent` -/
def sendEvent (d : EventDispatcher S) (calls : ℕ → List (Op S)) :
    Except Fault (List S × EventDispatcher S) :=
  sendFrom calls d.buffer d.sinks.length 0 d

/-! ## The defect -/

/-- Two sinks, the first of which unregisters itself. -/
def pair : EventDispatcher ℕ := ⟨[1, 2], by decide, 2, by decide, 0⟩

def once : ℕ → List (Op ℕ)
  | 0 => [.removeSink 1]
  | _ => []

/-- **The loop runs past the end** when a sink unregisters itself. -/
theorem removed_self_pastEnd : pair.sendEvent once = .error .pastEnd := rfl

/-! ## Single calls -/

/-- No new sink is added to a full vector. -/
def Roomy (d : EventDispatcher S) : List (Op S) → Prop
  | [] => True
  | op :: ops =>
    (∀ s, op = .addSink s → s ∉ d.sinks → d.sinks.length < d.capacity) ∧ (d.exec op).Roomy ops

variable {d : EventDispatcher S} {s : S} {op : Op S} {ops : List (Op S)}

theorem exec_cases (d : EventDispatcher S) (op : Op S) :
    (∃ s, op = .addSink s ∧ s ∈ d.sinks ∧ d.exec op = d) ∨
    (∃ s, op = .addSink s ∧ s ∉ d.sinks ∧ (d.exec op).sinks = d.sinks ++ [s] ∧
      (d.exec op).buffer = if d.sinks.length < d.capacity then d.buffer else d.buffer + 1) ∨
    ∃ s, op = .removeSink s ∧ (d.exec op).sinks = d.sinks.erase s ∧
      (d.exec op).buffer = d.buffer := by
  cases op with
  | removeSink s => exact .inr (.inr ⟨s, rfl, rfl, rfl⟩)
  | addSink s =>
    by_cases hs : s ∈ d.sinks
    · exact .inl ⟨s, rfl, hs, dif_pos hs⟩
    · refine .inr (.inl ⟨s, rfl, hs, ?_⟩)
      simp only [exec, addSink, dif_neg hs]
      split_ifs with hroom
      · exact ⟨rfl, rfl⟩
      · exact ⟨rfl, rfl⟩

theorem buffer_le_execAll (d : EventDispatcher S) (ops : List (Op S)) :
    d.buffer ≤ (d.execAll ops).buffer := by
  induction ops generalizing d with
  | nil => exact le_rfl
  | cons op ops ih =>
    refine le_trans ?_ (ih (d.exec op))
    rcases exec_cases d op with ⟨s, -, -, h⟩ | ⟨s, -, -, -, h⟩ | ⟨s, -, -, h⟩
    · rw [h]
    · rw [h]
      split_ifs <;> omega
    · rw [h]

/-- **Reallocation** is adding to a full vector. -/
theorem buffer_execAll_iff (d : EventDispatcher S) (ops : List (Op S)) :
    (d.execAll ops).buffer = d.buffer ↔ d.Roomy ops := by
  induction ops generalizing d with
  | nil => exact iff_of_true rfl trivial
  | cons op ops ih =>
    have hle := buffer_le_execAll (d.exec op) ops
    have hexec : (d.execAll (op :: ops)) = (d.exec op).execAll ops := rfl
    have hbuffer : (d.exec op).buffer = d.buffer ↔
        ∀ s, op = .addSink s → s ∉ d.sinks → d.sinks.length < d.capacity := by
      rcases exec_cases d op with ⟨s, rfl, hs, h⟩ | ⟨s, rfl, hs, -, h⟩ | ⟨s, rfl, -, h⟩
      · refine iff_of_true (by rw [h]) fun t ht hmem => ?_
        cases ht
        exact absurd hs hmem
      · rw [h]
        constructor
        · intro heq t _ _
          by_contra hfull
          rw [if_neg hfull] at heq
          omega
        · intro hroom
          rw [if_pos (hroom s rfl hs)]
      · exact iff_of_true h fun t ht => nomatch ht
    have hstep : d.buffer ≤ (d.exec op).buffer := buffer_le_execAll d [op]
    rw [hexec, Roomy, ← hbuffer, ← ih]
    omega

theorem idxOf_erase_le {s t : S} (hne : s ≠ t) (l : List S) :
    (l.erase t).idxOf s ≤ l.idxOf s := by
  induction l with
  | nil => exact le_rfl
  | cons a l ih =>
    by_cases hat : a = t
    · rw [hat, List.erase_cons_head, List.idxOf_cons_ne _ hne.symm]
      exact Nat.le_succ _
    · rw [List.erase_cons_tail (by simpa using hat)]
      by_cases has : a = s
      · rw [List.idxOf_cons_eq _ has]
        exact Nat.zero_le _
      · rw [List.idxOf_cons_ne _ has, List.idxOf_cons_ne _ has]
        exact Nat.succ_le_succ ih

/-- A sink that is not removed stays, and only moves towards the front. -/
theorem exec_idxOf_le (hs : s ∈ d.sinks) (hop : op ≠ .removeSink s) :
    s ∈ (d.exec op).sinks ∧ (d.exec op).sinks.idxOf s ≤ d.sinks.idxOf s := by
  rcases exec_cases d op with ⟨t, -, -, h⟩ | ⟨t, -, -, h, -⟩ | ⟨t, rfl, h, -⟩
  · rw [h]
    exact ⟨hs, le_rfl⟩
  · rw [h, List.idxOf_append_of_mem hs]
    exact ⟨List.mem_append_left _ hs, le_rfl⟩
  · have hne : s ≠ t := by
      rintro rfl
      exact hop rfl
    rw [h]
    exact ⟨(List.mem_erase_of_ne hne).2 hs, idxOf_erase_le hne _⟩

theorem execAll_idxOf_le (hs : s ∈ d.sinks) (hops : .removeSink s ∉ ops) :
    s ∈ (d.execAll ops).sinks ∧ (d.execAll ops).sinks.idxOf s ≤ d.sinks.idxOf s := by
  induction ops generalizing d with
  | nil => exact ⟨hs, le_rfl⟩
  | cons op ops ih =>
    rw [List.mem_cons, not_or] at hops
    obtain ⟨hmem, hle⟩ := exec_idxOf_le hs (Ne.symm hops.1)
    obtain ⟨hmem', hle'⟩ := ih hmem hops.2
    exact ⟨hmem', hle'.trans hle⟩

/-! ## The loop -/

/-- The dispatcher behind the calls at the first `k` positions. -/
def after (d : EventDispatcher S) (calls : ℕ → List (Op S)) : ℕ → EventDispatcher S
  | 0 => d
  | k + 1 => (d.after calls k).execAll (calls k)

/-- The element at `pos` can be used before and behind the calls made there. -/
def Usable (d : EventDispatcher S) (calls : ℕ → List (Op S)) (buffer pos : ℕ) : Prop :=
  ((d.after calls pos).buffer = buffer ∧ pos < (d.after calls pos).sinks.length) ∧
    (d.after calls (pos + 1)).buffer = buffer ∧ pos < (d.after calls (pos + 1)).sinks.length

variable {calls : ℕ → List (Op S)} {buffer pos left n k : ℕ}

omit [DecidableEq S] in
theorem deref_eq (hb : d.buffer = buffer) (hpos : pos < d.sinks.length) :
    d.deref buffer pos = .ok d.sinks[pos] := by
  rw [deref, if_neg (not_not.2 hb), List.getElem?_eq_getElem hpos]

omit [DecidableEq S] in
theorem of_deref {e : S} (h : d.deref buffer pos = .ok e) :
    d.buffer = buffer ∧ pos < d.sinks.length := by
  unfold deref at h
  split_ifs at h with hb
  split at h
  · cases h
  · rename_i x hx
    exact ⟨not_not.1 hb, (List.getElem?_eq_some_iff.1 hx).1⟩

theorem sendFrom_eq (h : ∀ k, pos ≤ k → k < pos + left → d.Usable calls buffer k) :
    ∃ d', sendFrom calls buffer left pos (d.after calls pos) =
      .ok ((List.range' pos left).filterMap fun k => (d.after calls k).sinks[k]?, d') := by
  induction left generalizing pos with
  | zero => exact ⟨_, rfl⟩
  | succ left ih =>
    obtain ⟨⟨hb, hpos⟩, hb', hpos'⟩ := h pos le_rfl (by omega)
    obtain ⟨d', hrest⟩ := @ih (pos + 1) fun k hk hlt => h k (by omega) (by omega)
    have hnext : (d.after calls pos).execAll (calls pos) = d.after calls (pos + 1) := rfl
    refine ⟨d', ?_⟩
    simp only [sendFrom, deref_eq hb hpos, hnext, deref_eq hb' hpos', hrest]
    rw [List.range'_succ, List.filterMap_cons, List.getElem?_eq_getElem hpos]
    rfl

theorem usable_of_sendFrom {r : List S × EventDispatcher S}
    (h : sendFrom calls buffer left pos (d.after calls pos) = .ok r) :
    ∀ k, pos ≤ k → k < pos + left → d.Usable calls buffer k := by
  induction left generalizing pos r with
  | zero =>
    intro k hk hlt
    omega
  | succ left ih =>
    intro k hk hlt
    obtain ⟨e, hfirst, h⟩ := exists_of_bind_eq_ok h
    obtain ⟨e', hsecond, h⟩ := exists_of_bind_eq_ok h
    obtain ⟨rest, hrest, -⟩ := exists_of_bind_eq_ok h
    rcases Nat.eq_or_lt_of_le hk with rfl | hk'
    · exact ⟨of_deref hfirst, of_deref hsecond⟩
    · exact ih hrest k hk' (by omega)

/-- The positions of a dispatch are usable as long as nothing is reallocated and enough sinks are
left. -/
theorem usable_iff (d : EventDispatcher S) (calls : ℕ → List (Op S)) :
    (∀ k < d.sinks.length, d.Usable calls d.buffer k) ↔
      ∀ k < d.sinks.length, (d.after calls k).Roomy (calls k) ∧
        min (k + 2) d.sinks.length ≤ (d.after calls (k + 1)).sinks.length := by
  constructor
  · intro h k hk
    obtain ⟨⟨hb, -⟩, hb', hlt'⟩ := h k hk
    refine ⟨(buffer_execAll_iff _ _).1 (hb'.trans hb.symm), ?_⟩
    by_cases hnext : k + 1 < d.sinks.length
    · have hlt : k + 1 < (d.after calls (k + 1)).sinks.length := (h (k + 1) hnext).1.2
      omega
    · omega
  · intro h
    have hbuffer : ∀ k ≤ d.sinks.length, (d.after calls k).buffer = d.buffer := by
      intro k hk
      induction k with
      | zero => rfl
      | succ k ih =>
        rw [after, (buffer_execAll_iff _ _).2 (h k hk).1]
        exact ih (by omega)
    have hlength : ∀ k < d.sinks.length, k < (d.after calls k).sinks.length := by
      intro k hk
      cases k with
      | zero => exact hk
      | succ k =>
        have hmin := (h k (by omega)).2
        omega
    intro k hk
    have hmin := (h k hk).2
    exact ⟨⟨hbuffer k hk.le, hlength k hk⟩, hbuffer (k + 1) hk, by omega⟩

/-! ## Positions that go down -/

theorem le_of_steps {p : ℕ → ℕ} (hp : ∀ k < n, p (k + 1) ≤ p k) {j : ℕ} (hjk : j ≤ k)
    (hk : k ≤ n) : p k ≤ p j := by
  induction k, hjk using Nat.le_induction with
  | base => exact le_rfl
  | succ k _ ih => exact (hp k hk).trans (ih (by omega))

/-- A number that does not grow meets the counter at most once. -/
theorem meets_unique {p : ℕ → ℕ} (hp : ∀ k < n, p (k + 1) ≤ p k) {j : ℕ} (hj : j < n) (hk : k < n)
    (hpj : p j = j) (hpk : p k = k) : j = k := by
  rcases Nat.le_total j k with hle | hle
  · have hdown := le_of_steps hp hle hk.le
    omega
  · have hdown := le_of_steps hp hle hj.le
    omega

/-- If it starts below `n`, it meets the counter unless it drops from above the counter to the
counter or below. -/
theorem meets_iff {p : ℕ → ℕ} (hp : ∀ k < n, p (k + 1) ≤ p k) (h0 : p 0 < n) :
    (∃ k < n, p k = k) ↔ ∀ k < n, k < p k → k < p (k + 1) := by
  constructor
  · rintro ⟨j, hj, hpj⟩ k hk hlt
    have hkj : k + 1 ≤ j := by
      by_contra hjk
      have hdown := le_of_steps hp (Nat.le_of_not_lt hjk) hk.le
      omega
    have hdown := le_of_steps hp hkj hj.le
    omega
  · intro h
    by_contra hnone
    -- Otherwise it would stay above the counter to the end.
    have habove : ∀ k < n, k < p k := by
      intro k hk
      induction k with
      | zero =>
        have hne : p 0 ≠ 0 := fun heq => hnone ⟨0, hk, heq⟩
        omega
      | succ k ih =>
        have hlt := h k (by omega) (ih (by omega))
        have hne : p (k + 1) ≠ k + 1 := fun heq => hnone ⟨k + 1, hk, heq⟩
        omega
    have hlast := h (n - 1) (by omega) (habove (n - 1) (by omega))
    have hdown := le_of_steps hp (Nat.zero_le (n - 1 + 1)) (by omega)
    omega

theorem countP_range_eq_one_iff {P : ℕ → Bool}
    (huniq : ∀ j < n, ∀ k < n, P j = true → P k = true → j = k) :
    (List.range n).countP P = 1 ↔ ∃ k < n, P k = true := by
  have hpos : 0 < (List.range n).countP P ↔ ∃ k < n, P k = true := by
    simp only [List.countP_pos_iff, List.mem_range]
  have hle : (List.range n).countP P ≤ 1 := by
    rw [List.countP_eq_length_filter]
    have hnodup := List.nodup_range.filter P (l := List.range n)
    have hmem : ∀ k ∈ (List.range n).filter P, k < n ∧ P k = true := by
      intro k hk
      rwa [List.mem_filter, List.mem_range] at hk
    match hfilter : (List.range n).filter P with
    | [] => exact Nat.zero_le _
    | [_] => exact le_rfl
    | a :: b :: rest =>
      rw [hfilter] at hnodup hmem
      obtain ⟨ha, hPa⟩ := hmem a List.mem_cons_self
      obtain ⟨hb, hPb⟩ := hmem b (List.mem_cons_of_mem _ List.mem_cons_self)
      have hne : a ≠ b := by
        rintro rfl
        exact (List.nodup_cons.1 hnodup).1 List.mem_cons_self
      exact absurd (huniq a ha b hb hPa hPb) hne
  rw [← hpos]
  omega

/-! ## Deliveries -/

/-- Registered from before the dispatch until its end. -/
def Stays (d : EventDispatcher S) (calls : ℕ → List (Op S)) (s : S) : Prop :=
  s ∈ d.sinks ∧ ∀ k < d.sinks.length, .removeSink s ∉ calls k

theorem Stays.mem_after (h : d.Stays calls s) (hk : k ≤ d.sinks.length) :
    s ∈ (d.after calls k).sinks := by
  induction k with
  | zero => exact h.1
  | succ k ih => exact (execAll_idxOf_le (ih (by omega)) (h.2 k hk)).1

theorem Stays.idxOf_after (h : d.Stays calls s) (hk : k < d.sinks.length) :
    (d.after calls (k + 1)).sinks.idxOf s ≤ (d.after calls k).sinks.idxOf s :=
  (execAll_idxOf_le (h.mem_after hk.le) (h.2 k hk)).2

theorem getElem?_eq_some_iff_idxOf (hs : s ∈ d.sinks) :
    d.sinks[k]? = some s ↔ d.sinks.idxOf s = k := by
  constructor
  · intro h
    obtain ⟨hk, rfl⟩ := List.getElem?_eq_some_iff.1 h
    exact d.nodup.idxOf_getElem k hk
  · rintro rfl
    exact List.getElem?_idxOf hs

theorem mem_drop_iff_idxOf (hs : s ∈ d.sinks) : s ∈ d.sinks.drop k ↔ k ≤ d.sinks.idxOf s := by
  rw [← not_lt, ← List.mem_take_iff_idxOf_lt hs]
  constructor
  · intro hdrop htake
    exact List.disjoint_take_drop d.nodup le_rfl htake hdrop
  · intro htake
    rw [← List.take_append_drop k d.sinks, List.mem_append] at hs
    exact hs.resolve_left htake

/-- The sinks that receive the event of a dispatch that stays inside the vector. -/
def received (d : EventDispatcher S) (calls : ℕ → List (Op S)) : List S :=
  (List.range d.sinks.length).filterMap fun k => (d.after calls k).sinks[k]?

/-- A sink that stays receives the event once unless a `Receive` carries it past the loop. -/
theorem Stays.count_received (h : d.Stays calls s) :
    (d.received calls).count s = 1 ↔ ∀ k < d.sinks.length,
      s ∈ (d.after calls k).sinks.drop (k + 1) →
        s ∈ (d.after calls (k + 1)).sinks.drop (k + 1) := by
  let p k := (d.after calls k).sinks.idxOf s
  have hdown : ∀ k < d.sinks.length, p (k + 1) ≤ p k := fun k hk => h.idxOf_after hk
  have hat : ∀ k < d.sinks.length, ((d.after calls k).sinks[k]? == some s) = true ↔ p k = k := by
    intro k hk
    rw [beq_iff_eq, getElem?_eq_some_iff_idxOf (h.mem_after hk.le)]
  rw [received, List.count_filterMap, countP_range_eq_one_iff]
  · trans ∃ k < d.sinks.length, p k = k
    · exact exists_congr fun k => and_congr_right (hat k)
    · rw [meets_iff hdown (List.idxOf_lt_length_of_mem h.1)]
      refine forall_congr' fun k => forall_congr' fun hk => ?_
      rw [mem_drop_iff_idxOf (h.mem_after hk.le), mem_drop_iff_idxOf (h.mem_after hk)]
      rfl
  · intro j hj k hk hPj hPk
    exact meets_unique hdown hj hk ((hat j hj).1 hPj) ((hat k hk).1 hPk)

/-- The calls at position `k` add no new sink to a full vector, leave the sinks that the loop still
needs, and leave behind the loop what stays and was behind it. -/
structure Harmless (d : EventDispatcher S) (calls : ℕ → List (Op S)) (k : ℕ) : Prop where
  roomy : (d.after calls k).Roomy (calls k)
  enough : min (k + 2) d.sinks.length ≤ (d.after calls (k + 1)).sinks.length
  behind : ∀ s, d.Stays calls s → s ∈ (d.after calls k).sinks.drop (k + 1) →
    s ∈ (d.after calls (k + 1)).sinks.drop (k + 1)

/-- **Safe dispatch.** -/
theorem sendEvent_iff (d : EventDispatcher S) (calls : ℕ → List (Op S)) :
    (∃ log d', d.sendEvent calls = .ok (log, d') ∧ ∀ s, d.Stays calls s → log.count s = 1) ↔
      ∀ k < d.sinks.length, d.Harmless calls k := by
  have hloop : (∀ k < d.sinks.length, d.Usable calls d.buffer k) →
      ∃ d', d.sendEvent calls = .ok (d.received calls, d') := by
    intro h
    have hstart : ∀ k, 0 ≤ k → k < 0 + d.sinks.length → d.Usable calls d.buffer k :=
      fun k _ hk => h k (by omega)
    rw [received, List.range_eq_range']
    exact sendFrom_eq hstart
  constructor
  · rintro ⟨log, d', hsend, hcount⟩ k hk
    have husable : ∀ k < d.sinks.length, d.Usable calls d.buffer k :=
      fun k hk => usable_of_sendFrom hsend k (Nat.zero_le k) (by omega)
    obtain ⟨d'', hreceived⟩ := hloop husable
    obtain rfl : log = d.received calls := by
      rw [hreceived] at hsend
      cases hsend
      rfl
    obtain ⟨hroomy, henough⟩ := (usable_iff d calls).1 husable k hk
    exact ⟨hroomy, henough, fun s hs => hs.count_received.1 (hcount s hs) k hk⟩
  · intro h
    obtain ⟨d', hsend⟩ := hloop <| (usable_iff d calls).2 fun k hk =>
      ⟨(h k hk).roomy, (h k hk).enough⟩
    exact ⟨_, d', hsend, fun s hs => hs.count_received.2 fun k hk => (h k hk).behind s hs⟩

end EventDispatcher

end SseExt
