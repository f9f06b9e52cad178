import SseExt.Lib.Chain
import SseExt.Lib.Transition

/-!
# `VTable::Detour`, `Detour2` and `Detour_s` on one slot

Threads hook a slot of a virtual table by any of the three functions. `Detour` and `Detour2`
exchange the slot without a look at it. `Detour2` may be called without a cell; the pointer that was
in the slot is then lost. `Detour_s` tries a compare-exchange until it succeeds, or finds its own
hook in the slot.

The `log` has the exchanges, the last one first, each with whether the hook has a cell. As in
`Detour_s` alone, a pointer in the slot or in a cell is a hook or, as `none`, the original function.

**Theorem (`chain_iff`).** Whenever no call is in progress, following the cells from the slot visits
the hooks of the log, last one first, and comes to the original function, exactly if no hook has
been exchanged twice and every one has a cell.
-/

namespace SseExt.VTable

/-- The three functions; `Detour2` with or without a cell. -/
inductive Hooking where
  | Detour
  | Detour2 (keep : Bool)
  | Detour_s

/-- Where a thread is in one of the functions. -/
inductive Phase (H : Type*) where
  | idle
  | protect (f : Hooking) (newp : H)
  | exchange (newp : H) (keep : Bool)
  | read (newp : H)
  | compare (newp : H) (initial : Option H)
  | compareExchange (newp : H) (initial : Option H)
  | store (newp : H) (old : Option H)
  | restore (r : Bool)

/-- The hook whose cell the thread is about to write. -/
def Phase.storing {H : Type*} : Phase H → Option H
  | .store newp _ => some newp
  | _ => none

/-- What follows once the page can be written. -/
def Hooking.start {H : Type*} (newp : H) : Hooking → Phase H
  | .Detour => .exchange newp true
  | .Detour2 keep => .exchange newp keep
  | .Detour_s => .read newp

/-- The slot, the cells of the hooks, the threads, and the exchanges so far. -/
structure Shared (ι H : Type*) where
  value : Option H
  oldp : H → Option (Option H)
  pc : ι → Phase H
  log : List (H × Bool)

/-- A thread calls one of the functions, `VirtualProtect` returns, or the thread takes another
step. -/
inductive Action (ι H : Type*) where
  | call (t : ι) (f : Hooking) (newp : H)
  | protect (t : ι) (ok : Bool)
  | step (t : ι)

namespace Shared

variable {ι H : Type*} [DecidableEq ι] [DecidableEq H]

def init : Shared ι H := ⟨none, fun _ => none, fun _ => .idle, []⟩

/-- The thread goes to `x`. -/
def goto (s : Shared ι H) (t : ι) (x : Phase H) : Shared ι H :=
  { s with pc := Function.update s.pc t x }

/-- The hook is exchanged for the pointer in the slot. -/
def put (s : Shared ι H) (newp : H) (keep : Bool) : Shared ι H :=
  { s with value := some newp, log := (newp, keep) :: s.log }

/-- The cell of the hook gets the pointer that was in the slot. -/
def keepOld (s : Shared ι H) (newp : H) (old : Option H) : Shared ι H :=
  { s with oldp := Function.update s.oldp newp (some old) }

/-- A step of the thread inside one of the functions. -/
def advance (s : Shared ι H) (t : ι) : Outcome (Shared ι H) Empty :=
  match s.pc t with
  | .exchange newp true => .step ((s.put newp true).goto t (.store newp s.value))
  | .exchange newp false => .step ((s.put newp false).goto t (.restore true))
  | .read newp => .step (s.goto t (.compare newp s.value))
  | .compare newp initial =>
    if initial = some newp then .step (s.goto t (.restore false))
    else .step (s.goto t (.compareExchange newp initial))
  | .compareExchange newp initial =>
    if s.value = initial then .step ((s.put newp true).goto t (.store newp initial))
    else .step (s.goto t (.read newp))
  | .store newp old => .step ((s.keepOld newp old).goto t (.restore true))
  | .restore _ => .step (s.goto t .idle)
  | .idle | .protect _ _ => .blocked

def next (s : Shared ι H) : Action ι H → Outcome (Shared ι H) Empty
  | .call t f newp =>
    match s.pc t with
    | .idle => .step (s.goto t (.protect f newp))
    | _ => .blocked
  | .protect t ok =>
    match s.pc t with
    | .protect f newp => .step (s.goto t (if ok then f.start newp else .idle))
    | _ => .blocked
  | .step t => s.advance t

def machine (ι H : Type*) [DecidableEq ι] [DecidableEq H] :
    Machine (Shared ι H) (Action ι H) Empty :=
  ⟨init, next⟩

/-- No call is in progress. -/
def Quiet (s : Shared ι H) : Prop := ∀ t, s.pc t = .idle

/-- The hooks in the order of their exchanges, last one first. -/
def hooks (s : Shared ι H) : List H := s.log.map Prod.fst

/-- Every exchange was for a hook with a cell. -/
def Kept (s : Shared ι H) : Prop := ∀ e ∈ s.log, e.2 = true

variable {s s' : Shared ι H} {t u : ι} {h newp : H} {x : Phase H} {keep : Bool} {old : Option H}
  {a : Action ι H} {link : H → Option (Option H)}

omit [DecidableEq H] in
@[simp] theorem goto_self (s : Shared ι H) (t : ι) (x : Phase H) : (s.goto t x).pc t = x :=
  Function.update_self ..

omit [DecidableEq H] in
theorem goto_of_ne (hut : u ≠ t) (x : Phase H) : (s.goto t x).pc u = s.pc u :=
  Function.update_of_ne hut ..

omit [DecidableEq ι] [DecidableEq H] in
@[simp] theorem hooks_put (s : Shared ι H) (newp : H) (keep : Bool) :
    (s.put newp keep).hooks = newp :: s.hooks := rfl

omit [DecidableEq ι] [DecidableEq H] in
theorem kept_put : (s.put newp keep).Kept ↔ keep = true ∧ s.Kept :=
  List.forall_mem_cons

/-! ## What a step does -/

/-- A step neither exchanges nor writes a cell, or it exchanges, or it writes a cell. -/
inductive Did (s : Shared ι H) (t : ι) : Shared ι H → Prop
  | move {x : Phase H} : x.storing = none → Did s t (s.goto t x)
  | keep (newp : H) : Did s t ((s.put newp true).goto t (.store newp s.value))
  | lose (newp : H) : Did s t ((s.put newp false).goto t (.restore true))

theorem advance_cases (s : Shared ι H) (t : ι) :
    (s.advance t).Leads fun s' => ((s.pc t).storing = none ∧ s.Did t s') ∨
      ∃ newp old, s.pc t = .store newp old ∧ s' = (s.keepOld newp old).goto t (.restore true) := by
  unfold advance
  cases s.pc t with
  | idle => trivial
  | protect f newp => trivial
  | exchange newp keep =>
    cases keep with
    | true => exact .inl ⟨rfl, .keep newp⟩
    | false => exact .inl ⟨rfl, .lose newp⟩
  | read newp => exact .inl ⟨rfl, .move rfl⟩
  | compare newp initial =>
    dsimp only
    split_ifs
    · exact .inl ⟨rfl, .move rfl⟩
    · exact .inl ⟨rfl, .move rfl⟩
  | compareExchange newp initial =>
    dsimp only
    split_ifs with hvalue
    · subst hvalue
      exact .inl ⟨rfl, .keep newp⟩
    · exact .inl ⟨rfl, .move rfl⟩
  | store newp old => exact .inr ⟨newp, old, rfl, rfl⟩
  | restore r => exact .inl ⟨rfl, .move rfl⟩

theorem next_cases (s : Shared ι H) (a : Action ι H) :
    (next s a).Leads fun s' => ∃ t, ((s.pc t).storing = none ∧ s.Did t s') ∨
      ∃ newp old, s.pc t = .store newp old ∧ s' = (s.keepOld newp old).goto t (.restore true) := by
  cases a with
  | call t f newp =>
    simp only [next]
    cases hpc : s.pc t with
    | idle => exact ⟨t, .inl ⟨by rw [hpc]; rfl, .move rfl⟩⟩
    | _ => trivial
  | protect t ok =>
    simp only [next]
    cases hpc : s.pc t with
    | protect f newp =>
      refine ⟨t, .inl ⟨by rw [hpc]; rfl, .move ?_⟩⟩
      cases ok with
      | true => cases f <;> rfl
      | false => rfl
    | _ => trivial
  | step t => exact (s.advance_cases t).mono fun s' h => ⟨t, h⟩

/-! ## The log has every hook whose cell is set -/

structure Logged (s : Shared ι H) : Prop where
  set : ∀ h, (s.oldp h).isSome → (h, true) ∈ s.log
  storing : ∀ t h, (s.pc t).storing = some h → (h, true) ∈ s.log

omit [DecidableEq ι] [DecidableEq H] in
theorem logged_init : (init : Shared ι H).Logged where
  set _ h := nomatch h
  storing _ _ h := nomatch h

omit [DecidableEq ι] [DecidableEq H] in
theorem Logged.put (h : s.Logged) (newp : H) (keep : Bool) : (s.put newp keep).Logged where
  set b hb := List.mem_cons_of_mem _ (h.set b hb)
  storing t b hb := List.mem_cons_of_mem _ (h.storing t b hb)

omit [DecidableEq H] in
theorem Logged.goto (h : s.Logged) (hx : ∀ b, x.storing = some b → (b, true) ∈ s.log) :
    (s.goto t x).Logged where
  set := h.set
  storing u b hb := by
    by_cases hut : u = t
    · rw [hut, goto_self] at hb
      exact hx b hb
    · rw [goto_of_ne hut] at hb
      exact h.storing u b hb

omit [DecidableEq ι] in
theorem Logged.keepOld (h : s.Logged) (hpc : s.pc t = .store newp old) :
    (s.keepOld newp old).Logged where
  set b hb := by
    by_cases hnewp : b = newp
    · subst hnewp
      exact h.storing t b (congrArg Phase.storing hpc)
    · simp only [Shared.keepOld, Function.update_of_ne hnewp] at hb
      exact h.set b hb
  storing := h.storing

omit [DecidableEq H] in
theorem Logged.did (h : s.Logged) (hs : s.Did t s') : s'.Logged := by
  cases hs with
  | move hx => exact h.goto fun b hb => nomatch hx.symm.trans hb
  | keep newp =>
    refine (h.put newp true).goto fun b hb => ?_
    cases hb
    exact List.mem_cons_self
  | lose newp => exact (h.put newp false).goto nofun

theorem Logged.next (h : s.Logged) (a : Action ι H) : (Shared.next s a).Leads Logged := by
  refine (s.next_cases a).mono fun s' hs' => ?_
  obtain ⟨t, ⟨-, hdid⟩ | ⟨newp, old, hpc, rfl⟩⟩ := hs'
  · exact h.did hdid
  · exact (h.keepOld hpc).goto nofun

/-! ## The chain -/

/-- What the cells will be when the threads have written them: they chain the hooks of the log. -/
structure Linked (s : Shared ι H) (link : H → Option (Option H)) : Prop where
  chain : Chain link s.value s.hooks
  pending : ∀ t newp old, s.pc t = .store newp old → link newp = some old
  settled : ∀ h, (∀ t, (s.pc t).storing ≠ some h) → s.oldp h = link h

/-- **The cells chain the hooks**, unless a hook was exchanged twice or without a cell. -/
def Chained (s : Shared ι H) : Prop := s.hooks.Nodup → s.Kept → ∃ link, s.Linked link

omit [DecidableEq ι] [DecidableEq H] in
theorem linked_init : (init : Shared ι H).Linked fun _ => none where
  chain := .nil
  pending _ _ _ h := nomatch h
  settled _ _ := rfl

omit [DecidableEq H] in
/-- A thread that neither enters nor leaves the point where it writes its cell changes nothing. -/
theorem Linked.goto (hl : s.Linked link) (hfrom : (s.pc t).storing = none)
    (hto : x.storing = none) : (s.goto t x).Linked link where
  chain := hl.chain
  pending u newp old hu := by
    by_cases hut : u = t
    · rw [hut, goto_self] at hu
      rw [hu] at hto
      cases hto
    · rw [goto_of_ne hut] at hu
      exact hl.pending u newp old hu
  settled h hnone := by
    refine hl.settled h fun u => ?_
    by_cases hut : u = t
    · rw [hut, hfrom]
      exact (Option.some_ne_none h).symm
    · have hu := hnone u
      rwa [goto_of_ne hut] at hu

/-- **A hook that is not in the log** is a new head of the chain. -/
theorem Linked.put (hl : s.Linked link) (hlog : s.Logged) (hpc : (s.pc t).storing = none)
    (hnew : newp ∉ s.hooks) :
    ((s.put newp true).goto t (.store newp s.value)).Linked
      (Function.update link newp (some s.value)) where
  chain := hl.chain.push hnew
  pending u h old hu := by
    by_cases hut : u = t
    · rw [hut, goto_self] at hu
      cases hu
      exact Function.update_self ..
    · rw [goto_of_ne hut] at hu
      have hmem := hlog.storing u h (congrArg Phase.storing hu)
      have hne : h ≠ newp := by
        rintro rfl
        exact hnew (List.mem_map_of_mem hmem)
      rw [Function.update_of_ne hne]
      exact hl.pending u h old hu
  settled h hnone := by
    have hne : h ≠ newp := by
      rintro rfl
      exact hnone t (congrArg Phase.storing (goto_self ..))
    rw [Function.update_of_ne hne]
    refine hl.settled h fun u => ?_
    by_cases hut : u = t
    · rw [hut, hpc]
      exact (Option.some_ne_none h).symm
    · have hu := hnone u
      rwa [goto_of_ne hut] at hu

/-- Writing the cell settles it. -/
theorem Linked.keepOld (hl : s.Linked link) (hpc : s.pc t = .store newp old) :
    ((s.keepOld newp old).goto t (.restore true)).Linked link where
  chain := hl.chain
  pending u h old' hu := by
    by_cases hut : u = t
    · rw [hut, goto_self] at hu
      cases hu
    · rw [goto_of_ne hut] at hu
      exact hl.pending u h old' hu
  settled h hnone := by
    show Function.update s.oldp newp (some old) h = link h
    by_cases hnewp : h = newp
    · rw [hnewp, hl.pending t newp old hpc, Function.update_self]
    · rw [Function.update_of_ne hnewp]
      refine hl.settled h fun u => ?_
      by_cases hut : u = t
      · rw [hut, hpc]
        exact fun heq => hnewp (Option.some.inj heq).symm
      · have hu := hnone u
        rwa [goto_of_ne hut] at hu

theorem Chained.did (h : s.Chained) (hlog : s.Logged) (hpc : (s.pc t).storing = none)
    (hs : s.Did t s') : s'.Chained := by
  intro hnodup hkept
  cases hs with
  | move hx =>
    obtain ⟨link, hl⟩ := h hnodup hkept
    exact ⟨link, hl.goto hpc hx⟩
  | keep newp =>
    have hcons : newp ∉ s.hooks ∧ s.hooks.Nodup := List.nodup_cons.1 hnodup
    obtain ⟨link, hl⟩ := h hcons.2 (kept_put.1 hkept).2
    exact ⟨_, hl.put hlog hpc hcons.1⟩
  | lose newp => exact absurd (kept_put.1 hkept).1 Bool.false_ne_true

theorem Chained.next (h : s.Chained) (hlog : s.Logged) (a : Action ι H) :
    (Shared.next s a).Leads Chained := by
  refine (s.next_cases a).mono fun s' hs' => ?_
  obtain ⟨t, ⟨hpc, hdid⟩ | ⟨newp, old, hpc, rfl⟩⟩ := hs'
  · exact h.did hlog hpc hdid
  · intro hnodup hkept
    obtain ⟨link, hl⟩ := h hnodup hkept
    exact ⟨link, hl.keepOld hpc⟩

theorem reach_chained (h : (machine ι H).Reach s) : s.Logged ∧ s.Chained := by
  refine h.preserved (I := fun s => s.Logged ∧ s.Chained)
    ⟨logged_init, fun _ _ => ⟨_, linked_init⟩⟩ fun s a _ hs => ?_
  exact (hs.1.next a).and (hs.2.next hs.1 a)

omit [DecidableEq ι] [DecidableEq H] in
/-- A chain through the hooks of the log finds no hook twice, and all their cells set. -/
theorem Logged.of_chain (h : s.Logged) (hchain : Chain s.oldp s.value s.hooks) :
    s.hooks.Nodup ∧ s.Kept := by
  refine ⟨hchain.nodup, fun e he => ?_⟩
  have hset := h.set e.1 (hchain.isSome_of_mem (List.mem_map_of_mem he))
  rw [List.inj_on_of_nodup_map hchain.nodup he hset rfl]

/-- **The hooks make a chain** exactly if each was exchanged once and has a cell. -/
theorem chain_iff (h : (machine ι H).Reach s) (hquiet : s.Quiet) :
    Chain s.oldp s.value s.hooks ↔ s.hooks.Nodup ∧ s.Kept := by
  obtain ⟨hlog, hchained⟩ := reach_chained h
  refine ⟨hlog.of_chain, fun hcond => ?_⟩
  obtain ⟨link, hl⟩ := hchained hcond.1 hcond.2
  refine hl.chain.congr fun h _ => hl.settled h fun t => ?_
  rw [hquiet t]
  exact (Option.some_ne_none h).symm

/-- Thread `u` reads the slot for `Detour_s`; `Detour` in thread `t` is faster, and the
compare-exchange is tried again. Last, `t` calls `Detour2` without a cell, if `lose`. -/
def mixed (t u : ι) (lose : Bool) : List (Action ι ℕ) :=
  [.call u .Detour_s 1, .protect u true, .step u, .call t .Detour 0, .protect t true, .step u,
    .step t, .step u, .step t, .step u, .step t, .step u, .step u, .step u, .step u] ++
  if lose then [.call t (.Detour2 false) 2, .protect t true, .step t, .step t] else []

/-- **The pointer that is not kept** cuts the chain, which was there before. -/
theorem chain_iff_mixed :
    (∃ s, (machine (Fin 2) ℕ).run init (mixed 0 1 false) = some s ∧ s.hooks = [1, 0] ∧
      Chain s.oldp s.value [1, 0]) ∧
    (∃ s, (machine (Fin 2) ℕ).run init (mixed 0 1 true) = some s ∧ s.hooks = [2, 1, 0] ∧
      ¬ Chain s.oldp s.value [2, 1, 0]) := by
  constructor
  · obtain ⟨s, hs, h0, h1, hlog⟩ : ∃ s, (machine (Fin 2) ℕ).run init (mixed 0 1 false) = some s ∧
        s.pc 0 = .idle ∧ s.pc 1 = .idle ∧ s.log = [(1, true), (0, true)] :=
      ⟨_, rfl, rfl, rfl, rfl⟩
    have hiff := chain_iff (Machine.reach_of_run .init hs) (Fin.forall_fin_two.2 ⟨h0, h1⟩)
    rw [hooks, Kept, hlog] at hiff
    exact ⟨s, hs, congrArg _ hlog, hiff.2 (by decide)⟩
  · obtain ⟨s, hs, h0, h1, hlog⟩ : ∃ s, (machine (Fin 2) ℕ).run init (mixed 0 1 true) = some s ∧
        s.pc 0 = .idle ∧ s.pc 1 = .idle ∧ s.log = [(2, false), (1, true), (0, true)] :=
      ⟨_, rfl, rfl, rfl, rfl⟩
    have hiff := chain_iff (Machine.reach_of_run .init hs) (Fin.forall_fin_two.2 ⟨h0, h1⟩)
    rw [hooks, Kept, hlog] at hiff
    exact ⟨s, hs, congrArg _ hlog, fun hchain => absurd (hiff.1 hchain).2 (by decide)⟩

end Shared

end SseExt.VTable
