import SseExt.Lib.Chain
import SseExt.Lib.Transition

/-!
# `VTable::Detour_s`

Threads hook one slot of a virtual table. A hook is the address of a function together with its
cell `oldp`; a pointer in the slot or in a cell is a hook or, as `none`, the original function.

`InterlockedExchangeIfNotEqual` gives up only when it finds its own hook at the head of the chain. A
hook that is in the chain further down is put in front again, and its cell, through which the rest
of the chain was reached, now points back (`reinstall_cycles`).

**Theorem (`chain_ends`).** In a run in which every compare-exchange that succeeds is for a hook
that has not been installed, the chain ends at the original function and visits each hook at most
once whenever no call is in progress.
-/

namespace SseExt.VTable

/-- Where a thread is in `Detour_s`. -/
inductive PC (H : Type*) where
  | idle
  | protect (newp : H)
  | read (newp : H)
  | compare (newp : H) (initial : Option H)
  | exchange (newp : H) (initial : Option H)
  | store (newp : H) (initial : Option H)
  | restore (r : Bool)

/-- The hook whose cell the thread is about to write. -/
def PC.storing {H : Type*} : PC H → Option H
  | .store newp _ => some newp
  | _ => none

/-- The slot, the cells of the hooks, and the threads. -/
structure Slot (ι H : Type*) where
  value : Option H
  oldp : H → Option (Option H)
  pc : ι → PC H

/-- A thread calls `Detour_s`, `VirtualProtect` returns, or the thread takes another step. -/
inductive Label (ι H : Type*) where
  | call (t : ι) (newp : H)
  | protect (t : ι) (ok : Bool)
  | step (t : ι)

namespace Slot

variable {ι H : Type*} [DecidableEq ι] [DecidableEq H]

def init : Slot ι H := ⟨none, fun _ => none, fun _ => .idle⟩

/-- The thread goes to `x`. -/
def goto (s : Slot ι H) (t : ι) (x : PC H) : Slot ι H := { s with pc := Function.update s.pc t x }

/-- A step of `InterlockedExchangeIfNotEqual`, or the return from `Detour_s`. -/
def advance (s : Slot ι H) (t : ι) : Outcome (Slot ι H) Empty :=
  match s.pc t with
  | .read newp => .step (s.goto t (.compare newp s.value))
  | .compare newp initial =>
    if initial = some newp then .step (s.goto t (.restore false))
    else .step (s.goto t (.exchange newp initial))
  | .exchange newp initial =>
    if s.value = initial then
      .step ({ s with value := some newp }.goto t (.store newp initial))
    else .step (s.goto t (.read newp))
  | .store newp initial =>
    .step ({ s with oldp := Function.update s.oldp newp (some initial) }.goto t (.restore true))
  | .restore _ => .step (s.goto t .idle)
  | .idle | .protect _ => .blocked

def next (s : Slot ι H) : Label ι H → Outcome (Slot ι H) Empty
  | .call t newp =>
    match s.pc t with
    | .idle => .step (s.goto t (.protect newp))
    | _ => .blocked
  | .protect t ok =>
    match s.pc t with
    | .protect newp => .step (s.goto t (if ok then .read newp else .idle))
    | _ => .blocked
  | .step t => s.advance t

def machine (ι H : Type*) [DecidableEq ι] [DecidableEq H] : Machine (Slot ι H) (Label ι H) Empty :=
  ⟨init, next⟩

/-- No call is in progress. -/
def Quiet (s : Slot ι H) : Prop := ∀ t, s.pc t = .idle

/-! ## The condition -/

/-- The hook has not been put in the slot: its cell is not set, and nobody is about to set it. -/
def Fresh (s : Slot ι H) (h : H) : Prop := s.oldp h = none ∧ ∀ t, (s.pc t).storing ≠ some h

/-- From here no hook is installed again: the thread is not at a compare-exchange, or this one
fails, or its hook is fresh. -/
def NotAgain (s : Slot ι H) : PC H → Prop
  | .exchange newp initial => s.value = initial → s.Fresh newp
  | _ => True

/-- The step is no compare-exchange that succeeds for a hook already installed. -/
def FirstTime (s : Slot ι H) : Label ι H → Prop
  | .step t => s.NotAgain (s.pc t)
  | _ => True

/-! ## The chain -/

/-- What the cells will be when the threads have written them, and the chain they make. -/
structure Linked (s : Slot ι H) (link : H → Option (Option H)) (l : List H) : Prop where
  chain : Chain link s.value l
  pending : ∀ t newp initial, s.pc t = .store newp initial → link newp = some initial
  settled : ∀ h, (∀ t, (s.pc t).storing ≠ some h) → s.oldp h = link h

variable {s s' : Slot ι H} {t u : ι} {h newp : H} {x : PC H} {link : H → Option (Option H)}
  {l : List H} {initial : Option H}

omit [DecidableEq H] in
@[simp] theorem goto_self (s : Slot ι H) (t : ι) (x : PC H) : (s.goto t x).pc t = x :=
  Function.update_self ..

omit [DecidableEq H] in
theorem goto_of_ne (hut : u ≠ t) (x : PC H) : (s.goto t x).pc u = s.pc u :=
  Function.update_of_ne hut ..

omit [DecidableEq ι] [DecidableEq H] in
theorem linked_init : (init : Slot ι H).Linked (fun _ => none) [] where
  chain := .nil
  pending _ _ _ h := nomatch h
  settled _ _ := rfl

omit [DecidableEq H] in
/-- A thread that neither enters nor leaves the point where it writes its cell changes nothing. -/
theorem Linked.goto (hl : s.Linked link l) (hfrom : (s.pc t).storing = none)
    (hto : x.storing = none) : (s.goto t x).Linked link l where
  chain := hl.chain
  pending u newp initial hu := by
    by_cases hut : u = t
    · rw [hut, goto_self] at hu
      rw [hu] at hto
      cases hto
    · rw [goto_of_ne hut] at hu
      exact hl.pending u newp initial hu
  settled h hnone := by
    refine hl.settled h fun u => ?_
    by_cases hut : u = t
    · rw [hut, hfrom]
      exact (Option.some_ne_none h).symm
    · have hu := hnone u
      rwa [goto_of_ne hut] at hu

/-- **A hook installed for the first time** is a new head of the chain. -/
theorem Linked.exchange (hl : s.Linked link l) (hpc : (s.pc t).storing = none)
    (hfresh : s.Fresh newp) :
    ({ s with value := some newp }.goto t (.store newp s.value)).Linked
      (Function.update link newp (some s.value)) (newp :: l) where
  chain := by
    refine hl.chain.push fun hmem => ?_
    have hset := hl.chain.isSome_of_mem hmem
    rw [← hl.settled newp hfresh.2, hfresh.1] at hset
    cases hset
  pending u h initial hu := by
    by_cases hut : u = t
    · rw [hut, goto_self] at hu
      cases hu
      exact Function.update_self ..
    · rw [goto_of_ne hut] at hu
      have hne : h ≠ newp := by
        rintro rfl
        exact hfresh.2 u (congrArg PC.storing hu)
      rw [Function.update_of_ne hne]
      exact hl.pending u h initial hu
  settled h hnone := by
    have hne : h ≠ newp := by
      rintro rfl
      exact hnone t (congrArg PC.storing (goto_self ..))
    rw [Function.update_of_ne hne]
    refine hl.settled h fun u => ?_
    by_cases hut : u = t
    · rw [hut, hpc]
      exact (Option.some_ne_none h).symm
    · have hu := hnone u
      rwa [goto_of_ne hut] at hu

/-- Writing the cell settles it. -/
theorem Linked.store (hl : s.Linked link l) (hpc : s.pc t = .store newp initial) :
    ({ s with oldp := Function.update s.oldp newp (some initial) }.goto t (.restore true)).Linked
      link l where
  chain := hl.chain
  pending u h initial' hu := by
    by_cases hut : u = t
    · rw [hut, goto_self] at hu
      cases hu
    · rw [goto_of_ne hut] at hu
      exact hl.pending u h initial' hu
  settled h hnone := by
    show Function.update s.oldp newp (some initial) h = link h
    by_cases hnewp : h = newp
    · rw [hnewp, hl.pending t newp initial hpc, Function.update_self]
    · rw [Function.update_of_ne hnewp]
      refine hl.settled h fun u => ?_
      by_cases hut : u = t
      · rw [hut, hpc]
        exact fun heq => hnewp (Option.some.inj heq).symm
      · have hu := hnone u
        rwa [goto_of_ne hut] at hu

theorem next_linked (a : Label ι H) (hfirst : s.FirstTime a) (hl : s.Linked link l) :
    (next s a).Leads fun s' => ∃ link l, s'.Linked link l := by
  have hsame : ∀ {t x}, (s.pc t).storing = none → x.storing = none →
      ∃ link l, (s.goto t x).Linked link l := fun hfrom hto => ⟨link, l, hl.goto hfrom hto⟩
  cases a with
  | call t newp =>
    simp only [next]
    split
    · rename_i hpc
      exact hsame (by rw [hpc]; rfl) rfl
    · trivial
  | protect t ok =>
    simp only [next]
    split
    · rename_i newp hpc
      exact hsame (by rw [hpc]; rfl) (by cases ok <;> rfl)
    · trivial
  | step t =>
    simp only [next, advance]
    cases hpc : s.pc t with
    | idle => trivial
    | protect newp => trivial
    | read newp => exact hsame (by rw [hpc]; rfl) rfl
    | compare newp initial =>
      dsimp only
      split_ifs
      · exact hsame (by rw [hpc]; rfl) rfl
      · exact hsame (by rw [hpc]; rfl) rfl
    | exchange newp initial =>
      dsimp only
      split_ifs with hvalue
      · simp only [FirstTime, hpc, NotAgain] at hfirst
        have hfresh := hfirst hvalue
        subst hvalue
        exact ⟨_, _, hl.exchange (by rw [hpc]; rfl) hfresh⟩
      · exact hsame (by rw [hpc]; rfl) rfl
    | store newp initial => exact ⟨link, l, hl.store hpc⟩
    | restore r => exact hsame (by rw [hpc]; rfl) rfl

/-- **Hooks installed once each make a chain.** -/
theorem chain_ends (h : (machine ι H).ReachIf FirstTime s) (hquiet : s.Quiet) :
    ∃ l, Chain s.oldp s.value l ∧ l.Nodup := by
  have hlinked : ∃ link l, s.Linked link l := by
    refine h.preserved (I := fun s => ∃ link l, s.Linked link l) ⟨_, _, linked_init⟩ ?_
    rintro s a hfirst ⟨link, l, hl⟩
    exact next_linked a hfirst hl
  obtain ⟨link, l, hl⟩ := hlinked
  have hchain : Chain s.oldp s.value l := by
    refine hl.chain.congr fun h _ => hl.settled h fun t => ?_
    rw [hquiet t]
    exact (Option.some_ne_none h).symm
  exact ⟨l, hchain, hchain.nodup⟩

/-! ## Installing a hook again -/

/-- A call that nobody disturbs. -/
def detour (t : ι) (newp : H) : List (Label ι H) :=
  [.call t newp, .protect t true, .step t, .step t, .step t, .step t, .step t]

/-- An undisturbed call for a hook that is not the head puts it in front. -/
theorem run_detour (hquiet : s.Quiet) (hhead : s.value ≠ some newp) :
    ∃ s', (machine ι H).run s (detour t newp) = some s' ∧ s'.Quiet ∧ s'.value = some newp ∧
      s'.oldp = Function.update s.oldp newp (some s.value) := by
  have hidle : s.pc t = .idle := hquiet t
  refine ⟨⟨some newp, Function.update s.oldp newp (some s.value), Function.update s.pc t .idle⟩,
    ?_, fun u => ?_, rfl, rfl⟩
  · simp [Machine.run, Machine.runIf, detour, machine, next, advance, goto, hidle, hhead]
  · by_cases hut : u = t
    · rw [hut]
      exact Function.update_self ..
    · exact (Function.update_of_ne hut ..).trans (hquiet u)

/-- **A hook put in front of its own chain** makes the chain endless. -/
theorem reinstall_cycles (hquiet : s.Quiet) (hl : Chain s.oldp s.value l) (hmem : newp ∈ l)
    (hhead : s.value ≠ some newp) :
    ∃ s', (machine ι H).run s (detour t newp) = some s' ∧ s'.Quiet ∧
      ¬ ∃ l', Chain s'.oldp s'.value l' := by
  obtain ⟨s', hrun, hquiet', hvalue, holdp⟩ := run_detour (t := t) hquiet hhead
  refine ⟨s', hrun, hquiet', ?_⟩
  rintro ⟨l', hl'⟩
  rw [hvalue, holdp] at hl'
  exact hl.knot hmem hl'

/-- One thread installs the hooks 0 and 1. -/
def both (t : ι) : List (Label ι ℕ) := detour t 0 ++ detour t 1

/-- **Installing 0 again closes a cycle.** -/
theorem cycle_reached : ∃ s, (machine (Fin 1) ℕ).Reach s ∧ s.Quiet ∧
    ¬ ∃ l, Chain s.oldp s.value l ∧ l.Nodup := by
  have hrun : ∃ s, (machine (Fin 1) ℕ).run init (both 0) = some s ∧ s.pc 0 = .idle ∧
      s.value = some 1 ∧ s.oldp 1 = some (some 0) ∧ s.oldp 0 = some none :=
    ⟨_, rfl, rfl, rfl, rfl, rfl⟩
  obtain ⟨s, hs, hidle, hvalue, h1, h0⟩ := hrun
  have hquiet : s.Quiet := fun t => Subsingleton.elim 0 t ▸ hidle
  have hchain : Chain s.oldp s.value [1, 0] := hvalue ▸ .cons h1 (.cons h0 .nil)
  have hhead : s.value ≠ some 0 := by
    rw [hvalue]
    decide
  obtain ⟨s', hs', hquiet', hendless⟩ :=
    reinstall_cycles (t := 0) hquiet hchain (List.mem_cons_of_mem 1 List.mem_cons_self) hhead
  refine ⟨s', Machine.reach_of_run (Machine.reach_of_run .init hs) hs', hquiet', ?_⟩
  rintro ⟨l, hl, -⟩
  exact hendless ⟨l, hl⟩

/-! ## An installation -/

instance (s : Slot (Fin 2) H) (h : H) : Decidable (s.Fresh h) :=
  inferInstanceAs (Decidable (_ ∧ _))

instance (s : Slot (Fin 2) H) (x : PC H) : Decidable (s.NotAgain x) :=
  match x with
  | .exchange newp initial => inferInstanceAs (Decidable (s.value = initial → s.Fresh newp))
  | .idle | .protect _ | .read _ | .compare _ _ | .store _ _ | .restore _ => isTrue trivial

instance (s : Slot (Fin 2) H) (a : Label (Fin 2) H) : Decidable (s.FirstTime a) :=
  match a with
  | .step t => inferInstanceAs (Decidable (s.NotAgain (s.pc t)))
  | .call _ _ | .protect _ _ => isTrue trivial

/-- Two threads read the slot before either has its hook in; the second exchange fails and is tried
again. -/
def contended (t u : ι) : List (Label ι ℕ) :=
  [.call t 0, .call u 1, .protect t true, .protect u true, .step t, .step u, .step t, .step u,
    .step u, .step t, .step t, .step t, .step t, .step u, .step u, .step t, .step t]

theorem contended_chain : ∃ s, (machine (Fin 2) ℕ).ReachIf FirstTime s ∧ s.value = some 0 ∧
    ∃ l, Chain s.oldp s.value l ∧ l.Nodup := by
  have hrun : ∃ s, (machine (Fin 2) ℕ).runIf (fun s a => decide (s.FirstTime a)) init
      (contended 0 1) = some s ∧ s.value = some 0 ∧ s.pc 0 = .idle ∧ s.pc 1 = .idle :=
    ⟨_, rfl, rfl, rfl, rfl⟩
  obtain ⟨s, hs, hvalue, hidle0, hidle1⟩ := hrun
  have hreach := Machine.reachIf_of_runIf (fun _ _ hb => of_decide_eq_true hb) .init hs
  have hquiet : s.Quiet := Fin.forall_fin_two.2 ⟨hidle0, hidle1⟩
  exact ⟨s, hreach, hvalue, chain_ends hreach hquiet⟩

end Slot

end SseExt.VTable
