import SseExt.Lib.Ends
import SseExt.Stl.VectorMapOrder

/-!
# Assigning `stl::vectormap`s

Both assignments clear the target and then insert the elements of the source, in the order of its
vector. Nothing asks whether the two are one object.

**Theorem (`assign_iff`).** In every state of a run, a copy assignment leaves the target with the
source's elements in the source's order, and the source as it was, exactly when the two are
different objects or the source is empty. A move assignment between different objects hands the
elements over.
-/

namespace SseExt.Stl.VectorMap

variable {K V ι : Type*} [DecidableEq K] [DecidableEq ι]

/-- The keys and values the vector points to, in its order. -/
def entries (vm : VectorMap K V) : Except Fault (List (K × V)) :=
  vm.listing.map fun nodes => nodes.map (·.entry)

/-! ## The assignments -/

/-- `clear()` on one object. -/
def clearAt (i : ι) (s : ι → Object K V) : ι → Object K V :=
  Function.update s i { s i with vm := (s i).vm.clear }

/-- One round of the loop of `operator=(const vectormap&)`. -/
def copyInto (A : Allocator) (i j : ι) (s : ι → Object K V) (e : Addr) :
    Except Fault (ι → Object K V) :=
  match (s j).vm.deref e with
  | .error f => .error f
  | .ok n => .ok (Function.update s i ((s i).inserting n.key ((s i).vm.emplace A n.key n.value)))

def copyAssign (A : Allocator) (i j : ι) (s : ι → Object K V) : Except Fault (ι → Object K V) :=
  (clearAt i s j).vm.vector.foldlM (copyInto A i j) (clearAt i s)

/-- One round of the loop of `operator=(vectormap&&)`. -/
def moveInto (A : Allocator) (moved : V → V) (i j : ι) (s : ι → Object K V) (e : Addr) :
    Except Fault (ι → Object K V) :=
  match (s j).vm.deref e with
  | .error f => .error f
  | .ok n =>
    let s := Function.update s i ((s i).inserting n.key ((s i).vm.emplace A n.key n.value))
    .ok (Function.update s j { s j with vm := (s j).vm.setValue e (moved n.value) })

def moveAssign (A : Allocator) (moved : V → V) (i j : ι) (s : ι → Object K V) :
    Except Fault (ι → Object K V) :=
  (clearAt i s j).vm.vector.foldlM (moveInto A moved i j) (clearAt i s)

inductive Step (ι K V : Type*) where
  | label (a : Label ι K V)
  | copyAssign (i j : ι) (A : Allocator)
  | moveAssign (i j : ι) (A : Allocator)

def nextStep (moved : V → V) (s : ι → Object K V) : Step ι K V → Outcome (ι → Object K V) Fault
  | .label a => next moved s a
  | .copyAssign i j A => stepTo id (copyAssign A i j s)
  | .moveAssign i j A => stepTo id (moveAssign A moved i j s)

variable (K ι) in
/-- All operations, the assignments among them. -/
def assignMachine (moved : V → V) : Machine (ι → Object K V) (Step ι K V) Fault :=
  ⟨fun _ => Object.new, nextStep moved⟩

/-! ## One assignment -/

variable {s : ι → Object K V} {i j : ι} {nodes src rest : List (Node K V)}

omit [DecidableEq K] in
theorem clearAt_self (i : ι) (s : ι → Object K V) : (clearAt i s i).vm = empty := by
  rw [clearAt, Function.update_self]
  rfl

omit [DecidableEq K] in
theorem clearAt_of_ne (h : j ≠ i) (s : ι → Object K V) : clearAt i s j = s j :=
  Function.update_of_ne h _ _

/-- The loop does to the target what the copy constructor's loop does, and nothing else. -/
theorem copyInto_loop (A : Allocator) (hij : i ≠ j) {vm : VectorMap K V} (es : List Addr)
    (hloop : es.foldlM (copyElem A (s j).vm) (s i).vm = .ok vm) :
    ∃ s', es.foldlM (copyInto A i j) s = .ok s' ∧ (s' i).vm = vm ∧ s' j = s j := by
  induction es generalizing s with
  | nil => exact ⟨s, rfl, Except.ok.inj hloop, rfl⟩
  | cons e es ih =>
    rw [List.foldlM_cons, copyElem] at hloop
    rw [List.foldlM_cons, copyInto]
    cases hn : (s j).vm.deref e with
    | error f =>
      rw [hn] at hloop
      cases hloop
    | ok n =>
      rw [hn] at hloop
      set s₁ := Function.update s i
        ((s i).inserting n.key ((s i).vm.emplace A n.key n.value)) with hs₁
      have hj : s₁ j = s j := Function.update_of_ne hij.symm _ _
      have hi : (s₁ i).vm = ((s i).vm.emplace A n.key n.value).1 := by
        rw [hs₁, Function.update_self]
        rfl
      obtain ⟨s', hs', hvm, hj'⟩ := @ih s₁ (by rw [hj, hi]; exact hloop)
      exact ⟨s', hs', hvm, hj'.trans hj⟩

theorem copyAssign_of_ne (A : Allocator) (hij : i ≠ j) (hsrc : Listed (s j).vm src) :
    ∃ s' nodes', copyAssign A i j s = .ok s' ∧ Listed (s' i).vm nodes' ∧
      nodes'.map (·.entry) = src.map (·.entry) ∧ s' j = s j := by
  obtain ⟨vm, nodes', hcopy, hlisted, hentries⟩ := hsrc.copyConstruct A
  have hj := clearAt_of_ne hij.symm s
  rw [copyConstruct, ← hj, ← clearAt_self i s] at hcopy
  obtain ⟨s', hs', rfl, hj'⟩ := copyInto_loop A hij _ hcopy
  exact ⟨s', nodes', hs', hlisted, hentries, hj'.trans hj⟩

/-- Assigned to itself, an object is cleared. -/
theorem copyAssign_self (A : Allocator) (i : ι) (s : ι → Object K V) :
    copyAssign A i i s = .ok (clearAt i s) := by
  rw [copyAssign, clearAt_self]
  rfl

theorem moveAssign_self (A : Allocator) (moved : V → V) (i : ι) (s : ι → Object K V) :
    moveAssign A moved i i s = .ok (clearAt i s) := by
  rw [moveAssign, clearAt_self]
  rfl

/-- The loop does to target and source what the move constructor's loop does. -/
theorem moveInto_loop (A : Allocator) (moved : V → V) (hij : i ≠ j)
    {r : VectorMap K V × VectorMap K V} (es : List Addr)
    (hloop : es.foldlM (moveElem A moved) ((s i).vm, (s j).vm) = .ok r) :
    ∃ s', es.foldlM (moveInto A moved i j) s = .ok s' ∧ ((s' i).vm, (s' j).vm) = r := by
  induction es generalizing s with
  | nil => exact ⟨s, rfl, Except.ok.inj hloop⟩
  | cons e es ih =>
    rw [List.foldlM_cons, moveElem] at hloop
    rw [List.foldlM_cons, moveInto]
    cases hn : (s j).vm.deref e with
    | error f =>
      simp only [hn] at hloop
      cases hloop
    | ok n =>
      simp only [hn] at hloop
      set s₁ := Function.update s i
        ((s i).inserting n.key ((s i).vm.emplace A n.key n.value)) with hs₁
      set s₂ := Function.update s₁ j
        { s₁ j with vm := (s₁ j).vm.setValue e (moved n.value) } with hs₂
      have hj : (s₂ j).vm = (s j).vm.setValue e (moved n.value) := by
        rw [hs₂, Function.update_self, hs₁, Function.update_of_ne hij.symm]
      have hi : (s₂ i).vm = ((s i).vm.emplace A n.key n.value).1 := by
        rw [hs₂, Function.update_of_ne hij, hs₁, Function.update_self]
        rfl
      obtain ⟨s', hs', hr⟩ := @ih s₂ (by rw [hj, hi]; exact hloop)
      exact ⟨s', hs', hr⟩

theorem moveAssign_of_ne (A : Allocator) (moved : V → V) (hij : i ≠ j)
    (hsrc : Listed (s j).vm src) :
    ∃ s' nodes', moveAssign A moved i j s = .ok s' ∧ Listed (s' i).vm nodes' ∧
      nodes'.map (·.entry) = src.map (·.entry) := by
  obtain ⟨vm, nodes', rhs, hmove, hlisted, hentries, -⟩ := hsrc.moveConstruct A moved
  have hj := clearAt_of_ne hij.symm s
  rw [moveConstruct, ← hj, ← clearAt_self i s] at hmove
  obtain ⟨s', hs', hr⟩ := moveInto_loop A moved hij _ hmove
  have hvm : (s' i).vm = vm := congrArg Prod.fst hr
  exact ⟨s', nodes', hs', hvm ▸ hlisted, hentries⟩

/-! ## Runs -/

theorem AllInStep.clearAt (h : AllInStep s) (i : ι) : AllInStep (clearAt i s) := by
  have hempty : Object.InStep { s i with vm := (s i).vm.clear } [] :=
    ⟨.empty, fun _ => (survivors_nil _).symm⟩
  exact h.update hempty

theorem AllInStep.copyInto (h : AllInStep s) (A : Allocator) (i j : ι) (e : Addr) :
    Ends (fun _ => True) AllInStep (copyInto A i j s e) := by
  unfold VectorMap.copyInto
  split
  · trivial
  · rename_i n _
    obtain ⟨nodes, hi⟩ := h i
    obtain ⟨nodes', hi'⟩ := hi.inserting A n.key n.value
    exact h.update hi'

theorem Object.InStep.setValue {o : Object K V} (h : o.InStep nodes) (p : Addr) (value : V) :
    ∃ nodes', Object.InStep { o with vm := o.vm.setValue p value } nodes' := by
  refine ⟨_, h.listed.setValue p value, fun hsorted => ?_⟩
  have hkey := map_ite_field (f := Node.key) (g := fun n : Node K V => { n with value := value })
    (fun _ => rfl) (·.addr = p) nodes
  rw [hkey]
  exact h.order hsorted

theorem AllInStep.moveInto (h : AllInStep s) (A : Allocator) (moved : V → V) (i j : ι)
    (e : Addr) : Ends (fun _ => True) AllInStep (moveInto A moved i j s e) := by
  unfold VectorMap.moveInto
  split
  · trivial
  · rename_i n _
    obtain ⟨nodes, hi⟩ := h i
    obtain ⟨nodes', hi'⟩ := hi.inserting A n.key n.value
    have h' := h.update (i := i) hi'
    obtain ⟨nodes₂, hj⟩ := h' j
    obtain ⟨nodes₂', hj'⟩ := hj.setValue e (moved n.value)
    exact h'.update hj'

theorem AllInStep.nextStep {moved : V → V} (h : AllInStep s) (a : Step ι K V) :
    (nextStep moved s a).Leads AllInStep := by
  have hleads : ∀ {x : Except Fault (ι → Object K V)}, Ends (fun _ => True) AllInStep x →
      (stepTo id x).Leads AllInStep := by
    intro x hx
    cases x with
    | ok s' => exact hx
    | error f => trivial
  cases a with
  | label a => exact (h.next a).leads
  | copyAssign i j A =>
    exact hleads (Ends.foldlM (fun _ e hs => hs.copyInto A i j e) (h.clearAt i) _)
  | moveAssign i j A =>
    exact hleads (Ends.foldlM (fun _ e hs => hs.moveInto A moved i j e) (h.clearAt i) _)

theorem allInStep_assign {moved : V → V} (h : (assignMachine K ι moved).Reach s) : AllInStep s :=
  h.preserved (fun _ => ⟨[], .new⟩) fun _ a _ hs => hs.nextStep a

omit [DecidableEq K] in
theorem Listed.entries {vm : VectorMap K V} (h : Listed vm nodes) :
    vm.entries = .ok (nodes.map (·.entry)) := by
  rw [VectorMap.entries, h.listing]
  rfl

/-- What the assignments of object `j` to object `i` are for. -/
structure AssignCopies (moved : V → V) (s : ι → Object K V) (i j : ι) (A : Allocator) : Prop where
  copy : ∃ s', nextStep moved s (.copyAssign i j A) = .step s' ∧
    (s' i).vm.entries = (s j).vm.entries ∧ (s' j).vm.entries = (s j).vm.entries
  move : i ≠ j → ∃ s', nextStep moved s (.moveAssign i j A) = .step s' ∧
    (s' i).vm.entries = (s j).vm.entries

/-- **When assignments copy.** -/
theorem assign_iff {moved : V → V} (h : (assignMachine K ι moved).Reach s) (i j : ι)
    (A : Allocator) : AssignCopies moved s i j A ↔ i ≠ j ∨ (s j).vm.map = [] := by
  obtain ⟨src, hj⟩ := allInStep_assign h j
  by_cases hij : i = j
  · subst hij
    have hself : nextStep moved s (.copyAssign i i A) = .step (clearAt i s) := by
      simp only [nextStep, copyAssign_self, stepTo, id]
    have hcleared : (clearAt i s i).vm.entries = .ok [] := by
      rw [clearAt_self]
      rfl
    constructor
    · intro hc
      obtain ⟨s', hs', hentries, -⟩ := hc.copy
      rw [hself] at hs'
      cases hs'
      rw [hcleared, hj.listed.entries, Except.ok.injEq] at hentries
      have hsrc : src = [] := List.map_eq_nil_iff.1 hentries.symm
      rw [hsrc] at hj
      exact .inr hj.listed.perm.symm.eq_nil
    · rintro (hne | hmap)
      · exact absurd rfl hne
      · have hsrc : src = [] := (hmap ▸ hj.listed.perm).eq_nil
        have hentries : (s i).vm.entries = .ok [] := by
          rw [hj.listed.entries, hsrc]
          rfl
        exact ⟨⟨_, hself, by rw [hcleared, hentries], by rw [hcleared, hentries]⟩,
          fun hne => absurd rfl hne⟩
  · obtain ⟨s', nodes', hcopy, hlisted, hentries, hsource⟩ :=
      copyAssign_of_ne (s := s) A hij hj.listed
    obtain ⟨t, nodes₂, hmove, hlisted₂, hentries₂⟩ :=
      moveAssign_of_ne (s := s) A moved hij hj.listed
    refine ⟨fun _ => .inl hij, fun _ => ⟨⟨s', ?_, ?_, by rw [hsource]⟩, fun _ => ⟨t, ?_, ?_⟩⟩⟩
    · simp only [nextStep, hcopy, stepTo, id]
    · rw [hlisted.entries, hentries, hj.listed.entries]
    · simp only [nextStep, hmove, stepTo, id]
    · rw [hlisted₂.entries, hentries₂, hj.listed.entries]

/-- Two elements, and the second object assigned from the first. -/
def sampleAssign (i j : ι) : List (Step ι ℕ ℕ) :=
  [.label (.call i (.emplace .bump 0 7)), .label (.call i (.emplace .bump 1 8)),
    .copyAssign j i .bump]

theorem assign_sample :
    ∃ s, (assignMachine ℕ (Fin 2) fun _ => 0).run (fun _ => .new) (sampleAssign 0 1) = some s ∧
      AssignCopies (fun _ => 0) s 0 1 .bump := by
  have hrun : ((assignMachine ℕ (Fin 2) fun _ => 0).run (fun _ => .new)
      (sampleAssign 0 1)).isSome := rfl
  obtain ⟨s, hs⟩ := Option.isSome_iff_exists.1 hrun
  exact ⟨s, hs, (assign_iff (Machine.reach_of_run .init hs) 0 1 .bump).2 (.inl (by decide))⟩

/-- A one-element object assigned to itself is empty afterwards. -/
theorem self_assign_empties :
    ∃ s s' : Fin 1 → Object ℕ ℕ,
      (assignMachine ℕ (Fin 1) fun _ => 0).run (fun _ => .new)
        [.label (.call 0 (.emplace .bump 0 7))] = some s ∧
      nextStep (fun _ => 0) s (.copyAssign 0 0 .bump) = .step s' ∧
      (s 0).vm.entries = .ok [(0, 7)] ∧ (s' 0).vm.entries = .ok [] :=
  ⟨_, _, rfl, rfl, rfl, rfl⟩

end SseExt.Stl.VectorMap
