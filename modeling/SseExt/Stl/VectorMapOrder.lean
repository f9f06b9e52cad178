import SseExt.Stl.VectorMap

/-!
# What the vector of `stl::vectormap` lists

Runs over any number of objects, which are modified one at a time and copied or moved into one
another. Each object keeps the keys its insertions put in, in order, and whether `sortvec` was ever
called on it.

**Theorem (`vector_in_step`).** In every state of a run, each object's vector holds one pointer to
each element of its map and no other, and no call fails an assertion or follows a dangling pointer.
Without `sortvec` the order is that of the last insertions of the keys that are left. `sortvec` only
permutes, and a copy lists the elements of its source in the source's order.

The order is `survivors`: `List.dedup` keeps the last occurrence of each key. A key erased and
inserted again is therefore last.
-/

namespace SseExt.Stl.VectorMap

variable {K V : Type*} [DecidableEq K]

/-! ## The surviving keys -/

/-- The keys of `keys`, in the order of their last occurrences in `inserted`. -/
def survivors (inserted keys : List K) : List K := inserted.dedup.filter (· ∈ keys)

theorem survivors_nil (inserted : List K) : survivors inserted [] = [] := by
  simp [survivors]

theorem survivors_snoc (inserted : List K) {keys : List K} {key : K} (hkey : key ∉ keys) :
    survivors (inserted ++ [key]) (keys ++ [key]) = survivors inserted keys ++ [key] := by
  rw [survivors, dedup_snoc, List.filter_append, List.filter_filter,
    List.filter_cons_of_pos (by simp), List.filter_nil, survivors]
  congr 1
  apply List.filter_congr
  intro k _
  by_cases hk : k = key
  · simp [hk, hkey]
  · simp [hk]

theorem survivors_filter (inserted keys : List K) (key : K) :
    survivors inserted (keys.filter (· ≠ key)) = (survivors inserted keys).filter (· ≠ key) := by
  rw [survivors, survivors, List.filter_filter]
  apply List.filter_congr
  intro k _
  simp [and_comm]

theorem survivors_perm (inserted : List K) {keys keys' : List K} (h : keys.Perm keys') :
    survivors inserted keys = survivors inserted keys' :=
  List.filter_congr fun _ _ => by simp [h.mem_iff]

theorem survivors_self {keys : List K} (hkeys : keys.Nodup) : survivors keys keys = keys := by
  rw [survivors, hkeys.dedup]
  exact List.filter_eq_self.2 fun k hk => by simpa using hk

/-! ## Runs -/

/-- A container, with the keys inserted since its construction. -/
structure Object (K V : Type*) where
  vm : VectorMap K V
  inserted : List K
  /-- `sortvec` has been called. -/
  sorted : Bool

namespace Object

def new : Object K V := ⟨empty, [], false⟩

/-- The keys of the elements. -/
def keys (o : Object K V) : List K := o.vm.map.map (·.key)

end Object

inductive Op (K V : Type*) where
  | emplace (A : Allocator) (key : K) (value : V)
  | tryEmplace (A : Allocator) (key : K) (value : V)
  | eraseKey (key : K)
  | eraseIt (it : Addr)
  | clear
  | release
  | sortvec (S : Sorter K V)

/-- A computation as a step to what `f` makes of its result. -/
def stepTo {α σ ε : Type*} (f : α → σ) : Except ε α → Outcome σ ε
  | .ok a => .step (f a)
  | .error e => .fault e

namespace Object

/-- What `emplace` or `try_emplace` leaves, by what it returns. -/
def inserting (o : Object K V) (key : K) (r : VectorMap K V × Addr × Bool) : Object K V :=
  { o with vm := r.1, inserted := if r.2.2 then o.inserted ++ [key] else o.inserted }

def call (o : Object K V) : Op K V → Outcome (Object K V) Fault
  | .emplace A key value => .step (o.inserting key (o.vm.emplace A key value))
  | .tryEmplace A key value => .step (o.inserting key (o.vm.tryEmplace A key value))
  | .eraseKey key => stepTo (fun r => { o with vm := r.1 }) (o.vm.eraseKey key)
  | .eraseIt it =>
    -- the caller passes an iterator to an element
    if it ∈ o.vm.map.map (·.addr) then stepTo (fun vm => { o with vm }) (o.vm.eraseIt it)
    else .blocked
  | .clear => .step { o with vm := o.vm.clear }
  | .release => .step { o with vm := o.vm.release }
  | .sortvec S => stepTo (fun vm => { o with vm, sorted := true }) (o.vm.sortvec S)

/-- The copy constructor, which inserts the keys of the source's listing. -/
def copied (A : Allocator) (rhs : Object K V) : Except Fault (Object K V) := do
  let nodes ← rhs.vm.listing
  let vm ← copyConstruct A rhs.vm
  return ⟨vm, nodes.map (·.key), false⟩

/-- The move constructor: the new object, and the source afterwards. -/
def moveOut (A : Allocator) (moved : V → V) (rhs : Object K V) :
    Except Fault (Object K V × Object K V) := do
  let nodes ← rhs.vm.listing
  let r ← moveConstruct A moved rhs.vm
  return (⟨r.1, nodes.map (·.key), false⟩, { rhs with vm := r.2 })

end Object

inductive Label (ι K V : Type*) where
  | call (i : ι) (op : Op K V)
  /-- Object `i` is replaced by a copy of `j`. -/
  | copyConstruct (i j : ι) (A : Allocator)
  | moveConstruct (i j : ι) (A : Allocator)

section

variable {ι : Type*} [DecidableEq ι] (moved : V → V)

def next (s : ι → Object K V) : Label ι K V → Outcome (ι → Object K V) Fault
  | .call i op =>
    match (s i).call op with
    | .blocked => .blocked
    | .fault e => .fault e
    | .step o => .step (Function.update s i o)
  | .copyConstruct i j A =>
    if i = j then .blocked
    else stepTo (fun o => Function.update s i o) ((s j).copied A)
  | .moveConstruct i j A =>
    if i = j then .blocked
    else stepTo (fun o => Function.update (Function.update s j o.2) i o.1) ((s j).moveOut A moved)

variable (K ι) in
def machine : Machine (ι → Object K V) (Label ι K V) Fault := ⟨fun _ => Object.new, next moved⟩

end

/-! ## One call -/

namespace Object

/-- The object's vector lists `nodes`, unless sorted in the order of their insertion. -/
structure InStep (o : Object K V) (nodes : List (Node K V)) : Prop where
  listed : Listed o.vm nodes
  order : o.sorted = false → nodes.map (·.key) = survivors o.inserted (nodes.map (·.key))

variable {o : Object K V} {nodes : List (Node K V)}

theorem InStep.new : InStep (new : Object K V) [] := ⟨.empty, fun _ => rfl⟩

theorem InStep.inserting (h : o.InStep nodes) (A : Allocator) (key : K) (value : V) :
    ∃ nodes', (o.inserting key (o.vm.emplace A key value)).InStep nodes' := by
  by_cases hkey : key ∈ nodes.map (·.key)
  · obtain ⟨n, hn, rfl⟩ := List.mem_map.1 hkey
    rw [h.listed.emplace_of_mem A hn]
    exact ⟨nodes, h⟩
  · obtain ⟨n, hn, hlisted, hr⟩ := h.listed.emplace_of_notMem A value hkey
    have hnkey : n.key = key := congrArg Prod.fst hn
    refine ⟨nodes ++ [n], hlisted, fun hsorted => ?_⟩
    simp only [Object.inserting, hr, if_true, List.map_append, List.map_cons, List.map_nil, hnkey]
    rw [survivors_snoc o.inserted hkey, ← h.order hsorted]

theorem InStep.erasing (h : o.InStep nodes) {n : Node K V} (hn : n ∈ nodes) :
    ∃ vm', o.vm.eraseIt n.addr = .ok vm' ∧ ∃ nodes', InStep { o with vm := vm' } nodes' := by
  obtain ⟨vm', herase, hlisted⟩ := h.listed.eraseIt hn
  refine ⟨vm', herase, _, hlisted, fun hsorted => ?_⟩
  rw [filter_field h.listed.addrs h.listed.keys hn, map_filter_ne_field, survivors_filter,
    ← h.order hsorted]

/-- **Every call keeps the vector in step.** -/
theorem InStep.call (h : o.InStep nodes) (op : Op K V) :
    (o.call op).Ensures fun o' => ∃ nodes', o'.InStep nodes' := by
  cases op with
  | emplace A key value => exact h.inserting A key value
  | tryEmplace A key value => exact h.inserting A key value
  | eraseKey key =>
    by_cases hkey : key ∈ nodes.map (·.key)
    · obtain ⟨n, hn, rfl⟩ := List.mem_map.1 hkey
      obtain ⟨vm', herase, nodes', h'⟩ := h.erasing hn
      rw [Object.call, eraseKey_of_mem h.listed hn, herase]
      exact ⟨nodes', h'⟩
    · rw [Object.call, eraseKey_of_notMem h.listed hkey]
      exact ⟨nodes, h⟩
  | eraseIt it =>
    apply Outcome.Ensures.guard
    intro hit
    obtain ⟨n, hn, rfl⟩ := List.mem_map.1 hit
    obtain ⟨vm', herase, nodes', h'⟩ := h.erasing (h.listed.perm.mem_iff.2 hn)
    rw [herase]
    exact ⟨nodes', h'⟩
  | clear => exact ⟨[], .empty, fun _ => (survivors_nil _).symm⟩
  | release => exact ⟨[], .empty, fun _ => (survivors_nil _).symm⟩
  | sortvec S =>
    obtain ⟨hsort, hlisted⟩ := h.listed.sortvec S
    rw [Object.call, hsort]
    exact ⟨_, hlisted, nofun⟩

omit [DecidableEq K] in
theorem keys_of_entries {nodes' : List (Node K V)}
    (h : nodes'.map (·.entry) = nodes.map (·.entry)) : nodes'.map (·.key) = nodes.map (·.key) := by
  have hfst : ∀ ns : List (Node K V), ns.map (·.key) = (ns.map (·.entry)).map Prod.fst := by
    intro ns
    rw [List.map_map]
    rfl
  rw [hfst, hfst, h]

/-- **A copy lists its source's elements in its source's order.** -/
theorem InStep.copied (h : o.InStep nodes) (A : Allocator) :
    ∃ o' nodes', o.copied A = .ok o' ∧ o'.InStep nodes' ∧
      nodes'.map (·.entry) = nodes.map (·.entry) := by
  obtain ⟨vm', nodes', hcopy, hlisted, hentries⟩ := h.listed.copyConstruct A
  have hkeys := keys_of_entries hentries
  refine ⟨⟨vm', nodes.map (·.key), false⟩, nodes', ?_, ⟨hlisted, fun _ => ?_⟩, hentries⟩
  · rw [Object.copied, h.listed.listing, hcopy]
    rfl
  · rw [hkeys, survivors_self h.listed.keys]

theorem InStep.moveOut (h : o.InStep nodes) (A : Allocator) (moved : V → V) :
    ∃ o' nodes' rest rest', o.moveOut A moved = .ok (o', rest) ∧ o'.InStep nodes' ∧
      rest.InStep rest' := by
  obtain ⟨vm', nodes', rhs', hmove, hlisted, hentries, hrhs⟩ := h.listed.moveConstruct A moved
  have hkeys := keys_of_entries hentries
  have hleft : (nodes.map (Node.movedFrom moved)).map (·.key) = nodes.map (·.key) := by
    simp [Node.movedFrom]
  refine ⟨⟨vm', nodes.map (·.key), false⟩, nodes', { o with vm := rhs' }, _, ?_,
    ⟨hlisted, fun _ => ?_⟩, hrhs, fun hsorted => ?_⟩
  · rw [Object.moveOut, h.listed.listing, hmove]
    rfl
  · rw [hkeys, survivors_self h.listed.keys]
  · rw [hleft, ← h.order hsorted]

end Object

/-! ## Runs -/

section

variable {ι : Type*} [DecidableEq ι] {moved : V → V} {s : ι → Object K V}

/-- Every object is in step. -/
def AllInStep (s : ι → Object K V) : Prop := ∀ i, ∃ nodes, (s i).InStep nodes

theorem AllInStep.update (h : AllInStep s) {i : ι} {o : Object K V} {nodes : List (Node K V)}
    (ho : o.InStep nodes) : AllInStep (Function.update s i o) := by
  intro j
  by_cases hj : j = i
  · rw [hj, Function.update_self]
    exact ⟨nodes, ho⟩
  · rw [Function.update_of_ne hj]
    exact h j

theorem AllInStep.next (h : AllInStep s) (a : Label ι K V) :
    (next moved s a).Ensures AllInStep := by
  cases a with
  | call i op =>
    obtain ⟨nodes, hi⟩ := h i
    have hcall := hi.call op
    simp only [VectorMap.next]
    cases hop : (s i).call op with
    | blocked => trivial
    | fault e => rw [hop] at hcall; exact hcall
    | step o =>
      rw [hop] at hcall
      obtain ⟨nodes', ho⟩ := hcall
      exact h.update ho
  | copyConstruct i j A =>
    obtain ⟨nodes, hj⟩ := h j
    obtain ⟨o', nodes', hcopy, ho', -⟩ := hj.copied A
    simp only [VectorMap.next, hcopy]
    split_ifs
    · trivial
    · exact h.update ho'
  | moveConstruct i j A =>
    obtain ⟨nodes, hj⟩ := h j
    obtain ⟨o', nodes', rest, rest', hmove, ho', hrest⟩ := hj.moveOut A moved
    simp only [VectorMap.next, hmove]
    split_ifs
    · trivial
    · exact (h.update hrest).update ho'

theorem allInStep_reach (h : (machine K ι moved).Reach s) : AllInStep s :=
  h.invariant (fun _ => ⟨[], .new⟩) fun _ a hs => (hs.next a).mono fun _ h' _ => h'

/-- **The vector keeps in step with the map.** -/
theorem vector_in_step (h : (machine K ι moved).Reach s) :
    (∀ i, (s i).vm.vector.Perm ((s i).vm.map.map (·.addr)) ∧ (s i).vm.vector.Nodup) ∧
    (∀ a e, next moved s a ≠ .fault e) ∧
    (∀ i, (s i).sorted = false → ∃ nodes, (s i).vm.listing = .ok nodes ∧
      nodes.map (·.key) = survivors (s i).inserted (s i).keys) ∧
    (∀ i S, ∃ s', next moved s (.call i (.sortvec S)) = .step s' ∧ (s' i).vm.map = (s i).vm.map ∧
      (s' i).vm.vector.Perm (s i).vm.vector) ∧
    (∀ i j A, i ≠ j → ∃ s' nodes nodes', next moved s (.copyConstruct i j A) = .step s' ∧
      (s j).vm.listing = .ok nodes ∧ (s' i).vm.listing = .ok nodes' ∧
      nodes'.map (·.entry) = nodes.map (·.entry)) := by
  have hall := allInStep_reach h
  refine ⟨fun i => ?_, fun a e => (hall.next a).ne_fault e, fun i hsorted => ?_, fun i S => ?_,
    fun i j A hij => ?_⟩
  · obtain ⟨nodes, hi⟩ := hall i
    refine ⟨hi.listed.vector_perm, ?_⟩
    rw [hi.listed.vector]
    exact hi.listed.addrs
  · obtain ⟨nodes, hi⟩ := hall i
    have hperm : (nodes.map (·.key)).Perm (s i).keys := hi.listed.perm.map _
    exact ⟨nodes, hi.listed.listing, (hi.order hsorted).trans (survivors_perm _ hperm)⟩
  · obtain ⟨nodes, hi⟩ := hall i
    obtain ⟨hsort, hlisted⟩ := hi.listed.sortvec S
    refine ⟨_, by simp only [VectorMap.next, Object.call, hsort]; rfl, ?_, ?_⟩
    · rw [Function.update_self]
    · rw [Function.update_self, hi.listed.vector]
      exact (S.perm nodes).map _
  · obtain ⟨nodes, hj⟩ := hall j
    obtain ⟨o', nodes', hcopy, ho', hentries⟩ := hj.copied A
    refine ⟨Function.update s i o', nodes, nodes', ?_, hj.listed.listing, ?_, hentries⟩
    · simp only [VectorMap.next, hcopy, if_neg hij]
      rfl
    · rw [Function.update_self]
      exact ho'.listed.listing

/-- Key 0 is erased and put back behind key 1, and the second object copies the first. -/
def sampleCalls (i j : ι) : List (Label ι ℕ ℕ) :=
  [.call i (.emplace .bump 0 7), .call i (.tryEmplace .bump 1 8), .call i (.eraseKey 0),
    .call i (.emplace .bump 0 9), .copyConstruct j i .bump]

theorem vector_in_step_sample :
    ∃ s, (machine ℕ (Fin 2) fun _ => 0).run (fun _ => .new) (sampleCalls 0 1) = some s ∧
      ∃ nodes, (s 1).vm.listing = .ok nodes ∧
        nodes.map (·.key) = survivors (s 1).inserted (s 1).keys := by
  have hrun : ((machine ℕ (Fin 2) fun _ => 0).run (fun _ => .new) (sampleCalls 0 1)).map
      (fun s => (s 1).sorted) = some false := rfl
  obtain ⟨s, hs, hsorted⟩ := Option.map_eq_some_iff.1 hrun
  exact ⟨s, hs, (vector_in_step (Machine.reach_of_run .init hs)).2.2.1 1 hsorted⟩

end

end SseExt.Stl.VectorMap
