import SseExt.Lib.Keyed
import SseExt.Lib.Transition
import Mathlib.Algebra.Order.BigOperators.Group.List
import Mathlib.Algebra.Order.Ring.Nat
import Mathlib.Data.List.Perm.Basic

/-!
# `stl::vectormap`

A node-based map and beside it a vector of pointers to the map's elements. Every operation updates
the two with separate statements; the link between them is the address of the element.

**Memory.** A map is the list of its nodes, each with the address it keeps as long as it lives. The
order of that list means nothing. An allocator answers any address at which no node of the map
lives, so the address of an erased node may come back.

**Faults.** `_erase_vec` asserts that it finds the pointer; following a pointer to no element is a
fault too.

**Listings** (`Listed vm nodes`). The vector holds the addresses of `nodes`, and `nodes` are the
map's elements, in some order. Each operation is specified by what it does to a listing: an
insertion appends its node, an erasure filters one out, a copy reproduces the elements in order.
-/

namespace SseExt.Stl

abbrev Addr := ℕ

/-- An element of the map where it lives. -/
structure Node (K V : Type*) where
  addr : Addr
  key : K
  value : V
  deriving DecidableEq

/-- What `value_type` holds. -/
def Node.entry {K V : Type*} (n : Node K V) : K × V := (n.key, n.value)

/-- What a move leaves of an element, when a moved-from value `v` becomes `moved v`. -/
def Node.movedFrom {K V : Type*} (moved : V → V) (n : Node K V) : Node K V :=
  { n with value := moved n.value }

/-- Where the map puts a new node, by the addresses its nodes occupy. -/
structure Allocator where
  alloc : List Addr → Addr
  fresh : ∀ live, alloc live ∉ live

/-- An allocator that goes beyond every live address. -/
def Allocator.bump : Allocator where
  alloc live := live.sum + 1
  fresh live hmem := by
    have hle : live.sum + 1 ≤ live.sum := @List.le_sum_of_mem ℕ _ _ _ _ _ hmem
    exact Nat.not_succ_le_self _ hle

/-- `std::sort` with some comparator of pointers, which may look at what they point to. -/
structure Sorter (K V : Type*) where
  sort : List (Node K V) → List (Node K V)
  perm : ∀ nodes, (sort nodes).Perm nodes

structure VectorMap (K V : Type*) where
  map : List (Node K V)
  vector : List Addr
  deriving DecidableEq

namespace VectorMap

inductive Fault where
  /-- `ASSERT(it != m_vector.end())` -/
  | assert
  | dangling
  deriving DecidableEq

variable {K V : Type*}

def empty : VectorMap K V := ⟨[], []⟩

def insertVec (vm : VectorMap K V) (val : Addr) : VectorMap K V :=
  { vm with vector := vm.vector ++ [val] }

def eraseVec (vm : VectorMap K V) (val : Addr) : Except Fault (VectorMap K V) :=
  if val ∈ vm.vector then .ok { vm with vector := vm.vector.erase val } else .error .assert

/-- `*p` -/
def deref (vm : VectorMap K V) (p : Addr) : Except Fault (Node K V) :=
  match vm.map.find? (·.addr = p) with
  | some n => .ok n
  | none => .error .dangling

/-- The elements the vector points to, in its order. -/
def listing (vm : VectorMap K V) : Except Fault (List (Node K V)) := vm.vector.mapM vm.deref

section

variable [DecidableEq K]

/-- `m_map.emplace` and `m_map.try_emplace`: the element's address, and whether it is new. -/
def mapEmplace (A : Allocator) (map : List (Node K V)) (key : K) (value : V) :
    List (Node K V) × Addr × Bool :=
  match map.find? (·.key = key) with
  | some n => (map, n.addr, false)
  | none =>
    let a := A.alloc (map.map (·.addr))
    (map ++ [⟨a, key, value⟩], a, true)

def emplace (A : Allocator) (vm : VectorMap K V) (key : K) (value : V) :
    VectorMap K V × Addr × Bool :=
  let r := mapEmplace A vm.map key value
  let vm := { vm with map := r.1 }
  if r.2.2 then (vm.insertVec r.2.1, r.2) else (vm, r.2)

/-- The body of `emplace`, over the map's `try_emplace`. -/
def tryEmplace (A : Allocator) (vm : VectorMap K V) (key : K) (value : V) :
    VectorMap K V × Addr × Bool :=
  vm.emplace A key value

end

/-- `erase(iterator)`, the iterator being the address of its element. -/
def eraseIt (vm : VectorMap K V) (it : Addr) : Except Fault (VectorMap K V) := do
  let vm ← vm.eraseVec it
  return { vm with map := vm.map.filter (·.addr ≠ it) }

section

variable [DecidableEq K]

def eraseKey (vm : VectorMap K V) (key : K) : Except Fault (VectorMap K V × ℕ) :=
  match vm.map.find? (·.key = key) with
  | none => .ok (vm, 0)
  | some n => do
    let vm ← vm.eraseVec n.addr
    return ({ vm with map := vm.map.filter (·.addr ≠ n.addr) }, 1)

end

def clear (_ : VectorMap K V) : VectorMap K V := ⟨[], []⟩

/-- Both containers are swapped with empty ones. -/
def release (_ : VectorMap K V) : VectorMap K V := ⟨[], []⟩

def sortvec (S : Sorter K V) (vm : VectorMap K V) : Except Fault (VectorMap K V) := do
  let nodes ← vm.listing
  return { vm with vector := (S.sort nodes).map (·.addr) }

/-- Leave `value` in the element at `p`. -/
def setValue (vm : VectorMap K V) (p : Addr) (value : V) : VectorMap K V :=
  { vm with map := vm.map.map fun n => if n.addr = p then { n with value := value } else n }

section

variable [DecidableEq K]

/-- One round of the copy constructor's loop. -/
def copyElem (A : Allocator) (rhs vm : VectorMap K V) (e : Addr) :
    Except Fault (VectorMap K V) := do
  let n ← rhs.deref e
  return (vm.emplace A n.key n.value).1

def copyConstruct (A : Allocator) (rhs : VectorMap K V) : Except Fault (VectorMap K V) :=
  rhs.vector.foldlM (copyElem A rhs) empty

/-- One round of the move constructor's loop. -/
def moveElem (A : Allocator) (moved : V → V) (s : VectorMap K V × VectorMap K V) (e : Addr) :
    Except Fault (VectorMap K V × VectorMap K V) := do
  let n ← s.2.deref e
  return ((s.1.emplace A n.key n.value).1, s.2.setValue e (moved n.value))

/-- The new object, and what is left of the source. -/
def moveConstruct (A : Allocator) (moved : V → V) (rhs : VectorMap K V) :
    Except Fault (VectorMap K V × VectorMap K V) :=
  rhs.vector.foldlM (moveElem A moved) (empty, rhs)

end

/-! ## Listings -/

/-- The vector lists the map's elements, as `nodes`. -/
structure Listed (vm : VectorMap K V) (nodes : List (Node K V)) : Prop where
  perm : nodes.Perm vm.map
  vector : vm.vector = nodes.map (·.addr)
  addrs : (nodes.map (·.addr)).Nodup
  keys : (nodes.map (·.key)).Nodup

namespace Listed

variable {vm : VectorMap K V} {nodes : List (Node K V)}

protected theorem empty : Listed (empty : VectorMap K V) [] :=
  ⟨.refl _, rfl, .nil, .nil⟩

theorem vector_perm (h : Listed vm nodes) : vm.vector.Perm (vm.map.map (·.addr)) := by
  rw [h.vector]
  exact h.perm.map _

theorem deref (h : Listed vm nodes) {n : Node K V} (hn : n ∈ nodes) :
    vm.deref n.addr = .ok n := by
  have hnodup : (vm.map.map (·.addr)).Nodup := (h.perm.map _).nodup_iff.1 h.addrs
  rw [VectorMap.deref, find?_field hnodup (h.perm.mem_iff.1 hn)]

theorem listing (h : Listed vm nodes) : vm.listing = .ok nodes := by
  rw [VectorMap.listing, h.vector]
  exact mapM_field fun n hn => h.deref hn

/-- Permuting the vector keeps it a listing. -/
theorem sortvec (h : Listed vm nodes) (S : Sorter K V) :
    vm.sortvec S = .ok { vm with vector := (S.sort nodes).map (·.addr) } ∧
      Listed { vm with vector := (S.sort nodes).map (·.addr) } (S.sort nodes) := by
  have hperm := S.perm nodes
  refine ⟨?_, hperm.trans h.perm, rfl, ?_, ?_⟩
  · rw [VectorMap.sortvec, h.listing]
    rfl
  · exact (hperm.map _).nodup_iff.2 h.addrs
  · exact (hperm.map _).nodup_iff.2 h.keys

/-! ## Erasing -/

/-- **The pointer is found, and goes with its element.** -/
theorem eraseIt (h : Listed vm nodes) {n : Node K V} (hn : n ∈ nodes) :
    ∃ vm', vm.eraseIt n.addr = .ok vm' ∧ Listed vm' (nodes.filter (·.addr ≠ n.addr)) := by
  have hmem : n.addr ∈ vm.vector := h.vector ▸ List.mem_map_of_mem hn
  have hsub : (nodes.filter (·.addr ≠ n.addr)).Sublist nodes := List.filter_sublist
  refine ⟨_, by rw [VectorMap.eraseIt, eraseVec, if_pos hmem]; rfl, ?_, ?_, ?_, ?_⟩
  · exact h.perm.filter _
  · show vm.vector.erase n.addr = _
    rw [h.vector, erase_field h.addrs]
  · exact (hsub.map _).nodup h.addrs
  · exact (hsub.map _).nodup h.keys

end Listed

section

variable [DecidableEq K] {vm : VectorMap K V} {nodes : List (Node K V)}

/-- `erase(key)` is `erase(find(key))`. -/
theorem eraseKey_of_mem (h : Listed vm nodes) {n : Node K V} (hn : n ∈ nodes) :
    vm.eraseKey n.key = (vm.eraseIt n.addr).map (·, 1) := by
  have hnodup : (vm.map.map (·.key)).Nodup := (h.perm.map _).nodup_iff.1 h.keys
  rw [eraseKey, find?_field hnodup (h.perm.mem_iff.1 hn), VectorMap.eraseIt]
  dsimp only
  cases vm.eraseVec n.addr <;> rfl

theorem eraseKey_of_notMem (h : Listed vm nodes) {key : K} (hkey : key ∉ nodes.map (·.key)) :
    vm.eraseKey key = .ok (vm, 0) := by
  rw [eraseKey, find?_field_none fun hmem => hkey ((h.perm.map _).mem_iff.2 hmem)]

/-! ## Inserting -/

variable (A : Allocator)

/-- **A new element comes last.** -/
theorem Listed.emplace_of_notMem (h : Listed vm nodes) {key : K} (value : V)
    (hkey : key ∉ nodes.map (·.key)) :
    ∃ n : Node K V, n.entry = (key, value) ∧ Listed (vm.emplace A key value).1 (nodes ++ [n]) ∧
      (vm.emplace A key value).2 = (n.addr, true) := by
  let n : Node K V := ⟨A.alloc (vm.map.map (·.addr)), key, value⟩
  have hfind : vm.map.find? (·.key = key) = none :=
    find?_field_none fun hmem => hkey ((h.perm.map _).mem_iff.2 hmem)
  have hemplace :
      vm.emplace A key value = (⟨vm.map ++ [n], vm.vector ++ [n.addr]⟩, n.addr, true) := by
    simp only [emplace, mapEmplace, hfind]
    rfl
  have hfresh : n.addr ∉ nodes.map (·.addr) := fun hmem =>
    A.fresh _ ((h.perm.map _).mem_iff.1 hmem)
  rw [hemplace]
  refine ⟨n, rfl, ⟨h.perm.append (.refl _), ?_, ?_, ?_⟩, rfl⟩
  · simp [h.vector]
  · rw [List.map_append]
    exact h.addrs.append (List.nodup_singleton _) (by simpa using hfresh)
  · rw [List.map_append]
    exact h.keys.append (List.nodup_singleton _) (by simpa using hkey)

theorem Listed.emplace_of_mem (h : Listed vm nodes) {n : Node K V} (hn : n ∈ nodes) (value : V) :
    vm.emplace A n.key value = (vm, n.addr, false) := by
  have hnodup : (vm.map.map (·.key)).Nodup := (h.perm.map _).nodup_iff.1 h.keys
  simp only [emplace, mapEmplace, find?_field hnodup (h.perm.mem_iff.1 hn)]
  rfl

/-! ## Copying and moving -/

/-- A round of a copy or a move: the next element of the source has a new key. -/
theorem Listed.emplace_next (h : Listed vm nodes) {n : Node K V} {rest : List (Node K V)}
    (hkeys : (nodes.map (·.key) ++ (n :: rest).map (·.key)).Nodup) :
    ∃ nodes', Listed (vm.emplace A n.key n.value).1 nodes' ∧
      nodes'.map (·.entry) = nodes.map (·.entry) ++ [n.entry] ∧
      (nodes'.map (·.key) ++ rest.map (·.key)).Nodup := by
  have hnot : n.key ∉ nodes.map (·.key) := by
    intro hmem
    exact List.disjoint_of_nodup_append hkeys hmem List.mem_cons_self
  obtain ⟨n', hn', hlisted, -⟩ := h.emplace_of_notMem A n.value hnot
  have hentry : n'.entry = n.entry := hn'
  have hkey : n'.key = n.key := congrArg Prod.fst hn'
  exact ⟨nodes ++ [n'], hlisted, by simp [hentry], by simpa [hkey] using hkeys⟩

/-- The loop of the copy constructor, from any of its rounds. -/
theorem Listed.copyLoop {rhs : VectorMap K V} {src : List (Node K V)} (hsrc : Listed rhs src)
    (rest : List (Node K V)) (hrest : rest ⊆ src) (h : Listed vm nodes)
    (hkeys : (nodes.map (·.key) ++ rest.map (·.key)).Nodup) :
    ∃ vm' nodes', (rest.map (·.addr)).foldlM (copyElem A rhs) vm = .ok vm' ∧ Listed vm' nodes' ∧
      nodes'.map (·.entry) = nodes.map (·.entry) ++ rest.map (·.entry) := by
  induction rest generalizing vm nodes with
  | nil => exact ⟨vm, nodes, rfl, h, by simp⟩
  | cons n rest ih =>
    obtain ⟨nodes₁, hlisted, hentries₁, hkeys₁⟩ := h.emplace_next A hkeys
    obtain ⟨vm', nodes', hloop, h', hentries⟩ :=
      ih (fun _ hm => hrest (List.mem_cons_of_mem _ hm)) hlisted hkeys₁
    refine ⟨vm', nodes', ?_, h', ?_⟩
    · rw [List.map_cons, List.foldlM_cons, copyElem, hsrc.deref (hrest List.mem_cons_self)]
      exact hloop
    · simp [hentries, hentries₁]

/-- **A copy lists equal elements in the order of its source.** -/
theorem Listed.copyConstruct {rhs : VectorMap K V} {src : List (Node K V)} (hsrc : Listed rhs src) :
    ∃ vm' nodes', copyConstruct A rhs = .ok vm' ∧ Listed vm' nodes' ∧
      nodes'.map (·.entry) = src.map (·.entry) := by
  rw [VectorMap.copyConstruct, hsrc.vector]
  exact hsrc.copyLoop A src (fun _ hm => hm) Listed.empty (by simpa using hsrc.keys)

omit [DecidableEq K] in
theorem Listed.setValue (h : Listed vm nodes) (p : Addr) (value : V) :
    Listed (vm.setValue p value)
      (nodes.map fun n => if n.addr = p then { n with value := value } else n) := by
  have haddr := map_ite_field (f := Node.addr) (g := fun n : Node K V => { n with value := value })
    (fun _ => rfl) (·.addr = p) nodes
  have hkey := map_ite_field (f := Node.key) (g := fun n : Node K V => { n with value := value })
    (fun _ => rfl) (·.addr = p) nodes
  refine ⟨h.perm.map _, ?_, ?_, ?_⟩
  · rw [haddr]
    exact h.vector
  · rw [haddr]
    exact h.addrs
  · rw [hkey]
    exact h.keys

omit [DecidableEq K] in
/-- Changing one element of a listing. -/
theorem Listed.setValue_at {n : Node K V} {pre post : List (Node K V)}
    (h : Listed vm (pre ++ n :: post)) (value : V) :
    Listed (vm.setValue n.addr value) (pre ++ { n with value := value } :: post) := by
  have hset := h.setValue n.addr value
  rwa [map_update_field h.addrs] at hset

/-- The loop of the move constructor; it has been through `pre`. -/
theorem Listed.moveLoop {rhs : VectorMap K V} (moved : V → V) (pre rest : List (Node K V))
    (hsrc : Listed rhs (pre ++ rest)) (h : Listed vm nodes)
    (hkeys : (nodes.map (·.key) ++ rest.map (·.key)).Nodup) :
    ∃ vm' nodes' rhs', (rest.map (·.addr)).foldlM (moveElem A moved) (vm, rhs) = .ok (vm', rhs') ∧
      Listed vm' nodes' ∧ nodes'.map (·.entry) = nodes.map (·.entry) ++ rest.map (·.entry) ∧
        Listed rhs' (pre ++ rest.map (Node.movedFrom moved)) := by
  induction rest generalizing vm nodes rhs pre with
  | nil => exact ⟨vm, nodes, rhs, rfl, h, by simp, hsrc⟩
  | cons n rest ih =>
    obtain ⟨nodes₁, hlisted, hentries₁, hkeys₁⟩ := h.emplace_next A hkeys
    have hset :
        Listed (rhs.setValue n.addr (moved n.value)) (pre ++ [n.movedFrom moved] ++ rest) := by
      rw [List.append_assoc]
      exact hsrc.setValue_at (moved n.value)
    obtain ⟨vm', nodes', rhs', hloop, h', hentries, hrhs'⟩ :=
      ih (pre ++ [n.movedFrom moved]) hset hlisted hkeys₁
    refine ⟨vm', nodes', rhs', ?_, h', ?_, ?_⟩
    · rw [List.map_cons, List.foldlM_cons, moveElem, hsrc.deref (by simp)]
      exact hloop
    · simp [hentries, hentries₁]
    · simpa using hrhs'

/-- **A move lists the source's elements, and leaves the source listing what it moved from.** -/
theorem Listed.moveConstruct {rhs : VectorMap K V} {src : List (Node K V)} (hsrc : Listed rhs src)
    (moved : V → V) :
    ∃ vm' nodes' rhs', moveConstruct A moved rhs = .ok (vm', rhs') ∧ Listed vm' nodes' ∧
      nodes'.map (·.entry) = src.map (·.entry) ∧ Listed rhs' (src.map (Node.movedFrom moved)) := by
  rw [VectorMap.moveConstruct, hsrc.vector]
  exact hsrc.moveLoop A moved [] src Listed.empty (by simpa using hsrc.keys)

end

end VectorMap

end SseExt.Stl
