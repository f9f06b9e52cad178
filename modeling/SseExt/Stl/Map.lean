import SseExt.Lib.Refinement
import SseExt.Lib.SortedVec

/-!
# `stl::map`

A vector of pairs searched by `std::upper_bound` with the comparator `<=`. An iterator is a
position; `end()` is the length. `emplace` takes one of two paths, by whether the key can be read
off its arguments before the pair is built.

`step` and `run` are the operations as a user sees them, with everything they return.
-/

namespace SseExt.Stl

/-- The container; `data` is the vector. -/
structure Map (K V : Type*) where
  data : List (K × V)

/-- The arguments of `emplace`, by what `in_place_key_extract_map` makes of their types. -/
inductive EmplaceArgs (K V : Type*) where
  | keyed (key : K) (arg : V)
  | pair (p : K × V)
  /-- Anything else, with the pair it constructs. -/
  | other (value : K × V)

namespace EmplaceArgs

variable {K V : Type*}

/-- `in_place_key_extract_map::extract`, when `extractable`. -/
def extract : EmplaceArgs K V → Option K
  | keyed key _ => some key
  | pair p => some p.1
  | other _ => none

/-- `value_type(std::forward<Args>(a_args)...)` -/
def construct : EmplaceArgs K V → K × V
  | keyed key arg => (key, arg)
  | pair p => p
  | other value => value

end EmplaceArgs

namespace Map

variable {K V : Type*}

section

variable (le : K → K → Bool)

def findUpperBound (m : Map K V) (key : K) : ℕ := search le Prod.fst m.data key

def size (m : Map K V) : ℕ := m.data.length

def clear (_ : Map K V) : Map K V := ⟨[]⟩

/-- `data.emplace(it, ...)` -/
def emplaceAt (m : Map K V) (it : ℕ) (e : K × V) : Map K V := ⟨m.data.insertIdx it e⟩

variable [DecidableEq K]

/-- `it != data.end() && it->first == a_key` -/
def found (m : Map K V) (it : ℕ) (key : K) : Bool := m.data[it]?.any (·.1 = key)

def find (m : Map K V) (key : K) : ℕ :=
  let it := m.findUpperBound le key
  if m.found it key then it else m.data.length

def contains (m : Map K V) (key : K) : Bool :=
  if !m.data.isEmpty then m.find le key ≠ m.data.length else false

/-- `at` -/
def atKey (m : Map K V) (key : K) : Except String V :=
  match m.data[m.find le key]? with
  | none => .error "invalid map key"
  | some e => .ok e.2

def tryEmplaceImpl (m : Map K V) (key : K) (value : V) : Map K V × ℕ × Bool :=
  let it := m.findUpperBound le key
  if m.found it key then (m, it, false) else (m.emplaceAt it (key, value), it, true)

def emplaceImpl (m : Map K V) (args : EmplaceArgs K V) : Map K V × ℕ × Bool :=
  match args.extract with
  | some k =>
    let it := m.findUpperBound le k
    if m.found it k then (m, it, false) else (m.emplaceAt it args.construct, it, true)
  | none =>
    let k := args.construct
    let it := m.findUpperBound le k.1
    if m.found it k.1 then (m, it, false) else (m.emplaceAt it k, it, true)

def insertOrAssignImpl (m : Map K V) (key : K) (value : V) : Map K V × ℕ × Bool :=
  let it := m.findUpperBound le key
  if m.found it key then (⟨m.data.set it (key, value)⟩, it, false)
  else (m.emplaceAt it (key, value), it, true)

/-- `insert(std::initializer_list)`; also the loops of the constructor, of `operator=` and of
`load`. -/
def insertInit (m : Map K V) (init : List (K × V)) : Map K V :=
  init.foldl (fun m e => (m.emplaceImpl le (.pair e)).1) m

/-- `operator=(std::initializer_list)` -/
def assignInit (m : Map K V) (init : List (K × V)) : Map K V := m.clear.insertInit le init

/-- `erase(const key_type&)`, with the iterator it returns. -/
def erase (m : Map K V) (key : K) : Map K V × ℕ :=
  let it := m.find le key
  if it ≠ m.data.length then (⟨m.data.eraseIdx it⟩, it) else (m, it)

/-- `erase(const_iterator)`, which must be dereferenceable. -/
def eraseIt (m : Map K V) (it : ℕ) : Option (Map K V × ℕ) :=
  if it < m.data.length then some (⟨m.data.eraseIdx it⟩, it) else none

/-- `operator[]`, with the position of the value it refers to. -/
def subscript [Inhabited V] (m : Map K V) (key : K) : Map K V × ℕ :=
  let r := m.tryEmplaceImpl le key default
  (r.1, r.2.1)

/-- `m[key] = value` -/
def subscriptAssign [Inhabited V] (m : Map K V) (key : K) (value : V) : Map K V × ℕ :=
  let r := m.subscript le key
  (⟨r.1.data.modify r.2 fun e => (e.1, value)⟩, r.2)

def save (m : Map K V) : List (K × V) := m.data

/-- `load`, when the archive returns `tmp`. -/
def load (m : Map K V) (tmp : List (K × V)) : Map K V := m.clear.insertInit le tmp

end

/-- The operations. -/
inductive Op (K V : Type*) where
  | insert (e : K × V)
  | insertInit (init : List (K × V))
  | emplace (args : EmplaceArgs K V)
  | tryEmplace (key : K) (value : V)
  | insertOrAssign (key : K) (value : V)
  | subscript (key : K)
  | subscriptAssign (key : K) (value : V)
  | erase (key : K)
  | eraseIt (it : ℕ)
  | clear
  | assignInit (init : List (K × V))
  | load (tmp : List (K × V))

/-- What an operation returns: the iterator and `bool` of an insertion, with the element under the
iterator; the value `operator[]` refers to; the iterator of an erase. -/
inductive Res (K V : Type*) where
  | placed (it : ℕ) (e : Option (K × V)) (inserted : Bool)
  | value (v : Option V)
  | next (it : ℕ)
  | done

variable [DecidableEq K] [Inhabited V]

/-- The result of an insertion. -/
def placed (r : Map K V × ℕ × Bool) : Map K V × Res K V :=
  (r.1, .placed r.2.1 r.1.data[r.2.1]? r.2.2)

/-- The value `operator[]` refers to. -/
def referred (r : Map K V × ℕ) : Map K V × Res K V := (r.1, .value (r.1.data[r.2]?.map Prod.snd))

def step (le : K → K → Bool) (m : Map K V) : Op K V → Option (Map K V × Res K V)
  | .insert e => some (placed (m.emplaceImpl le (.pair e)))
  | .insertInit init => some (m.insertInit le init, .done)
  | .emplace args => some (placed (m.emplaceImpl le args))
  | .tryEmplace key value => some (placed (m.tryEmplaceImpl le key value))
  | .insertOrAssign key value => some (placed (m.insertOrAssignImpl le key value))
  | .subscript key => some (referred (m.subscript le key))
  | .subscriptAssign key value => some (referred (m.subscriptAssign le key value))
  | .erase key => let r := m.erase le key; some (r.1, .next r.2)
  | .eraseIt it => (m.eraseIt it).map fun r => (r.1, .next r.2)
  | .clear => some (m.clear, .done)
  | .assignInit init => some (m.assignInit le init, .done)
  | .load tmp => some (m.load le tmp, .done)

/-- A sequence of operations with their results; `none` when an iterator is misused. -/
def run (le : K → K → Bool) (m : Map K V) : List (Op K V) → Option (Map K V × List (Res K V)) :=
  runOps (step le) m

end Map

end SseExt.Stl
