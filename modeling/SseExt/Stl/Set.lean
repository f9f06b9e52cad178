import SseExt.Lib.Refinement
import SseExt.Lib.SortedVec

/-!
# `stl::set`

A vector of keys searched and inserted into like `stl::map`.

**Theorem (`run_canonical`).** After any sequence of operations from the empty set the vector is
the strictly ascending enumeration of the finite set that the operations describe, and every
operation returned what it returns there. So the finite set determines the vector: two runs that
reach the same set hold, iterate and save the same data.
-/

namespace SseExt.Stl

/-- The container; `data` is the vector. -/
structure Set (K : Type*) where
  data : List K

/-- The arguments of `emplace`, by what `in_place_key_extract_set` makes of their types. -/
inductive SetArgs (K : Type*) where
  | key (k : K)
  /-- Anything else, with the key it constructs. -/
  | other (k : K)

namespace SetArgs

variable {K : Type*}

/-- `in_place_key_extract_set::extract`, when `extractable`. -/
def extract : SetArgs K → Option K
  | key k => some k
  | other _ => none

/-- `key_type(std::forward<Args>(a_args)...)` -/
def construct : SetArgs K → K
  | key k => k
  | other k => k

end SetArgs

namespace Set

variable {K : Type*}

section

variable (le : K → K → Bool)

def findUpperBound (s : Set K) (key : K) : ℕ := search le id s.data key

def clear (_ : Set K) : Set K := ⟨[]⟩

/-- `data.emplace(it, ...)` -/
def emplaceAt (s : Set K) (it : ℕ) (key : K) : Set K := ⟨s.data.insertIdx it key⟩

variable [DecidableEq K]

/-- `it != data.cend() && *it == a_key` -/
def found (s : Set K) (it : ℕ) (key : K) : Bool := s.data[it]?.any (· = key)

def find (s : Set K) (key : K) : ℕ :=
  let it := s.findUpperBound le key
  if s.found it key then it else s.data.length

def contains (s : Set K) (key : K) : Bool :=
  if !s.data.isEmpty then s.find le key ≠ s.data.length else false

def emplaceImpl (s : Set K) (args : SetArgs K) : Set K × ℕ × Bool :=
  match args.extract with
  | some k =>
    let it := s.findUpperBound le k
    if s.found it k then (s, it, false) else (s.emplaceAt it args.construct, it, true)
  | none =>
    let k := args.construct
    let it := s.findUpperBound le k
    if s.found it k then (s, it, false) else (s.emplaceAt it k, it, true)

/-- `insert(std::initializer_list)`; also the loops of the constructor, of `operator=` and of
`load`. -/
def insertInit (s : Set K) (init : List K) : Set K :=
  init.foldl (fun s k => (s.emplaceImpl le (.key k)).1) s

/-- `operator=(std::initializer_list)` -/
def assignInit (s : Set K) (init : List K) : Set K := s.clear.insertInit le init

/-- `erase(const key_type&)`, with the iterator it returns. -/
def erase (s : Set K) (key : K) : Set K × ℕ :=
  let it := s.find le key
  if it ≠ s.data.length then (⟨s.data.eraseIdx it⟩, it) else (s, it)

/-- `erase(const_iterator)`, which must be dereferenceable. -/
def eraseIt (s : Set K) (it : ℕ) : Option (Set K × ℕ) :=
  if it < s.data.length then some (⟨s.data.eraseIdx it⟩, it) else none

def save (s : Set K) : List K := s.data

/-- `load`, when the archive returns `tmp`. -/
def load (s : Set K) (tmp : List K) : Set K := s.clear.insertInit le tmp

end

/-- The operations. -/
inductive Op (K : Type*) where
  | insert (key : K)
  | insertInit (init : List K)
  | emplace (args : SetArgs K)
  | erase (key : K)
  | eraseIt (it : ℕ)
  | clear
  | assignInit (init : List K)
  | load (tmp : List K)

/-- What an operation returns: the iterator and `bool` of an insertion, with the element under the
iterator; the iterator of an erase. -/
inductive Res (K : Type*) where
  | placed (it : ℕ) (e : Option K) (inserted : Bool)
  | next (it : ℕ)
  | done

section

variable [DecidableEq K]

/-- The result of an insertion. -/
def placed (r : Set K × ℕ × Bool) : Set K × Res K := (r.1, .placed r.2.1 r.1.data[r.2.1]? r.2.2)

def step (le : K → K → Bool) (s : Set K) : Op K → Option (Set K × Res K)
  | .insert key => some (placed (s.emplaceImpl le (.key key)))
  | .insertInit init => some (s.insertInit le init, .done)
  | .emplace args => some (placed (s.emplaceImpl le args))
  | .erase key => let r := s.erase le key; some (r.1, .next r.2)
  | .eraseIt it => (s.eraseIt it).map fun r => (r.1, .next r.2)
  | .clear => some (s.clear, .done)
  | .assignInit init => some (s.assignInit le init, .done)
  | .load tmp => some (s.load le tmp, .done)

/-- A sequence of operations with their results; `none` when an iterator is misused. -/
def run (le : K → K → Bool) (s : Set K) : List (Op K) → Option (Set K × List (Res K)) :=
  runOps (step le) s

/-! ## The reference -/

variable (Pr : LessEqual K)

/-- Where the key stands in the order of iteration; the end if it is absent. -/
def absPos (A : Finset K) (key : K) : ℕ := (A.sort Pr.Le).idxOf key

/-- The result of an insertion into `A`. -/
def absPlaced (A : Finset K) (key : K) : Finset K × Res K :=
  (insert key A, .placed (absPos Pr (insert key A) key) (some key) (key ∉ A))

/-- The operations on finite sets; a position is a rank. -/
def absStep (A : Finset K) : Op K → Option (Finset K × Res K)
  | .insert key => some (absPlaced Pr A key)
  | .insertInit init => some (A ∪ init.toFinset, .done)
  | .emplace args => some (absPlaced Pr A args.construct)
  | .erase key => some (A.erase key, .next (absPos Pr A key))
  | .eraseIt it => (A.sort Pr.Le)[it]?.map fun key => (A.erase key, .next it)
  | .clear => some (∅, .done)
  | .assignInit init => some (init.toFinset, .done)
  | .load tmp => some (tmp.toFinset, .done)

def absRun (A : Finset K) : List (Op K) → Option (Finset K × List (Res K)) := runOps (absStep Pr) A

end

/-! ## The canonical form -/

/-- The vector is the strictly ascending enumeration of the finite set. -/
structure Enumerates (Pr : LessEqual K) (s : Set K) (A : Finset K) : Prop where
  ascending : Ascending Pr id s.data
  mem : ∀ {k}, k ∈ s.data ↔ k ∈ A

variable {Pr : LessEqual K} {s s' : Set K} {A : Finset K} {k : K} {it : ℕ}

theorem enumerates_empty : Enumerates Pr (⟨[]⟩ : Set K) ∅ where
  ascending := .nil
  mem := by simp

namespace Enumerates

theorem mem_keys (h : Enumerates Pr s A) (k : K) : k ∈ A ↔ ∃ e ∈ s.data, id e = k := by
  rw [← h.mem]
  simp

/-- **There is one enumeration of a finite set.** -/
theorem data_eq (h : Enumerates Pr s A) : s.data = A.sort Pr.Le := by
  rw [← h.ascending.map_eq_sort h.mem_keys, List.map_id]

theorem unique (h : Enumerates Pr s A) (h' : Enumerates Pr s' A) : s = s' := by
  cases s
  cases s'
  exact congrArg Set.mk (h.data_eq.trans h'.data_eq.symm)

variable [DecidableEq K]

theorem pos (h : Enumerates Pr s A) (he : s.data[it]? = some k) : absPos Pr A k = it :=
  h.ascending.idxOf_sort h.mem_keys he

theorem pos_absent (h : Enumerates Pr s A) (hk : k ∉ A) : absPos Pr A k = s.data.length :=
  h.ascending.idxOf_sort_absent h.mem_keys hk

theorem found_iff : s.found it k ↔ s.data[it]? = some k := by
  simp [found, Option.any_eq_true]

/-- **Searching.** The search stops at the key if it is there, and otherwise finds nothing. -/
theorem search_cases (h : Enumerates Pr s A) (k : K) :
    (k ∈ A ∧ s.data[s.findUpperBound Pr.le k]? = some k ∧ s.found (s.findUpperBound Pr.le k) k) ∨
      (k ∉ A ∧ ¬ s.found (s.findUpperBound Pr.le k) k) := by
  have hhit := h.ascending.search_hit (k := k)
  rw [← h.mem_keys k] at hhit
  by_cases hk : k ∈ A
  · obtain ⟨e, he, rfl⟩ := hhit.2 hk
    exact Or.inl ⟨hk, he, found_iff.2 he⟩
  · exact Or.inr ⟨hk, fun hf => hk (hhit.1 ⟨k, found_iff.1 hf, rfl⟩)⟩

theorem emplaceImpl (h : Enumerates Pr s A) (args : SetArgs K) :
    Enumerates Pr (s.emplaceImpl Pr.le args).1 (insert args.construct A) ∧
      (s.emplaceImpl Pr.le args).1.data[(s.emplaceImpl Pr.le args).2.1]? = some args.construct ∧
      (s.emplaceImpl Pr.le args).2.2 = decide (args.construct ∉ A) := by
  set k := args.construct with hk
  -- Both paths do the same with the key.
  have hpath : s.emplaceImpl Pr.le args =
      if s.found (s.findUpperBound Pr.le k) k then (s, s.findUpperBound Pr.le k, false)
      else (s.emplaceAt (s.findUpperBound Pr.le k) k, s.findUpperBound Pr.le k, true) := by
    cases args <;> rfl
  rw [hpath]
  rcases h.search_cases k with ⟨hmem, he, hf⟩ | ⟨hmem, hf⟩
  · rw [if_pos hf]
    exact ⟨by rwa [Finset.insert_eq_of_mem hmem], he, by simp [hmem]⟩
  · have habs : ∀ e ∈ s.data, id e ≠ k := fun e he hek => hmem (h.mem.1 (hek ▸ he))
    rw [if_neg hf]
    refine ⟨⟨h.ascending.insertIdx (x := k) habs, fun {x} => ?_⟩, ?_, by simp [hmem]⟩
    · refine (h.ascending.mem_insertIdx (k := k)).trans ?_
      rw [h.mem, Finset.mem_insert]
    · have hle := (h.ascending.search_spec k).le
      change (List.insertIdx _ _ _)[_]? = _
      rw [List.getElem?_insertIdx_self]
      exact if_pos hle

theorem placed_eq (h : Enumerates Pr s A) (args : SetArgs K) :
    Enumerates Pr (placed (s.emplaceImpl Pr.le args)).1 (absPlaced Pr A args.construct).1 ∧
      (placed (s.emplaceImpl Pr.le args)).2 = (absPlaced Pr A args.construct).2 := by
  obtain ⟨henum, he, hnew⟩ := h.emplaceImpl args
  refine ⟨henum, ?_⟩
  simp only [placed, absPlaced, henum.pos he, he, hnew]

theorem insertInit (h : Enumerates Pr s A) (init : List K) :
    Enumerates Pr (s.insertInit Pr.le init) (A ∪ init.toFinset) := by
  induction init generalizing s A with
  | nil => rwa [List.toFinset_nil, Finset.union_empty]
  | cons k init ih =>
    have hk := ih (h.emplaceImpl (.key k)).1
    rw [List.toFinset_cons, Finset.union_insert, ← Finset.insert_union]
    exact hk

/-- Clearing and inserting, as `operator=` and `load` do. -/
theorem ofInit (Pr : LessEqual K) (init : List K) :
    Enumerates Pr ((⟨[]⟩ : Set K).insertInit Pr.le init) init.toFinset := by
  have h : Enumerates Pr _ (∅ ∪ init.toFinset) := enumerates_empty.insertInit init
  rwa [Finset.empty_union] at h

theorem find_eq (h : Enumerates Pr s A) (k : K) : s.find Pr.le k = absPos Pr A k := by
  unfold find
  rcases h.search_cases k with ⟨-, he, hf⟩ | ⟨hk, hf⟩
  · rw [if_pos hf, h.pos he]
  · rw [if_neg hf, h.pos_absent hk]

theorem eraseAt (h : Enumerates Pr s A) (he : s.data[it]? = some k) :
    Enumerates Pr ⟨s.data.eraseIdx it⟩ (A.erase k) where
  ascending := h.ascending.eraseIdx it
  mem {x} := by
    rw [Finset.mem_erase, ← h.mem]
    exact (h.ascending.mem_eraseIdx he).trans and_comm

theorem erase (h : Enumerates Pr s A) (k : K) :
    Enumerates Pr (s.erase Pr.le k).1 (A.erase k) ∧ (s.erase Pr.le k).2 = absPos Pr A k := by
  have hfind := h.find_eq k
  unfold Set.erase
  rw [hfind]
  rcases h.search_cases k with ⟨hk, he, -⟩ | ⟨hk, -⟩
  · rw [← h.pos he] at he
    have hlt := (List.getElem?_eq_some_iff.1 he).1
    rw [if_pos (Nat.ne_of_lt hlt)]
    exact ⟨h.eraseAt he, rfl⟩
  · rw [if_neg (not_not.2 (h.pos_absent hk)), Finset.erase_eq_of_notMem hk]
    exact ⟨h, rfl⟩

/-- `contains` answers membership. -/
theorem contains (h : Enumerates Pr s A) (k : K) : s.contains Pr.le k ↔ k ∈ A := by
  unfold Set.contains
  rw [h.find_eq k]
  rcases h.search_cases k with ⟨hk, he, -⟩ | ⟨hk, -⟩
  · have hlt := (List.getElem?_eq_some_iff.1 he).1
    have hne : s.data.isEmpty = false := by
      rw [List.isEmpty_eq_false_iff]
      exact List.ne_nil_of_mem (h.mem.2 hk)
    have hend : absPos Pr A k ≠ s.data.length := by rw [h.pos he]; exact Nat.ne_of_lt hlt
    simp [hne, hend, hk]
  · simp [h.pos_absent hk, hk]

end Enumerates

variable [DecidableEq K]

/-- **One operation.** -/
theorem step_simulates : Simulates (Enumerates (K := K) Pr) (step Pr.le) (absStep Pr) := by
  intro s A op h
  cases op with
  | insert key => exact .some (h.placed_eq (.key key))
  | insertInit init => exact .some ⟨h.insertInit init, rfl⟩
  | emplace args => exact .some (h.placed_eq args)
  | erase key =>
    obtain ⟨henum, he⟩ := h.erase key
    exact .some ⟨henum, congrArg Res.next he⟩
  | eraseIt it =>
    change Option.Rel _ ((s.eraseIt it).map _) ((A.sort Pr.Le)[it]?.map _)
    rw [← h.data_eq]
    unfold eraseIt
    split_ifs with hlt
    · rw [List.getElem?_eq_getElem hlt]
      exact .some ⟨h.eraseAt (List.getElem?_eq_getElem hlt), rfl⟩
    · rw [List.getElem?_eq_none (Nat.le_of_not_lt hlt)]
      exact .none
  | clear => exact .some ⟨enumerates_empty, rfl⟩
  | assignInit init => exact .some ⟨.ofInit Pr init, rfl⟩
  | load tmp => exact .some ⟨.ofInit Pr tmp, rfl⟩

/-- The vector after a run, from the finite set after it. -/
theorem run_fst_eq (Pr : LessEqual K) (ops : List (Op K)) :
    (run Pr.le ⟨[]⟩ ops).map Prod.fst = (absRun Pr ∅ ops).map fun x => ⟨x.1.sort Pr.Le⟩ := by
  have hsim : Simulates (Enumerates Pr) (step Pr.le) (absStep Pr) := step_simulates
  have hrun := hsim.run enumerates_empty ops
  unfold run absRun
  generalize runOps (step Pr.le) ⟨[]⟩ ops = a at hrun ⊢
  generalize runOps (absStep Pr) ∅ ops = b at hrun ⊢
  cases hrun with
  | none => rfl
  | some h => exact congrArg (some ∘ Set.mk) h.1.data_eq

/-- **Canonical form.** -/
theorem run_canonical (Pr : LessEqual K) (ops : List (Op K)) :
    Option.Rel (fun x y => Enumerates Pr x.1 y.1 ∧ x.2 = y.2) (run Pr.le ⟨[]⟩ ops)
        (absRun Pr ∅ ops) ∧
      ∀ ops', (absRun Pr ∅ ops).map Prod.fst = (absRun Pr ∅ ops').map Prod.fst →
        (run Pr.le ⟨[]⟩ ops).map Prod.fst = (run Pr.le ⟨[]⟩ ops').map Prod.fst := by
  refine ⟨step_simulates.run enumerates_empty ops, fun ops' h => ?_⟩
  have hsort := congrArg (Option.map fun A : Finset K => Set.mk (A.sort Pr.Le)) h
  rw [Option.map_map, Option.map_map] at hsort
  rw [run_fst_eq, run_fst_eq]
  exact hsort

/-- Another order of insertions, a repetition and a reload. -/
theorem run_canonical_reload :
    (run LessEqual.nat.le ⟨[]⟩ [.insert 2, .insert 1, .emplace (.other 2)]).map Prod.fst =
      (run LessEqual.nat.le ⟨[]⟩ [.insert 5, .load [2, 1, 2], .erase 7]).map Prod.fst :=
  (run_canonical LessEqual.nat [.insert 2, .insert 1, .emplace (.other 2)]).2
    [.insert 5, .load [2, 1, 2], .erase 7] (by decide)

/-! ## Saved sets -/

/-- **What is saved after a run** is the sorted list of the finite set after it. So runs that lead
to the same set save the same. -/
theorem save_run (Pr : LessEqual K) (ops : List (Op K)) :
    (run Pr.le ⟨[]⟩ ops).map (fun x => x.1.save) =
      (absRun Pr ∅ ops).map fun x => x.1.sort Pr.Le := by
  have hdata := congrArg (Option.map save) (run_fst_eq Pr ops)
  rw [Option.map_map, Option.map_map] at hdata
  exact hdata

/-- **What was saved can be loaded**, whatever the set was that it is loaded into. -/
theorem load_saved (h : Enumerates Pr s A) (s' : Set K) : s'.load Pr.le s.save = s := by
  have hload : Enumerates Pr (s'.load Pr.le s.save) s.save.toFinset := .ofInit Pr s.save
  have hset : s.save.toFinset = A := by
    ext k
    rw [List.mem_toFinset]
    exact h.mem
  exact (hset ▸ hload).unique h

end Set

end SseExt.Stl
