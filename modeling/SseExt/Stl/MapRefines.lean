import Mathlib.Data.Finmap
import SseExt.Stl.Map

/-!
# `stl::map` is a finite map

**Theorem (`run_refines`).** Every sequence of operations from the empty map gives the results of
the finite map it stands for: the same `bool`s, elements and positions, and afterwards the same
answers of `find`, `contains`, `at` and `size`. The vector stays strictly ascending.

The reference is a `Finmap`. A position in it is a rank: the sorted list of its keys is what an
iterator walks over. `Refines` ties the vector to the finite map, with one lemma for an insertion
(`insertNew`), one for an assignment in place (`assign`) and one for an erase (`erase`).
-/

namespace SseExt.Stl

/-! ## The reference -/

/-- Finite maps. -/
abbrev FMap (K V : Type*) := Finmap fun _ : K => V

namespace FMap

variable {K V : Type*} [DecidableEq K] (Pr : LessEqual K)

/-- The keys in the order of iteration. -/
def order (M : FMap K V) : List K := M.keys.sort Pr.Le

/-- Where the key stands in the order of iteration; the end if it is absent. -/
def pos (M : FMap K V) (key : K) : ℕ := (M.order Pr).idxOf key

/-- Insert unless the key is there. -/
def place (M : FMap K V) (e : K × V) : FMap K V := if e.1 ∈ M then M else M.insert e.1 e.2

/-- Overwriting a value just put in place. -/
theorem insert_place (M : FMap K V) (k : K) (v w : V) :
    (M.place (k, v)).insert k w = M.insert k w := by
  unfold place
  split_ifs
  · rfl
  · exact Finmap.insert_insert M

open Map (Op Res)

/-- The result of an insertion that leaves `M`. -/
def placed (M : FMap K V) (key : K) (inserted : Bool) : FMap K V × Res K V :=
  (M, .placed (M.pos Pr key) ((M.lookup key).map (key, ·)) inserted)

def step [Inhabited V] (M : FMap K V) : Op K V → Option (FMap K V × Res K V)
  | .insert e => some (placed Pr (M.place e) e.1 (e.1 ∉ M))
  | .insertInit init => some (init.foldl place M, .done)
  | .emplace args =>
    some (placed Pr (M.place args.construct) args.construct.1 (args.construct.1 ∉ M))
  | .tryEmplace key value => some (placed Pr (M.place (key, value)) key (key ∉ M))
  | .insertOrAssign key value => some (placed Pr (M.insert key value) key (key ∉ M))
  | .subscript key =>
    let M := M.place (key, default)
    some (M, .value (M.lookup key))
  | .subscriptAssign key value => some (M.insert key value, .value (some value))
  | .erase key => some (M.erase key, .next (M.pos Pr key))
  | .eraseIt it => (M.order Pr)[it]?.map fun key => (M.erase key, .next it)
  | .clear => some (∅, .done)
  | .assignInit init => some (init.foldl place ∅, .done)
  | .load tmp => some (tmp.foldl place ∅, .done)

def run [Inhabited V] (M : FMap K V) : List (Op K V) → Option (FMap K V × List (Res K V)) :=
  runOps (step Pr) M

end FMap

/-! ## The refinement -/

namespace Map

variable {K V : Type*} [DecidableEq K] {Pr : LessEqual K} {m : Map K V} {M : FMap K V} {k : K}
  {v w : V} {it : ℕ}

/-- The vector is ascending and holds the pairs of the finite map. -/
structure Refines (Pr : LessEqual K) (m : Map K V) (M : FMap K V) : Prop where
  ascending : Ascending Pr Prod.fst m.data
  mem : ∀ {k v}, (k, v) ∈ m.data ↔ M.lookup k = some v

theorem found_iff : m.found it k ↔ ∃ e, m.data[it]? = some e ∧ e.1 = k := by
  simp [found, Option.any_eq_true]

theorem refines_empty : Refines Pr (⟨[]⟩ : Map K V) ∅ where
  ascending := .nil
  mem := by simp

namespace Refines

theorem mem_keys (h : Refines Pr m M) (k : K) : k ∈ M.keys ↔ ∃ e ∈ m.data, e.1 = k := by
  rw [Finmap.mem_keys, Finmap.mem_iff]
  constructor
  · rintro ⟨v, hv⟩
    exact ⟨(k, v), h.mem.2 hv, rfl⟩
  · rintro ⟨⟨k, v⟩, he, rfl⟩
    exact ⟨v, h.mem.1 he⟩

/-- **Iteration order.** The keys of the vector are those of the finite map, in order. -/
theorem keys (h : Refines Pr m M) : m.data.map Prod.fst = M.order Pr :=
  h.ascending.map_eq_sort h.mem_keys

theorem length (h : Refines Pr m M) : m.data.length = M.keys.card := by
  rw [← List.length_map Prod.fst, h.keys]
  exact Finset.length_sort _

/-- A pair stands where its key does. -/
theorem pos (h : Refines Pr m M) (he : m.data[it]? = some (k, v)) : M.pos Pr k = it :=
  h.ascending.idxOf_sort h.mem_keys he

/-- An absent key stands at the end. -/
theorem pos_absent (h : Refines Pr m M) (hk : M.lookup k = none) : M.pos Pr k = m.data.length :=
  h.ascending.idxOf_sort_absent h.mem_keys (mt Finmap.mem_keys.1 (Finmap.lookup_eq_none.1 hk))

/-- **Searching.** The search stops at the key if it is there, and otherwise finds nothing. -/
theorem search_cases (h : Refines Pr m M) (k : K) :
    (∃ v, M.lookup k = some v ∧ m.data[m.findUpperBound Pr.le k]? = some (k, v) ∧
        m.found (m.findUpperBound Pr.le k) k) ∨
      (M.lookup k = none ∧ ¬ m.found (m.findUpperBound Pr.le k) k) := by
  cases hk : M.lookup k with
  | none =>
    refine Or.inr ⟨rfl, fun hf => ?_⟩
    obtain ⟨⟨k', v⟩, he, rfl⟩ := found_iff.1 hf
    rw [h.mem.1 (List.mem_of_getElem? he)] at hk
    cases hk
  | some v =>
    obtain ⟨⟨k', w⟩, he, rfl⟩ := h.ascending.search_hit.2 ⟨(k, v), h.mem.2 hk, rfl⟩
    have hw := h.mem.1 (List.mem_of_getElem? he)
    rw [hk, Option.some.injEq] at hw
    subst hw
    exact Or.inl ⟨v, rfl, he, found_iff.2 ⟨_, he, rfl⟩⟩

/-- **Inserting a new key** where the search stops. -/
theorem insertNew (h : Refines Pr m M) (hk : M.lookup k = none) (v : V) :
    Refines Pr (m.emplaceAt (m.findUpperBound Pr.le k) (k, v)) (M.insert k v) ∧
      (m.emplaceAt (m.findUpperBound Pr.le k) (k, v)).data[m.findUpperBound Pr.le k]? =
        some (k, v) := by
  have habs : ∀ e ∈ m.data, e.1 ≠ k := by
    rintro ⟨k', w⟩ he rfl
    rw [h.mem.1 he] at hk
    cases hk
  refine ⟨⟨h.ascending.insertIdx (x := (k, v)) habs, fun {k' w} => ?_⟩, ?_⟩
  · refine (h.ascending.mem_insertIdx (k := k)).trans ?_
    rw [h.mem]
    by_cases hkk : k' = k
    · subst hkk
      rw [Finmap.lookup_insert, hk]
      simp [eq_comm]
    · rw [Finmap.lookup_insert_of_ne _ hkk]
      simp [hkk]
  · have hle := (h.ascending.search_spec k).le
    change (List.insertIdx _ _ _)[_]? = _
    rw [List.getElem?_insertIdx_self]
    exact if_pos hle

/-- **Assigning** to the value of a key that is there. -/
theorem assign (h : Refines Pr m M) (he : m.data[it]? = some (k, w)) (v : V) :
    Refines Pr ⟨m.data.set it (k, v)⟩ (M.insert k v) ∧
      (m.data.set it (k, v))[it]? = some (k, v) := by
  refine ⟨⟨h.ascending.set he rfl, fun {k' u} => ?_⟩,
    List.getElem?_set_self (List.getElem?_eq_some_iff.1 he).1⟩
  refine (h.ascending.mem_set he).trans ?_
  rw [h.mem]
  by_cases hkk : k' = k
  · subst hkk
    rw [Finmap.lookup_insert]
    simp [eq_comm]
  · rw [Finmap.lookup_insert_of_ne _ hkk]
    simp [hkk]

/-- **Erasing** a pair. -/
theorem erase (h : Refines Pr m M) (he : m.data[it]? = some (k, w)) :
    Refines Pr ⟨m.data.eraseIdx it⟩ (M.erase k) := by
  refine ⟨h.ascending.eraseIdx it, fun {k' u} => ?_⟩
  refine (h.ascending.mem_eraseIdx he).trans ?_
  rw [h.mem]
  by_cases hkk : k' = k
  · subst hkk
    simp [Finmap.lookup_erase]
  · rw [Finmap.lookup_erase_ne hkk]
    simp [hkk]

end Refines

/-! ## The operations -/

/-- What an insertion under `k` gives: a map refining `M'`, and the position of `k` in it. -/
structure Places (Pr : LessEqual K) (r : Map K V × ℕ × Bool) (M' : FMap K V) (k : K)
    (isNew : Bool) : Prop where
  refines : Refines Pr r.1 M'
  elem : ∃ w, r.1.data[r.2.1]? = some (k, w)
  inserted : r.2.2 = isNew

theorem Places.rel {r : Map K V × ℕ × Bool} {M' : FMap K V} {isNew : Bool}
    (h : Places Pr r M' k isNew) :
    Refines Pr (placed r).1 (FMap.placed Pr M' k isNew).1 ∧
      (placed r).2 = (FMap.placed Pr M' k isNew).2 := by
  obtain ⟨w, hw⟩ := h.elem
  refine ⟨h.refines, ?_⟩
  have hpos := h.refines.pos hw
  have hlookup := h.refines.mem.1 (List.mem_of_getElem? hw)
  simp only [placed, FMap.placed, hpos, hw, hlookup, h.inserted, Option.map_some]

/-- Both paths of `emplace` do what `try_emplace` does with the pair. -/
theorem emplaceImpl_eq (le : K → K → Bool) (m : Map K V) (args : EmplaceArgs K V) :
    m.emplaceImpl le args = m.tryEmplaceImpl le args.construct.1 args.construct.2 := by
  cases args <;> rfl

theorem tryEmplaceImpl_spec (h : Refines Pr m M) (k : K) (v : V) :
    Places Pr (m.tryEmplaceImpl Pr.le k v) (M.place (k, v)) k (k ∉ M) := by
  unfold tryEmplaceImpl FMap.place
  rcases h.search_cases k with ⟨w, hw, he, hf⟩ | ⟨hn, hf⟩
  · have hk : k ∈ M := Finmap.mem_of_lookup_eq_some hw
    rw [if_pos hk, if_pos hf]
    exact ⟨h, ⟨w, he⟩, by simp [hk]⟩
  · have hk : k ∉ M := Finmap.lookup_eq_none.1 hn
    obtain ⟨hr, he⟩ := h.insertNew hn v
    rw [if_neg hk, if_neg hf]
    exact ⟨hr, ⟨v, he⟩, by simp [hk]⟩

theorem insertOrAssignImpl_spec (h : Refines Pr m M) (k : K) (v : V) :
    Places Pr (m.insertOrAssignImpl Pr.le k v) (M.insert k v) k (k ∉ M) := by
  unfold insertOrAssignImpl
  rcases h.search_cases k with ⟨w, hw, he, hf⟩ | ⟨hn, hf⟩
  · have hk : k ∈ M := Finmap.mem_of_lookup_eq_some hw
    obtain ⟨hr, he⟩ := h.assign he v
    rw [if_pos hf]
    exact ⟨hr, ⟨v, he⟩, by simp [hk]⟩
  · have hk : k ∉ M := Finmap.lookup_eq_none.1 hn
    obtain ⟨hr, he⟩ := h.insertNew hn v
    rw [if_neg hf]
    exact ⟨hr, ⟨v, he⟩, by simp [hk]⟩

/-- Inserting the pairs of a list one after the other. -/
theorem insertInit_spec (h : Refines Pr m M) (init : List (K × V)) :
    Refines Pr (m.insertInit Pr.le init) (init.foldl FMap.place M) := by
  induction init generalizing m M with
  | nil => exact h
  | cons e init ih =>
    have he := (tryEmplaceImpl_spec h e.1 e.2).refines
    exact ih (m := (m.emplaceImpl Pr.le (.pair e)).1) (by rw [emplaceImpl_eq]; exact he)

/-- The search returns the position of the key, the end if it is absent. -/
theorem find_eq (h : Refines Pr m M) (k : K) : m.find Pr.le k = M.pos Pr k := by
  unfold find
  rcases h.search_cases k with ⟨w, -, he, hf⟩ | ⟨hn, hf⟩
  · rw [if_pos hf, h.pos he]
  · rw [if_neg hf, h.pos_absent hn]

theorem find_elem (h : Refines Pr m M) (k : K) :
    m.data[m.find Pr.le k]? = (M.lookup k).map (k, ·) := by
  unfold find
  rcases h.search_cases k with ⟨w, hw, he, hf⟩ | ⟨hn, hf⟩
  · rw [if_pos hf, he, hw]; rfl
  · rw [if_neg hf, hn, List.getElem?_eq_none le_rfl]; rfl

theorem find_eq_end (h : Refines Pr m M) (k : K) : m.find Pr.le k = m.data.length ↔ k ∉ M := by
  have he := find_elem h k
  rw [← Finmap.lookup_eq_none]
  constructor
  · intro hend
    rw [hend, List.getElem?_eq_none le_rfl] at he
    simpa using he.symm
  · intro hn
    rw [find_eq h, h.pos_absent hn]

theorem erase_spec (h : Refines Pr m M) (k : K) :
    Refines Pr (m.erase Pr.le k).1 (M.erase k) ∧ (m.erase Pr.le k).2 = M.pos Pr k := by
  have hend := find_eq_end h k
  have helem := find_elem h k
  unfold erase
  by_cases hk : k ∈ M
  · rw [if_pos (mt hend.1 (not_not.2 hk))]
    obtain ⟨v, hv⟩ := Finmap.mem_iff.1 hk
    rw [hv] at helem
    exact ⟨h.erase helem, find_eq h k⟩
  · have herase : M.erase k = M := by
      apply Finmap.ext_lookup
      intro x
      by_cases hx : x = k
      · subst hx; rw [Finmap.lookup_erase, Finmap.lookup_eq_none.2 hk]
      · rw [Finmap.lookup_erase_ne hx]
    rw [if_neg (not_not.2 (hend.2 hk)), herase]
    exact ⟨h, find_eq h k⟩

theorem subscript_spec [Inhabited V] (h : Refines Pr m M) (k : K) :
    ∃ w, Refines Pr (m.subscript Pr.le k).1 (M.place (k, default)) ∧
      (m.subscript Pr.le k).1.data[(m.subscript Pr.le k).2]? = some (k, w) ∧
      (M.place (k, default)).lookup k = some w := by
  have hp := tryEmplaceImpl_spec h k default
  obtain ⟨w, hw⟩ := hp.elem
  exact ⟨w, hp.refines, hw, hp.refines.mem.1 (List.mem_of_getElem? hw)⟩

theorem subscriptAssign_spec [Inhabited V] (h : Refines Pr m M) (k : K) (v : V) :
    Refines Pr (m.subscriptAssign Pr.le k v).1 (M.insert k v) ∧
      (m.subscriptAssign Pr.le k v).1.data[(m.subscriptAssign Pr.le k v).2]? = some (k, v) := by
  obtain ⟨w, hr, he, -⟩ := subscript_spec h k
  have hassign := hr.assign he v
  rw [FMap.insert_place] at hassign
  simp only [subscriptAssign]
  rw [List.modify_eq_set_getElem?, he]
  exact hassign

/-- **One operation.** -/
theorem step_simulates [Inhabited V] :
    Simulates (Refines (V := V) Pr) (step Pr.le) (FMap.step Pr) := by
  intro m M op h
  cases op with
  | insert e =>
    refine .some (Places.rel ?_)
    rw [emplaceImpl_eq]
    exact tryEmplaceImpl_spec h e.1 e.2
  | insertInit init => exact .some ⟨insertInit_spec h init, rfl⟩
  | emplace args =>
    refine .some (Places.rel ?_)
    rw [emplaceImpl_eq]
    exact tryEmplaceImpl_spec h args.construct.1 args.construct.2
  | tryEmplace key value => exact .some (tryEmplaceImpl_spec h key value).rel
  | insertOrAssign key value => exact .some (insertOrAssignImpl_spec h key value).rel
  | subscript key =>
    obtain ⟨w, hr, he, hl⟩ := subscript_spec h key
    refine .some ⟨hr, congrArg Res.value ?_⟩
    rw [he, hl]; rfl
  | subscriptAssign key value =>
    obtain ⟨hr, he⟩ := subscriptAssign_spec h key value
    refine .some ⟨hr, congrArg Res.value ?_⟩
    rw [he]; rfl
  | erase key =>
    obtain ⟨hr, he⟩ := erase_spec h key
    exact .some ⟨hr, congrArg Res.next he⟩
  | eraseIt it =>
    have hk : (M.order Pr)[it]? = m.data[it]?.map Prod.fst := by rw [← h.keys, List.getElem?_map]
    change Option.Rel _ ((m.eraseIt it).map _) ((M.order Pr)[it]?.map _)
    rw [hk]
    unfold eraseIt
    split_ifs with hlt
    · rw [List.getElem?_eq_getElem hlt]
      exact .some ⟨h.erase (List.getElem?_eq_getElem hlt), rfl⟩
    · rw [List.getElem?_eq_none (Nat.le_of_not_lt hlt)]
      exact .none
  | clear => exact .some ⟨refines_empty, rfl⟩
  | assignInit init => exact .some ⟨insertInit_spec refines_empty init, rfl⟩
  | load tmp => exact .some ⟨insertInit_spec refines_empty tmp, rfl⟩

/-! ## Main theorem -/

/-- What a user sees of a map that stands for `M`. -/
structure Agrees (Pr : LessEqual K) (m : Map K V) (M : FMap K V) : Prop where
  ascending : Ascending Pr Prod.fst m.data
  keys : m.data.map Prod.fst = M.order Pr
  size : m.size = M.keys.card
  find : ∀ k, m.find Pr.le k = M.pos Pr k
  elem : ∀ k, m.data[m.find Pr.le k]? = (M.lookup k).map (k, ·)
  contains : ∀ k, m.contains Pr.le k ↔ k ∈ M
  atKey : ∀ k, m.atKey Pr.le k =
    match M.lookup k with
    | none => .error "invalid map key"
    | some v => .ok v

theorem Refines.agrees (h : Refines Pr m M) : Agrees Pr m M where
  ascending := h.ascending
  keys := h.keys
  size := h.length
  find := find_eq h
  elem := find_elem h
  contains k := by
    have hend := find_eq_end h k
    unfold Map.contains
    split_ifs with hempty
    · rw [decide_eq_true_eq, ne_eq, hend, not_not]
    · have hnil : m.data = [] := by simpa using hempty
      apply iff_of_false not_false
      intro hk
      obtain ⟨v, hv⟩ := Finmap.mem_iff.1 hk
      have hmem := h.mem.2 hv
      rw [hnil] at hmem
      cases hmem
  atKey k := by
    unfold Map.atKey
    rw [find_elem h k]
    cases M.lookup k <;> rfl

/-- **`stl::map` refines a finite map.** -/
theorem run_refines [Inhabited V] (Pr : LessEqual K) (ops : List (Op K V)) :
    Option.Rel (fun x y => Agrees Pr x.1 y.1 ∧ x.2 = y.2) (run Pr.le ⟨[]⟩ ops)
      (FMap.run Pr ∅ ops) :=
  relMono (fun h => ⟨h.1.agrees, h.2⟩) (step_simulates.run refines_empty ops)

end Map

end SseExt.Stl
