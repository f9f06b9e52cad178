import Mathlib.Data.List.Basic
import Mathlib.Tactic.Common

/-!
# `Util::Node`: walks over a scene graph

`Traverse` calls a visitor on the objects of a tree, `TraverseGeometry` on the geometries in it. The
functor is copied into every call, so what a visitor remembers is outside of it (`Visits.world`).

**Theorems.** `TraverseGeometry` visits the geometries in pre-order until one is answered `kStop`
(`traverseGeometry_walks`). `Traverse` has no `return` after its loop, so it does the same for all
objects exactly when no loop ends (`traverse_walks_iff`).
-/

namespace SseExt.Node

/-- What a `NiAVObject*` points to: nothing, an object that is not a node, or a node. -/
inductive SceneTree (α : Type*) where
  | null
  | leaf (object : α)
  | node (object : α) (children : List (SceneTree α))

inductive VisitorControl where
  | kContinue
  | kStop
  deriving DecidableEq

/-- The calls of a visitor, each with its answer, and the world outside of the functor. -/
structure Visits (β σ : Type*) where
  calls : List (β × VisitorControl)
  world : σ

inductive Fault where
  /-- The end of a function that returns a value is reached without one. -/
  | noReturn
  deriving DecidableEq

variable {α β σ : Type*}

/-- `a_func(a_object)` -/
def call (func : β → σ → VisitorControl × σ) (object : β) (v : Visits β σ) :
    VisitorControl × Visits β σ :=
  let r := func object v.world
  (r.1, ⟨v.calls ++ [(object, r.1)], r.2⟩)

mutual

/-- `Traverse` -/
def traverse (func : α → σ → VisitorControl × σ) :
    SceneTree α → Visits α σ → Except Fault (VisitorControl × Visits α σ)
  | .null, v => .ok (.kContinue, v)
  | .leaf object, v =>
    match call func object v with
    | (.kStop, v) => .ok (.kStop, v)
    | (.kContinue, v) => .ok (.kContinue, v)
  | .node object children, v =>
    match call func object v with
    | (.kStop, v) => .ok (.kStop, v)
    | (.kContinue, v) => traverseChildren func children v

/-- The loop of `Traverse`, after which the function ends. -/
def traverseChildren (func : α → σ → VisitorControl × σ) :
    List (SceneTree α) → Visits α σ → Except Fault (VisitorControl × Visits α σ)
  | [], _ => .error .noReturn
  | object :: rest, v =>
    match traverse func object v with
    | .error e => .error e
    | .ok (.kStop, v) => .ok (.kStop, v)
    | .ok (.kContinue, v) => traverseChildren func rest v

end

/-- The first half of `TraverseGeometry`. -/
def callGeometry (geometry : α → Option β) (func : β → σ → VisitorControl × σ) (object : α)
    (v : Visits β σ) : VisitorControl × Visits β σ :=
  match geometry object with
  | some g => call func g v
  | none => (.kContinue, v)

mutual

/-- `TraverseGeometry`, with `GetAsBSGeometry` as `geometry`. -/
def traverseGeometry (geometry : α → Option β) (func : β → σ → VisitorControl × σ) :
    SceneTree α → Visits β σ → VisitorControl × Visits β σ
  | .null, v => (.kContinue, v)
  | .leaf object, v =>
    match callGeometry geometry func object v with
    | (.kStop, v) => (.kStop, v)
    | (.kContinue, v) => (.kContinue, v)
  | .node object children, v =>
    match callGeometry geometry func object v with
    | (.kStop, v) => (.kStop, v)
    | (.kContinue, v) => traverseGeometryChildren geometry func children v

/-- The loop of `TraverseGeometry` and the `return` after it. -/
def traverseGeometryChildren (geometry : α → Option β) (func : β → σ → VisitorControl × σ) :
    List (SceneTree α) → Visits β σ → VisitorControl × Visits β σ
  | [], v => (.kContinue, v)
  | object :: rest, v =>
    match traverseGeometry geometry func object v with
    | (.kStop, v) => (.kStop, v)
    | (.kContinue, v) => traverseGeometryChildren geometry func rest v

end

/-! ## Pre-order -/

namespace SceneTree

mutual

/-- The objects of a tree in pre-order. -/
def preorder : SceneTree α → List α
  | null => []
  | leaf object => [object]
  | node object children => object :: preorders children

def preorders : List (SceneTree α) → List α
  | [] => []
  | t :: ts => preorder t ++ preorders ts

end

/-- An object is somewhere in a tree. -/
inductive Has (object : α) : SceneTree α → Prop
  | leaf : Has object (.leaf object)
  | root {children : List (SceneTree α)} : Has object (.node object children)
  | child {parent : α} {children : List (SceneTree α)} {t : SceneTree α} :
      t ∈ children → Has object t → Has object (.node parent children)

def isNode : SceneTree α → Bool
  | node _ _ => true
  | _ => false

/-- The objects below a node that are visited until a loop over children ends: that of the last
node among them. -/
def descents : List (SceneTree α) → List α
  | [] => []
  | null :: ts => descents ts
  | leaf object :: ts => object :: descents ts
  | node object children :: _ => object :: descents children

/-- The objects that are visited until a loop over children ends. -/
def descent : SceneTree α → List α
  | null => []
  | leaf object => [object]
  | node object children => object :: descents children

end SceneTree

/-- A visitor is called on objects in order until it answers `kStop`. -/
def walk (func : β → σ → VisitorControl × σ) :
    List β → Visits β σ → VisitorControl × Visits β σ
  | [], v => (.kContinue, v)
  | object :: rest, v =>
    match call func object v with
    | (.kStop, v) => (.kStop, v)
    | (.kContinue, v) => walk func rest v

variable {geometry : α → Option β} {func : β → σ → VisitorControl × σ} {v v' : Visits β σ}

theorem walk_append (l l' : List β) (v : Visits β σ) : walk func (l ++ l') v =
    match walk func l v with
    | (.kStop, v) => (.kStop, v)
    | (.kContinue, v) => walk func l' v := by
  induction l generalizing v with
  | nil => rfl
  | cons object l ih =>
    rw [List.cons_append, walk, walk]
    obtain ⟨c, v'⟩ := call func object v
    cases c with
    | kContinue => exact ih v'
    | kStop => rfl

/-- A walk that stops has no need of what comes later. -/
theorem walk_append_of_stop {l : List β} (h : (walk func l v).1 = .kStop) (l' : List β) :
    walk func (l ++ l') v = walk func l v := by
  rw [walk_append]
  generalize walk func l v = r at h
  obtain ⟨c, v'⟩ := r
  cases h
  rfl

/-! ## What a walk calls -/

/-- From `v` to `v'` the visitor was called on the objects of `l` in order, up to and including the
first that it answered `kStop`, and `c` says whether there was one. -/
structure Walked (l : List β) (v : Visits β σ) (c : VisitorControl) (v' : Visits β σ)
    (calls : List (β × VisitorControl)) : Prop where
  logged : v'.calls = v.calls ++ calls
  order : calls.map Prod.fst <+: l
  stop : c = .kStop ↔ ∃ e ∈ calls, e.2 = .kStop
  /-- Nothing is called after a `kStop`. -/
  last : ∀ e ∈ calls.dropLast, e.2 = .kContinue
  all : c = .kContinue → calls.map Prod.fst = l

theorem Walked.continue_of {l : List β} {c : VisitorControl} {calls : List (β × VisitorControl)}
    (h : Walked l v c v' calls) (hcalls : ∀ e ∈ calls, e.2 = .kContinue) : c = .kContinue := by
  cases c with
  | kContinue => rfl
  | kStop =>
    obtain ⟨e, he, hstop⟩ := h.stop.1 rfl
    rw [hcalls e he] at hstop
    cases hstop

theorem walked_call (func : β → σ → VisitorControl × σ) (object : β) (v : Visits β σ) :
    Walked [object] v (call func object v).1 (call func object v).2
      [(object, (call func object v).1)] where
  logged := rfl
  order := List.prefix_refl _
  stop := by simp
  last := by simp
  all := fun _ => rfl

theorem Walked.cons {object : β} {l : List β} {v₁ v₂ : Visits β σ} {c : VisitorControl}
    {calls : List (β × VisitorControl)}
    (h₁ : Walked [object] v .kContinue v₁ [(object, .kContinue)]) (h₂ : Walked l v₁ c v₂ calls) :
    Walked (object :: l) v c v₂ ((object, .kContinue) :: calls) where
  logged := by rw [h₂.logged, h₁.logged, List.append_assoc, List.singleton_append]
  order := by simpa using h₂.order
  stop := by simp [h₂.stop]
  last := by
    cases calls with
    | nil => simp
    | cons e calls =>
      rw [List.dropLast_cons_cons]
      exact List.forall_mem_cons.2 ⟨rfl, h₂.last⟩
  all := fun hc => by rw [List.map_cons, h₂.all hc]

theorem walked_walk (func : β → σ → VisitorControl × σ) (l : List β) (v : Visits β σ) :
    ∃ calls, Walked l v (walk func l v).1 (walk func l v).2 calls := by
  induction l generalizing v with
  | nil => exact ⟨[], by simp [walk], by simp, by simp [walk], by simp, fun _ => rfl⟩
  | cons object l ih =>
    have hcall := walked_call func object v
    rw [walk]
    generalize call func object v = r at hcall
    obtain ⟨c, v₁⟩ := r
    cases c with
    | kContinue =>
      obtain ⟨calls, hcalls⟩ := ih v₁
      exact ⟨_, hcall.cons hcalls⟩
    | kStop =>
      refine ⟨_, hcall.logged, ?_, hcall.stop, hcall.last, nofun⟩
      simp

/-! ## `TraverseGeometry` -/

/-- The test for a geometry is part of the walk. -/
theorem callGeometry_eq (object : α) (v : Visits β σ) :
    callGeometry geometry func object v = walk func ([object].filterMap geometry) v := by
  unfold callGeometry
  cases hg : geometry object with
  | none => simp [hg, walk]
  | some g =>
    simp only [List.filterMap_cons, hg, List.filterMap_nil, walk]
    obtain ⟨c, v'⟩ := call func g v
    cases c <;> rfl

open SceneTree in
mutual

theorem traverseGeometry_eq : ∀ (t : SceneTree α) (v : Visits β σ),
    traverseGeometry geometry func t v = walk func (t.preorder.filterMap geometry) v
  | .null, v => by simp [traverseGeometry, preorder, walk]
  | .leaf object, v => by
    rw [traverseGeometry, preorder, callGeometry_eq]
    obtain ⟨c, v'⟩ := walk func ([object].filterMap geometry) v
    cases c <;> rfl
  | .node object children, v => by
    have hsplit : object :: preorders children = [object] ++ preorders children := rfl
    rw [traverseGeometry, preorder, callGeometry_eq, hsplit, List.filterMap_append, walk_append]
    obtain ⟨c, v'⟩ := walk func ([object].filterMap geometry) v
    cases c with
    | kContinue => exact traverseGeometryChildren_eq children v'
    | kStop => rfl

theorem traverseGeometryChildren_eq : ∀ (ts : List (SceneTree α)) (v : Visits β σ),
    traverseGeometryChildren geometry func ts v =
      walk func ((preorders ts).filterMap geometry) v
  | [], v => by simp [traverseGeometryChildren, preorders, walk]
  | t :: ts, v => by
    rw [traverseGeometryChildren, preorders, traverseGeometry_eq t v, List.filterMap_append,
      walk_append]
    obtain ⟨c, v'⟩ := walk func (t.preorder.filterMap geometry) v
    cases c with
    | kContinue => exact traverseGeometryChildren_eq ts v'
    | kStop => rfl

end

namespace SceneTree

theorem mem_preorders {object : α} {ts : List (SceneTree α)} :
    object ∈ preorders ts ↔ ∃ t ∈ ts, object ∈ t.preorder := by
  induction ts with
  | nil => simp [preorders]
  | cons t ts ih => rw [preorders, List.mem_append, ih, List.exists_mem_cons_iff]

/-- The pre-order lists the objects of the tree. -/
theorem mem_preorder {object : α} : ∀ {t : SceneTree α}, object ∈ t.preorder ↔ t.Has object
  | .null => by
    rw [preorder]
    exact ⟨nofun, nofun⟩
  | .leaf object' => by
    rw [preorder, List.mem_singleton]
    exact ⟨fun h => h ▸ .leaf, fun | .leaf => rfl⟩
  | .node object' children => by
    rw [preorder, List.mem_cons, mem_preorders]
    constructor
    · rintro (rfl | ⟨t, ht, hobject⟩)
      · exact .root
      · exact .child ht (mem_preorder.1 hobject)
    · intro h
      cases h with
      | root => exact .inl rfl
      | child ht hobject => exact .inr ⟨_, ht, mem_preorder.2 hobject⟩

end SceneTree

/-- **The geometries of a tree are visited in pre-order**, up to and including the first that is
answered `kStop`, and none is left out below an object that is not a geometry. -/
theorem traverseGeometry_walks (geometry : α → Option β) (func : β → σ → VisitorControl × σ)
    (t : SceneTree α) (v : Visits β σ) :
    traverseGeometry geometry func t v = walk func (t.preorder.filterMap geometry) v ∧
    ∃ calls, Walked (t.preorder.filterMap geometry) v (traverseGeometry geometry func t v).1
        (traverseGeometry geometry func t v).2 calls ∧
      ((∀ e ∈ calls, e.2 = .kContinue) → ∀ object g, t.Has object → geometry object = some g →
        g ∈ calls.map Prod.fst) := by
  rw [traverseGeometry_eq t v]
  obtain ⟨calls, hcalls⟩ := walked_walk func (t.preorder.filterMap geometry) v
  refine ⟨rfl, calls, hcalls, fun hcontinue object g hobject hg => ?_⟩
  rw [hcalls.all (hcalls.continue_of hcontinue)]
  exact List.mem_filterMap.2 ⟨object, SceneTree.mem_preorder.2 hobject, hg⟩

/-! ## `Traverse` -/

open SceneTree in
theorem preorders_of_descents : ∀ ts : List (SceneTree α), descents ts <+: preorders ts
  | [] => by simp [descents, preorders]
  | .null :: ts => by
    rw [descents, preorders, preorder, List.nil_append]
    exact preorders_of_descents ts
  | .leaf object :: ts => by
    rw [descents, preorders, preorder, List.singleton_append]
    exact List.cons_prefix_cons.2 ⟨rfl, preorders_of_descents ts⟩
  | .node object children :: ts => by
    rw [descents, preorders, preorder, List.cons_append]
    have hchildren := (preorders_of_descents children).trans (List.prefix_append _ (preorders ts))
    exact List.cons_prefix_cons.2 ⟨rfl, hchildren⟩

theorem walk_of_prefix {l l' : List β} (hl : l <+: l') (h : (walk func l v).1 = .kStop) :
    walk func l' v = walk func l v := by
  obtain ⟨rest, rfl⟩ := hl
  exact walk_append_of_stop h rest

open SceneTree in
/-- **A loop over children** ends without a `return`, so it must be stopped before. -/
theorem traverseChildren_eq {func : α → σ → VisitorControl × σ} :
    ∀ (ts : List (SceneTree α)) (v : Visits α σ), traverseChildren func ts v =
      if (walk func (descents ts) v).1 = .kStop then .ok (walk func (preorders ts) v)
      else .error .noReturn
  | [], v => by simp [traverseChildren, descents, walk]
  | .null :: ts, v => by
    rw [traverseChildren, traverse, descents, preorders, preorder, List.nil_append]
    exact traverseChildren_eq ts v
  | .leaf object :: ts, v => by
    rw [traverseChildren, traverse, descents, preorders, preorder, List.singleton_append, walk,
      walk]
    obtain ⟨c, v'⟩ := call func object v
    cases c with
    | kContinue => exact traverseChildren_eq ts v'
    | kStop => rfl
  | .node object children :: ts, v => by
    rw [traverseChildren, traverse, descents, preorders, preorder, List.cons_append, walk, walk]
    obtain ⟨c, v'⟩ := call func object v
    cases c with
    | kContinue =>
      dsimp only
      rw [traverseChildren_eq children v']
      by_cases hstop : (walk func (descents children) v').1 = .kStop
      · -- The stop is inside of the first node, whose loop returns it.
        have hwalk := walk_of_prefix (preorders_of_descents children) hstop
        rw [if_pos hstop, if_pos hstop, walk_append_of_stop (hwalk ▸ hstop), hwalk]
        generalize walk func (descents children) v' = r at hstop
        obtain ⟨c, v''⟩ := r
        cases hstop
        rfl
      · rw [if_neg hstop, if_neg hstop]
    | kStop => rfl

theorem traverse_eq {func : α → σ → VisitorControl × σ} (t : SceneTree α) (v : Visits α σ) :
    traverse func t v =
      if ¬ t.isNode ∨ (walk func t.descent v).1 = .kStop then .ok (walk func t.preorder v)
      else .error .noReturn := by
  cases t with
  | null => simp [traverse, SceneTree.isNode, SceneTree.preorder, walk]
  | leaf object =>
    rw [traverse, SceneTree.preorder, walk, if_pos (.inl (by simp [SceneTree.isNode]))]
    obtain ⟨c, v'⟩ := call func object v
    cases c <;> rfl
  | node object children =>
    rw [traverse, SceneTree.descent, SceneTree.preorder, walk, walk]
    obtain ⟨c, v'⟩ := call func object v
    cases c with
    | kContinue => simpa [SceneTree.isNode] using traverseChildren_eq children v'
    | kStop => simp

/-- **All objects of a tree are visited in pre-order**, up to and including the first that is
answered `kStop`, exactly if the root is not a node or there is a `kStop` before a loop ends. -/
theorem traverse_walks_iff (func : α → σ → VisitorControl × σ) (t : SceneTree α)
    (v : Visits α σ) :
    (∃ c v' calls, traverse func t v = .ok (c, v') ∧ (c, v') = walk func t.preorder v ∧
      Walked t.preorder v c v' calls) ↔
    (¬ t.isNode ∨ (walk func t.descent v).1 = .kStop) := by
  rw [traverse_eq]
  constructor
  · rintro ⟨c, v', calls, hok, -⟩
    by_contra hcond
    rw [if_neg hcond] at hok
    cases hok
  · intro hcond
    obtain ⟨calls, hcalls⟩ := walked_walk func t.preorder v
    exact ⟨_, _, calls, if_pos hcond, rfl, hcalls⟩

/-- A node without children, and a visitor that never stops. -/
theorem childless_noReturn :
    traverse (fun _ () => (.kContinue, ())) (.node 1 []) ⟨[], ()⟩ = .error .noReturn := by
  simp [traverse, traverseChildren, call]

end SseExt.Node
