import Mathlib.Tactic.Common

/-!
# `ModelLoader`

A file of the game holds root objects, some of them null. If the first root is a node, `LoadObject`
gives it out. Otherwise `ConstructObject` makes a node and attaches all roots that can be part of a
scene to it.

**Theorem (`loadObject_spec`).** A file is loaded exactly if it can be read and one of its roots can
be part of a scene. What is given out (`scene`) is then the first root itself, if this is a node,
and else a new node with all such roots as children, in their order; and the objects of that scene
were converted, each once. So a file is loaded as a whole exactly if its first root is no node or
the only object. When nothing is loaded, nothing was converted, and the caller's pointer is null if
there is a root at all, and as before otherwise.

The flags that the new node gets are not modelled.
-/

namespace SseExt.ModelLoader

/-- What `ni_cast` makes of an object: a `NiNode`, another `NiAVObject`, or neither. -/
inductive Kind where
  | node
  | object
  | other
  deriving DecidableEq

/-- What is read from a path: whether the stream is valid, whether it could be loaded, and
`m_rootObjects`, if it has data. -/
structure File (α : Type*) where
  isValid : Bool
  loadStream : Bool
  rootObjects : Option (List (Option (α × Kind)))

/-- What is given out: an object of the file, or a new node with children. -/
inductive Scene (α : Type*) where
  | root (object : α)
  | made (children : List α)
  deriving DecidableEq

/-- `a_out`, and the objects that `ConvertLegacy` was called with. -/
structure State (α : Type*) where
  out : Option (Scene α)
  converted : List α

variable {α : Type*}

/-- The loop of `ConstructObject`: the children of the new node, if there is one, and the objects
converted. -/
def constructLoop : List (Option (α × Kind)) → Option (List α) × List α → Option (List α) × List α
  | [], s => s
  | none :: rest, s => constructLoop rest s
  | some (_, .other) :: rest, s => constructLoop rest s
  | some (object, _) :: rest, s =>
    -- `NiNode::Create`, unless there is one
    let children := s.1.getD []
    constructLoop rest (some (children ++ [object]), s.2 ++ [object])

def constructObject (roots : List (Option (α × Kind))) (s : State α) : Bool × State α :=
  let r := constructLoop roots (none, s.converted)
  (r.1.isSome, ⟨r.1.map .made, r.2⟩)

/-- The loop of `LoadObject`, at the roots `rest`. -/
def loadLoop (roots : List (Option (α × Kind))) : List (Option (α × Kind)) → State α →
    Bool × State α
  | [], s => (false, s)
  | none :: rest, s => loadLoop roots rest s
  | some (object, .node) :: _, s =>
    (true, ⟨some (.root object), s.converted ++ [object]⟩)
  | some _ :: _, s => constructObject roots s

def loadObject (file : File α) (s : State α) : Bool × State α :=
  if !file.isValid then (false, s)
  else if !file.loadStream then (false, s)
  else
    match file.rootObjects with
    | none => (false, s)
    | some roots => loadLoop roots roots s

/-! ## What is loaded -/

/-- The objects of a scene that are of the file. -/
def Scene.objects : Scene α → List α
  | .root object => [object]
  | .made children => children

/-- A root that can be part of a scene. -/
def part : Option (α × Kind) → Option α
  | some (object, .node) | some (object, .object) => some object
  | _ => none

def parts (roots : List (Option (α × Kind))) : List α := roots.filterMap part

/-- The first root that is not null. -/
def first (roots : List (Option (α × Kind))) : Option (α × Kind) := roots.findSome? id

variable {roots rest : List (Option (α × Kind))} {s : State α}

theorem constructLoop_part {r : Option (α × Kind)} {object : α} (h : part r = some object)
    (s : Option (List α) × List α) : constructLoop (r :: rest) s =
      constructLoop rest (some (s.1.getD [] ++ [object]), s.2 ++ [object]) := by
  rcases r with _ | ⟨o, kind⟩
  · cases h
  · cases kind with
    | other => cases h
    | node | object =>
      cases h
      rfl

theorem constructLoop_eq (roots : List (Option (α × Kind))) (s : Option (List α) × List α) :
    constructLoop roots s =
      (if parts roots = [] then s.1 else some (s.1.getD [] ++ parts roots),
        s.2 ++ parts roots) := by
  induction roots generalizing s with
  | nil => simp [constructLoop, parts]
  | cons r rest ih =>
    cases hr : part r with
    | none =>
      have hskip : constructLoop (r :: rest) s = constructLoop rest s := by
        rcases r with _ | ⟨o, kind⟩
        · rfl
        · cases kind with
          | other => rfl
          | node | object => cases hr
      rw [hskip, ih, parts, parts, List.filterMap_cons_none hr]
    | some object =>
      have hparts : parts (r :: rest) = object :: parts rest := List.filterMap_cons_some hr
      rw [constructLoop_part hr, ih, hparts, if_neg (List.cons_ne_nil _ _)]
      split_ifs with hnil <;> simp [hnil]

theorem constructObject_eq (roots : List (Option (α × Kind))) (s : State α) :
    constructObject roots s = if parts roots = [] then (false, ⟨none, s.converted⟩)
      else (true, ⟨some (.made (parts roots)), s.converted ++ parts roots⟩) := by
  rw [constructObject, constructLoop_eq]
  split_ifs with h <;> simp [h]

theorem loadLoop_eq (roots : List (Option (α × Kind))) (s : State α) :
    loadLoop roots rest s =
      match first rest with
      | none => (false, s)
      | some (object, .node) => (true, ⟨some (.root object), s.converted ++ [object]⟩)
      | some _ => constructObject roots s := by
  induction rest with
  | nil => rfl
  | cons r rest ih =>
    rcases r with _ | ⟨object, kind⟩
    · exact ih
    · cases kind <;> rfl

/-- The file can be read, and has these roots. -/
def File.Reads (file : File α) (roots : List (Option (α × Kind))) : Prop :=
  file.isValid = true ∧ file.loadStream = true ∧ file.rootObjects = some roots

theorem loadObject_of_reads {file : File α} (h : file.Reads roots) (s : State α) :
    loadObject file s = loadLoop roots roots s := by
  obtain ⟨hvalid, hload, hroots⟩ := h
  simp [loadObject, hvalid, hload, hroots]

theorem loadObject_of_not {file : File α} (h : ¬ ∃ roots, file.Reads roots) (s : State α) :
    loadObject file s = (false, s) := by
  unfold loadObject
  split_ifs with hvalid hload
  · rfl
  · rfl
  · cases hroots : file.rootObjects with
    | none => rfl
    | some roots =>
      refine absurd ⟨roots, ?_, ?_, hroots⟩ h
      · simpa using hvalid
      · simpa using hload

/-- What is given out: the first root if it is a node, else a new node over all that can be part
of a scene. -/
def scene (roots : List (Option (α × Kind))) : Scene α :=
  match first roots with
  | some (object, .node) => .root object
  | _ => .made (parts roots)

theorem mem_parts_of_first {object : α} (h : first roots = some (object, .node)) :
    object ∈ parts roots := by
  obtain ⟨r, hr, hid⟩ := List.exists_of_findSome?_eq_some h
  have hr' : r = some (object, .node) := hid
  exact List.mem_filterMap.2 ⟨r, hr, hr' ▸ rfl⟩

/-- The scene of a file with these roots. -/
theorem loadLoop_spec (roots : List (Option (α × Kind))) (s : State α) :
    let r := loadLoop roots roots s
    (r.1 = true ↔ parts roots ≠ []) ∧
      (r.1 = true → r.2.out = some (scene roots) ∧
        r.2.converted = s.converted ++ (scene roots).objects) ∧
      (r.1 = false → r.2.converted = s.converted ∧
        r.2.out = if first roots = none then s.out else none) := by
  have hnone : first roots = none → parts roots = [] := by
    intro h
    refine List.filterMap_eq_nil_iff.2 fun r hr => ?_
    have hid : r = none := List.findSome?_eq_none_iff.1 h r hr
    rw [hid]
    rfl
  rw [loadLoop_eq, scene]
  cases hfirst : first roots with
  | none => simp [hnone hfirst]
  | some r =>
    obtain ⟨object, kind⟩ := r
    cases kind with
    | node =>
      have hne : parts roots ≠ [] := List.ne_nil_of_mem (mem_parts_of_first hfirst)
      simp [hne, Scene.objects]
    | object | other =>
      by_cases hnil : parts roots = []
      · simp [constructObject_eq, hnil]
      · simp [constructObject_eq, hnil, Scene.objects]

/-- Objects are left out only behind a node. -/
theorem objects_scene_eq_iff (roots : List (Option (α × Kind))) :
    (scene roots).objects = parts roots ↔
      (parts roots).length = 1 ∨ ∀ object, first roots ≠ some (object, .node) := by
  unfold scene
  cases hfirst : first roots with
  | none => simp [Scene.objects]
  | some r =>
    obtain ⟨object, kind⟩ := r
    cases kind with
    | node =>
      have hmem := mem_parts_of_first hfirst
      constructor
      · intro heq
        exact .inl (congrArg List.length heq).symm
      · rintro (hone | hno)
        · obtain ⟨o, ho⟩ := List.length_eq_one_iff.1 hone
          rw [ho] at hmem ⊢
          rw [List.mem_singleton.1 hmem]
          rfl
        · exact absurd rfl (hno object)
    | object | other => simp [Scene.objects]

/-- **What is loaded**, and what is given out when nothing is. -/
theorem loadObject_spec (file : File α) (s : State α) :
    let r := loadObject file s
    (r.1 = true ↔ ∃ roots, file.Reads roots ∧ parts roots ≠ []) ∧
      (∀ roots, file.Reads roots → r.1 = true →
        r.2.out = some (scene roots) ∧
        r.2.converted = s.converted ++ (scene roots).objects ∧
        ((scene roots).objects = parts roots ↔
          (parts roots).length = 1 ∨ ∀ object, first roots ≠ some (object, .node))) ∧
      (r.1 = false → r.2.converted = s.converted ∧
        ((∃ roots, file.Reads roots ∧ first roots ≠ none) → r.2.out = none) ∧
        ((∀ roots, file.Reads roots → first roots = none) → r.2.out = s.out)) := by
  by_cases hreads : ∃ roots, file.Reads roots
  · obtain ⟨roots, hroots⟩ := hreads
    have hunique : ∀ roots', file.Reads roots' → roots' = roots := by
      intro roots' h
      exact Option.some.inj (h.2.2.symm.trans hroots.2.2)
    obtain ⟨hok, hgiven, hfail⟩ := loadLoop_spec roots s
    rw [loadObject_of_reads hroots]
    refine ⟨hok.trans ⟨fun h => ⟨roots, hroots, h⟩, ?_⟩, ?_, fun hfalse => ?_⟩
    · intro ⟨roots', h', hne⟩
      exact hunique roots' h' ▸ hne
    · intro roots' h' htrue
      rw [hunique roots' h']
      exact ⟨(hgiven htrue).1, (hgiven htrue).2, objects_scene_eq_iff roots⟩
    · obtain ⟨hconverted, hout⟩ := hfail hfalse
      refine ⟨hconverted, ?_, ?_⟩
      · intro ⟨roots', h', hne⟩
        rw [hout, if_neg (hunique roots' h' ▸ hne)]
      · intro hnull
        rw [hout, if_pos (hnull roots hroots)]
  · have hnot : ∀ roots, ¬ file.Reads roots := fun roots h => hreads ⟨roots, h⟩
    rw [loadObject_of_not hreads]
    simp [hnot]

end SseExt.ModelLoader
