import Mathlib.Data.List.Perm.Basic
import Mathlib.Data.List.ReduceOption
import Mathlib.Tactic.Common

/-!
# `D3D11StateBackupImpl`

The state of a Direct3D pipeline is read before foreign code draws and is set again afterwards.
Every interface that a `Get` call returns comes with a reference, for which `Restore` has to call
`Release`.

**Theorem (`restore_backup_iff`).** Everything that was read is set again. The calls of `Release`
match the references exactly if no class instance is bound to the geometry shader: the loop over
its instances is one over those of the vertex shader.

A `Get` call writes the first elements of an array and how many there are (`Buffer`); the rest of
the array is what it was. `ι` are the COM objects, `ρ` the rectangles, `ν` the viewports and `φ` the
`FLOAT`s.
-/

namespace SseExt.D3D11

/-- At most `n` elements. -/
abbrev AtMost (n : ℕ) (α : Type*) := { l : List α // l.length ≤ n }

/-- A shader and its class instances. -/
structure Shader (ι : Type*) where
  shader : Option ι
  instances : AtMost 256 (Option ι)

/-- The part of the state of a pipeline that is backed up. -/
structure Pipeline (ι ρ ν φ : Type*) where
  renderTargetViews : Fin 8 → Option ι
  depthStencilView : Option ι
  scissorRects : AtMost 16 ρ
  viewports : AtMost 16 ν
  rasterizerState : Option ι
  blendState : Option ι
  blendFactor : Fin 4 → φ
  sampleMask : UInt32
  depthStencilState : Option ι
  stencilRef : UInt32
  psShaderResource : Option ι
  psSampler : Option ι
  ps : Shader ι
  vs : Shader ι
  vsConstantBuffer : Option ι
  gs : Shader ι
  primitiveTopology : UInt32
  indexBuffer : Option ι
  indexBufferFormat : UInt32
  indexBufferOffset : UInt32
  vertexBuffer : Option ι
  vertexBufferStride : UInt32
  vertexBufferOffset : UInt32
  inputLayout : Option ι

variable {ι ρ ν φ α : Type*} {n : ℕ}

/-- An array of `n` elements, of which the first `count` are in use. -/
structure Buffer (n : ℕ) (α : Type*) where
  count : ℕ
  elems : Fin n → α
  count_le : count ≤ n

namespace Buffer

/-- What a `Get` call leaves. -/
def write (b : Buffer n α) (l : AtMost n α) : Buffer n α :=
  ⟨l.1.length, fun i => (l.1[i.1]?).getD (b.elems i), l.2⟩

/-- What a `Set` call reads. -/
def read (b : Buffer n α) : AtMost n α :=
  ⟨List.ofFn fun i : Fin b.count => b.elems (i.castLE b.count_le), by
    simpa using b.count_le⟩

@[simp] theorem read_write (b : Buffer n α) (l : AtMost n α) : (b.write l).read = l := by
  refine Subtype.ext (List.ext_getElem (by simp [read, write]) fun i hi hl => ?_)
  simp only [read, List.getElem_ofFn]
  change (l.1[i]?).getD _ = _
  rw [List.getElem?_eq_getElem hl, Option.getD_some]

end Buffer

/-- `D3D11StateBackupImpl` -/
structure StateBackupImpl (ι ρ ν φ : Type*) where
  scissorRects : Buffer 16 ρ
  viewports : Buffer 16 ν
  rs : Option ι
  blendState : Option ι
  blendFactor : Fin 4 → φ
  sampleMask : UInt32
  stencilRef : UInt32
  depthStencilState : Option ι
  psShaderResource : Option ι
  psSampler : Option ι
  ps : Option ι
  vs : Option ι
  gs : Option ι
  psInstances : Buffer 256 (Option ι)
  vsInstances : Buffer 256 (Option ι)
  gsInstances : Buffer 256 (Option ι)
  primitiveTopology : UInt32
  indexBuffer : Option ι
  vertexBuffer : Option ι
  vsConstantBuffer : Option ι
  indexBufferOffset : UInt32
  vertexBufferStride : UInt32
  vertexBufferOffset : UInt32
  indexBufferFormat : UInt32
  inputLayout : Option ι
  renderTargetViews : Fin 8 → Option ι
  depthStencilView : Option ι

/-- An `ID3D11DeviceContext`, with the references that its `Get` calls added and those that were
released. -/
structure DeviceContext (ι ρ ν φ : Type*) where
  pipeline : Pipeline ι ρ ν φ
  addRefs : List ι
  releases : List ι

namespace DeviceContext

/-- Every interface that a `Get` call returns is `AddRef`'ed. -/
def addRef (ctx : DeviceContext ι ρ ν φ) (ps : List (Option ι)) : DeviceContext ι ρ ν φ :=
  { ctx with addRefs := ctx.addRefs ++ ps.reduceOption }

/-- A `Set` call. -/
def set (ctx : DeviceContext ι ρ ν φ) (f : Pipeline ι ρ ν φ → Pipeline ι ρ ν φ) :
    DeviceContext ι ρ ν φ :=
  { ctx with pipeline := f ctx.pipeline }

/-- `if (p) p->Release();` -/
def release (ctx : DeviceContext ι ρ ν φ) (p : Option ι) : DeviceContext ι ρ ν φ :=
  { ctx with releases := ctx.releases ++ p.toList }

/-- `release` in a loop over an array. -/
def releaseAll (ctx : DeviceContext ι ρ ν φ) (ps : List (Option ι)) : DeviceContext ι ρ ν φ :=
  ps.foldl release ctx

end DeviceContext

open DeviceContext

/-- `Backup`; what `b` held before is overwritten or left. -/
def backup (b : StateBackupImpl ι ρ ν φ) (ctx : DeviceContext ι ρ ν φ) (renderTargets : Bool) :
    StateBackupImpl ι ρ ν φ × DeviceContext ι ρ ν φ :=
  let p := ctx.pipeline
  let b := if renderTargets then
    { b with renderTargetViews := p.renderTargetViews, depthStencilView := p.depthStencilView }
    else b
  let ctx := if renderTargets then
    ctx.addRef (List.ofFn p.renderTargetViews ++ [p.depthStencilView]) else ctx
  let b := { b with scissorRects := b.scissorRects.write p.scissorRects }
  let b := { b with viewports := b.viewports.write p.viewports }
  let b := { b with rs := p.rasterizerState }
  let ctx := ctx.addRef [p.rasterizerState]
  let b := { b with
    blendState := p.blendState, blendFactor := p.blendFactor, sampleMask := p.sampleMask }
  let ctx := ctx.addRef [p.blendState]
  let b := { b with depthStencilState := p.depthStencilState, stencilRef := p.stencilRef }
  let ctx := ctx.addRef [p.depthStencilState]
  let b := { b with psShaderResource := p.psShaderResource }
  let ctx := ctx.addRef [p.psShaderResource]
  let b := { b with psSampler := p.psSampler }
  let ctx := ctx.addRef [p.psSampler]
  let b := { b with ps := p.ps.shader, psInstances := b.psInstances.write p.ps.instances }
  let ctx := ctx.addRef ([p.ps.shader] ++ p.ps.instances.1)
  let b := { b with vs := p.vs.shader, vsInstances := b.vsInstances.write p.vs.instances }
  let ctx := ctx.addRef ([p.vs.shader] ++ p.vs.instances.1)
  let b := { b with vsConstantBuffer := p.vsConstantBuffer }
  let ctx := ctx.addRef [p.vsConstantBuffer]
  let b := { b with gs := p.gs.shader, gsInstances := b.gsInstances.write p.gs.instances }
  let ctx := ctx.addRef ([p.gs.shader] ++ p.gs.instances.1)
  let b := { b with primitiveTopology := p.primitiveTopology }
  let b := { b with
    indexBuffer := p.indexBuffer
    indexBufferFormat := p.indexBufferFormat
    indexBufferOffset := p.indexBufferOffset }
  let ctx := ctx.addRef [p.indexBuffer]
  let b := { b with
    vertexBuffer := p.vertexBuffer
    vertexBufferStride := p.vertexBufferStride
    vertexBufferOffset := p.vertexBufferOffset }
  let ctx := ctx.addRef [p.vertexBuffer]
  let b := { b with inputLayout := p.inputLayout }
  let ctx := ctx.addRef [p.inputLayout]
  (b, ctx)

/-- `Restore` -/
def restore (b : StateBackupImpl ι ρ ν φ) (ctx : DeviceContext ι ρ ν φ) (renderTargets : Bool) :
    DeviceContext ι ρ ν φ :=
  let ctx := if renderTargets then
    let ctx := ctx.set fun p => { p with
      renderTargetViews := b.renderTargetViews, depthStencilView := b.depthStencilView }
    let ctx := ctx.releaseAll (List.ofFn b.renderTargetViews)
    ctx.release b.depthStencilView
    else ctx
  let ctx := ctx.set fun p => { p with scissorRects := b.scissorRects.read }
  let ctx := ctx.set fun p => { p with viewports := b.viewports.read }
  let ctx := ctx.set fun p => { p with rasterizerState := b.rs }
  let ctx := ctx.release b.rs
  let ctx := ctx.set fun p => { p with
    blendState := b.blendState, blendFactor := b.blendFactor, sampleMask := b.sampleMask }
  let ctx := ctx.release b.blendState
  let ctx := ctx.set fun p => { p with
    depthStencilState := b.depthStencilState, stencilRef := b.stencilRef }
  let ctx := ctx.release b.depthStencilState
  let ctx := ctx.set fun p => { p with psShaderResource := b.psShaderResource }
  let ctx := ctx.release b.psShaderResource
  let ctx := ctx.set fun p => { p with psSampler := b.psSampler }
  let ctx := ctx.release b.psSampler
  let ctx := ctx.set fun p => { p with ps := ⟨b.ps, b.psInstances.read⟩ }
  let ctx := ctx.release b.ps
  let ctx := ctx.releaseAll b.psInstances.read.1
  let ctx := ctx.set fun p => { p with vs := ⟨b.vs, b.vsInstances.read⟩ }
  let ctx := ctx.release b.vs
  let ctx := ctx.set fun p => { p with vsConstantBuffer := b.vsConstantBuffer }
  let ctx := ctx.release b.vsConstantBuffer
  let ctx := ctx.set fun p => { p with gs := ⟨b.gs, b.gsInstances.read⟩ }
  let ctx := ctx.release b.gs
  -- The loop after the geometry shader is over `VSInstances`.
  let ctx := ctx.releaseAll b.vsInstances.read.1
  let ctx := ctx.set fun p => { p with primitiveTopology := b.primitiveTopology }
  let ctx := ctx.set fun p => { p with
    indexBuffer := b.indexBuffer
    indexBufferFormat := b.indexBufferFormat
    indexBufferOffset := b.indexBufferOffset }
  let ctx := ctx.release b.indexBuffer
  let ctx := ctx.set fun p => { p with
    vertexBuffer := b.vertexBuffer
    vertexBufferStride := b.vertexBufferStride
    vertexBufferOffset := b.vertexBufferOffset }
  let ctx := ctx.release b.vertexBuffer
  let ctx := ctx.set fun p => { p with inputLayout := b.inputLayout }
  ctx.release b.inputLayout

/-! ## What is set again -/

@[simp] theorem pipeline_set (ctx : DeviceContext ι ρ ν φ)
    (f : Pipeline ι ρ ν φ → Pipeline ι ρ ν φ) : (ctx.set f).pipeline = f ctx.pipeline := rfl

@[simp] theorem pipeline_release (ctx : DeviceContext ι ρ ν φ) (p : Option ι) :
    (ctx.release p).pipeline = ctx.pipeline := rfl

@[simp] theorem pipeline_releaseAll (ctx : DeviceContext ι ρ ν φ) (ps : List (Option ι)) :
    (ctx.releaseAll ps).pipeline = ctx.pipeline := by
  induction ps generalizing ctx with
  | nil => rfl
  | cons p ps ih => exact ih (ctx.release p)

/-- **Everything that was read is set again.** -/
theorem restore_pipeline (b : StateBackupImpl ι ρ ν φ) (ctx ctx' : DeviceContext ι ρ ν φ)
    (renderTargets : Bool) :
    (restore (backup b ctx renderTargets).1 ctx' renderTargets).pipeline =
      if renderTargets then ctx.pipeline
      else { ctx.pipeline with
        renderTargetViews := ctx'.pipeline.renderTargetViews
        depthStencilView := ctx'.pipeline.depthStencilView } := by
  cases renderTargets <;> simp [restore, backup]

/-! ## What is released -/

@[simp] theorem addRefs_addRef (ctx : DeviceContext ι ρ ν φ) (ps : List (Option ι)) :
    (ctx.addRef ps).addRefs = ctx.addRefs ++ ps.reduceOption := rfl

@[simp] theorem releases_addRef (ctx : DeviceContext ι ρ ν φ) (ps : List (Option ι)) :
    (ctx.addRef ps).releases = ctx.releases := rfl

@[simp] theorem addRefs_set (ctx : DeviceContext ι ρ ν φ)
    (f : Pipeline ι ρ ν φ → Pipeline ι ρ ν φ) : (ctx.set f).addRefs = ctx.addRefs := rfl

@[simp] theorem addRefs_release (ctx : DeviceContext ι ρ ν φ) (p : Option ι) :
    (ctx.release p).addRefs = ctx.addRefs := rfl

@[simp] theorem releases_set (ctx : DeviceContext ι ρ ν φ)
    (f : Pipeline ι ρ ν φ → Pipeline ι ρ ν φ) : (ctx.set f).releases = ctx.releases := rfl

@[simp] theorem releases_release (ctx : DeviceContext ι ρ ν φ) (p : Option ι) :
    (ctx.release p).releases = ctx.releases ++ [p].reduceOption := by
  cases p <;> rfl

/-- A loop releases what is not null. -/
@[simp] theorem releaseAll_eq (ctx : DeviceContext ι ρ ν φ) (ps : List (Option ι)) :
    ctx.releaseAll ps = { ctx with releases := ctx.releases ++ ps.reduceOption } := by
  induction ps generalizing ctx with
  | nil => rw [List.reduceOption_nil, List.append_nil]; rfl
  | cons p ps ih =>
    rw [releaseAll, List.foldl_cons, ← releaseAll, ih]
    cases p <;> simp [release]

/-- The state after `Backup`, drawing that leaves the pipeline `p'`, and `Restore`. -/
def backupRestore (b : StateBackupImpl ι ρ ν φ) (p p' : Pipeline ι ρ ν φ) (renderTargets : Bool) :
    DeviceContext ι ρ ν φ :=
  let r := backup b ⟨p, [], []⟩ renderTargets
  restore r.1 { r.2 with pipeline := p' } renderTargets

/-- **The instances of the geometry shader** are what is not released. -/
theorem addRefs_perm (b : StateBackupImpl ι ρ ν φ) (p p' : Pipeline ι ρ ν φ)
    (renderTargets : Bool) :
    (backupRestore b p p' renderTargets).addRefs.Perm
      ((backupRestore b p p' renderTargets).releases ++ p.gs.instances.1.reduceOption) := by
  classical
  refine List.perm_iff_count.2 fun o => ?_
  cases renderTargets <;>
    simp only [backupRestore, restore, backup, Bool.false_eq_true, if_false, if_true,
      addRefs_addRef, addRefs_set, addRefs_release, releases_addRef, releases_set,
      releases_release, releaseAll_eq, List.count_append, List.reduceOption_append,
      List.count_nil, Buffer.read_write] <;>
    omega

/-- **The backup gives back what it took** exactly if the geometry shader has no class instances
but null ones. -/
theorem restore_backup_iff (b : StateBackupImpl ι ρ ν φ) (p p' : Pipeline ι ρ ν φ)
    (renderTargets : Bool) :
    ((backupRestore b p p' renderTargets).pipeline =
        (if renderTargets then p
        else { p with
          renderTargetViews := p'.renderTargetViews
          depthStencilView := p'.depthStencilView }) ∧
      (backupRestore b p p' renderTargets).releases.Perm
        (backupRestore b p p' renderTargets).addRefs) ↔
    ∀ i ∈ p.gs.instances.1, i = none := by
  have hperm := addRefs_perm b p p' renderTargets
  have hlost : p.gs.instances.1.reduceOption = [] ↔ ∀ i ∈ p.gs.instances.1, i = none :=
    List.filterMap_eq_nil_iff
  rw [← hlost]
  constructor
  · rintro ⟨-, hbalanced⟩
    have hlen := (hbalanced.trans hperm).length_eq
    rw [List.length_append] at hlen
    exact List.length_eq_zero_iff.1 (by omega)
  · intro hnil
    rw [hnil, List.append_nil] at hperm
    exact ⟨restore_pipeline b _ _ renderTargets, hperm.symm⟩

/-- A pipeline with nothing bound but a geometry shader and a class instance of it. -/
def instanced : Pipeline ℕ Unit Unit Unit where
  renderTargetViews _ := none
  depthStencilView := none
  scissorRects := ⟨[], by decide⟩
  viewports := ⟨[], by decide⟩
  rasterizerState := none
  blendState := none
  blendFactor _ := ()
  sampleMask := 0
  depthStencilState := none
  stencilRef := 0
  psShaderResource := none
  psSampler := none
  ps := ⟨none, [], by decide⟩
  vs := ⟨none, [], by decide⟩
  vsConstantBuffer := none
  gs := ⟨some 1, [some 2], by decide⟩
  primitiveTopology := 0
  indexBuffer := none
  indexBufferFormat := 0
  indexBufferOffset := 0
  vertexBuffer := none
  vertexBufferStride := 0
  vertexBufferOffset := 0
  inputLayout := none

/-- A backup object before it is used. -/
def unused : StateBackupImpl ℕ Unit Unit Unit where
  scissorRects := ⟨0, fun _ => (), by decide⟩
  viewports := ⟨0, fun _ => (), by decide⟩
  rs := none
  blendState := none
  blendFactor _ := ()
  sampleMask := 0
  stencilRef := 0
  depthStencilState := none
  psShaderResource := none
  psSampler := none
  ps := none
  vs := none
  gs := none
  psInstances := ⟨0, fun _ => none, by decide⟩
  vsInstances := ⟨0, fun _ => none, by decide⟩
  gsInstances := ⟨0, fun _ => none, by decide⟩
  primitiveTopology := 0
  indexBuffer := none
  vertexBuffer := none
  vsConstantBuffer := none
  indexBufferOffset := 0
  vertexBufferStride := 0
  vertexBufferOffset := 0
  indexBufferFormat := 0
  inputLayout := none
  renderTargetViews _ := none
  depthStencilView := none

theorem instanced_leaks :
    (backupRestore unused instanced instanced false).addRefs = [1, 2] ∧
      (backupRestore unused instanced instanced false).releases = [1] := by
  decide

end SseExt.D3D11
