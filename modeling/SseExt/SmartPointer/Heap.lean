import SseExt.Lib.Handles
import SseExt.Lib.Transition
import Mathlib.Data.UInt

/-!
# `BSTSmartPointer`

Objects with an intrusive count, some of whose members are smart pointers to objects. A smart
pointer is a cell: a root, which lives on its own, or a member of an object.

A call that detaches a pointer may delete objects, whose members detach in turn. `Call` is the stack
of these deletions: each frame is an object whose destructor has `left` members to go, and the
pointer whose `Release` deletes it, which is set to null when the object is gone. Below them is what
the call does afterwards.

Touching a pointer of a deleted object, or the count of one, is a fault, and so is deleting it
again. An object that has been deleted is not allocated again: it would be another object.
-/

namespace SseExt.SmartPointer

/-- Where a smart pointer is stored. -/
inductive Cell (ι O : Type*) where
  | root (i : ι)
  | member (o : O) (j : ℕ)
  deriving DecidableEq

/-- The object that a cell is a member of. -/
def Cell.owner {ι O : Type*} : Cell ι O → Option O
  | .root _ => none
  | .member o _ => some o

/-- An object: not allocated, its `_refCount` and how many members are pointers, or deleted. -/
inductive Block where
  | fresh
  | live (refCount : UInt32) (members : ℕ)
  | deleted

/-- An object being deleted. -/
structure Frame (ι O : Type*) where
  obj : O
  left : ℕ
  trigger : Cell ι O

/-- What a call does after `TryDetach`. -/
inductive Rest (ι O : Type*) where
  | done
  | copy (rhs : Cell ι O)
  | take (rhs : Cell ι O)
  | point (ptr : Option O)
  | leave (i : ι)

/-- A call on `target`. -/
structure Call (ι O : Type*) where
  stack : List (Frame ι O)
  target : Cell ι O
  rest : Rest ι O

inductive Fault where
  | deadPointer
  | deadObject

/-- The objects, the roots, the smart pointers that are not null, how often a count has dropped to
zero, and the call in progress. -/
structure Heap (ι O : Type*) where
  block : O → Block
  roots : Finset ι
  ptrs : Handles (Cell ι O) O
  drops : O → ℕ
  call : Option (Call ι O)

/-- Operations. Those on raw pointers include null. -/
inductive Op (ι O : Type*) where
  | alloc (o : O) (members : ℕ)
  | construct (i : ι) (ptr : Option O)
  | copyConstruct (i : ι) (rhs : Cell ι O)
  | moveConstruct (i : ι) (rhs : Cell ι O)
  | destroy (i : ι)
  | copyAssign (c rhs : Cell ι O)
  | moveAssign (c rhs : Cell ι O)
  | reset (c : Cell ι O)
  | resetTo (c : Cell ι O) (ptr : Option O)

inductive Label (ι O : Type*) where
  | op (a : Op ι O)
  | step

namespace Heap

variable {ι O : Type*} [DecidableEq ι] [DecidableEq O]

/-- No objects and no pointers; where a null pointer would point does not matter. -/
def init (o : O) : Heap ι O := ⟨fun _ => .fresh, ∅, ⟨∅, fun _ => o⟩, fun _ => 0, none⟩

/-- The storage of the cell is there. -/
def alive (s : Heap ι O) : Cell ι O → Bool
  | .root i => i ∈ s.roots
  | .member o j =>
    match s.block o with
    | .live _ members => j < members
    | _ => false

/-- `_ptr` -/
def ptr (s : Heap ι O) (c : Cell ι O) : Option O :=
  if c ∈ s.ptrs.live then some (s.ptrs.ref c) else none

/-- The object is allocated and not deleted. -/
def live (s : Heap ι O) (o : O) : Bool :=
  match s.block o with
  | .live _ _ => true
  | _ => false

def setCall (s : Heap ι O) (call : Option (Call ι O)) : Heap ι O := { s with call := call }

def setBlock (s : Heap ι O) (o : O) (b : Block) : Heap ι O :=
  { s with block := Function.update s.block o b }

/-- `_ptr = nullptr` -/
def null (s : Heap ι O) (c : Cell ι O) : Heap ι O := { s with ptrs := s.ptrs.drop c }

/-- `TryDetach` up to the destructor of the object that it deletes, if any. -/
def tryDetach (s : Heap ι O) (c : Cell ι O) (stack : List (Frame ι O)) (target : Cell ι O)
    (rest : Rest ι O) : Outcome (Heap ι O) Fault :=
  if !s.alive c then .fault .deadPointer
  else
    match s.ptr c with
    | none => .step (s.setCall (some ⟨stack, target, rest⟩))
    | some o =>
      match s.block o with
      | .live n members =>
        let s' := s.setBlock o (.live (n - 1) members)
        if n - 1 = 0 then
          .step ({ s' with drops := Function.update s.drops o (s.drops o + 1) }.setCall
            (some ⟨⟨o, members, c⟩ :: stack, target, rest⟩))
        else .step ((s'.null c).setCall (some ⟨stack, target, rest⟩))
      | _ => .fault .deadObject

/-- The memory of the object is freed, and the pointer that released it set to null. -/
def free (s : Heap ι O) (o : O) (c : Cell ι O) (call : Call ι O) : Outcome (Heap ι O) Fault :=
  if !s.live o then .fault .deadObject
  else
    let s' := s.setBlock o .deleted
    if !s'.alive c then .fault .deadPointer else .step ((s'.null c).setCall (some call))

/-- `_ptr = a_ptr; TryAttach()`, which ends the call. -/
def attach (s : Heap ι O) (c : Cell ι O) : Option O → Outcome (Heap ι O) Fault
  | none => .step ((s.null c).setCall none)
  | some o =>
    match s.block o with
    | .live n members =>
      .step (({ s with ptrs := s.ptrs.set c o }.setBlock o (.live (n + 1) members)).setCall none)
    | _ => .fault .deadObject

/-- What is left of a call when `TryDetach` is through. -/
def finish (s : Heap ι O) (target : Cell ι O) : Rest ι O → Outcome (Heap ι O) Fault
  | .done => .step (s.setCall none)
  | .copy rhs => if s.alive target && s.alive rhs then s.attach target (s.ptr rhs) else
      .fault .deadPointer
  | .take rhs =>
    if s.alive target && s.alive rhs then
      match s.ptr rhs with
      | none => .step ((s.null target).setCall none)
      | some o => .step ({ s with ptrs := (s.ptrs.drop rhs).set target o }.setCall none)
    else .fault .deadPointer
  | .point p => if s.alive target then s.attach target p else .fault .deadPointer
  | .leave i => .step ({ s with roots := s.roots.erase i }.setCall none)

/-- A step of the call in progress. -/
def advance (s : Heap ι O) (call : Call ι O) : Outcome (Heap ι O) Fault :=
  match call.stack with
  | ⟨o, left + 1, c⟩ :: stack =>
    s.tryDetach (.member o left) (⟨o, left, c⟩ :: stack) call.target call.rest
  | ⟨o, 0, c⟩ :: stack => s.free o c { call with stack := stack }
  | [] => s.finish call.target call.rest

/-- A root comes into being, null, and gets its value. -/
def enter (s : Heap ι O) (i : ι) (rest : Rest ι O) : Outcome (Heap ι O) Fault :=
  if i ∈ s.roots then .blocked
  else .step ({ s with roots := insert i s.roots }.setCall (some ⟨[], .root i, rest⟩))

/-- The raw pointer is null or points to an object. -/
def valid (s : Heap ι O) : Option O → Bool
  | none => true
  | some o => s.live o

/-- The start of an operation, whose operands have to be there. -/
def start (s : Heap ι O) : Op ι O → Outcome (Heap ι O) Fault
  | .alloc o members =>
    match s.block o with
    | .fresh => .step (s.setBlock o (.live 0 members))
    | _ => .blocked
  | .construct i p => if s.valid p then s.enter i (.point p) else .blocked
  | .copyConstruct i rhs => if s.alive rhs then s.enter i (.copy rhs) else .blocked
  | .moveConstruct i rhs => if s.alive rhs then s.enter i (.take rhs) else .blocked
  | .destroy i =>
    if i ∈ s.roots then s.tryDetach (.root i) [] (.root i) (.leave i) else .blocked
  | .copyAssign c rhs =>
    if s.alive c && s.alive rhs then
      if c = rhs then .step s else s.tryDetach c [] c (.copy rhs)
    else .blocked
  | .moveAssign c rhs =>
    if s.alive c && s.alive rhs then
      if c = rhs then .step s else s.tryDetach c [] c (.take rhs)
    else .blocked
  | .reset c => if s.alive c then s.tryDetach c [] c .done else .blocked
  | .resetTo c p =>
    if s.alive c && s.valid p then
      if s.ptr c = p then .step s else s.tryDetach c [] c (.point p)
    else .blocked

def next (s : Heap ι O) : Label ι O → Outcome (Heap ι O) Fault
  | .op a => if s.call.isNone then s.start a else .blocked
  | .step =>
    match s.call with
    | some call => s.advance call
    | none => .blocked

def machine (ι : Type*) [DecidableEq ι] (o : O) : Machine (Heap ι O) (Label ι O) Fault :=
  ⟨init o, next⟩

end Heap

end SseExt.SmartPointer
