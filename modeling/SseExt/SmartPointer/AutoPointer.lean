import SseExt.SmartPointer.Safety

/-!
# `BSTAutoPointer`

What it is to acquire and to release an object, `BSTSmartPointer` leaves to its reference manager.
That of `BSTAutoPointer` acquires nothing, and deletes what it releases.

**Theorem (`deletes_once`).** In a run of careful operations every object is deleted at most once
and no pointer refers to one that is deleted. An operation is careful if it makes no second pointer
to an object, and if what it uses after detaching its target does not go with the target. After a
copy the first of the two pointers to go leaves the other one behind (`shared_dangles`).

With one pointer to an object at most, a count is one until it drops to zero, so that the manager
that counts deletes whenever the other one does (`next_uncounted`).
-/

namespace SseExt.SmartPointer

/-- `BSTSmartPointerIntrusiveRefCount` and `BSTSmartPointerAutoPtr`. -/
inductive RefManager where
  | intrusiveRefCount
  | autoPtr

namespace RefManager

/-- What `Acquire` leaves of the object; `none` when it uses one that is not there. -/
def acquire : RefManager → Block → Option Block
  | .intrusiveRefCount, .live n members => some (.live (n + 1) members)
  | .intrusiveRefCount, _ => none
  | .autoPtr, b => some b

/-- The count after `Release`, and whether the object is deleted. -/
def release : RefManager → UInt32 → UInt32 × Bool
  | .intrusiveRefCount, n => (n - 1, n - 1 = 0)
  | .autoPtr, n => (n, true)

variable {ι O : Type*} [DecidableEq ι] [DecidableEq O] (M : RefManager)

/-- `TryDetach` up to the destructor of the object that it deletes, if any. -/
def tryDetach (s : Heap ι O) (c : Cell ι O) (stack : List (Frame ι O)) (target : Cell ι O)
    (rest : Rest ι O) : Outcome (Heap ι O) Fault :=
  if !s.alive c then .fault .deadPointer
  else
    match s.ptr c with
    | none => .step (s.setCall (some ⟨stack, target, rest⟩))
    | some o =>
      match s.block o with
      | .live n members =>
        let r := M.release n
        let s' := s.setBlock o (.live r.1 members)
        if r.2 then
          .step ({ s' with drops := Function.update s.drops o (s.drops o + 1) }.setCall
            (some ⟨⟨o, members, c⟩ :: stack, target, rest⟩))
        else .step ((s'.null c).setCall (some ⟨stack, target, rest⟩))
      | _ => .fault .deadObject

/-- `_ptr = a_ptr; TryAttach()`, which ends the call. -/
def attach (s : Heap ι O) (c : Cell ι O) : Option O → Outcome (Heap ι O) Fault
  | none => .step ((s.null c).setCall none)
  | some o =>
    match M.acquire (s.block o) with
    | some b => .step (({ s with ptrs := s.ptrs.set c o }.setBlock o b).setCall none)
    | none => .fault .deadObject

/-- What is left of a call when `TryDetach` is through. -/
def finish (s : Heap ι O) (target : Cell ι O) : Rest ι O → Outcome (Heap ι O) Fault
  | .done => .step (s.setCall none)
  | .copy rhs => if s.alive target && s.alive rhs then M.attach s target (s.ptr rhs) else
      .fault .deadPointer
  | .take rhs =>
    if s.alive target && s.alive rhs then
      match s.ptr rhs with
      | none => .step ((s.null target).setCall none)
      | some o => .step ({ s with ptrs := (s.ptrs.drop rhs).set target o }.setCall none)
    else .fault .deadPointer
  | .point p => if s.alive target then M.attach s target p else .fault .deadPointer
  | .leave i => .step ({ s with roots := s.roots.erase i }.setCall none)

/-- A step of the call in progress. -/
def advance (s : Heap ι O) (call : Call ι O) : Outcome (Heap ι O) Fault :=
  match call.stack with
  | ⟨o, left + 1, c⟩ :: stack =>
    M.tryDetach s (.member o left) (⟨o, left, c⟩ :: stack) call.target call.rest
  | ⟨o, 0, c⟩ :: stack => s.free o c { call with stack := stack }
  | [] => M.finish s call.target call.rest

/-- The start of an operation, whose operands have to be there. -/
def start (s : Heap ι O) : Op ι O → Outcome (Heap ι O) Fault
  | .alloc o members =>
    match s.block o with
    | .fresh => .step (s.setBlock o (.live 0 members))
    | _ => .blocked
  | .construct i p => if s.valid p then s.enter i (.point p) else .blocked
  | .copyConstruct i rhs => if s.alive rhs then s.enter i (.copy rhs) else .blocked
  | .moveConstruct i rhs => if s.alive rhs then s.enter i (.take rhs) else .blocked
  | .destroy i =>
    if i ∈ s.roots then M.tryDetach s (.root i) [] (.root i) (.leave i) else .blocked
  | .copyAssign c rhs =>
    if s.alive c && s.alive rhs then
      if c = rhs then .step s else M.tryDetach s c [] c (.copy rhs)
    else .blocked
  | .moveAssign c rhs =>
    if s.alive c && s.alive rhs then
      if c = rhs then .step s else M.tryDetach s c [] c (.take rhs)
    else .blocked
  | .reset c => if s.alive c then M.tryDetach s c [] c .done else .blocked
  | .resetTo c p =>
    if s.alive c && s.valid p then
      if s.ptr c = p then .step s else M.tryDetach s c [] c (.point p)
    else .blocked

def next (s : Heap ι O) : Label ι O → Outcome (Heap ι O) Fault
  | .op a => if s.call.isNone then M.start s a else .blocked
  | .step =>
    match s.call with
    | some call => M.advance s call
    | none => .blocked

/-- Smart pointers with the manager `M`. -/
def machine (ι : Type*) [DecidableEq ι] (o : O) : Machine (Heap ι O) (Label ι O) Fault :=
  ⟨.init o, M.next⟩

end RefManager

/-! ## Careful operations -/

/-- No pointer refers to the object. -/
def Unheld {ι O : Type*} (p : Handles (Cell ι O) O) (o : O) : Prop := ∀ c ∈ p.live, p.ref c ≠ o

/-- The rest of a call makes no second pointer to an object. -/
def Rest.Spare {ι O : Type*} (p : Handles (Cell ι O) O) : Rest ι O → Prop
  | .copy rhs => rhs ∉ p.live
  | .point q => ∀ o ∈ q, Unheld p o
  | .done | .take _ | .leave _ => True

namespace Heap

variable {ι O : Type*} [DecidableEq ι] [DecidableEq O]

/-- No object gets a second pointer, and what an operation uses after detaching its target does not
go with it. -/
def Careful (s : Heap ι O) : Label ι O → Prop
  | .op (.construct _ q) => ∀ o ∈ q, Unheld s.ptrs o
  | .op (.copyConstruct _ rhs) => s.ptr rhs = none
  | .op (.copyAssign c rhs) => c ≠ rhs → s.ptr rhs = none ∧ s.Outlives c c ∧ s.Outlives c rhs
  | .op (.moveAssign c rhs) => c ≠ rhs → s.Outlives c c ∧ s.Outlives c rhs
  | .op (.reset c) => s.Outlives c c
  | .op (.resetTo c q) => s.ptr c ≠ q → s.Outlives c c ∧ ∀ o ∈ q, Unheld s.ptrs o
  | .op (.alloc _ _) | .op (.moveConstruct _ _) | .op (.destroy _) | .step => True

end Heap

/-! ## The manager that counts -/

namespace RefManager

variable {ι O : Type*} [DecidableEq ι] [DecidableEq O]

theorem tryDetach_intrusive (s : Heap ι O) (c : Cell ι O) (stack : List (Frame ι O))
    (target : Cell ι O) (rest : Rest ι O) :
    intrusiveRefCount.tryDetach s c stack target rest = s.tryDetach c stack target rest := by
  unfold tryDetach Heap.tryDetach
  refine if_congr Iff.rfl rfl ?_
  cases s.ptr c with
  | none => rfl
  | some o =>
    dsimp only
    cases s.block o with
    | fresh | deleted => rfl
    | live n members => simp only [release, decide_eq_true_eq]

theorem attach_intrusive (s : Heap ι O) (c : Cell ι O) (q : Option O) :
    intrusiveRefCount.attach s c q = s.attach c q := by
  cases q with
  | none => rfl
  | some o =>
    simp only [attach, Heap.attach]
    cases s.block o <;> rfl

theorem finish_intrusive (s : Heap ι O) (target : Cell ι O) (rest : Rest ι O) :
    intrusiveRefCount.finish s target rest = s.finish target rest := by
  cases rest with
  | copy rhs => simp only [finish, Heap.finish, attach_intrusive]
  | point q => simp only [finish, Heap.finish, attach_intrusive]
  | done | take rhs | leave i => rfl

theorem advance_intrusive (s : Heap ι O) (call : Call ι O) :
    intrusiveRefCount.advance s call = s.advance call := by
  obtain ⟨stack, target, rest⟩ := call
  match stack with
  | [] => exact finish_intrusive s target rest
  | ⟨o, 0, c⟩ :: stack => rfl
  | ⟨o, left + 1, c⟩ :: stack => exact tryDetach_intrusive s _ _ target rest

/-- It is `BSTSmartPointer`. -/
theorem next_intrusive (s : Heap ι O) (a : Label ι O) :
    intrusiveRefCount.next s a = s.next a := by
  cases a with
  | op a =>
    cases a with
    | alloc | construct | copyConstruct | moveConstruct => rfl
    | destroy | copyAssign | moveAssign | reset | resetTo =>
      simp only [next, Heap.next, start, Heap.start, tryDetach_intrusive]
  | step =>
    unfold next Heap.next
    cases s.call with
    | none => rfl
    | some call => exact advance_intrusive s call

end RefManager

/-! ## The heap without counts -/

def Block.uncounted : Block → Block
  | .live _ members => .live 0 members
  | b => b

namespace Heap

variable {ι O : Type*} [DecidableEq ι] [DecidableEq O] {s : Heap ι O} {p : Handles (Cell ι O) O}
  {stack : List (Frame ι O)} {c target : Cell ι O} {o o₀ : O} {n : UInt32} {m : ℕ} {i : ι}
  {q : Option O} {rest : Rest ι O} {call : Call ι O} {a : Label ι O}

def uncounted (s : Heap ι O) : Heap ι O := { s with block := fun o => (s.block o).uncounted }

omit [DecidableEq ι] in
theorem uncounted_setBlock (s : Heap ι O) (o : O) (b : Block) :
    (s.setBlock o b).uncounted = s.uncounted.setBlock o b.uncounted := by
  simp only [uncounted, setBlock]
  congr 1
  funext q
  exact Function.apply_update (fun _ => Block.uncounted) s.block o b q

omit [DecidableEq O] in
@[simp] theorem alive_uncounted (s : Heap ι O) (c : Cell ι O) :
    s.uncounted.alive c = s.alive c := by
  cases c with
  | root i => rfl
  | member o j =>
    simp only [alive, uncounted]
    cases s.block o <;> rfl

omit [DecidableEq ι] [DecidableEq O] in
@[simp] theorem live_uncounted (s : Heap ι O) (o : O) : s.uncounted.live o = s.live o := by
  simp only [live, uncounted]
  cases s.block o <;> rfl

omit [DecidableEq ι] [DecidableEq O] in
theorem valid_uncounted (s : Heap ι O) (q : Option O) : s.uncounted.valid q = s.valid q := by
  cases q with
  | none => rfl
  | some o => exact live_uncounted s o

/-- **Releasing the only pointer** deletes the object, whoever counts. -/
theorem tryDetach_uncounted
    (hone : ∀ n m, c ∈ s.ptrs.live → s.block (s.ptrs.ref c) = .live n m → n = 1)
    (stack : List (Frame ι O)) (target : Cell ι O) (rest : Rest ι O) :
    RefManager.autoPtr.tryDetach s.uncounted c stack target rest =
      (s.tryDetach c stack target rest).map uncounted := by
  simp only [RefManager.tryDetach, Heap.tryDetach, alive_uncounted]
  cases s.alive c with
  | false => rfl
  | true =>
    by_cases hc : c ∈ s.ptrs.live
    · have hptr : s.ptr c = some (s.ptrs.ref c) := if_pos hc
      have hptr' : s.uncounted.ptr c = some (s.ptrs.ref c) := if_pos hc
      simp only [hptr, hptr']
      cases hb : s.block (s.ptrs.ref c) with
      | fresh =>
        simp only [uncounted, hb, Block.uncounted]
        rfl
      | deleted =>
        simp only [uncounted, hb, Block.uncounted]
        rfl
      | live n m =>
        obtain rfl := hone n m hc hb
        have hblock : s.uncounted.block (s.ptrs.ref c) = .live 0 m := by
          simp only [uncounted, hb, Block.uncounted]
        have hset : s.uncounted.setBlock (s.ptrs.ref c) (.live 0 m) =
            (s.setBlock (s.ptrs.ref c) (.live (1 - 1) m)).uncounted :=
          (uncounted_setBlock s (s.ptrs.ref c) (.live (1 - 1) m)).symm
        simp only [hblock, RefManager.release, hset]
        rfl
    · have hptr : s.ptr c = none := if_neg hc
      have hptr' : s.uncounted.ptr c = none := if_neg hc
      simp only [hptr, hptr']
      rfl

theorem free_uncounted (s : Heap ι O) (o : O) (c : Cell ι O) (call : Call ι O) :
    s.uncounted.free o c call = (s.free o c call).map uncounted := by
  have hset : s.uncounted.setBlock o .deleted = (s.setBlock o .deleted).uncounted :=
    (uncounted_setBlock s o .deleted).symm
  simp only [free, live_uncounted, hset, alive_uncounted]
  split_ifs <;> rfl

theorem attach_uncounted (hq : ∀ o ∈ q, s.live o = true) :
    RefManager.autoPtr.attach s.uncounted c q = (s.attach c q).map uncounted := by
  cases q with
  | none => rfl
  | some o =>
    obtain ⟨n, m, hb⟩ := live_iff.1 (hq o rfl)
    have hset := uncounted_setBlock { s with ptrs := s.ptrs.set c o } o (.live (n + 1) m)
    have hblock : s.uncounted.block o = (Block.live (n + 1) m).uncounted := by
      simp only [uncounted, hb, Block.uncounted]
    simp only [RefManager.attach, RefManager.acquire, Heap.attach, hb, Outcome.map, hblock]
    exact congrArg (fun s => Outcome.step (s.setCall none)) hset.symm

/-! ## One pointer to an object -/

/-- A call that makes no second pointer to an object; the pointers on its stack are those that
release. -/
structure Alone (p : Handles (Cell ι O) O) (call : Call ι O) : Prop where
  triggers : ∀ f ∈ call.stack, p.ref f.trigger = f.obj
  rest : call.rest.Spare p

/-- No object has two pointers. -/
structure Sole (s : Heap ι O) : Prop where
  injOn : Set.InjOn s.ptrs.ref s.ptrs.live
  running : ∀ call ∈ s.call, Alone s.ptrs call

theorem Sound.count_eq_one (hs : s.Sound stack) (hinj : Set.InjOn s.ptrs.ref s.ptrs.live)
    (hc : c ∈ (s.counted stack).live) (hb : s.block (s.ptrs.ref c) = .live n m) : n = 1 := by
  have hcount := hs.counts _ n m hb
  have hpos : 0 < (s.counted stack).count (s.ptrs.ref c) := Handles.count_pos hc
  have hle : (s.counted stack).count (s.ptrs.ref c) ≤ 1 :=
    Handles.count_le_one (hinj.mono fun d hd => (mem_counted.1 hd).1) _
  refine UInt32.toNat_inj.1 ?_
  rw [hcount, UInt32.toNat_one]
  omega

omit [DecidableEq ι] [DecidableEq O] in
theorem not_dying_of_unheld (h : Unheld s.ptrs o) : ¬ Dying s.ptrs c o := by
  rintro ⟨hp, hr, -, -⟩
  exact h _ hp hr

namespace Sole

omit [DecidableEq ι] in
theorem room (h : s.Sole) (c : Cell ι O) (o : O) : s.Room c o :=
  .of_count (lt_of_le_of_lt (Handles.count_le_one h.injOn o) (by decide))

/-- Careful operations are safe: there is always room for a pointer. -/
theorem safe (h : s.Sole) (ha : s.Careful a) : s.Safe a := by
  cases a with
  | step => trivial
  | op a =>
    cases a with
    | alloc | moveConstruct | destroy => trivial
    | construct i q => exact fun o _ => h.room _ o
    | copyConstruct i rhs => exact fun o _ => h.room _ o
    | copyAssign c rhs => exact fun hne => ⟨(ha hne).2.1, (ha hne).2.2, fun o _ => h.room c o⟩
    | moveAssign c rhs => exact ha
    | reset c => exact ha
    | resetTo c q =>
      exact fun hne => ⟨(ha hne).1, fun o ho => ⟨not_dying_of_unheld ((ha hne).2 o ho), h.room c o⟩⟩

end Sole

/-! ## Calls -/

theorem Alone.drop (h : Alone p call) (c : Cell ι O) : Alone (p.drop c) call where
  triggers := h.triggers
  rest := by
    have hrest := h.rest
    cases hr : call.rest with
    | copy rhs =>
      rw [hr] at hrest
      exact fun hmem => hrest (Handles.mem_live_drop.1 hmem).2
    | point q =>
      rw [hr] at hrest
      exact fun o ho d hd => hrest o ho d (Handles.mem_live_drop.1 hd).2
    | done | take rhs | leave i => trivial

omit [DecidableEq ι] [DecidableEq O] in
theorem sole_setCall (hinj : Set.InjOn s.ptrs.ref s.ptrs.live) (h : Alone s.ptrs call) :
    (s.setCall (some call)).Sole :=
  ⟨hinj, fun call' hcall => by
    obtain rfl := Option.some.inj hcall
    exact h⟩

omit [DecidableEq ι] [DecidableEq O] in
theorem sole_setCall_none (hinj : Set.InjOn s.ptrs.ref s.ptrs.live) : (s.setCall none).Sole :=
  ⟨hinj, nofun⟩

theorem mem_of_ptr (h : s.ptr c = some o) : c ∈ s.ptrs.live ∧ s.ptrs.ref c = o := by
  unfold ptr at h
  split_ifs at h with hc
  exact ⟨hc, Option.some.inj h⟩

theorem sole_tryDetach (hinj : Set.InjOn s.ptrs.ref s.ptrs.live)
    (h : Alone s.ptrs ⟨stack, target, rest⟩) : (s.tryDetach c stack target rest).Leads Sole := by
  unfold Heap.tryDetach
  split
  · trivial
  split
  · exact sole_setCall hinj h
  rename_i o ho
  split
  · rename_i n m hb
    dsimp only
    split
    · refine sole_setCall hinj ⟨fun f hf => ?_, h.rest⟩
      rcases List.mem_cons.1 hf with rfl | hf
      · exact (mem_of_ptr ho).2
      · exact h.triggers f hf
    · exact sole_setCall (Handles.injOn_drop hinj c) (h.drop c)
  · trivial

theorem sole_free (hinj : Set.InjOn s.ptrs.ref s.ptrs.live) (h : Alone s.ptrs call) :
    (s.free o c call).Leads Sole := by
  unfold Heap.free
  split
  · trivial
  dsimp only
  split
  · trivial
  · exact sole_setCall (Handles.injOn_drop hinj c) (h.drop c)

theorem sole_attach (hinj : Set.InjOn s.ptrs.ref s.ptrs.live) (hq : ∀ o ∈ q, Unheld s.ptrs o) :
    (s.attach c q).Leads Sole := by
  cases q with
  | none => exact sole_setCall_none (Handles.injOn_drop hinj c)
  | some o =>
    simp only [Heap.attach]
    split
    · exact sole_setCall_none (Handles.injOn_set hinj fun d hd _ => hq o rfl d hd)
    · trivial

theorem sole_finish (hinj : Set.InjOn s.ptrs.ref s.ptrs.live) (h : rest.Spare s.ptrs) :
    (s.finish target rest).Leads Sole := by
  cases rest with
  | done => exact sole_setCall_none hinj
  | leave i => exact sole_setCall_none hinj
  | copy rhs =>
    have hnull : s.ptr rhs = none := if_neg h
    simp only [Heap.finish, hnull]
    split
    · exact sole_attach hinj fun o ho => absurd ho (Option.not_mem_none o)
    · trivial
  | point q =>
    simp only [Heap.finish]
    split
    · exact sole_attach hinj h
    · trivial
  | take rhs =>
    simp only [Heap.finish]
    split
    · split
      · exact sole_setCall_none (Handles.injOn_drop hinj target)
      · rename_i o ho
        obtain ⟨hmem, rfl⟩ := mem_of_ptr ho
        have hdrop := Handles.injOn_drop hinj rhs
        refine sole_setCall_none (Handles.injOn_set hdrop fun d hd _ heq => ?_)
        obtain ⟨hne, hd⟩ := Handles.mem_live_drop.1 hd
        exact hne (hinj hd hmem heq)
    · trivial

omit [DecidableEq O] in
theorem sole_enter (h : s.Sole) (hrest : rest.Spare s.ptrs) : (s.enter i rest).Leads Sole := by
  unfold Heap.enter
  split
  · trivial
  · exact sole_setCall h.injOn ⟨nofun, hrest⟩

theorem sole_detach (h : s.Sole) (hrest : rest.Spare s.ptrs) :
    (s.tryDetach c [] target rest).Leads Sole :=
  sole_tryDetach h.injOn ⟨nofun, hrest⟩

theorem spare_copy (h : s.ptr c = none) : (Rest.copy c : Rest ι O).Spare s.ptrs := by
  intro hmem
  rw [ptr_of_mem hmem] at h
  cases h

/-- An assignment or reset that has something to do. -/
theorem sole_assign {x : Prop} [Decidable x] (h : s.Sole) (hrest : ¬ x → rest.Spare s.ptrs) :
    (if x then .step s else s.tryDetach c [] c rest : Outcome (Heap ι O) Fault).Leads Sole := by
  split_ifs with hx
  · exact h
  · exact sole_detach h (hrest hx)

/-- **Careful operations begin** without a second pointer. -/
theorem Sole.start (h : s.Sole) {b : Op ι O} (hb : s.Careful (.op b)) : (s.start b).Leads Sole := by
  cases b with
  | alloc o members =>
    simp only [Heap.start]
    split
    · exact ⟨h.injOn, h.running⟩
    · trivial
  | construct i q => exact .guard fun _ => sole_enter h hb
  | copyConstruct i rhs => exact .guard fun _ => sole_enter h (spare_copy hb)
  | moveConstruct i rhs => exact .guard fun _ => sole_enter h trivial
  | destroy i => exact .guard fun _ => sole_detach h trivial
  | copyAssign c rhs => exact .guard fun _ => sole_assign h fun hne => spare_copy (hb hne).1
  | moveAssign c rhs => exact .guard fun _ => sole_assign h fun _ => trivial
  | reset c => exact .guard fun _ => sole_detach h trivial
  | resetTo c q => exact .guard fun _ => sole_assign h fun hne => (hb hne).2

/-- **A call goes on** without a second pointer. -/
theorem Sole.advance (h : s.Sole) (hcall : s.call = some call) : (s.advance call).Leads Sole := by
  obtain ⟨stack, target, rest⟩ := call
  obtain ⟨htriggers, hrest⟩ := h.running _ hcall
  match stack with
  | [] => exact sole_finish h.injOn hrest
  | ⟨o, 0, c⟩ :: stack =>
    exact sole_free h.injOn ⟨fun f hf => htriggers f (List.mem_cons_of_mem _ hf), hrest⟩
  | ⟨o, j + 1, c⟩ :: stack =>
    have hframes : ∀ f ∈ (⟨o, j, c⟩ : Frame ι O) :: stack, s.ptrs.ref f.trigger = f.obj := by
      intro f hf
      rcases List.mem_cons.1 hf with rfl | hf
      · exact htriggers ⟨o, j + 1, c⟩ List.mem_cons_self
      · exact htriggers f (List.mem_cons_of_mem _ hf)
    exact sole_tryDetach h.injOn ⟨hframes, hrest⟩

theorem Sole.next (h : s.Sole) (ha : s.Careful a) : (Heap.next s a).Leads Sole := by
  cases a with
  | op b => exact .guard fun _ => h.start ha
  | step =>
    simp only [Heap.next]
    split
    · rename_i call hcall
      exact h.advance hcall
    · trivial

/-! ## Side by side -/

omit [DecidableEq O] in
theorem enter_uncounted (s : Heap ι O) (i : ι) (rest : Rest ι O) :
    s.uncounted.enter i rest = (s.enter i rest).map uncounted := by
  simp only [enter, Outcome.map_ite]
  rfl

/-- With no call in progress, a pointer is the only one to its object. -/
theorem detach_uncounted (hs : s.Sound []) (h : s.Sole) (c target : Cell ι O) (rest : Rest ι O) :
    RefManager.autoPtr.tryDetach s.uncounted c [] target rest =
      (s.tryDetach c [] target rest).map uncounted := by
  refine tryDetach_uncounted (fun n m hc hb => hs.count_eq_one h.injOn ?_ hb) [] target rest
  rwa [counted_nil]

theorem start_uncounted (hs : s.Sound []) (h : s.Sole) (b : Op ι O) :
    RefManager.autoPtr.start s.uncounted b = (s.start b).map uncounted := by
  cases b with
  | alloc o members =>
    have hset : s.uncounted.setBlock o (.live 0 members) =
        (s.setBlock o (.live 0 members)).uncounted :=
      (uncounted_setBlock s o (.live 0 members)).symm
    simp only [RefManager.start, Heap.start, hset]
    simp only [uncounted]
    cases s.block o <;> rfl
  | construct i q =>
    simp only [RefManager.start, Heap.start, valid_uncounted, enter_uncounted, Outcome.map_ite]
    rfl
  | copyConstruct i rhs | moveConstruct i rhs =>
    simp only [RefManager.start, Heap.start, alive_uncounted, enter_uncounted, Outcome.map_ite]
    rfl
  | destroy i | copyAssign c rhs | moveAssign c rhs | reset c =>
    simp only [RefManager.start, Heap.start, alive_uncounted, detach_uncounted hs h,
      Outcome.map_ite]
    rfl
  | resetTo c q =>
    simp only [RefManager.start, Heap.start, alive_uncounted, valid_uncounted,
      detach_uncounted hs h, Outcome.map_ite]
    rfl

theorem finish_uncounted (hrest : rest.Spare s.ptrs)
    (hlive : ∀ q, rest = .point q → ∀ o ∈ q, s.live o = true) :
    RefManager.autoPtr.finish s.uncounted target rest = (s.finish target rest).map uncounted := by
  cases rest with
  | done | leave i => rfl
  | copy rhs =>
    have hnull : s.ptr rhs = none := if_neg hrest
    have hnull' : s.uncounted.ptr rhs = none := if_neg hrest
    simp only [RefManager.finish, Heap.finish, alive_uncounted, hnull, hnull', Outcome.map_ite]
    rfl
  | take rhs =>
    simp only [RefManager.finish, Heap.finish, alive_uncounted, Outcome.map_ite]
    rw [show s.uncounted.ptr rhs = s.ptr rhs from rfl]
    cases s.ptr rhs <;> rfl
  | point q =>
    simp only [RefManager.finish, Heap.finish, alive_uncounted, Outcome.map_ite,
      attach_uncounted (hlive q rfl)]
    rfl

/-- **The managers take the same steps**, as long as no object has two pointers. -/
theorem next_uncounted (hi : s.Inv) (h : s.Sole) (a : Label ι O) :
    RefManager.autoPtr.next s.uncounted a = (s.next a).map uncounted := by
  rcases hi with hidle | ⟨p, call, hcall, hcascade, hready⟩
  · have hcall' : s.uncounted.call = none := hidle.call
    cases a with
    | op b =>
      simp only [RefManager.next, Heap.next, hcall', hidle.call, Option.isNone_none, if_true,
        start_uncounted hidle.sound h]
    | step =>
      simp only [RefManager.next, Heap.next, hcall', hidle.call]
      rfl
  · have hcall' : s.uncounted.call = some call := hcall
    cases a with
    | op b =>
      simp only [RefManager.next, Heap.next, hcall', hcall, Option.isNone_some,
        Bool.false_eq_true, if_false]
      rfl
    | step =>
      simp only [RefManager.next, Heap.next, hcall', hcall]
      obtain ⟨-, hrest⟩ := h.running call hcall
      obtain ⟨stack, target, rest⟩ := call
      rcases stack with _ | ⟨⟨o, _ | j, c⟩, stack⟩
      · refine finish_uncounted hrest fun q hq o ho => ?_
        obtain rfl : rest = .point q := hq
        exact (hready o ho).1
      · exact free_uncounted s o c _
      · refine tryDetach_uncounted (fun n m hc hb => ?_) _ target rest
        -- A pointer on the stack is no member of the object on top.
        have hne : ∀ f ∈ (⟨o, j + 1, c⟩ : Frame ι O) :: stack, f.trigger ≠ .member o j :=
          fun f hf heq => hcascade.owner_ne rfl hf (congrArg Cell.owner heq)
        exact hcascade.sound.count_eq_one h.injOn (mem_counted.2 ⟨hc, hne⟩) hb

/-! ## Runs -/

/-- No pointer refers to an object that is gone, even while others are being deleted. -/
theorem Sole.live_ref (h : s.Sole) (hi : s.Inv) (hc : c ∈ s.ptrs.live) :
    s.live (s.ptrs.ref c) = true := by
  rcases hi with hidle | ⟨p, call, hcall, hcascade, -⟩
  · exact (sound_nil_iff.1 hidle.sound).2.2.1 c hc
  · by_cases hcounted : c ∈ (s.counted call.stack).live
    · exact hcascade.sound.live c hcounted
    · obtain ⟨f, hf, rfl⟩ : ∃ f ∈ call.stack, f.trigger = c := by
        by_contra hnone
        exact hcounted (mem_counted.2 ⟨hc, fun f hf heq => hnone ⟨f, hf, heq⟩⟩)
      obtain ⟨m, hb, -⟩ := hcascade.sound.frames f hf
      rw [(h.running call hcall).triggers f hf]
      exact live_iff.2 ⟨0, m, hb⟩

/-- Being careful has nothing to do with counts. -/
theorem careful_uncounted : s.uncounted.Careful a ↔ s.Careful a := by
  cases a with
  | step => exact Iff.rfl
  | op b => cases b <;> exact Iff.rfl

omit [DecidableEq ι] [DecidableEq O] in
theorem init_sole (o₀ : O) : (init o₀ : Heap ι O).Sole :=
  ⟨fun c hc => absurd hc (Finset.notMem_empty c), nofun⟩

/-- Next to every careful run there is one with counts. -/
theorem exists_counted {t : Heap ι O} (h : (RefManager.autoPtr.machine ι o₀).ReachIf Careful t) :
    ∃ s : Heap ι O, t = s.uncounted ∧ s.Inv ∧ s.Sole := by
  have hstep : ∀ (s : Heap ι O) (a : Label ι O), s.Inv ∧ s.Sole → s.uncounted.Careful a →
      RefManager.autoPtr.next s.uncounted a = (next s a).map uncounted ∧ s.Safe a ∧
        (next s a).Leads fun s => s.Inv ∧ s.Sole := by
    rintro s a ⟨hi, h⟩ ha
    have hcareful := careful_uncounted.1 ha
    have hsafe := h.safe hcareful
    exact ⟨next_uncounted hi h a, hsafe, (hi.next hsafe).leads.and (h.next hcareful)⟩
  obtain ⟨s, rfl, -, hs⟩ := Machine.ReachIf.lift (M := machine ι o₀)
    (N := RefManager.autoPtr.machine ι o₀) (f := uncounted) rfl
    ⟨.inl (init_idle o₀), init_sole o₀⟩ hstep h
  exact ⟨s, rfl, hs⟩

/-- **Objects are deleted once**, and no pointer refers to one that is. -/
theorem deletes_once {t : Heap ι O} (h : (RefManager.autoPtr.machine ι o₀).ReachIf Careful t) :
    (∀ a, t.Careful a → ∀ e, RefManager.autoPtr.next t a ≠ .fault e) ∧ (∀ o, t.drops o ≤ 1) ∧
    (∀ c o, t.ptr c = some o → t.live o = true) ∧
    ∃ n t', (RefManager.autoPtr.machine ι o₀).run t (List.replicate n .step) = some t' ∧
      t'.call = none := by
  obtain ⟨s, rfl, hi, hsole⟩ := exists_counted h
  refine ⟨fun a ha e hfault => ?_, hi.drops_le_one, fun c o ho => ?_, ?_⟩
  · rw [next_uncounted hi hsole] at hfault
    cases hs : next s a with
    | blocked =>
      rw [hs] at hfault
      cases hfault
    | step s' =>
      rw [hs] at hfault
      cases hfault
    | fault e' => exact (hi.next (hsole.safe (careful_uncounted.1 ha))).ne_fault e' hs
  · obtain ⟨hc, rfl⟩ := mem_of_ptr ho
    rw [live_uncounted]
    exact hsole.live_ref hi hc
  · obtain ⟨n, s', hrun, hcall⟩ : ∃ n s', (machine ι o₀).run s (List.replicate n .step) =
        some s' ∧ s'.call = none := hi.finishes
    refine ⟨n, s'.uncounted, ?_, hcall⟩
    refine Machine.run_lift (I := fun s => s.Inv ∧ s.Sole) (fun s a ha hs => ?_) ⟨hi, hsole⟩ hrun
    obtain rfl := List.eq_of_mem_replicate ha
    have hnext := hs.1.next (a := .step) trivial
    exact ⟨next_uncounted hs.1 hs.2 .step, hnext.leads.and (hs.2.next (a := .step) trivial)⟩

/-! ## Roots -/

/-- Operations that are careful on the face of it: their targets are roots or null. -/
def owning (s : Heap ι O) : Label ι O → Bool
  | .op (.construct _ q) => q.all fun o => s.ptrs.count o = 0
  | .op (.copyConstruct _ rhs) => (s.ptr rhs).isNone
  | .op (.copyAssign c rhs) => c.owner.isNone && rhs.owner.isNone && (s.ptr rhs).isNone
  | .op (.moveAssign c rhs) => c.owner.isNone && rhs.owner.isNone
  | .op (.reset c) => c.owner.isNone
  | .op (.resetTo c q) => (s.ptr c).isNone && q.all fun o => s.ptrs.count o = 0
  | .op (.alloc _ _) | .op (.moveConstruct _ _) | .op (.destroy _) | .step => true

omit [DecidableEq ι] in
theorem unheld_of_all (h : (q.all fun o => s.ptrs.count o = 0) = true) :
    ∀ o ∈ q, Unheld s.ptrs o := by
  intro o ho
  subst ho
  exact Handles.count_eq_zero.1 (by simpa using h)

theorem careful_of_owning (h : s.owning a = true) : s.Careful a := by
  cases a with
  | step => trivial
  | op b =>
    cases b with
    | alloc | moveConstruct | destroy => trivial
    | construct i q => exact unheld_of_all h
    | copyConstruct i rhs => exact Option.isNone_iff_eq_none.1 h
    | copyAssign c rhs =>
      simp only [owning, Bool.and_eq_true, Option.isNone_iff_eq_none] at h
      exact fun _ => ⟨h.2, .of_root h.1.1, .of_root h.1.2⟩
    | moveAssign c rhs =>
      simp only [owning, Bool.and_eq_true, Option.isNone_iff_eq_none] at h
      exact fun _ => ⟨.of_root h.1, .of_root h.2⟩
    | reset c => exact .of_root (Option.isNone_iff_eq_none.1 h)
    | resetTo c q =>
      simp only [owning, Bool.and_eq_true, Option.isNone_iff_eq_none] at h
      exact fun _ => ⟨.of_null h.1, unheld_of_all h.2⟩

/-- A list of two objects is handed over to another root and then deleted. -/
def handOver (i j : ι) : List (Label ι ℕ) :=
  [.op (.alloc 0 1), .op (.alloc 1 0), .op (.construct i (some 0)), .step,
    .op (.resetTo (.member 0 0) (some 1)), .step, .op (.moveConstruct j (.root i)), .step,
    .op (.reset (.root j)), .step, .step, .step, .step]

theorem handOver_deletes : ∃ t, (RefManager.autoPtr.machine (Fin 2) 0).ReachIf Careful t ∧
    t.block 0 = .deleted ∧ t.block 1 = .deleted ∧ (∀ o, t.drops o ≤ 1) ∧
    ∀ c o, t.ptr c = some o → t.live o = true := by
  have hrun : ∃ t, (RefManager.autoPtr.machine (Fin 2) 0).runIf owning (init 0)
      (handOver 0 1) = some t ∧ t.block 0 = .deleted ∧ t.block 1 = .deleted := ⟨_, rfl, rfl, rfl⟩
  obtain ⟨t, ht, h0, h1⟩ := hrun
  have hreach := Machine.reachIf_of_runIf (fun _ _ hb => careful_of_owning hb) .init ht
  obtain ⟨-, hdrops, hlive, -⟩ := deletes_once hreach
  exact ⟨t, hreach, h0, h1, hdrops, hlive⟩

/-! ## The defect -/

/-- A pointer is copied, and the first one goes. -/
def copied (i j : ι) : List (Label ι ℕ) :=
  [.op (.alloc 0 0), .op (.construct i (some 0)), .step, .op (.copyConstruct j (.root i)), .step,
    .op (.destroy i), .step, .step]

/-- **The copy** refers to a deleted object, which it deletes again. -/
theorem copied_deletes_twice : ∃ t, (RefManager.autoPtr.machine (Fin 2) 0).Reach t ∧
    t.ptr (.root 1) = some 0 ∧ t.block 0 = .deleted ∧
      RefManager.autoPtr.next t (.op (.destroy 1)) = .fault .deadObject := by
  have hrun : ∃ t, (RefManager.autoPtr.machine (Fin 2) 0).run (init 0) (copied 0 1) = some t ∧
      t.ptr (.root 1) = some 0 ∧ t.block 0 = .deleted ∧
      RefManager.autoPtr.next t (.op (.destroy 1)) = .fault .deadObject := ⟨_, rfl, rfl, rfl, rfl⟩
  obtain ⟨t, ht, hfault⟩ := hrun
  exact ⟨t, Machine.reach_of_run .init ht, hfault⟩

/-- **Of two pointers** to an object with no pointers of its own, the one that stays refers to
nothing. -/
theorem shared_dangles {t : Heap ι O} {i j : ι} (hij : i ≠ j) (hcall : t.call = none)
    (hi : i ∈ t.roots) (hpi : t.ptr (.root i) = some o) (hpj : t.ptr (.root j) = some o)
    (hb : t.block o = .live n 0) :
    ∃ t', (RefManager.autoPtr.machine ι o₀).run t [.op (.destroy i), .step, .step] = some t' ∧
      t'.ptr (.root j) = some o ∧ t'.block o = .deleted := by
  have halive : t.alive (.root i) = true := root_alive.2 hi
  let t₁ : Heap ι O := { t.setBlock o (.live n 0) with
    drops := Function.update t.drops o (t.drops o + 1)
    call := some ⟨[⟨o, 0, .root i⟩], .root i, .leave i⟩ }
  let t₂ : Heap ι O :=
    ((t₁.setBlock o .deleted).null (.root i)).setCall (some ⟨[], .root i, .leave i⟩)
  let t₃ : Heap ι O := { t₂ with roots := t₂.roots.erase i, call := none }
  have h₁ : (RefManager.autoPtr.machine ι o₀).next t (.op (.destroy i)) = .step t₁ := by
    simp only [RefManager.machine, RefManager.next, hcall, Option.isNone_none, if_true,
      RefManager.start, hi, RefManager.tryDetach, halive, Bool.not_true, Bool.false_eq_true,
      if_false, hpi, hb]
    rfl
  have h₂ : (RefManager.autoPtr.machine ι o₀).next t₁ .step = .step t₂ := by
    have hlive : t₁.live o = true := live_iff.2 ⟨n, 0, Function.update_self ..⟩
    have halive₁ : (t₁.setBlock o .deleted).alive (.root i) = true := halive
    show t₁.free o (.root i) ⟨[], .root i, .leave i⟩ = .step t₂
    simp only [free, hlive, halive₁, Bool.not_true, Bool.false_eq_true, if_false]
    rfl
  refine ⟨t₃, (Machine.run_cons h₁ _).trans ((Machine.run_cons h₂ _).trans rfl), ?_, ?_⟩
  · obtain ⟨hmem, href⟩ := mem_of_ptr hpj
    have hmem₃ : Cell.root j ∈ t₃.ptrs.live :=
      Handles.mem_live_drop.2 ⟨fun heq => hij (Cell.root.inj heq).symm, hmem⟩
    rw [ptr_of_mem hmem₃]
    exact congrArg some href
  · exact Function.update_self ..

end Heap

end SseExt.SmartPointer
