import SseExt.Lib.Trace
import SseExt.Tasks.Delivery

/-!
# `ITaskPool`: tasks for actors

`QueueActorTask` queues a function for an actor, with the actor's handle. `ProcessTasks` calls it
later, maybe on another thread, and in between the game may have unloaded or deleted the actor. So
the reference is checked when the function is queued, and what the handle stands for when it is run.

**The game** is a parameter, and it may be another one before every step (`Label.game`): what
references are like, which handle an actor has, and what a handle stands for. The pool has no way to
clear its queue, and only `QueueActorTask` queues an `ActorTaskDispatcher`.

**Theorem (`actor_tasks`).** What is requested and what is called in any run of a pool is what
happens at an ideal desk (`Desk`). It takes the requests that pass the check, and ends each of them
once: by a call with the actor that the handle stands for, if that is an actor that can be used at
this moment, else by discarding it. Requests that are neither called nor discarded are in the queue
or on their way to or from it, so none is lost.

The tasks of a queue that are still to be run change only when a call of `AddTask` begins and when a
`Run` begins (`unrun_next`). This is where it matters that nobody clears the queue.
-/

namespace SseExt

/-! ## Tasks that are still to be run -/

namespace TaskQueue

variable {ι τ : Type*}

/-- The tasks that a call has in hand and that are still to be run. -/
def Frame.unrun : Frame τ → List τ
  | addLock task | addEmplace task => [task]
  | procUnlock _ task | procRun _ task => [task.1]
  | _ => []

/-- The frame is in a call of `ClearTasks`. -/
def Frame.clears : Frame τ → Bool
  | clearLock | clearEmpty | clearFront | clearDispose _ | clearDisposing _ | clearUnlock => true
  | _ => false

/-- What the calls of one thread are still to run. -/
def unrunOf (stack : List (Frame τ)) : Multiset τ := ↑(stack.flatMap Frame.unrun)

@[simp] theorem unrunOf_cons (frame : Frame τ) (rest : List (Frame τ)) :
    unrunOf (frame :: rest) = ↑frame.unrun + unrunOf rest := rfl

def queued (s : TaskQueue ι τ) : Multiset τ := ↑(s.queue.map Prod.fst)

/-- The tasks that are still to be run. -/
def unrun [Fintype ι] (s : TaskQueue ι τ) : Multiset τ := s.queued + ∑ t, unrunOf (s.stack t)

/-- The task whose `AddTask` begins. -/
def entered : Label ι τ → Multiset τ
  | .call _ (.addTask task) => {task}
  | _ => 0

/-- The task whose `Run` begins. -/
def started (s : TaskQueue ι τ) : Label ι τ → Option τ
  | .step t =>
    match s.stack t with
    | .procRun _ task :: _ => some task.1
    | _ => none
  | _ => none

/-- No call of `ClearTasks` is under way. -/
def NoClear (s : TaskQueue ι τ) : Prop := ∀ t, ∀ frame ∈ s.stack t, frame.clears = false

/-- What a step of a thread does to the tasks that are still to be run, and to its stack. -/
structure Accounts [DecidableEq ι] (s : TaskQueue ι τ) (t : ι) (started : Option τ)
    (entered : Multiset τ) (s' : TaskQueue ι τ) : Prop where
  stack : ∃ frames, s'.stack = Function.update s.stack t frames ∧
    (∀ frame ∈ frames, frame ∉ s.stack t → frame.clears = false) ∧
    s'.queued + started.elim 0 singleton + unrunOf frames =
      s.queued + entered + unrunOf (s.stack t)

namespace Accounts

variable [DecidableEq ι] {s s' : TaskQueue ι τ} {t : ι} {frame frame' : Frame τ}
  {rest frames : List (Frame τ)}

/-- The innermost call goes on, and neither gets nor gives away a task. -/
theorem move (hstack : s.stack t = frame :: rest)
    (hs : s'.stack = Function.update s.stack t (frame' :: rest)) (hqueue : s'.queue = s.queue)
    (hunrun : frame'.unrun = frame.unrun) (hclear : frame'.clears = false) :
    Accounts s t none 0 s' := by
  refine ⟨⟨_, hs, fun g hg hnew => ?_, ?_⟩⟩
  · rcases List.mem_cons.1 hg with rfl | hg
    · exact hclear
    · exact absurd (hstack ▸ List.mem_cons_of_mem frame hg) hnew
  · rw [queued, queued, hqueue, hstack, unrunOf_cons, unrunOf_cons, hunrun]
    rfl

/-- The innermost call returns. -/
theorem leave (hstack : s.stack t = frame :: rest)
    (hs : s'.stack = Function.update s.stack t rest) (hqueue : s'.queue = s.queue)
    (hunrun : frame.unrun = []) : Accounts s t none 0 s' := by
  refine ⟨⟨_, hs, fun g hg hnew => ?_, ?_⟩⟩
  · exact absurd (hstack ▸ List.mem_cons_of_mem frame hg) hnew
  · rw [queued, queued, hqueue, hstack, unrunOf_cons, hunrun]
    simp

theorem acquire (hstack : s.stack t = frame :: rest) (hunrun : frame'.unrun = frame.unrun)
    (hclear : frame'.clears = false) :
    (s.acquire t (frame' :: rest)).Leads (Accounts s t none 0) := by
  unfold TaskQueue.acquire
  split_ifs
  · exact move hstack rfl rfl hunrun hclear
  · trivial

/-- `ProcessTasks` gets the front of the queue. -/
theorem take (hstack : s.stack t = frame :: rest) (hunrun : frame.unrun = []) (budget : Bool) :
    (s.take t .processTasks (.procUnlock budget) rest).Leads (Accounts s t none 0) := by
  unfold TaskQueue.take
  cases hqueue : s.queue with
  | nil => trivial
  | cons task queue =>
    refine ⟨⟨_, rfl, fun g hg hnew => ?_, ?_⟩⟩
    · rcases List.mem_cons.1 hg with rfl | hg
      · rfl
      · exact absurd (hstack ▸ List.mem_cons_of_mem frame hg) hnew
    · rw [queued, queued, hqueue, hstack, unrunOf_cons, unrunOf_cons, hunrun, List.map_cons,
        ← Multiset.cons_coe, ← Multiset.singleton_add]
      simp only [Frame.unrun, Option.elim_none, Multiset.coe_nil, Multiset.coe_singleton]
      abel

/-- The new task goes to the end of the queue. -/
theorem emplace {task : τ} (hstack : s.stack t = .addEmplace task :: rest) :
    Accounts s t none 0 (s.emplace t task (.addUnlock :: rest)) := by
  refine ⟨⟨_, rfl, fun g hg hnew => ?_, ?_⟩⟩
  · rcases List.mem_cons.1 hg with rfl | hg
    · rfl
    · exact absurd (hstack ▸ List.mem_cons_of_mem _ hg) hnew
  · rw [queued, queued, hstack, unrunOf_cons, unrunOf_cons]
    simp only [TaskQueue.emplace, Frame.unrun, List.map_append, List.map_cons, List.map_nil,
      ← Multiset.coe_add, Option.elim_none, Multiset.coe_nil, Multiset.coe_singleton]
    abel

/-- `Run` begins. -/
theorem run {budget : Bool} {task : Ticket τ} (hstack : s.stack t = .procRun budget task :: rest)
    (event : Event) : Accounts s t (some task.1) 0
      ((s.goto t (.procRunning budget task :: rest)).record task.2 event) := by
  refine ⟨⟨_, rfl, fun g hg hnew => ?_, ?_⟩⟩
  · rcases List.mem_cons.1 hg with rfl | hg
    · rfl
    · exact absurd (hstack ▸ List.mem_cons_of_mem _ hg) hnew
  · rw [queued, queued, hstack, unrunOf_cons, unrunOf_cons]
    simp only [TaskQueue.goto, TaskQueue.record, Frame.unrun, Option.elim_some, Multiset.coe_nil,
      Multiset.coe_singleton]
    abel

/-- A call begins. -/
theorem enter (op : Op τ) (hop : op.enter.clears = false) :
    Accounts s t none (entered (.call t op)) (s.goto t (op.enter :: s.stack t)) := by
  refine ⟨⟨_, rfl, fun g hg hnew => ?_, ?_⟩⟩
  · rcases List.mem_cons.1 hg with rfl | hg
    · exact hop
    · exact absurd hg hnew
  · rw [unrunOf_cons, queued, queued]
    cases op with
    | addTask task =>
      simp only [TaskQueue.goto, entered, Op.enter, Frame.unrun, Option.elim_none,
        Multiset.coe_singleton]
      abel
    | _ => simp [TaskQueue.goto, entered, Op.enter, Frame.unrun]

end Accounts

/-- **What a step does**, as long as nobody clears the queue. -/
theorem next_accounts [DecidableEq ι] {s : TaskQueue ι τ} {a : Label ι τ}
    (hclear : ∀ frame ∈ s.stack a.thread, frame.clears = false)
    (ha : ∀ t, a ≠ .call t .clearTasks) :
    (next s a).Leads (Accounts s a.thread (started s a) (entered a)) := by
  cases a with
  | call t op =>
    simp only [next]
    split_ifs
    · cases op with
      | clearTasks => exact absurd rfl (ha t)
      | _ => exact .enter _ rfl
    · trivial
  | ret t =>
    simp only [next, Label.thread]
    cases hstack : s.stack t with
    | nil => trivial
    | cons frame rest =>
      have hframe := hclear frame (by rw [Label.thread, hstack]; exact List.mem_cons_self)
      cases frame with
      | procRunning => exact Accounts.move hstack rfl rfl rfl rfl
      | procDisposing budget =>
        cases budget with
        | false | true => exact Accounts.move hstack rfl rfl rfl rfl
      | clearDisposing => cases hframe
      | _ => trivial
  | budget t exceeded =>
    simp only [next, Label.thread]
    cases hstack : s.stack t with
    | nil => trivial
    | cons frame rest =>
      cases frame with
      | procBudget =>
        cases exceeded with
        | false => exact Accounts.move hstack rfl rfl rfl rfl
        | true => exact Accounts.leave hstack rfl rfl rfl
      | _ => trivial
  | step t =>
    simp only [next, Label.thread]
    cases hstack : s.stack t with
    | nil => trivial
    | cons frame rest =>
      have hframe := hclear frame (by rw [Label.thread, hstack]; exact List.mem_cons_self)
      simp only [started, hstack]
      cases frame with
      | addLock | procLock => exact Accounts.acquire hstack rfl rfl
      | addEmplace => exact Accounts.emplace hstack
      | procFront => exact Accounts.take hstack rfl _
      | procRun => exact Accounts.run hstack _
      | addUnlock | procBreak => exact Accounts.leave hstack rfl rfl rfl
      | procUnlock | procDispose => exact Accounts.move hstack rfl rfl rfl rfl
      | procEmpty =>
        refine Accounts.move hstack rfl rfl ?_ ?_
        · split_ifs <;> rfl
        · split_ifs <;> rfl
      | procRunning | procDisposing | procBudget => trivial
      | clearLock | clearEmpty | clearFront | clearDispose | clearDisposing | clearUnlock =>
        cases hframe

section

variable [DecidableEq ι] {s s' : TaskQueue ι τ} {a : Label ι τ}

omit [DecidableEq ι] in
theorem noClear_init : NoClear (init : TaskQueue ι τ) := fun _ _ hframe => nomatch hframe

/-- No call of `ClearTasks` comes about. -/
theorem NoClear.next (h : NoClear s) (ha : ∀ t, a ≠ .call t .clearTasks)
    (hnext : TaskQueue.next s a = .step s') : NoClear s' := by
  have hleads := next_accounts (h a.thread) ha
  rw [hnext] at hleads
  obtain ⟨frames, hstack, hnew, -⟩ := hleads.stack
  intro u frame hframe
  rw [hstack] at hframe
  by_cases hu : u = a.thread
  · subst hu
    rw [Function.update_self] at hframe
    by_cases hold : frame ∈ s.stack a.thread
    · exact h _ frame hold
    · exact hnew frame hframe hold
  · rw [Function.update_of_ne hu] at hframe
    exact h u frame hframe

/-- **What is still to be run** is what was before, with the task whose `AddTask` begins, and
without the one whose `Run` begins. -/
theorem unrun_next [Fintype ι] (h : NoClear s) (ha : ∀ t, a ≠ .call t .clearTasks)
    (hnext : TaskQueue.next s a = .step s') :
    s'.unrun + (started s a).elim 0 singleton = s.unrun + entered a := by
  have hleads := next_accounts (h a.thread) ha
  rw [hnext] at hleads
  obtain ⟨frames, hstack, -, hbalance⟩ := hleads.stack
  have hsum := add_sum_update unrunOf (Finset.mem_univ a.thread) hbalance
  rw [unrun, unrun, hstack, add_right_comm, hsum, add_right_comm]

end

end TaskQueue

/-! ## The game and the pool -/

/-- What `IsREFRValid` reads of a reference. -/
structure TESObjectREFR where
  formID : UInt32
  /-- `loadedState` is not null. -/
  loadedState : Bool
  isDeleted : Bool
  isActor : Bool

/-- The game, as far as the pool asks it. -/
structure Game (P : Type*) where
  refr : P → TESObjectREFR
  /-- `As<Actor>()` -/
  asActor : P → Option P
  getHandle : P → UInt32
  /-- `BSPointerHandleInterface<Actor>::Lookup` -/
  lookup : UInt32 → Option P
  invalidHandle : UInt32

/-- The argument of the two `QueueActorTask`; a pointer may be null. -/
inductive Request (P : Type*) where
  | actor (a_actor : Option P)
  | handle (a_handle : UInt32)

namespace Game

variable {P : Type*} (g : Game P)

def isREFRValid : Option P → Bool
  | none => false
  | some a_refr =>
    let r := g.refr a_refr
    if r.formID = 0 || !r.loadedState || r.isDeleted || !r.isActor then false else true

/-- `BSPointerHandle::IsValid` -/
def isValid (handle : UInt32) : Bool := handle != g.invalidHandle

/-- `QueueActorTask(TESObjectREFR*, func_t)`: the handle that is queued with the function. -/
def queueActorTaskRefr (a_actor : Option P) : Option UInt32 :=
  if !g.isREFRValid a_actor then none
  else
    match a_actor.bind g.asActor with
    | none => none
    | some actor =>
      let handle := g.getHandle actor
      if handle = 0 || !g.isValid handle then none else some handle

/-- `QueueActorTask(Game::ActorHandle, func_t)` -/
def queueActorTaskHandle (a_handle : UInt32) : Option UInt32 :=
  if a_handle = 0 || !g.isValid a_handle then none else some a_handle

def queueActorTask : Request P → Option UInt32
  | .actor a_actor => g.queueActorTaskRefr a_actor
  | .handle a_handle => g.queueActorTaskHandle a_handle

/-- `ActorTaskDispatcher::Run`: the actor that `m_func` is called with. -/
def run (m_handle : UInt32) : Option P :=
  match g.lookup m_handle with
  | none => none
  | some actor => if !g.isREFRValid (some actor) then none else some actor

end Game

/-- A task of `m_queue`. -/
inductive Task (F D : Type*) where
  /-- `ActorTaskDispatcher` -/
  | dispatcher (m_handle : UInt32) (m_func : F)
  | other (task : D)

/-- The handle and the function of a dispatcher. -/
def Task.dispatched {F D : Type*} : Task F D → Option (UInt32 × F)
  | dispatcher m_handle m_func => some (m_handle, m_func)
  | other _ => none

/-- `m_queue` of the pool, the game, and the functions called so far. -/
structure ActorTasks (ι P F D : Type*) where
  queue : TaskQueue ι (Task F D)
  game : Game P
  calls : List (F × P × UInt32)

namespace ActorTasks

inductive Label (ι P F D : Type*) where
  /-- Thread `t` calls `QueueActorTask`. -/
  | request (t : ι) (r : Request P) (func : F)
  | queue (a : TaskQueue.Label ι (Task F D))
  | game (g : Game P)

variable {ι P F D : Type*}

/-- What else can be done with the queue. -/
def offers : TaskQueue.Label ι (Task F D) → Bool
  | .call _ (.addTask (.dispatcher _ _)) | .call _ .clearTasks => false
  | _ => true

/-- The dispatcher whose `Run` begins. -/
def running (s : ActorTasks ι P F D) (a : TaskQueue.Label ι (Task F D)) : Option (UInt32 × F) :=
  (TaskQueue.started s.queue a).bind Task.dispatched

/-- `m_func(actor, m_handle)`, when it is called in a step. -/
def called (s : ActorTasks ι P F D) (a : TaskQueue.Label ι (Task F D)) :
    Option (F × P × UInt32) :=
  (s.running a).bind fun (handle, func) =>
    (s.game.run handle).map fun actor => (func, actor, handle)

variable [DecidableEq ι]

def next (s : ActorTasks ι P F D) : Label ι P F D → Outcome (ActorTasks ι P F D) TaskQueue.Fault
  | .request t r func =>
    match s.game.queueActorTask r with
    | none => if TaskQueue.mayCall (s.queue.stack t) then .step s else .blocked
    | some handle =>
      (s.queue.next (.call t (.addTask (.dispatcher handle func)))).map fun queue =>
        { s with queue }
  | .queue a =>
    if offers a then
      (s.queue.next a).map fun queue =>
        { s with
          queue
          calls := s.calls ++ (s.called a).toList }
    else .blocked
  | .game g => .step { s with game := g }

variable (ι F D) in
def machine (g : Game P) : Machine (ActorTasks ι P F D) (Label ι P F D) TaskQueue.Fault :=
  ⟨⟨.init, g, []⟩, next⟩

end ActorTasks

/-! ## The desk -/

namespace Game

variable {P : Type*}

/-- An actor that functions may be called with. -/
structure Usable (g : Game P) (actor : P) : Prop where
  formID : (g.refr actor).formID ≠ 0
  loaded : (g.refr actor).loadedState = true
  present : (g.refr actor).isDeleted = false
  isActor : (g.refr actor).isActor = true

/-- The handle stands for an actor that can be used. -/
def Reaches (g : Game P) (handle : UInt32) (actor : P) : Prop :=
  g.lookup handle = some actor ∧ g.Usable actor

/-- A handle that is one. -/
def Proper (g : Game P) (handle : UInt32) : Prop := handle ≠ 0 ∧ handle ≠ g.invalidHandle

/-- A request for `handle`. -/
def Admits (g : Game P) : Request P → UInt32 → Prop
  | .actor a_actor, handle => ∃ refr actor, a_actor = some refr ∧ g.Usable refr ∧
      g.asActor refr = some actor ∧ g.getHandle actor = handle ∧ g.Proper handle
  | .handle a_handle, handle => a_handle = handle ∧ g.Proper handle

/-- The handle for which the request is to be taken, if it is. -/
def Answers (g : Game P) (r : Request P) (answer : Option UInt32) : Prop :=
  ∀ handle, answer = some handle ↔ g.Admits r handle

end Game

/-- Requests that wait for their end, and the calls made so far. -/
structure Desk (P F : Type*) where
  pending : Multiset (UInt32 × F)
  game : Game P
  calls : List (F × P × UInt32)

namespace Desk

inductive Label (P F : Type*) where
  | request (r : Request P) (func : F) (answer : Option UInt32)
  | call (handle : UInt32) (func : F) (actor : P)
  | discard (handle : UInt32) (func : F)
  | game (g : Game P)

variable {P F : Type*}

open Classical in
noncomputable def next (d : Desk P F) : Label P F → Outcome (Desk P F) Empty
  | .request r func answer =>
    if d.game.Answers r answer then
      .step { d with pending := d.pending + (answer.elim 0 fun handle => {(handle, func)}) }
    else .blocked
  | .call handle func actor =>
    if (handle, func) ∈ d.pending ∧ d.game.Reaches handle actor then
      .step
        { d with
          pending := d.pending.erase (handle, func)
          calls := d.calls ++ [(func, actor, handle)] }
    else .blocked
  | .discard handle func =>
    if (handle, func) ∈ d.pending ∧ ¬ ∃ actor, d.game.Reaches handle actor then
      .step { d with pending := d.pending.erase (handle, func) }
    else .blocked
  | .game g => .step { d with game := g }

variable (F) in
noncomputable def machine (g : Game P) : Machine (Desk P F) (Label P F) Empty := ⟨⟨0, g, []⟩, next⟩

/-- What a label adds to the requests taken. -/
def Label.taken : Label P F → Multiset (UInt32 × F)
  | request _ func (some handle) => {(handle, func)}
  | _ => 0

/-- What a label adds to the requests ended. -/
def Label.ended : Label P F → Multiset (UInt32 × F)
  | call handle func _ | discard handle func => {(handle, func)}
  | _ => 0

def taken : List (Label P F) → Multiset (UInt32 × F)
  | [] => 0
  | b :: bs => b.taken + taken bs

def ended : List (Label P F) → Multiset (UInt32 × F)
  | [] => 0
  | b :: bs => b.ended + ended bs

open Classical in
theorem erase_add {s : Multiset (UInt32 × F)} {x : UInt32 × F} (hx : x ∈ s) :
    s.erase x + {x} = s := by
  rw [add_comm, Multiset.singleton_add, Multiset.cons_erase hx]

theorem next_conserved {d d' : Desk P F} {b : Label P F} (h : d.next b = .step d') :
    d'.pending + b.ended = d.pending + b.taken := by
  cases b with
  | request r func answer =>
    simp only [next] at h
    split_ifs at h
    cases h
    cases answer <;> simp [Label.taken, Label.ended]
  | call handle func actor =>
    simp only [next] at h
    split_ifs at h with hcall
    cases h
    exact (erase_add hcall.1).trans (add_zero _).symm
  | discard handle func =>
    simp only [next] at h
    split_ifs at h with hdiscard
    cases h
    exact (erase_add hdiscard.1).trans (add_zero _).symm
  | game g =>
    cases h
    rfl

/-- **Each request that is taken ends once or is pending.** -/
theorem run_conserved {g : Game P} {bs : List (Label P F)} {d d' : Desk P F}
    (h : (machine F g).run d bs = some d') :
    d'.pending + ended bs = d.pending + taken bs := by
  induction bs generalizing d with
  | nil =>
    cases h
    rfl
  | cons b bs ih =>
    obtain ⟨d₁, hnext, -, hrest⟩ := Machine.of_runIf_cons h
    calc d'.pending + (b.ended + ended bs)
        = d'.pending + ended bs + b.ended := by abel
      _ = d₁.pending + b.ended + taken bs := by rw [ih hrest, add_right_comm]
      _ = d.pending + (b.taken + taken bs) := by rw [next_conserved hnext, add_assoc]

end Desk

/-! ## The pool is a desk -/

namespace Game

variable {P : Type*} {g : Game P}

theorem isREFRValid_iff {actor : P} : g.isREFRValid (some actor) = true ↔ g.Usable actor := by
  simp only [isREFRValid]
  constructor
  · intro h
    split_ifs at h with hbad
    simp only [Bool.or_eq_true, decide_eq_true_eq, Bool.not_eq_true', not_or] at hbad
    obtain ⟨⟨⟨hformID, hloaded⟩, hdeleted⟩, hactor⟩ := hbad
    exact ⟨hformID, by simpa using hloaded, by simpa using hdeleted, by simpa using hactor⟩
  · intro h
    simp [h.formID, h.loaded, h.present, h.isActor]

theorem run_eq_some_iff {handle : UInt32} {actor : P} :
    g.run handle = some actor ↔ g.Reaches handle actor := by
  rw [run, Reaches]
  cases g.lookup handle with
  | none => simp
  | some actor' =>
    by_cases hvalid : g.isREFRValid (some actor') = true
    · have husable := isREFRValid_iff.1 hvalid
      simp only [hvalid, Bool.not_true, Bool.false_eq_true, if_false, Option.some.injEq]
      exact ⟨fun h => ⟨h, h ▸ husable⟩, fun h => h.1⟩
    · simp only [hvalid, Bool.not_false, if_true, reduceCtorEq, false_iff, Option.some.injEq]
      rintro ⟨rfl, husable⟩
      exact hvalid (isREFRValid_iff.2 husable)

/-- The check of the handle, which both functions make. -/
theorem proper_iff {h handle : UInt32} :
    (if h = 0 || !g.isValid h then none else some h) = some handle ↔
      h = handle ∧ g.Proper handle := by
  split_ifs with hbad
  · simp only [false_iff]
    rintro ⟨rfl, hzero, hinvalid⟩
    simp [isValid, hzero, hinvalid] at hbad
  · simp only [Option.some.injEq]
    refine ⟨?_, fun h => h.1⟩
    intro heq
    subst heq
    simp only [isValid, Bool.or_eq_true, decide_eq_true_eq, Bool.not_eq_true', bne_eq_false_iff_eq,
      not_or] at hbad
    exact ⟨rfl, hbad⟩

theorem queueActorTaskRefr_eq_some_iff {a_actor : Option P} {handle : UInt32} :
    g.queueActorTaskRefr a_actor = some handle ↔ g.Admits (.actor a_actor) handle := by
  unfold queueActorTaskRefr Admits
  cases a_actor with
  | none => simp [isREFRValid]
  | some refr =>
    by_cases hvalid : g.isREFRValid (some refr) = true
    · have husable := isREFRValid_iff.1 hvalid
      simp only [hvalid, Bool.not_true, Bool.false_eq_true, if_false, Option.bind_some]
      cases hactor : g.asActor refr with
      | none =>
        simp only [reduceCtorEq, false_iff]
        rintro ⟨_, actor, hrefr, -, hcast, -⟩
        cases hrefr
        cases hactor.symm.trans hcast
      | some actor =>
        simp only [proper_iff]
        constructor
        · intro ⟨hhandle, hproper⟩
          exact ⟨refr, actor, rfl, husable, hactor, hhandle, hproper⟩
        · rintro ⟨_, _, hrefr, -, hcast, hhandle, hproper⟩
          cases hrefr
          cases hactor.symm.trans hcast
          exact ⟨hhandle, hproper⟩
    · simp only [hvalid, Bool.not_false, if_true, reduceCtorEq, false_iff]
      rintro ⟨_, _, hrefr, husable, -⟩
      cases hrefr
      exact hvalid (isREFRValid_iff.2 husable)

/-- **A request is taken** exactly for a proper handle and, if it names a reference, for one that
can be used. -/
theorem queueActorTask_eq_some_iff {r : Request P} {handle : UInt32} :
    g.queueActorTask r = some handle ↔ g.Admits r handle := by
  cases r with
  | actor a_actor => exact queueActorTaskRefr_eq_some_iff
  | handle a_handle => exact proper_iff

end Game

namespace ActorTasks

variable {ι P F D : Type*} [DecidableEq ι] [Fintype ι] {s s' : ActorTasks ι P F D}

/-- The requests in the queue, and on their way to or from it. -/
def pending (s : ActorTasks ι P F D) : Multiset (UInt32 × F) :=
  s.queue.unrun.filterMap Task.dispatched

/-- What a step shows. -/
def emits (s : ActorTasks ι P F D) : Label ι P F D → Option (Desk.Label P F)
  | .request _ r func => some (.request r func (s.game.queueActorTask r))
  | .queue a =>
    (s.running a).map fun (handle, func) =>
      match s.game.run handle with
      | some actor => .call handle func actor
      | none => .discard handle func
  | .game g => some (.game g)

omit [DecidableEq ι] [Fintype ι] in
theorem emits_call {a : TaskQueue.Label ι (Task F D)} {handle : UInt32} {func : F} {actor : P}
    (hrunning : s.running a = some (handle, func)) (hactor : s.game.run handle = some actor) :
    s.emits (.queue a) = some (.call handle func actor) := by
  simp only [emits, hrunning, Option.map_some, hactor]

omit [DecidableEq ι] [Fintype ι] in
theorem emits_discard {a : TaskQueue.Label ι (Task F D)} {handle : UInt32} {func : F}
    (hrunning : s.running a = some (handle, func)) (hactor : s.game.run handle = none) :
    s.emits (.queue a) = some (.discard handle func) := by
  simp only [emits, hrunning, Option.map_some, hactor]

/-- The desk that a pool stands for. -/
structure Stands (s : ActorTasks ι P F D) (d : Desk P F) : Prop where
  pending : d.pending = s.pending
  game : d.game = s.game
  calls : d.calls = s.calls
  noClear : s.queue.NoClear

omit [DecidableEq ι] [Fintype ι] in
theorem filterMap_elim (o : Option (Task F D)) :
    (o.elim 0 singleton : Multiset (Task F D)).filterMap Task.dispatched =
      (o.bind Task.dispatched).elim 0 singleton := by
  cases o with
  | none => rfl
  | some task => cases task <;> rfl

omit [DecidableEq ι] [Fintype ι] in
/-- Whatever else is queued is no request. -/
theorem filterMap_entered {a : TaskQueue.Label ι (Task F D)} (ha : offers a = true) :
    (TaskQueue.entered a).filterMap Task.dispatched = 0 := by
  cases a with
  | call t op =>
    cases op with
    | addTask task =>
      cases task with
      | dispatcher => cases ha
      | other => rfl
    | _ => rfl
  | _ => rfl

/-- **What a step of the queue does to the requests.** -/
theorem pending_next {a : TaskQueue.Label ι (Task F D)} {queue : TaskQueue ι (Task F D)}
    (h : s.queue.NoClear) (ha : ∀ t, a ≠ .call t .clearTasks)
    (hnext : s.queue.next a = .step queue) :
    queue.unrun.filterMap Task.dispatched + (s.running a).elim 0 singleton =
      s.pending + (TaskQueue.entered a).filterMap Task.dispatched := by
  have hunrun := congrArg (Multiset.filterMap Task.dispatched) (TaskQueue.unrun_next h ha hnext)
  rw [Multiset.filterMap_add, Multiset.filterMap_add, filterMap_elim] at hunrun
  exact hunrun

open Classical in
omit [DecidableEq ι] [Fintype ι] in
theorem erase_of_add {m m' : Multiset (UInt32 × F)} {x : UInt32 × F} (h : m' + {x} = m) :
    m.erase x = m' := by
  rw [← h, Multiset.erase_add_right_pos _ (Multiset.mem_singleton_self x), Multiset.erase_singleton,
    add_zero]

/-- A request is put on the desk when it is taken. -/
theorem Stands.request {d : Desk P F} (h : s.Stands d) {t : ι} {r : Request P} {func : F}
    {g : Game P} (hnext : s.next (.request t r func) = .step s') :
    ∃ d', (Desk.machine F g).Follows d (s.emits (.request t r func)) d' ∧ s'.Stands d' := by
  have hanswers : d.game.Answers r (s.game.queueActorTask r) := by
    intro handle
    rw [h.game]
    exact Game.queueActorTask_eq_some_iff
  have hstep : d.next (.request r func (s.game.queueActorTask r)) = .step
      { d with
        pending := d.pending +
          ((s.game.queueActorTask r).elim 0 fun handle => {(handle, func)}) } := if_pos hanswers
  refine ⟨_, hstep, ?_⟩
  simp only [next] at hnext
  cases hr : s.game.queueActorTask r with
  | none =>
    simp only [hr] at hnext
    split_ifs at hnext
    cases hnext
    exact ⟨(add_zero _).trans h.pending, h.game, h.calls, h.noClear⟩
  | some handle =>
    simp only [hr] at hnext
    cases hqueue : s.queue.next (.call t (.addTask (.dispatcher handle func))) with
    | blocked => simp only [hqueue, Outcome.map, reduceCtorEq] at hnext
    | fault e => simp only [hqueue, Outcome.map, reduceCtorEq] at hnext
    | step queue =>
      simp only [hqueue, Outcome.map, Outcome.step.injEq] at hnext
      subst hnext
      have ha : ∀ u, TaskQueue.Label.call t (.addTask (Task.dispatcher handle func : Task F D)) ≠
          .call u .clearTasks := by simp
      refine ⟨?_, h.game, h.calls, h.noClear.next ha hqueue⟩
      rw [h.pending]
      exact (pending_next h.noClear ha hqueue).symm.trans (add_zero _)

open Classical in
/-- The `Run` of a dispatcher ends a request. -/
theorem Stands.queue {d : Desk P F} (h : s.Stands d) {a : TaskQueue.Label ι (Task F D)} {g : Game P}
    (hnext : s.next (.queue a) = .step s') :
    ∃ d', (Desk.machine F g).Follows d (s.emits (.queue a)) d' ∧ s'.Stands d' := by
  simp only [next] at hnext
  split_ifs at hnext with hoffers
  have ha : ∀ t, a ≠ .call t .clearTasks := by
    rintro t rfl
    cases hoffers
  cases hqueue : s.queue.next a with
  | blocked => simp only [hqueue, Outcome.map, reduceCtorEq] at hnext
  | fault e => simp only [hqueue, Outcome.map, reduceCtorEq] at hnext
  | step queue =>
    simp only [hqueue, Outcome.map, Outcome.step.injEq] at hnext
    subst hnext
    have hclear := h.noClear.next ha hqueue
    have hpending := pending_next h.noClear ha hqueue
    rw [filterMap_entered hoffers, add_zero, ← h.pending] at hpending
    cases hrunning : s.running a with
    | none =>
      rw [hrunning] at hpending
      refine ⟨d, ?_, ?_, h.game, ?_, hclear⟩
      · simp only [emits, hrunning, Option.map_none]
        rfl
      · exact hpending.symm.trans (add_zero _)
      · simp only [called, hrunning, Option.bind_none, Option.toList_none, List.append_nil]
        exact h.calls
    | some request =>
      obtain ⟨handle, func⟩ := request
      rw [hrunning] at hpending
      have hmem : (handle, func) ∈ d.pending := by
        rw [← hpending]
        exact Multiset.mem_add.2 (.inr (Multiset.mem_singleton_self _))
      have herase := erase_of_add hpending
      cases hactor : s.game.run handle with
      | some actor =>
        have hreach : d.game.Reaches handle actor := h.game ▸ Game.run_eq_some_iff.1 hactor
        have hcall : d.next (.call handle func actor) = .step
            { d with
              pending := d.pending.erase (handle, func)
              calls := d.calls ++ [(func, actor, handle)] } := if_pos ⟨hmem, hreach⟩
        refine ⟨_, Machine.follows_some (emits_call hrunning hactor) hcall, herase, h.game, ?_,
          hclear⟩
        simp only [called, hrunning, Option.bind_some, hactor, Option.map_some, Option.toList_some,
          h.calls]
      | none =>
        have hnone : ¬ ∃ actor, d.game.Reaches handle actor := by
          intro ⟨actor, hreach⟩
          rw [h.game, ← Game.run_eq_some_iff, hactor] at hreach
          cases hreach
        have hdiscard : d.next (.discard handle func) = .step
            { d with pending := d.pending.erase (handle, func) } := if_pos ⟨hmem, hnone⟩
        refine ⟨_, Machine.follows_some (emits_discard hrunning hactor) hdiscard, herase, h.game,
          ?_, hclear⟩
        simp only [called, hrunning, Option.bind_some, hactor, Option.map_none, Option.toList_none,
          List.append_nil, h.calls]

/-- **A step of the pool is one of the desk**, or silent. -/
theorem Stands.next {d : Desk P F} (h : s.Stands d) {a : Label ι P F D} {g : Game P}
    (hnext : ActorTasks.next s a = .step s') :
    ∃ d', (Desk.machine F g).Follows d (s.emits a) d' ∧ s'.Stands d' := by
  cases a with
  | request t r func => exact h.request hnext
  | queue a => exact h.queue hnext
  | game g' =>
    cases hnext
    exact ⟨_, rfl, ⟨h.pending, rfl, h.calls, h.noClear⟩⟩

/-- No call of the queue is under way, and nothing is queued. -/
def Idle (s : ActorTasks ι P F D) : Prop := s.queue.queue = [] ∧ ∀ t, s.queue.stack t = []

omit [DecidableEq ι] in
theorem Idle.pending (h : s.Idle) : s.pending = 0 := by
  have hunrun : s.queue.unrun = 0 := by
    rw [TaskQueue.unrun, TaskQueue.queued, h.1, Finset.sum_eq_zero fun t _ => by rw [h.2 t]; rfl]
    rfl
  rw [ActorTasks.pending, hunrun]
  rfl

variable {g : Game P} {as : List (Label ι P F D)}

theorem stands_init : (machine ι F D g).init.Stands (Desk.machine F g).init where
  pending := (Idle.pending ⟨rfl, fun _ => rfl⟩).symm
  game := rfl
  calls := rfl
  noClear := TaskQueue.noClear_init

/-- **Functions are called with actors that can be used**, once, or not at all if there is no actor
when their turn comes. -/
theorem actor_tasks (h : (machine ι F D g).run (machine ι F D g).init as = some s) :
    let bs := (machine ι F D g).trace emits (machine ι F D g).init as
    (∃ d, (Desk.machine F g).run (Desk.machine F g).init bs = some d ∧ d.game = s.game ∧
      d.calls = s.calls ∧ d.pending = s.pending) ∧
      s.pending + Desk.ended bs = Desk.taken bs ∧ (s.Idle → Desk.ended bs = Desk.taken bs) := by
  intro bs
  obtain ⟨d, hrun, hd⟩ := Machine.run_trace (fun _ _ _ _ hs _ hnext => Stands.next hs hnext)
    (stands_init (ι := ι) (D := D)) h
  have hconserved : s.pending + Desk.ended bs = Desk.taken bs := by
    rw [← hd.pending, Desk.run_conserved hrun]
    exact zero_add _
  refine ⟨⟨d, hrun, hd.game, hd.calls, hd.pending⟩, hconserved, fun hidle => ?_⟩
  rw [← hconserved, hidle.pending, zero_add]

/-- Two actors; the second one may be deleted. -/
def twoActors (deleted : Bool) : Game ℕ where
  refr p := ⟨.ofNat p, true, deleted && p == 2, true⟩
  asActor := some
  getHandle p := .ofNat (p + 6)
  lookup handle := if handle = 7 then some 1 else if handle = 8 then some 2 else none
  invalidHandle := 0

omit [DecidableEq ι] [Fintype ι] in
/-- Thread `t` queues functions for both actors and for no one; the second actor is deleted; `u`
processes the tasks. -/
def deletedActor (t u : ι) : List (Label ι ℕ ℕ Unit) :=
  [.request t (.actor (some 1)) 10, .queue (.step t), .queue (.step t), .queue (.step t),
    .request t (.actor (some 2)) 20, .queue (.step t), .queue (.step t), .queue (.step t),
    .request t (.actor none) 30, .game (twoActors true), .queue (.call u .processTasks),
    .queue (.step u), .queue (.step u), .queue (.step u), .queue (.step u), .queue (.step u),
    .queue (.ret u), .queue (.step u), .queue (.ret u),
    .queue (.step u), .queue (.step u), .queue (.step u), .queue (.step u), .queue (.step u),
    .queue (.ret u), .queue (.step u), .queue (.ret u),
    .queue (.step u), .queue (.step u), .queue (.step u)]

omit [DecidableEq ι] [Fintype ι] in
/-- What the run shows. -/
def deletedActorTrace : List (Desk.Label ℕ ℕ) :=
  [.request (.actor (some 1)) 10 (some 7), .request (.actor (some 2)) 20 (some 8),
    .request (.actor none) 30 none, .game (twoActors true), .call 7 10 1, .discard 8 20]

theorem actor_tasks_deletedActor :
    ∃ s, (machine (Fin 2) ℕ Unit (twoActors false)).run
        (machine (Fin 2) ℕ Unit (twoActors false)).init (deletedActor 0 1) = some s ∧
      s.calls = [(10, 1, 7)] ∧ Desk.ended deletedActorTrace = Desk.taken deletedActorTrace ∧
      ∃ d, (Desk.machine ℕ (twoActors false)).run (Desk.machine ℕ (twoActors false)).init
        deletedActorTrace = some d ∧ d.calls = s.calls := by
  obtain ⟨s, hrun, hcalls, hqueue, hstacks, htrace⟩ :
      ∃ s, (machine (Fin 2) ℕ Unit (twoActors false)).run
          (machine (Fin 2) ℕ Unit (twoActors false)).init (deletedActor 0 1) = some s ∧
        s.calls = [(10, 1, 7)] ∧ s.queue.queue = [] ∧
        (s.queue.stack 0 = [] ∧ s.queue.stack 1 = []) ∧
        (machine (Fin 2) ℕ Unit (twoActors false)).trace emits
          (machine (Fin 2) ℕ Unit (twoActors false)).init (deletedActor 0 1) =
            deletedActorTrace := ⟨_, rfl, rfl, rfl, ⟨rfl, rfl⟩, rfl⟩
  obtain ⟨⟨d, hd, -, hdcalls, -⟩, -, hidle⟩ := actor_tasks hrun
  rw [htrace] at hd hidle
  have hended := hidle ⟨hqueue, fun t => by
    match t with
    | 0 => exact hstacks.1
    | 1 => exact hstacks.2⟩
  exact ⟨s, hrun, hcalls, hended, d, hd, hdcalls⟩

end ActorTasks

end SseExt
