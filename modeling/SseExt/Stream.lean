import Mathlib.Data.List.Count
import Mathlib.Logic.Function.Basic
import SseExt.Lib.Transition

/-!
# `NiStreamWrapper`

A wrapper owns storage for an `NiStream` of the game, in which it constructs the stream itself: the
constructor calls `ctor`, the destructor `dtor`. The `unique_ptr` that holds the storage frees it
without a word to the stream.

**Theorem (`paired_iff`).** Along any run, streams are destroyed once each before their storage is
freed, if and only if no wrapper that owns a stream is assigned to from another wrapper. Such an
assignment frees the storage that the target owned with the stream alive in it.

What happens to storage is recorded as events, so that a run that went wrong stays wrong
(`Paired.mono`).
-/

namespace SseExt

namespace NiStreamWrapper

/-- An allocation, by its number. -/
abbrev Storage := ℕ

/-- What happens to storage. -/
inductive Event where
  | alloc (o : Storage)
  | ctor (o : Storage)
  | dtor (o : Storage)
  | free (o : Storage)
  deriving DecidableEq

def Event.storage : Event → Storage
  | .alloc o => o
  | .ctor o => o
  | .dtor o => o
  | .free o => o

/-- There is a stream in the storage. -/
structure Live (es : List Event) (o : Storage) : Prop where
  ctor : .ctor o ∈ es
  dtor : .dtor o ∉ es
  free : .free o ∉ es

/-- What may happen after `past`. -/
def Event.Legal (past : List Event) : Event → Prop
  | .dtor o => Live past o
  | .free o => .ctor o ∈ past → past.count (.dtor o) = 1
  | _ => True

/-- Constructions and destructions come in pairs. -/
def Paired (es : List Event) : Prop := ∀ past e, past ++ [e] <+: es → e.Legal past

end NiStreamWrapper

open NiStreamWrapper

/-- `NiStreamWrapper` -/
structure NiStreamWrapper where
  mData : Option Storage

namespace NiStreamWrapper

/-- The wrappers, how often storage was allocated, and what happened to it. -/
structure World (ι : Type*) where
  wrappers : ι → Option NiStreamWrapper
  allocated : ℕ
  events : List Event

namespace World

variable {ι : Type*} [DecidableEq ι] (w : World ι)

/-- `m_data` of a wrapper; null when there is no such wrapper. -/
def data (i : ι) : Option Storage := (w.wrappers i).bind mData

/-- `unique_ptr::release` -/
def release (i : ι) : World ι :=
  { w with wrappers := Function.update w.wrappers i (some ⟨none⟩) }

/-- `unique_ptr::reset` -/
def reset (i : ι) (data : Option Storage) : World ι :=
  { w with
    wrappers := Function.update w.wrappers i (some ⟨data⟩)
    events := w.events ++ ((w.data i).map .free).toList }

/-- `m_data = std::move(a_rhs.m_data)` -/
def moveData (i rhs : ι) : World ι := (w.release rhs).reset i (w.data rhs)

/-- `NiStreamWrapper()` -/
def construct (i : ι) : World ι where
  wrappers := Function.update w.wrappers i (some ⟨some w.allocated⟩)
  allocated := w.allocated + 1
  events := w.events ++ [.alloc w.allocated, .ctor w.allocated]

/-- `NiStreamWrapper(NiStreamWrapper&&)` -/
def moveConstruct (i rhs : ι) : World ι :=
  { w with wrappers := Function.update w.wrappers i (some ⟨none⟩) }.moveData i rhs

/-- `operator=(NiStreamWrapper&&)` -/
def moveAssign (i rhs : ι) : World ι := w.moveData i rhs

/-- `~NiStreamWrapper()`, and then that of `m_data`. -/
def destroy (i : ι) : World ι :=
  { w with
    wrappers := Function.update w.wrappers i none
    events := w.events ++ match w.data i with
      | some o => [.dtor o, .free o]
      | none => [] }

end World

/-! ## Runs -/

inductive Op (ι : Type*) where
  | construct (i : ι)
  | moveConstruct (i rhs : ι)
  | moveAssign (i rhs : ι)
  | destroy (i : ι)

variable {ι : Type*} [DecidableEq ι]

/-- An object is constructed where there is none, and used while there is one. -/
def available (w : World ι) : Op ι → Bool
  | .construct i => (w.wrappers i).isNone
  | .moveConstruct i rhs => (w.wrappers i).isNone && (w.wrappers rhs).isSome
  | .moveAssign i rhs => (w.wrappers i).isSome && (w.wrappers rhs).isSome
  | .destroy i => (w.wrappers i).isSome

def perform (w : World ι) : Op ι → World ι
  | .construct i => w.construct i
  | .moveConstruct i rhs => w.moveConstruct i rhs
  | .moveAssign i rhs => w.moveAssign i rhs
  | .destroy i => w.destroy i

/-- Operations on wrappers, of which there are none at first. -/
def machine (ι : Type*) [DecidableEq ι] : Machine (World ι) (Op ι) Empty where
  init := ⟨fun _ => none, 0, []⟩
  next w op := if available w op then .step (perform w op) else .blocked

/-- An assignment from another wrapper to one that owns a stream. -/
def Overwrites (w : World ι) : Op ι → Prop
  | .moveAssign i rhs => i ≠ rhs ∧ (w.data i).isSome
  | _ => False

/-- No step of the run overwrites a stream. -/
def Careful : World ι → List (Op ι) → Prop
  | _, [] => True
  | w, op :: ops => ¬ Overwrites w op ∧ Careful (perform w op) ops

/-! ## Events -/

section

variable {es es' : List Event} {e : Event} {o : Storage}

theorem Paired.mono (h : Paired es') (hpre : es <+: es') : Paired es :=
  fun past e he => h past e (he.trans hpre)

theorem paired_nil : Paired [] := by
  intro past e he
  simp at he

/-- **One more event.** -/
theorem paired_snoc : Paired (es ++ [e]) ↔ Paired es ∧ e.Legal es := by
  constructor
  · intro h
    exact ⟨h.mono (List.prefix_append _ _), h es e List.prefix_rfl⟩
  · rintro ⟨h, he⟩ past e' hpre
    rcases List.prefix_concat_iff.1 hpre with heq | hlt
    · obtain ⟨rfl, hlast⟩ := List.append_inj' heq rfl
      rwa [List.singleton_inj.1 hlast]
    · exact h past e' hlt

/-- What happens to other storage. -/
theorem Live.append (h : Live es o) (hother : ∀ e ∈ es', e.storage ≠ o) : Live (es ++ es') o where
  ctor := List.mem_append_left _ h.ctor
  dtor hmem := (List.mem_append.1 hmem).elim h.dtor fun hmem => hother _ hmem rfl
  free hmem := (List.mem_append.1 hmem).elim h.free fun hmem => hother _ hmem rfl

/-- The destructor destroys the stream, and then its storage is freed. -/
theorem Live.paired_destroy (h : Live es o) (hes : Paired es) :
    Paired (es ++ [.dtor o, .free o]) := by
  have hdtor : Paired (es ++ [.dtor o]) := paired_snoc.2 ⟨hes, h⟩
  rw [List.append_cons]
  refine paired_snoc.2 ⟨hdtor, fun _ => ?_⟩
  rw [List.count_append, List.count_eq_zero_of_not_mem h.dtor, List.count_singleton_self]

/-- The storage of a live stream is not free to go. -/
theorem Live.not_paired_free (h : Live es o) : ¬ Paired (es ++ [.free o]) := by
  intro hpaired
  have hcount := (paired_snoc.1 hpaired).2 h.ctor
  rw [List.count_eq_zero_of_not_mem h.dtor] at hcount
  cases hcount

end

/-! ## The invariant -/

/-- Every wrapper that owns storage has a stream there, and no other wrapper owns it. -/
structure Owns (w : World ι) : Prop where
  paired : Paired w.events
  live : ∀ i o, w.data i = some o → Live w.events o
  distinct : ∀ i j o, w.data i = some o → w.data j = some o → i = j
  fresh : ∀ e ∈ w.events, e.storage < w.allocated

variable {w w' : World ι} {i rhs : ι} {op : Op ι} {ops : List (Op ι)}

theorem data_update (w : World ι) (i : ι) (x : Option NiStreamWrapper) (n : ℕ) (es : List Event) :
    World.data ⟨Function.update w.wrappers i x, n, es⟩ =
      Function.update w.data i (x.bind mData) := by
  funext j
  by_cases h : j = i
  · subst h
    simp [World.data]
  · simp [World.data, Function.update_of_ne h]

theorem data_moveData (w : World ι) (i rhs : ι) : (w.moveData i rhs).data =
    Function.update (Function.update w.data rhs none) i (w.data rhs) := by
  rw [World.moveData, World.reset, data_update, World.release, data_update]
  rfl

/-- What the target owned is freed, unless it is the source. -/
theorem events_moveData (w : World ι) (i rhs : ι) : (w.moveData i rhs).events =
    w.events ++ ((Function.update w.data rhs none i).map .free).toList := by
  rw [World.moveData, World.reset, World.release, data_update]
  rfl

theorem events_grow (w : World ι) (op : Op ι) : w.events <+: (perform w op).events := by
  cases op with
  | construct i => exact List.prefix_append _ _
  | moveConstruct i rhs => exact List.prefix_append _ _
  | moveAssign i rhs => exact List.prefix_append _ _
  | destroy i => exact List.prefix_append _ _

namespace Owns

theorem init : Owns (machine ι).init where
  paired := paired_nil
  live := nofun
  distinct := nofun
  fresh := nofun

omit [DecidableEq ι] in
theorem congr (h : Owns w) (hdata : w'.data = w.data) (hevents : w'.events = w.events)
    (hallocated : w'.allocated = w.allocated) : Owns w' where
  paired := hevents ▸ h.paired
  live := by
    rw [hdata, hevents]
    exact h.live
  distinct := by
    rw [hdata]
    exact h.distinct
  fresh := by
    rw [hevents, hallocated]
    exact h.fresh

theorem construct (h : Owns w) (i : ι) : Owns (w.construct i) := by
  have hdata : (w.construct i).data = Function.update w.data i (some w.allocated) :=
    data_update w i _ _ _
  have hother : ∀ j o, w.data j = some o → o ≠ w.allocated := fun j o hj =>
    Nat.ne_of_lt (h.fresh _ (h.live j o hj).ctor)
  refine ⟨?_, fun j o hj => ?_, fun j k o hj hk => ?_, ?_⟩
  · change Paired (w.events ++ [.alloc w.allocated, .ctor w.allocated])
    rw [List.append_cons]
    exact paired_snoc.2 ⟨paired_snoc.2 ⟨h.paired, trivial⟩, trivial⟩
  · rw [hdata] at hj
    by_cases hji : j = i
    · rw [hji, Function.update_self, Option.some.injEq] at hj
      have hnew : ∀ e ∈ w.events, e.storage ≠ o := fun e he => hj ▸ Nat.ne_of_lt (h.fresh e he)
      subst hj
      refine ⟨by simp [World.construct], fun hmem => ?_, fun hmem => ?_⟩
      · exact hnew (.dtor _) (by simpa [World.construct] using hmem) rfl
      · exact hnew (.free _) (by simpa [World.construct] using hmem) rfl
    · rw [Function.update_of_ne hji] at hj
      have hne := hother j o hj
      refine (h.live j o hj).append ?_
      simp [Event.storage, hne.symm]
  · rw [hdata] at hj hk
    by_cases hji : j = i <;> by_cases hki : k = i
    · rw [hji, hki]
    · rw [hji, Function.update_self, Option.some.injEq] at hj
      rw [Function.update_of_ne hki] at hk
      exact absurd hj.symm (hother k o hk)
    · rw [hki, Function.update_self, Option.some.injEq] at hk
      rw [Function.update_of_ne hji] at hj
      exact absurd hk.symm (hother j o hj)
    · rw [Function.update_of_ne hji] at hj
      rw [Function.update_of_ne hki] at hk
      exact h.distinct j k o hj hk
  · exact List.forall_mem_append.2
      ⟨fun e he => Nat.lt_succ_of_lt (h.fresh e he), by simp [Event.storage, World.construct]⟩

/-- **Moving** what `rhs` owns to a wrapper that owns nothing. -/
theorem moveData (h : Owns w) (hnull : Function.update w.data rhs none i = none) :
    Owns (w.moveData i rhs) := by
  have hevents : (w.moveData i rhs).events = w.events := by
    rw [events_moveData, hnull]
    exact List.append_nil _
  -- Who owns the storage now, and who owned it before.
  have howner : ∀ j o, (w.moveData i rhs).data j = some o →
      (j = i ∧ w.data rhs = some o) ∨ (j ≠ rhs ∧ w.data j = some o) := by
    intro j o hj
    rw [data_moveData] at hj
    by_cases hji : j = i
    · rw [hji, Function.update_self] at hj
      exact .inl ⟨hji, hj⟩
    · rw [Function.update_of_ne hji] at hj
      by_cases hjr : j = rhs
      · rw [hjr, Function.update_self] at hj
        cases hj
      · rw [Function.update_of_ne hjr] at hj
        exact .inr ⟨hjr, hj⟩
  refine ⟨hevents ▸ h.paired, fun j o hj => ?_, fun j k o hj hk => ?_, ?_⟩
  · rw [hevents]
    rcases howner j o hj with ⟨-, hj⟩ | ⟨-, hj⟩ <;> exact h.live _ o hj
  · rcases howner j o hj with ⟨hji, hj⟩ | ⟨hjr, hj⟩ <;>
      rcases howner k o hk with ⟨hki, hk⟩ | ⟨hkr, hk⟩
    · rw [hji, hki]
    · exact absurd (h.distinct k rhs o hk hj) hkr
    · exact absurd (h.distinct j rhs o hj hk) hjr
    · exact h.distinct j k o hj hk
  · rw [hevents]
    exact h.fresh

theorem destroy (h : Owns w) (i : ι) : Owns (w.destroy i) := by
  have hdata : (w.destroy i).data = Function.update w.data i none := data_update w i _ _ _
  have hback : ∀ j o, (w.destroy i).data j = some o → j ≠ i ∧ w.data j = some o := by
    intro j o hj
    rw [hdata] at hj
    by_cases hji : j = i
    · rw [hji, Function.update_self] at hj
      cases hj
    · exact ⟨hji, by rwa [Function.update_of_ne hji] at hj⟩
  have hdistinct : ∀ j k o, (w.destroy i).data j = some o → (w.destroy i).data k = some o →
      j = k := fun j k o hj hk => h.distinct j k o (hback j o hj).2 (hback k o hk).2
  cases hi : w.data i with
  | none =>
    have hevents : (w.destroy i).events = w.events := by simp [World.destroy, hi]
    refine ⟨hevents ▸ h.paired, fun j o hj => ?_, hdistinct, hevents ▸ h.fresh⟩
    rw [hevents]
    exact h.live j o (hback j o hj).2
  | some o =>
    have hevents : (w.destroy i).events = w.events ++ [.dtor o, .free o] := by
      simp [World.destroy, hi]
    have hlive := h.live i o hi
    refine ⟨hevents ▸ hlive.paired_destroy h.paired, fun j o' hj => ?_, hdistinct, ?_⟩
    · obtain ⟨hji, hj⟩ := hback j o' hj
      have hne : o ≠ o' := by
        rintro rfl
        exact hji (h.distinct j i o hj hi)
      rw [hevents]
      exact (h.live j o' hj).append (by simp [Event.storage, hne])
    · have hlt : o < w.allocated := h.fresh _ hlive.ctor
      rw [hevents]
      exact List.forall_mem_append.2
        ⟨h.fresh, List.forall_mem_cons.2 ⟨hlt, List.forall_mem_singleton.2 hlt⟩⟩

/-- **A step** that overwrites nothing. -/
theorem perform (h : Owns w) (havail : available w op) (hop : ¬ Overwrites w op) :
    Owns (perform w op) := by
  cases op with
  | construct i => exact h.construct i
  | moveConstruct i rhs =>
    have hnone : w.wrappers i = none := by
      simp only [available, Bool.and_eq_true, Option.isNone_iff_eq_none] at havail
      exact havail.1
    have hnull : w.data i = none := by simp [World.data, hnone]
    have hsame : World.data { w with wrappers := Function.update w.wrappers i (some ⟨none⟩) } =
        w.data := by
      rw [data_update, Function.update_eq_self_iff, hnull]
      rfl
    refine (h.congr hsame rfl rfl).moveData ?_
    rw [hsame, Function.update_apply, hnull, ite_self]
  | moveAssign i rhs =>
    refine h.moveData ?_
    rw [Function.update_apply]
    split_ifs with heq
    · rfl
    · exact Option.not_isSome_iff_eq_none.1 fun hsome => hop ⟨heq, hsome⟩
  | destroy i => exact h.destroy i

/-- **A step that overwrites a stream.** -/
theorem not_paired (h : Owns w) (hop : Overwrites w op) :
    ¬ Paired (NiStreamWrapper.perform w op).events := by
  cases op with
  | construct i => exact hop.elim
  | moveConstruct i rhs => exact hop.elim
  | moveAssign i rhs =>
    obtain ⟨hne, hsome⟩ := hop
    obtain ⟨o, ho⟩ := Option.isSome_iff_exists.1 hsome
    change ¬ Paired (w.moveData i rhs).events
    rw [events_moveData, Function.update_of_ne hne, ho]
    exact (h.live i o ho).not_paired_free
  | destroy i => exact hop.elim

end Owns

/-! ## Runs -/

theorem run_cons (h : (machine ι).run w (op :: ops) = some w') :
    available w op ∧ (machine ι).run (perform w op) ops = some w' := by
  by_cases havail : available w op
  · refine ⟨havail, ?_⟩
    rwa [Machine.run_cons (if_pos havail)] at h
  · simp only [Machine.run, Machine.runIf, machine, havail] at h
    cases h

theorem run_grows (h : (machine ι).run w ops = some w') : w.events <+: w'.events := by
  induction ops generalizing w with
  | nil =>
    cases h
    exact List.prefix_rfl
  | cons op ops ih =>
    exact (events_grow w op).trans (ih (run_cons h).2)

theorem Owns.paired_run_iff (hw : Owns w) (h : (machine ι).run w ops = some w') :
    Paired w'.events ↔ Careful w ops := by
  induction ops generalizing w with
  | nil =>
    cases h
    exact iff_of_true hw.paired trivial
  | cons op ops ih =>
    obtain ⟨havail, hrun⟩ := run_cons h
    by_cases hop : Overwrites w op
    · refine iff_of_false (fun hpaired => ?_) fun hcareful => hcareful.1 hop
      exact hw.not_paired hop (hpaired.mono (run_grows hrun))
    · rw [ih (hw.perform havail hop) hrun, Careful, and_iff_right hop]

/-- **Pairs.** -/
theorem paired_iff (h : (machine ι).run (machine ι).init ops = some w) :
    Paired w.events ↔ Careful (machine ι).init ops :=
  Owns.init.paired_run_iff h

/-- A wrapper is moved, the old one is assigned to, and both go. -/
theorem paired_iff_sample : ∃ w, (machine ℕ).run (machine ℕ).init [.construct 0,
    .moveConstruct 1 0, .construct 2, .moveAssign 0 2, .moveAssign 0 0, .destroy 0, .destroy 1] =
      some w ∧ Paired w.events := by
  obtain ⟨w, hw⟩ : ∃ w, (machine ℕ).run (machine ℕ).init [.construct 0, .moveConstruct 1 0,
    .construct 2, .moveAssign 0 2, .moveAssign 0 0, .destroy 0, .destroy 1] = some w := ⟨_, rfl⟩
  refine ⟨w, hw, (paired_iff hw).2 ?_⟩
  simp [Careful, Overwrites, perform, machine, World.construct, World.moveConstruct,
    World.moveAssign, World.moveData, World.release, World.reset, World.data, Function.update_apply]

/-- A wrapper is assigned to one that owns a stream. -/
theorem stream_lost : ∃ w, (machine ℕ).run (machine ℕ).init [.construct 0, .construct 1,
    .moveAssign 0 1] = some w ∧ w.events = [.alloc 0, .ctor 0, .alloc 1, .ctor 1, .free 0] ∧
      ¬ Paired w.events := by
  refine ⟨_, rfl, rfl, fun h => ?_⟩
  have hlegal := h [.alloc 0, .ctor 0, .alloc 1, .ctor 1] (.free 0) List.prefix_rfl (by decide)
  revert hlegal
  decide

end NiStreamWrapper

end SseExt
