import SseExt.SmartPointer.Cascade

/-!
# Safety of `BSTSmartPointer`

The assignments detach the old object before they look at the right-hand side. If detaching deletes
the object in which the right-hand side is stored, as in `p = p->next` on the last pointer to a
list, the assignment reads a pointer of a deleted object.

**Theorem (`counts_exact`).** In a run whose operations are all `Safe` there is no fault. Whenever
no call is in progress every count is the number of pointers, every pointer points to an object, and
the objects that have been deleted are those whose count dropped to zero, which it did once. Every
call comes to an end.

An operation is safe if what it uses after detaching its target does not go with the target. An
assignment whose right-hand side goes with the target faults (`assign_faults`).
-/

namespace SseExt.SmartPointer.Heap

variable {ι O : Type*} [DecidableEq ι] [DecidableEq O]

/-- Detaching `c` does not delete the object that `d` is a member of. -/
def Outlives (s : Heap ι O) (c d : Cell ι O) : Prop := ∀ o, Dying s.ptrs c o → d.owner ≠ some o

/-- Fewer than `2 ^ 32 - 1` pointers to the object stay when `c` is detached. -/
def Room (s : Heap ι O) (c : Cell ι O) (o : O) : Prop :=
  s.ptrs.FewStay Cell.owner c o (2 ^ 32 - 1)

/-- What an operation uses after detaching its target does not go with it, and there is room for one
more pointer. -/
def Safe (s : Heap ι O) : Label ι O → Prop
  | .op (.construct i q) => ∀ o ∈ q, s.Room (.root i) o
  | .op (.copyConstruct i rhs) => ∀ o ∈ s.ptr rhs, s.Room (.root i) o
  | .op (.copyAssign c rhs) =>
    c ≠ rhs → s.Outlives c c ∧ s.Outlives c rhs ∧ ∀ o ∈ s.ptr rhs, s.Room c o
  | .op (.moveAssign c rhs) => c ≠ rhs → s.Outlives c c ∧ s.Outlives c rhs
  | .op (.reset c) => s.Outlives c c
  | .op (.resetTo c q) =>
    s.ptr c ≠ q → s.Outlives c c ∧ ∀ o ∈ q, ¬ Dying s.ptrs c o ∧ s.Room c o
  | .op (.alloc _ _) | .op (.moveConstruct _ _) | .op (.destroy _) | .step => True

variable {s s' : Heap ι O} {p : Handles (Cell ι O) O} {stack : List (Frame ι O)}
  {c d target rhs : Cell ι O} {o o₀ : O} {i : ι} {q : Option O} {rest : Rest ι O} {call : Call ι O}

/-! ## The start of a call -/

theorem ptr_of_mem (hc : c ∈ s.ptrs.live) : s.ptr c = some (s.ptrs.ref c) := if_pos hc

/-- Before the first `TryDetach`. -/
theorem Sound.cascade (hs : s.Sound []) (halive : s.alive target = true)
    (hspared : s.Outlives target target) (rest : Rest ι O) :
    s.Cascade s.ptrs ⟨[], target, rest⟩ (some target) where
  sound := hs
  within _ hd := ⟨(mem_counted.1 hd).1, rfl⟩
  gone d hd hnot := absurd (mem_counted.2 ⟨hd, fun f hf => absurd hf List.not_mem_nil⟩) hnot
  dies _ hf := absurd hf List.not_mem_nil
  zero o m ho := by
    have hcount := (sound_nil_iff.1 hs).2.1 o 0 m ho
    exact .inr (Handles.count_eq_zero.1 hcount.symm)
  spared := hspared
  target_alive := halive
  target_null _ := rfl
  chain := trivial
  held _ hf := absurd hf List.not_mem_nil
  emptied _ hf := absurd hf List.not_mem_nil

/-- **A call that detaches its target.** -/
theorem Sound.detach (hs : s.Sound []) (halive : s.alive target = true)
    (hspared : s.Outlives target target) (hready : s.Ready s.ptrs target rest) :
    (s.tryDetach target [] target rest).Ensures Inv := by
  have hcascade := (hs.cascade halive hspared rest).tryDetach halive
    (fun f hf => absurd hf List.not_mem_nil) (.inl rfl)
  exact hcascade.mono fun s' ⟨stack', h⟩ => .inr ⟨_, _, h.running, h.cascade, h.ready hready⟩

/-- Nothing goes with a root that comes into being. -/
theorem Sound.not_dying (hs : s.Sound []) (hi : i ∉ s.roots) (o : O) :
    ¬ Dying s.ptrs (.root i) o := by
  intro hd
  have halive := hs.alive _ hd.live
  simp only [Heap.alive, decide_eq_true_eq] at halive
  exact hi halive

omit [DecidableEq O] in
theorem alive_insert (k : Option (Call ι O)) (h : s.alive c = true) :
    ({ s with roots := insert i s.roots }.setCall k).alive c = true := by
  cases c with
  | member o j => exact h
  | root i' =>
    simp only [alive, decide_eq_true_eq] at h ⊢
    exact Finset.mem_insert_of_mem h

/-- **A call that constructs its target.** -/
theorem Sound.enter (hs : s.Sound []) (hready : i ∉ s.roots → s.Ready s.ptrs (.root i) rest) :
    (s.enter i rest).Ensures Inv := by
  unfold Heap.enter
  split_ifs with hi
  · trivial
  have hnone := hs.not_dying hi
  have hnull : Cell.root i ∉ s.ptrs.live := by
    intro hmem
    have halive := hs.alive _ hmem
    simp only [Heap.alive, decide_eq_true_eq] at halive
    exact hi halive
  have hs' :
      ({ s with roots := insert i s.roots }.setCall (some ⟨[], .root i, rest⟩)).Sound [] := by
    obtain ⟨hcells, hrest⟩ := sound_nil_iff.1 hs
    exact sound_nil_iff.2 ⟨fun c hc => alive_insert _ (hcells c hc), hrest⟩
  have halive : ({ s with roots := insert i s.roots }.setCall (some ⟨[], .root i, rest⟩)).alive
      (.root i) = true := by
    simp [Heap.alive, Heap.setCall]
  have hcascade := hs'.cascade halive (fun o hd => absurd hd (hnone o)) rest
  refine .inr ⟨s.ptrs, _, rfl, hcascade.of_null hnull _, ?_⟩
  exact (hready hi).mono (fun d _ hd => alive_insert _ hd) fun _ _ hq => hq

/-! ## Steps -/

omit [DecidableEq O] in
theorem root_alive : s.alive (.root i) = true ↔ i ∈ s.roots := by
  simp [alive]

/-- An object comes into being, which nothing refers to. -/
theorem Idle.alloc (h : s.Idle) (ho : s.block o = .fresh) (members : ℕ) :
    (s.setBlock o (.live 0 members)).Idle := by
  obtain ⟨hcells, hcounts, hobjects, hdropped, hkept⟩ := sound_nil_iff.1 h.sound
  have hblock : ∀ q ≠ o, (s.setBlock o (.live 0 members)).block q = s.block q :=
    fun q hq => Function.update_of_ne hq ..
  have hself : (s.setBlock o (.live 0 members)).block o = .live 0 members :=
    Function.update_self ..
  have hnone : ∀ c ∈ s.ptrs.live, s.ptrs.ref c ≠ o := by
    intro c hc heq
    obtain ⟨n, m, hb⟩ := live_iff.1 (hobjects c hc)
    rw [heq, ho] at hb
    cases hb
  refine ⟨h.call, sound_nil_iff.2 ⟨fun c hc => ?_, fun q n m hq => ?_, fun c hc => ?_,
    fun q hq => ?_, fun q hq => ?_⟩⟩
  · have halive := hcells c hc
    cases c with
    | root i => exact halive
    | member q j =>
      have hne : q ≠ o := by
        rintro rfl
        rw [Heap.alive, ho] at halive
        cases halive
      simpa only [Heap.alive, hblock q hne] using halive
  · by_cases hqo : q = o
    · rw [hqo, hself] at hq
      cases hq
      rw [hqo]
      exact (Handles.count_eq_zero.2 hnone).symm
    · exact hcounts q n m ((hblock q hqo).symm.trans hq)
  · obtain ⟨n, m, hb⟩ := live_iff.1 (hobjects c hc)
    exact live_iff.2 ⟨n, m, (hblock _ (hnone c hc)).trans hb⟩
  · have hne : q ≠ o := by
      rintro rfl
      rw [hself] at hq
      cases hq
    exact hdropped q ((hblock q hne).symm.trans hq)
  · refine hkept q fun hdel => ?_
    have hne : q ≠ o := by
      rintro rfl
      rw [ho] at hdel
      cases hdel
    exact hq ((hblock q hne).trans hdel)

/-- **Operations begin.** -/
theorem Idle.start (h : s.Idle) {a : Op ι O} (ha : s.Safe (.op a)) : (s.start a).Ensures Inv := by
  have hs := h.sound
  have hsame : s.Inv := .inl h
  cases a with
  | alloc o members =>
    simp only [Heap.start]
    split
    · rename_i ho
      exact .inl (h.alloc ho members)
    · trivial
  | construct i q =>
    simp only [Heap.start]
    split_ifs with hq
    · refine hs.enter fun hi o ho => ?_
      subst ho
      exact ⟨hq, hs.not_dying hi o, ha o rfl⟩
    · trivial
  | copyConstruct i rhs =>
    simp only [Heap.start]
    split_ifs with hrhs
    · refine hs.enter fun hi => ⟨hrhs, ?_, fun o ho => absurd ho (hs.not_dying hi o),
        fun hmem => ha _ (ptr_of_mem hmem)⟩
      rintro rfl
      exact hi (root_alive.1 hrhs)
    · trivial
  | moveConstruct i rhs =>
    simp only [Heap.start]
    split_ifs with hrhs
    · refine hs.enter fun hi => ⟨hrhs, ?_, fun o ho => absurd ho (hs.not_dying hi o)⟩
      rintro rfl
      exact hi (root_alive.1 hrhs)
    · trivial
  | destroy i =>
    simp only [Heap.start]
    split_ifs with hi
    · exact hs.detach (root_alive.2 hi) (fun o _ => (Option.some_ne_none o).symm) rfl
    · trivial
  | copyAssign c rhs =>
    simp only [Heap.start, Bool.and_eq_true]
    split_ifs with halive hne
    · exact hsame
    · obtain ⟨hself, hrhs, hroom⟩ := ha hne
      exact hs.detach halive.1 hself ⟨halive.2, Ne.symm hne, hrhs, fun hmem =>
        hroom _ (ptr_of_mem hmem)⟩
    · trivial
  | moveAssign c rhs =>
    simp only [Heap.start, Bool.and_eq_true]
    split_ifs with halive hne
    · exact hsame
    · obtain ⟨hself, hrhs⟩ := ha hne
      exact hs.detach halive.1 hself ⟨halive.2, Ne.symm hne, hrhs⟩
    · trivial
  | reset c =>
    simp only [Heap.start]
    split_ifs with halive
    · exact hs.detach halive ha trivial
    · trivial
  | resetTo c q =>
    simp only [Heap.start, Bool.and_eq_true]
    split_ifs with halive hne
    · exact hsame
    · obtain ⟨hself, hq⟩ := ha hne
      refine hs.detach halive.1 hself fun o ho => ?_
      subst ho
      exact ⟨halive.2, hq o rfl⟩
    · trivial

/-- **A call goes on.** -/
theorem Cascade.advance (h : s.Cascade p call none) (hstack : call.stack ≠ []) :
    (s.advance call).Ensures fun s' => ∃ stack',
      s.Follows p call (s.counted call.stack).live.card (weight call.stack) s' stack' := by
  obtain ⟨stack, target, rest⟩ := call
  match stack with
  | [] => exact absurd rfl hstack
  | ⟨o, j + 1, c⟩ :: stack => exact h.member
  | ⟨o, 0, c⟩ :: stack => exact h.free

theorem Inv.next (h : s.Inv) {a : Label ι O} (ha : s.Safe a) : (next s a).Ensures Inv := by
  rcases h with hidle | ⟨p, call, hcall, h, hready⟩
  · cases a with
    | op a =>
      simp only [Heap.next, hidle.call, Option.isNone_none, if_true]
      exact hidle.start ha
    | step =>
      simp only [Heap.next, hidle.call]
      trivial
  · cases a with
    | op a =>
      simp only [Heap.next, hcall, Option.isNone_some, Bool.false_eq_true, if_false]
      trivial
    | step =>
      simp only [Heap.next, hcall]
      by_cases hstack : call.stack = []
      · obtain ⟨stack, target, rest⟩ := call
        obtain rfl : stack = [] := hstack
        exact (h.finish hready).mono fun _ => .inl
      · exact (h.advance hstack).mono fun s' ⟨stack', h'⟩ =>
          .inr ⟨p, _, h'.running, h'.cascade, h'.ready hready⟩

/-! ## The end of a call -/

theorem attach_ne_blocked (s : Heap ι O) (c : Cell ι O) (q : Option O) :
    s.attach c q ≠ .blocked := by
  unfold Heap.attach
  split
  · exact Outcome.step_ne_blocked _
  · split
    · exact Outcome.step_ne_blocked _
    · exact Outcome.fault_ne_blocked _

theorem tryDetach_ne_blocked (s : Heap ι O) (c : Cell ι O) (stack : List (Frame ι O))
    (target : Cell ι O) (rest : Rest ι O) : s.tryDetach c stack target rest ≠ .blocked := by
  unfold Heap.tryDetach
  split
  · exact Outcome.fault_ne_blocked _
  split
  · exact Outcome.step_ne_blocked _
  split
  · dsimp only
    split <;> exact Outcome.step_ne_blocked _
  · exact Outcome.fault_ne_blocked _

theorem free_ne_blocked (s : Heap ι O) (o : O) (c : Cell ι O) (call : Call ι O) :
    s.free o c call ≠ .blocked := by
  unfold Heap.free
  split
  · exact Outcome.fault_ne_blocked _
  dsimp only
  split
  · exact Outcome.fault_ne_blocked _
  · exact Outcome.step_ne_blocked _

theorem finish_ne_blocked (s : Heap ι O) (target : Cell ι O) (rest : Rest ι O) :
    s.finish target rest ≠ .blocked := by
  cases rest with
  | done | leave i => exact Outcome.step_ne_blocked _
  | copy rhs | point q =>
    simp only [Heap.finish]
    split
    · exact attach_ne_blocked _ _ _
    · exact Outcome.fault_ne_blocked _
  | take rhs =>
    simp only [Heap.finish]
    split
    · split <;> exact Outcome.step_ne_blocked _
    · exact Outcome.fault_ne_blocked _

/-- Steps of a call are never missing. -/
theorem advance_ne_blocked (s : Heap ι O) (call : Call ι O) : s.advance call ≠ .blocked := by
  unfold Heap.advance
  split
  · exact tryDetach_ne_blocked _ _ _ _ _
  · exact free_ne_blocked _ _ _ _
  · exact finish_ne_blocked _ _ _

/-- **Every `TryDetach` comes to an end.** -/
theorem Cascade.detached (o₀ : O) {k w : ℕ} (hcall : s.call = some call) (h : s.Cascade p call none)
    (hk : (s.counted call.stack).live.card = k) (hw : weight call.stack = w) :
    ∃ n s', (machine ι o₀).run s (List.replicate n .step) = some s' ∧
      s'.call = some { call with stack := [] } ∧ s'.Cascade p { call with stack := [] } none ∧
      (s.Ready p call.target call.rest → s'.Ready p call.target call.rest) := by
  induction k using Nat.strong_induction_on generalizing s call w with
  | _ k ihk =>
    induction w using Nat.strong_induction_on generalizing s call with
    | _ w ihw =>
      by_cases hstack : call.stack = []
      · obtain ⟨stack, target, rest⟩ := call
        obtain rfl : stack = [] := hstack
        exact ⟨0, s, rfl, hcall, h, fun hr => hr⟩
      · have hadvance := h.advance hstack
        cases hout : s.advance call with
        | blocked => exact absurd hout (advance_ne_blocked s call)
        | fault e =>
          rw [hout] at hadvance
          exact hadvance.elim
        | step s₁ =>
          rw [hout] at hadvance
          obtain ⟨stack', h'⟩ := hadvance
          have hnext : (machine ι o₀).next s .step = .step s₁ := by
            show next s .step = .step s₁
            simp only [Heap.next, hcall, hout]
          have hlater : ∃ n s', (machine ι o₀).run s₁ (List.replicate n .step) = some s' ∧
              s'.call = some { call with stack := [] } ∧
              s'.Cascade p { call with stack := [] } none ∧
              (s₁.Ready p call.target call.rest → s'.Ready p call.target call.rest) := by
            rcases h'.below with hlt | ⟨heq, hlt⟩
            · have hfewer := ihk _ (hk ▸ hlt) h'.running h'.cascade rfl rfl
              exact hfewer
            · have hlighter := ihw _ (hw ▸ hlt) h'.running h'.cascade (heq.trans hk) rfl
              exact hlighter
          obtain ⟨n, s', hrun, hcall', hcascade, hready⟩ := hlater
          refine ⟨n + 1, s', ?_, hcall', hcascade, fun hr => hready (h'.ready hr)⟩
          rw [List.replicate_succ, Machine.run_cons hnext]
          exact hrun

/-- **Every call comes to an end.** -/
theorem Inv.finishes (h : s.Inv) :
    ∃ n s', (machine ι o₀).run s (List.replicate n .step) = some s' ∧ s'.call = none := by
  rcases h with hidle | ⟨p, call, hcall, h, hready⟩
  · exact ⟨0, s, rfl, hidle.call⟩
  · obtain ⟨n, s₁, hrun, hcall₁, h₁, hready₁⟩ := h.detached o₀ hcall rfl rfl
    have hfinish := h₁.finish (hready₁ hready)
    cases hout : s₁.advance { call with stack := [] } with
    | blocked => exact absurd hout (advance_ne_blocked s₁ _)
    | fault e =>
      rw [show s₁.finish call.target call.rest = .fault e from hout] at hfinish
      exact hfinish.elim
    | step s₂ =>
      rw [show s₁.finish call.target call.rest = .step s₂ from hout] at hfinish
      have hnext : (machine ι o₀).next s₁ .step = .step s₂ := by
        show Heap.next s₁ .step = .step s₂
        simp only [Heap.next, hcall₁, hout]
      refine ⟨n + 1, s₂, ?_, hfinish.call⟩
      rw [List.replicate_succ', Machine.run_append hrun, Machine.run_cons hnext]
      rfl

/-! ## Runs -/

theorem init_idle (o₀ : O) : (init o₀ : Heap ι O).Idle := by
  refine ⟨rfl, sound_nil_iff.2 ⟨fun c hc => absurd hc (Finset.notMem_empty c), fun o n m ho => ?_,
    fun c hc => absurd hc (Finset.notMem_empty c), fun o ho => ?_, fun _ _ => rfl⟩⟩
  · have hfresh : Block.fresh = .live n m := ho
    cases hfresh
  · have hfresh : Block.fresh = .deleted := ho
    cases hfresh

theorem inv_of_reachIf (h : (machine ι o₀).ReachIf Safe s) : s.Inv :=
  h.preserved (.inl (init_idle o₀)) fun _ _ ha hi => (hi.next ha).leads

/-- A count drops to zero at most once. -/
theorem Inv.drops_le_one (h : s.Inv) (o : O) : s.drops o ≤ 1 := by
  have hsound : ∃ stack, s.Sound stack := by
    rcases h with hidle | ⟨p, call, -, h, -⟩
    · exact ⟨[], hidle.sound⟩
    · exact ⟨_, h.sound⟩
  obtain ⟨stack, hs⟩ := hsound
  by_cases ho : s.block o = .deleted ∨ ∃ f ∈ stack, f.obj = o
  · exact (hs.dropped o ho).le
  · rw [not_or] at ho
    rw [hs.kept o ho.1 fun f hf heq => ho.2 ⟨f, hf, heq⟩]
    exact Nat.zero_le 1

/-- **Counts are exact, and objects are deleted once.** -/
theorem counts_exact (h : (machine ι o₀).ReachIf Safe s) :
    (∀ a, s.Safe a → ∀ e, next s a ≠ .fault e) ∧
    (s.call = none →
      (∀ o n m, s.block o = .live n m → n.toNat = s.ptrs.count o) ∧
      (∀ c ∈ s.ptrs.live, s.alive c = true ∧ s.live (s.ptrs.ref c) = true) ∧
      ∀ o, s.block o = .deleted ↔ s.drops o = 1) ∧
    (∀ o, s.drops o ≤ 1) ∧
    ∃ n s', (machine ι o₀).run s (List.replicate n .step) = some s' ∧ s'.call = none := by
  have hi := inv_of_reachIf h
  refine ⟨fun a ha e => (hi.next ha).ne_fault e, fun hcall => ?_, hi.drops_le_one, hi.finishes⟩
  have hs : s.Sound [] := by
    rcases hi with hidle | ⟨p, call, hsome, -, -⟩
    · exact hidle.sound
    · rw [hcall] at hsome
      cases hsome
  obtain ⟨hcells, hcounts, hobjects, hdropped, hkept⟩ := sound_nil_iff.1 hs
  refine ⟨hcounts, fun c hc => ⟨hcells c hc, hobjects c hc⟩, fun o => ⟨hdropped o, fun hone => ?_⟩⟩
  by_contra hne
  rw [hkept o hne] at hone
  cases hone

/-! ## Roots -/

omit [DecidableEq O] [DecidableEq ι] in
/-- A root is not stored in an object. -/
theorem Outlives.of_root (hd : d.owner = none) : s.Outlives c d := by
  intro o _ hown
  rw [hd] at hown
  cases hown

/-- Detaching a null pointer deletes nothing. -/
theorem Outlives.of_null (hc : s.ptr c = none) : s.Outlives c d := by
  intro o ho
  rw [ptr_of_mem ho.live] at hc
  cases hc

/-- Operations that are safe on the face of it: they assign from a root to a root, or to a null
pointer, objects without too many pointers. -/
def plain (s : Heap ι O) : Label ι O → Bool
  | .op (.construct _ q) => q.all fun o => s.ptrs.count o < 2 ^ 32 - 1
  | .op (.copyConstruct _ rhs) => (s.ptr rhs).all fun o => s.ptrs.count o < 2 ^ 32 - 1
  | .op (.copyAssign c rhs) => c.owner.isNone && rhs.owner.isNone &&
      (s.ptr rhs).all fun o => s.ptrs.count o < 2 ^ 32 - 1
  | .op (.moveAssign c rhs) => c.owner.isNone && rhs.owner.isNone
  | .op (.reset c) => c.owner.isNone
  | .op (.resetTo c q) => (s.ptr c).isNone && q.all fun o => s.ptrs.count o < 2 ^ 32 - 1
  | .op (.alloc _ _) | .op (.moveConstruct _ _) | .op (.destroy _) | .step => true

omit [DecidableEq ι] in
theorem room_of_all (h : (q.all fun o => s.ptrs.count o < 2 ^ 32 - 1) = true) :
    ∀ o ∈ q, s.Room c o := by
  intro o ho
  subst ho
  exact .of_count (by simpa using h)

theorem safe_of_plain {a : Label ι O} (h : s.plain a = true) : s.Safe a := by
  cases a with
  | step => trivial
  | op a =>
    cases a with
    | alloc | moveConstruct | destroy => trivial
    | construct i q => exact room_of_all h
    | copyConstruct i rhs => exact room_of_all h
    | copyAssign c rhs =>
      simp only [plain, Bool.and_eq_true, Option.isNone_iff_eq_none] at h
      exact fun _ => ⟨.of_root h.1.1, .of_root h.1.2, room_of_all h.2⟩
    | moveAssign c rhs =>
      simp only [plain, Bool.and_eq_true, Option.isNone_iff_eq_none] at h
      exact fun _ => ⟨.of_root h.1, .of_root h.2⟩
    | reset c => exact .of_root (Option.isNone_iff_eq_none.1 h)
    | resetTo c q =>
      simp only [plain, Bool.and_eq_true, Option.isNone_iff_eq_none] at h
      refine fun _ => ⟨.of_null h.1, fun o ho => ⟨fun hd => ?_, room_of_all h.2 o ho⟩⟩
      rw [ptr_of_mem hd.live] at h
      cases h.1

/-- `q = p->next; p = q` for a list of two objects. -/
def advanceByRoot : List (Label (Fin 2) ℕ) :=
  [.op (.alloc 0 1), .op (.alloc 1 0), .op (.construct 0 (some 0)), .step,
    .op (.resetTo (.member 0 0) (some 1)), .step, .op (.copyConstruct 1 (.member 0 0)), .step,
    .op (.copyAssign (.root 0) (.root 1)), .step, .step, .step]

theorem advanceByRoot_exact : ∃ s, (machine (Fin 2) 0).ReachIf Safe s ∧ s.block 0 = .deleted ∧
    s.drops 0 = 1 ∧ s.block 1 = .live 2 0 ∧ s.ptrs.count 1 = 2 := by
  have hrun : ∃ s, (machine (Fin 2) 0).runIf plain (init 0) advanceByRoot = some s ∧
      s.call = none ∧ s.block 0 = .deleted ∧ s.block 1 = .live 2 0 := ⟨_, rfl, rfl, rfl, rfl⟩
  obtain ⟨s, hs, hcall, h0, h1⟩ := hrun
  have hreach := Machine.reachIf_of_runIf (fun _ _ hb => safe_of_plain hb) .init hs
  obtain ⟨hcounts, -, hdrops⟩ := (counts_exact hreach).2.1 hcall
  exact ⟨s, hreach, h0, (hdrops 0).1 h0, h1, (hcounts 1 2 0 h1).symm⟩

/-! ## The defect -/

/-- Object 0 owns object 1 and is owned by a root, which is assigned the member of object 0. -/
def advanceRoot : List (Label (Fin 1) ℕ) :=
  [.op (.alloc 0 1), .op (.alloc 1 0), .op (.construct 0 (some 0)), .step,
    .op (.resetTo (.member 0 0) (some 1)), .step,
    .op (.copyAssign (.root 0) (.member 0 0)), .step, .step, .step]

/-- **`p = p->next`** reads a member of the object that it has deleted. -/
theorem next_faults : ∃ s, (machine (Fin 1) 0).Reach s ∧ next s .step = .fault .deadPointer := by
  have hrun : ∃ s, (machine (Fin 1) 0).run (init 0) advanceRoot = some s ∧
      next s .step = .fault .deadPointer := ⟨_, rfl, rfl⟩
  obtain ⟨s, hs, hfault⟩ := hrun
  exact ⟨s, Machine.reach_of_run .init hs, hfault⟩

/-! ## What other operations lead to -/

/-- `TryDetach` is through before the rest of the call matters. -/
theorem Idle.detached (h : s.Idle) (o₀ : O) (halive : s.alive c = true) (hself : s.Outlives c c)
    (rest : Rest ι O) :
    ∃ s₁ n s₂, s.tryDetach c [] c rest = .step s₁ ∧
      (machine ι o₀).run s₁ (List.replicate n .step) = some s₂ ∧
      s₂.call = some ⟨[], c, rest⟩ ∧ s₂.Cascade s.ptrs ⟨[], c, rest⟩ none := by
  have hdetach := (h.sound.cascade halive hself rest).tryDetach halive
    (fun f hf => absurd hf List.not_mem_nil) (.inl rfl)
  cases hout : s.tryDetach c [] c rest with
  | blocked => exact absurd hout (tryDetach_ne_blocked _ _ _ _ _)
  | fault e =>
    rw [hout] at hdetach
    exact hdetach.elim
  | step s₁ =>
    rw [hout] at hdetach
    obtain ⟨stack, h₁⟩ := hdetach
    obtain ⟨n, s₂, hrun, hcall, h₂, -⟩ := h₁.cascade.detached o₀ h₁.running rfl rfl
    exact ⟨s₁, n, s₂, rfl, hrun, hcall, h₂⟩

/-- **An assignment from a pointer that goes with the target** reads it when it is gone. -/
theorem assign_faults (h : s.Idle) (hc : s.alive c = true) (hrhs : s.alive rhs = true)
    (hne : c ≠ rhs) (hself : s.Outlives c c) (hgone : ¬ s.Outlives c rhs) {a : Op ι O}
    (ha : a = .copyAssign c rhs ∨ a = .moveAssign c rhs) :
    ∃ n s', (machine ι o₀).run s (.op a :: List.replicate n .step) = some s' ∧
      next s' .step = .fault .deadPointer := by
  obtain ⟨o, ho, hown⟩ : ∃ o, Dying s.ptrs c o ∧ rhs.owner = some o := by
    simpa only [Outlives, not_forall, not_not, exists_prop] using hgone
  -- Both assignments find the storage of the right-hand side gone.
  have hfaults : ∀ rest, s.start a = s.tryDetach c [] c rest →
      (rest = .copy rhs ∨ rest = .take rhs) →
      ∃ n s', (machine ι o₀).run s (.op a :: List.replicate n .step) = some s' ∧
        next s' .step = .fault .deadPointer := by
    intro rest hstart hrest
    obtain ⟨s₁, n, s₂, hdetach, hrun, hcall, h₂⟩ := h.detached o₀ hc hself rest
    have hdead : s₂.alive rhs = false := by
      by_contra halive
      have hlive := live_of_alive (Bool.not_eq_false _ ▸ halive) hown
      rw [h₂.not_live ho] at hlive
      cases hlive
    have hnext : (machine ι o₀).next s (.op a) = .step s₁ := by
      show next s (.op a) = .step s₁
      simp only [next, h.call, Option.isNone_none, if_true, hstart, hdetach]
    refine ⟨n, s₂, (Machine.run_cons hnext _).trans hrun, ?_⟩
    rcases hrest with rfl | rfl
    · simp only [next, hcall, advance, finish, hdead, Bool.and_false, Bool.false_eq_true, if_false]
    · simp only [next, hcall, advance, finish, hdead, Bool.and_false, Bool.false_eq_true, if_false]
  rcases ha with rfl | rfl
  · exact hfaults _ (by simp only [start, hc, hrhs, Bool.and_self, if_true, if_neg hne]) (.inl rfl)
  · exact hfaults _ (by simp only [start, hc, hrhs, Bool.and_self, if_true, if_neg hne]) (.inr rfl)

/-- **A reset to an object that goes with the target** acquires it when it is gone. -/
theorem resetTo_faults (h : s.Idle) (hc : s.alive c = true) (ho : s.live o = true)
    (hne : s.ptr c ≠ some o) (hself : s.Outlives c c) (hgone : Dying s.ptrs c o) :
    ∃ n s', (machine ι o₀).run s (.op (.resetTo c (some o)) :: List.replicate n .step) = some s' ∧
      next s' .step = .fault .deadObject := by
  obtain ⟨s₁, n, s₂, hdetach, hrun, hcall, h₂⟩ :=
    h.detached o₀ hc hself (.point (some o))
  have hnext : (machine ι o₀).next s (.op (.resetTo c (some o))) = .step s₁ := by
    show next s (.op (.resetTo c (some o))) = .step s₁
    simp only [next, h.call, Option.isNone_none, if_true, start, hc, valid, ho, Bool.and_self,
      if_neg hne, hdetach]
  refine ⟨n, s₂, (Machine.run_cons hnext _).trans hrun, ?_⟩
  have hdead := h₂.not_live hgone
  have halive : s₂.alive c = true := h₂.target_alive
  simp only [next, hcall, advance, finish, halive, if_true, attach]
  split
  · rename_i n' m' hb
    rw [live_iff.2 ⟨n', m', hb⟩] at hdead
    cases hdead
  · rfl

end SseExt.SmartPointer.Heap
