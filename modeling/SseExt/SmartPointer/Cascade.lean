import SseExt.Lib.Ownership
import SseExt.SmartPointer.Heap

/-!
# Deletions in progress

While objects are being deleted a count does not cover the pointers that are on the stack, each
still set although its reference has been given back. `Sound` says that a count is the number of the
other pointers.

`Cascade` relates a call in progress to the pointers `p` there were when it began: whatever is gone,
goes with the target (`Handles.Goes`), so what does not go with it is still there (`Ready`).
-/

namespace SseExt.SmartPointer

variable {ι O : Type*} [DecidableEq ι] [DecidableEq O]

/-- The pointers on the stack. -/
def triggers (stack : List (Frame ι O)) : Finset (Cell ι O) := (stack.map Frame.trigger).toFinset

namespace Heap

/-- The pointers that the counts cover. -/
def counted (s : Heap ι O) (stack : List (Frame ι O)) : Handles (Cell ι O) O :=
  ⟨s.ptrs.live \ triggers stack, s.ptrs.ref⟩

/-- Pointers are stored where there is storage, and counts are numbers of pointers. An object on the
stack is not counted any more. A count has dropped to zero once if the object is deleted or on the
stack, and never otherwise. -/
structure Sound (s : Heap ι O) (stack : List (Frame ι O)) : Prop where
  alive : ∀ c ∈ s.ptrs.live, s.alive c = true
  counts : ∀ o n m, s.block o = .live n m → n.toNat = (s.counted stack).count o
  live : ∀ c ∈ (s.counted stack).live, s.live (s.ptrs.ref c) = true
  frames : ∀ f ∈ stack, ∃ m, s.block f.obj = .live 0 m ∧ f.left ≤ m
  dropped : ∀ o, s.block o = .deleted ∨ (∃ f ∈ stack, f.obj = o) → s.drops o = 1
  kept : ∀ o, s.block o ≠ .deleted → (∀ f ∈ stack, f.obj ≠ o) → s.drops o = 0

/-- The object that a handle on `c` takes along. -/
def Dying (p : Handles (Cell ι O) O) (c : Cell ι O) (o : O) : Prop := p.Dies Cell.owner c o

/-- Each pointer on the stack is the target or a member of an object below it. Objects and pointers
are on the stack once. -/
def Chained (target : Cell ι O) : List (Frame ι O) → Prop
  | [] => True
  | f :: stack => (f.trigger = target ∨ ∃ g ∈ stack, f.trigger.owner = some g.obj) ∧
      (∀ g ∈ stack, g.obj ≠ f.obj) ∧ (∀ g ∈ stack, g.trigger ≠ f.trigger) ∧ Chained target stack

/-- What the rest of a call needs does not go with the target. -/
def Ready (s : Heap ι O) (p : Handles (Cell ι O) O) (target : Cell ι O) : Rest ι O → Prop
  | .done => True
  | .copy rhs => s.alive rhs = true ∧ rhs ≠ target ∧ (∀ o, Dying p target o → rhs.owner ≠ some o) ∧
      (rhs ∈ p.live → p.FewStay Cell.owner target (p.ref rhs) (2 ^ 32 - 1))
  | .take rhs => s.alive rhs = true ∧ rhs ≠ target ∧ ∀ o, Dying p target o → rhs.owner ≠ some o
  | .point q => ∀ o ∈ q, s.live o = true ∧ ¬ Dying p target o ∧
      p.FewStay Cell.owner target o (2 ^ 32 - 1)
  | .leave i => target = .root i

/-- A call in progress. Its `TryDetach` of the cell `x`, if any, is still to come. -/
structure Cascade (s : Heap ι O) (p : Handles (Cell ι O) O) (call : Call ι O)
    (x : Option (Cell ι O)) : Prop where
  sound : s.Sound call.stack
  within : ∀ c ∈ (s.counted call.stack).live, c ∈ p.live ∧ s.ptrs.ref c = p.ref c
  gone : ∀ c ∈ p.live, c ∉ (s.counted call.stack).live → p.Goes Cell.owner call.target c
  dies : ∀ f ∈ call.stack, Dying p call.target f.obj
  zero : ∀ o m, s.block o = .live 0 m →
    (∃ f ∈ call.stack, f.obj = o) ∨ ∀ c ∈ p.live, p.ref c ≠ o
  spared : ∀ o, Dying p call.target o → call.target.owner ≠ some o
  target_alive : s.alive call.target = true
  target_null : call.target ∈ (s.counted call.stack).live → x = some call.target
  chain : Chained call.target call.stack
  held : ∀ f ∈ call.stack, f.trigger ∈ s.ptrs.live
  emptied : ∀ f ∈ call.stack, ∀ j, f.left ≤ j →
    .member f.obj j ∈ (s.counted call.stack).live → x = some (.member f.obj j)

/-- How far a call is from its end, with the counted pointers: what is left on the stack. -/
def weight (stack : List (Frame ι O)) : ℕ := (stack.map fun f => f.left + 1).sum

/-- The call goes on in `s'` with fewer than `k` counted pointers, or with `k` and less than `w` to
do. -/
structure Follows (s : Heap ι O) (p : Handles (Cell ι O) O) (call : Call ι O) (k w : ℕ)
    (s' : Heap ι O) (stack' : List (Frame ι O)) : Prop where
  running : s'.call = some { call with stack := stack' }
  cascade : s'.Cascade p { call with stack := stack' } none
  ready : s.Ready p call.target call.rest → s'.Ready p call.target call.rest
  below : (s'.counted stack').live.card < k ∨
    (s'.counted stack').live.card = k ∧ weight stack' < w

/-- No call is in progress. -/
structure Idle (s : Heap ι O) : Prop where
  call : s.call = none
  sound : s.Sound []

/-- The invariant of all runs. -/
def Inv (s : Heap ι O) : Prop :=
  s.Idle ∨ ∃ p call, s.call = some call ∧ s.Cascade p call none ∧ s.Ready p call.target call.rest

variable {s s' : Heap ι O} {p : Handles (Cell ι O) O} {stack stack' : List (Frame ι O)}
  {c d target : Cell ι O} {o q : O} {n : UInt32} {m j : ℕ} {rest : Rest ι O} {call : Call ι O}
  {f : Frame ι O} {b : Block} {x : Option (Cell ι O)}

/-! ## Storage -/

omit [DecidableEq O] in
theorem lt_of_alive (h : s.alive (.member o j) = true) (hb : s.block o = .live n m) : j < m := by
  simpa [alive, hb] using h

omit [DecidableEq O] in
theorem live_of_alive (h : s.alive c = true) (ho : c.owner = some o) : s.live o = true := by
  cases c with
  | root i => cases ho
  | member o' j =>
    cases ho
    simp only [alive, live] at h ⊢
    split at h
    · rfl
    · cases h

omit [DecidableEq ι] [DecidableEq O] in
theorem live_iff : s.live o = true ↔ ∃ n m, s.block o = .live n m := by
  unfold live
  cases s.block o <;> simp

/-- Changing a count changes no storage. -/
theorem alive_of_count (hb : s.block o = .live n m) (n' : UInt32)
    (hs' : s'.block = Function.update s.block o (.live n' m)) (hr : s'.roots = s.roots) :
    s'.alive c = s.alive c := by
  cases c with
  | root i => simp only [alive, hr]
  | member o' j =>
    simp only [alive, hs']
    by_cases ho : o' = o
    · rw [ho, Function.update_self, hb]
    · rw [Function.update_of_ne ho]

omit [DecidableEq ι] in
theorem live_of_count (hb : s.block o = .live n m) (n' : UInt32)
    (hs' : s'.block = Function.update s.block o (.live n' m)) : s'.live q = s.live q := by
  simp only [live, hs']
  by_cases ho : q = o
  · rw [ho, Function.update_self, hb]
  · rw [Function.update_of_ne ho]

/-- Freeing an object takes its own storage only. -/
theorem alive_of_free (hs' : s'.block = Function.update s.block o .deleted)
    (hr : s'.roots = s.roots) (hc : c.owner ≠ some o) : s'.alive c = s.alive c := by
  cases c with
  | root i => simp only [alive, hr]
  | member o' j =>
    have ho : o' ≠ o := fun h => hc (congrArg some h)
    simp only [alive, hs', Function.update_of_ne ho]

omit [DecidableEq ι] in
theorem live_of_free (hs' : s'.block = Function.update s.block o .deleted) (hq : q ≠ o) :
    s'.live q = s.live q := by
  simp only [live, hs', Function.update_of_ne hq]

/-! ## Counted pointers -/

theorem mem_counted :
    c ∈ (s.counted stack).live ↔ c ∈ s.ptrs.live ∧ ∀ f ∈ stack, f.trigger ≠ c := by
  simp [counted, triggers]

@[simp] theorem counted_nil (s : Heap ι O) : s.counted [] = s.ptrs := by
  simp [counted, triggers]

/-- Pushing a pointer or setting it to null both take it out of the count. -/
theorem counted_push (hptrs : s'.ptrs = s.ptrs) (hf : f.trigger = c) :
    s'.counted (f :: stack) = (s.counted stack).drop c := by
  simp only [counted, triggers, List.map_cons, List.toFinset_cons, hptrs, hf, Finset.sdiff_insert,
    Handles.drop]

theorem counted_null (hptrs : s'.ptrs = s.ptrs.drop c) :
    s'.counted stack = (s.counted stack).drop c := by
  simp only [counted, hptrs, Handles.drop, Finset.erase_sdiff_comm]

/-- The count of an object that a counted pointer refers to. -/
theorem Sound.count_pred (hs : s.Sound stack) (hc : c ∈ (s.counted stack).live)
    (hb : s.block (s.ptrs.ref c) = .live n m) :
    (n - 1).toNat + 1 = (s.counted stack).count (s.ptrs.ref c) := by
  have hcount := hs.counts _ n m hb
  have hpos : 0 < (s.counted stack).count (s.ptrs.ref c) := Handles.count_pos hc
  have hlt := n.toNat_lt
  rw [← hcount] at hpos ⊢
  rw [UInt32.toNat_sub]
  simp only [UInt32.reduceToNat]
  omega

/-- An object with a counted pointer is not on the stack. -/
theorem Sound.ref_ne_of_mem (hs : s.Sound stack) (hc : c ∈ (s.counted stack).live)
    (hf : f ∈ stack) : f.obj ≠ s.ptrs.ref c := by
  intro heq
  obtain ⟨m, hb, -⟩ := hs.frames f hf
  have hcount := hs.counts _ 0 m hb
  have hpos : 0 < (s.counted stack).count (s.ptrs.ref c) := Handles.count_pos hc
  rw [← heq, ← hcount] at hpos
  exact absurd hpos (by decide)

/-! ## Releasing a pointer -/

/-- What `DecRef` for the counted pointer `c` leaves, whether or not the count drops to zero. -/
structure Released (s : Heap ι O) (stack : List (Frame ι O)) (c : Cell ι O) (n : UInt32) (m : ℕ)
    (s' : Heap ι O) (stack' : List (Frame ι O)) : Prop where
  block : s'.block = Function.update s.block (s.ptrs.ref c) (.live (n - 1) m)
  roots : s'.roots = s.roots
  counted : s'.counted stack' = (s.counted stack).drop c
  ptrs : ∀ d ∈ s'.ptrs.live, d ∈ s.ptrs.live

theorem Released.ref (h : s.Released stack c n m s' stack') : s'.ptrs.ref = s.ptrs.ref := by
  have href := congrArg Handles.ref h.counted
  exact href

theorem Released.mem (h : s.Released stack c n m s' stack') (hd : d ∈ (s'.counted stack').live) :
    d ≠ c ∧ d ∈ (s.counted stack).live := by
  rw [h.counted] at hd
  exact Handles.mem_live_drop.1 hd

theorem Sound.released (hs : s.Sound stack) (hc : c ∈ (s.counted stack).live)
    (hb : s.block (s.ptrs.ref c) = .live n m)
    (h : s.Released stack c n m s' stack')
    (hstack : ∀ f ∈ stack', f ∈ stack ∨ f.obj = s.ptrs.ref c ∧ f.left = m ∧ n - 1 = 0)
    (hdropped : ∀ o, s.block o = .deleted ∨ (∃ f ∈ stack', f.obj = o) → s'.drops o = 1)
    (hkept : ∀ o, s.block o ≠ .deleted → (∀ f ∈ stack', f.obj ≠ o) → s'.drops o = 0) :
    s'.Sound stack' := by
  have hne : ∀ o, s.block o = .deleted ↔ s'.block o = .deleted := by
    intro o
    rw [h.block]
    by_cases ho : o = s.ptrs.ref c
    · rw [ho, hb, Function.update_self]
      exact iff_of_false Block.noConfusion Block.noConfusion
    · rw [Function.update_of_ne ho]
  refine ⟨fun d hd => ?_, fun o n' m' ho => ?_, fun d hd => ?_, fun f hf => ?_, fun o ho => ?_,
    fun o ho hnone => ?_⟩
  · rw [alive_of_count hb _ h.block h.roots]
    exact hs.alive d (h.ptrs d hd)
  · have hcount := Handles.count_drop (r := o) hc
    rw [h.counted]
    by_cases heq : o = s.ptrs.ref c
    · subst heq
      rw [h.block, Function.update_self] at ho
      cases ho
      have hpred := hs.count_pred hc hb
      rw [if_pos (by rfl)] at hcount
      omega
    · rw [h.block, Function.update_of_ne heq] at ho
      rw [if_neg (fun hr => heq hr.symm)] at hcount
      rw [hs.counts o n' m' ho, ← hcount]
      rfl
  · rw [h.ref, live_of_count hb _ h.block]
    exact hs.live d (h.mem hd).2
  · rw [h.block]
    rcases hstack f hf with hold | ⟨heq, hleft, hzero⟩
    · rw [Function.update_of_ne (hs.ref_ne_of_mem hc hold)]
      exact hs.frames f hold
    · exact ⟨m, by rw [heq, Function.update_self, hzero], hleft.le⟩
  · exact hdropped o (ho.imp_left (hne o).2)
  · exact hkept o (fun hdel => ho ((hne o).1 hdel)) hnone

omit [DecidableEq O] in
theorem Ready.mono (h : s.Ready p target rest)
    (halive : ∀ d, (∀ o, Dying p target o → d.owner ≠ some o) → s.alive d = true →
      s'.alive d = true)
    (hlive : ∀ q, ¬ Dying p target q → s.live q = true → s'.live q = true) :
    s'.Ready p target rest := by
  cases rest with
  | done => trivial
  | copy rhs => exact ⟨halive rhs h.2.2.1 h.1, h.2⟩
  | take rhs => exact ⟨halive rhs h.2.2 h.1, h.2⟩
  | point q => exact fun o ho => ⟨hlive o (h o ho).2.1 (h o ho).1, (h o ho).2⟩
  | leave i => exact h

theorem Ready.released (h : s.Ready p target rest) (hb : s.block (s.ptrs.ref c) = .live n m)
    (hrel : s.Released stack c n m s' stack') : s'.Ready p target rest :=
  h.mono (fun d _ hd => by rwa [alive_of_count hb _ hrel.block hrel.roots])
    (fun q _ hq => by rwa [live_of_count hb _ hrel.block])

/-- **The last pointer takes its object along.** -/
theorem Cascade.dying (h : s.Cascade p call x) (hc : c ∈ (s.counted call.stack).live)
    (hone : (s.counted call.stack).count (s.ptrs.ref c) = 1)
    (hgoes : p.Goes Cell.owner call.target c) : Dying p call.target (s.ptrs.ref c) := by
  obtain ⟨hp, href⟩ := h.within c hc
  refine .of_goes hp href.symm fun d hd hdr => ?_
  by_cases hcounted : d ∈ (s.counted call.stack).live
  · have hdr' : s.ptrs.ref d = s.ptrs.ref c := (h.within d hcounted).2.trans hdr
    rw [← Handles.eq_of_count_eq_one hone hc rfl hcounted hdr']
    exact hgoes
  · exact h.gone d hd hcounted

/-- The members of the object of a new frame are its own. -/
theorem Cascade.released (h : s.Cascade p call (some c)) (hc : c ∈ (s.counted call.stack).live)
    (hb : s.block (s.ptrs.ref c) = .live n m)
    (hrel : s.Released call.stack c n m s' stack') (hsound : s'.Sound stack')
    (hgoes : p.Goes Cell.owner call.target c)
    (hstack : ∀ f ∈ stack', f ∈ call.stack ∨ f.obj = s.ptrs.ref c ∧ f.left = m ∧ n - 1 = 0)
    (hold : ∀ f ∈ call.stack, f ∈ stack')
    (hnew : n - 1 = 0 → ∃ f ∈ stack', f.obj = s.ptrs.ref c)
    (hchain : Chained call.target stack') (hheld : ∀ f ∈ stack', f.trigger ∈ s'.ptrs.live) :
    s'.Cascade p { call with stack := stack' } none where
  sound := hsound
  within d hd := by
    rw [hrel.ref]
    exact h.within d (hrel.mem hd).2
  gone d hd hnot := by
    by_cases hdc : d = c
    · exact hdc ▸ hgoes
    · refine h.gone d hd fun hmem => hnot ?_
      rw [hrel.counted]
      exact Handles.mem_live_drop.2 ⟨hdc, hmem⟩
  dies f hf := by
    rcases hstack f hf with hold | ⟨heq, -, hzero⟩
    · exact h.dies f hold
    · rw [heq]
      refine h.dying hc ?_ hgoes
      have hpred := h.sound.count_pred hc hb
      rw [hzero] at hpred
      exact hpred.symm
  zero o m' ho := by
    by_cases heq : o = s.ptrs.ref c
    · rw [heq, hrel.block, Function.update_self] at ho
      injection ho with hzero
      exact .inl (heq ▸ hnew hzero)
    · rw [hrel.block, Function.update_of_ne heq] at ho
      exact (h.zero o m' ho).imp_left fun ⟨f, hf, hfo⟩ => ⟨f, hold f hf, hfo⟩
  spared := h.spared
  target_alive := by
    rw [alive_of_count hb _ hrel.block hrel.roots]
    exact h.target_alive
  target_null hmem := by
    obtain ⟨hne, hmem⟩ := hrel.mem hmem
    exact absurd (Option.some.inj (h.target_null hmem)).symm hne
  chain := hchain
  held := hheld
  emptied f hf j hj hmem := by
    obtain ⟨hne, hmem⟩ := hrel.mem hmem
    rcases hstack f hf with hold | ⟨heq, hleft, -⟩
    · exact absurd (Option.some.inj (h.emptied f hold j hj hmem)).symm hne
    · have halive := h.sound.alive _ (mem_counted.1 hmem).1
      have hlt := lt_of_alive halive (heq ▸ hb)
      omega

/-- The invariant does not look at the call. -/
theorem Sound.setCall (hs : s.Sound stack) (k : Option (Call ι O)) : (s.setCall k).Sound stack :=
  ⟨hs.alive, hs.counts, hs.live, hs.frames, hs.dropped, hs.kept⟩

/-- A null pointer detaches as it is. -/
theorem Cascade.of_null (h : s.Cascade p call (some c)) (hc : c ∉ s.ptrs.live)
    (k : Option (Call ι O)) : (s.setCall k).Cascade p call none where
  sound := h.sound.setCall k
  within := h.within
  gone := h.gone
  dies := h.dies
  zero := h.zero
  spared := h.spared
  target_alive := h.target_alive
  target_null hmem := by
    obtain rfl := Option.some.inj (h.target_null hmem)
    exact absurd (mem_counted.1 hmem).1 hc
  chain := h.chain
  held := h.held
  emptied f hf j hj hmem := by
    obtain rfl := Option.some.inj (h.emptied f hf j hj hmem)
    exact absurd (mem_counted.1 hmem).1 hc

/-- **`TryDetach`** keeps the invariant. -/
theorem Cascade.tryDetach (h : s.Cascade p ⟨stack, target, rest⟩ (some c))
    (halive : s.alive c = true) (htrigger : ∀ f ∈ stack, f.trigger ≠ c)
    (howner : c = target ∨ ∃ f ∈ stack, c.owner = some f.obj) :
    (s.tryDetach c stack target rest).Ensures fun s' => ∃ stack',
      s.Follows p ⟨stack, target, rest⟩ (s.counted stack).live.card (weight stack + 1)
        s' stack' := by
  simp only [Heap.tryDetach, halive, Bool.not_true, Bool.false_eq_true, if_false]
  by_cases hlive : c ∈ s.ptrs.live
  · rw [show s.ptr c = some (s.ptrs.ref c) from if_pos hlive]
    have hc : c ∈ (s.counted stack).live := mem_counted.2 ⟨hlive, htrigger⟩
    have hgoes : p.Goes Cell.owner target c := by
      rcases howner with htarget | ⟨f, hf, hown⟩
      · exact .inl htarget
      · exact .inr ⟨f.obj, hown, h.dies f hf⟩
    obtain ⟨n, m, hb⟩ := live_iff.1 (h.sound.live c hc)
    have hnot : ∀ f ∈ stack, f.obj ≠ s.ptrs.ref c := fun f hf => h.sound.ref_ne_of_mem hc hf
    have hcard : ((s.counted stack).drop c).live.card < (s.counted stack).live.card :=
      Finset.card_erase_lt_of_mem hc
    simp only [hb]
    split_ifs with hzero
    · -- The count drops to zero, and the object goes on the stack.
      have hrel : s.Released stack c n m ({ s.setBlock (s.ptrs.ref c) (.live (n - 1) m) with
          drops := Function.update s.drops (s.ptrs.ref c) (s.drops (s.ptrs.ref c) + 1) }.setCall
            (some ⟨⟨s.ptrs.ref c, m, c⟩ :: stack, target, rest⟩)) (⟨s.ptrs.ref c, m, c⟩ :: stack) :=
        ⟨rfl, rfl, counted_push rfl rfl, fun _ hd => hd⟩
      have hkept : s.drops (s.ptrs.ref c) = 0 := by
        refine h.sound.kept _ ?_ hnot
        rw [hb]
        exact Block.noConfusion
      have hstack : ∀ f ∈ ⟨s.ptrs.ref c, m, c⟩ :: stack,
          f ∈ stack ∨ f.obj = s.ptrs.ref c ∧ f.left = m ∧ n - 1 = 0 := by
        intro f hf
        rcases List.mem_cons.1 hf with rfl | hf
        · exact .inr ⟨rfl, rfl, hzero⟩
        · exact .inl hf
      refine ⟨_, rfl, h.released hc hb hrel (h.sound.released hc hb hrel hstack ?_ ?_) hgoes hstack
        (fun f hf => List.mem_cons_of_mem _ hf) (fun _ => ⟨_, List.mem_cons_self, rfl⟩) ?_ ?_,
        fun hr => hr.released hb hrel, .inl (hrel.counted ▸ hcard)⟩
      · intro o ho
        show Function.update s.drops _ _ o = 1
        by_cases heq : o = s.ptrs.ref c
        · rw [heq, Function.update_self, hkept]
        · rw [Function.update_of_ne heq]
          refine h.sound.dropped o (ho.imp_right ?_)
          rintro ⟨f, hf, hfo⟩
          rcases List.mem_cons.1 hf with rfl | hf
          · exact absurd hfo.symm heq
          · exact ⟨f, hf, hfo⟩
      · intro o ho hnone
        have hne : o ≠ s.ptrs.ref c := fun heq => hnone _ List.mem_cons_self heq.symm
        show Function.update s.drops _ _ o = 0
        rw [Function.update_of_ne hne]
        exact h.sound.kept o ho fun f hf => hnone f (List.mem_cons_of_mem _ hf)
      · exact ⟨howner, hnot, htrigger, h.chain⟩
      · intro f hf
        rcases List.mem_cons.1 hf with rfl | hf
        · exact hlive
        · exact h.held f hf
    · -- Other pointers keep the object.
      have hrel : s.Released stack c n m
          (((s.setBlock (s.ptrs.ref c) (.live (n - 1) m)).null c).setCall
            (some ⟨stack, target, rest⟩)) stack :=
        ⟨rfl, rfl, counted_null rfl, fun _ hd => (Handles.mem_live_drop.1 hd).2⟩
      refine ⟨_, rfl, h.released hc hb hrel (h.sound.released hc hb hrel (fun f hf => .inl hf)
        h.sound.dropped h.sound.kept) hgoes (fun f hf => .inl hf) (fun f hf => hf)
        (fun heq => absurd heq hzero) h.chain fun f hf => ?_,
        fun hr => hr.released hb hrel, .inl (hrel.counted ▸ hcard)⟩
      exact Handles.mem_live_drop.2 ⟨htrigger f hf, h.held f hf⟩
  · rw [show s.ptr c = none from if_neg hlive]
    exact ⟨_, rfl, h.of_null hlive _, fun hr => hr.mono (fun _ _ hd => hd) fun _ _ hq => hq,
      .inr ⟨rfl, Nat.lt_succ_self _⟩⟩

/-! ## The destructor of an object -/

omit [DecidableEq ι] [DecidableEq O] in
theorem Chained.owner_of_mem (h : Chained target stack) (hf : f ∈ stack) :
    f.trigger = target ∨ ∃ g ∈ stack, f.trigger.owner = some g.obj := by
  induction stack with
  | nil => exact absurd hf List.not_mem_nil
  | cons g stack ih =>
    rcases List.mem_cons.1 hf with rfl | hf
    · exact h.1.imp_right fun ⟨g, hg, hown⟩ => ⟨g, List.mem_cons_of_mem _ hg, hown⟩
    · exact (ih h.2.2.2 hf).imp_right fun ⟨g, hg, hown⟩ => ⟨g, List.mem_cons_of_mem _ hg, hown⟩

/-- No pointer on the stack is a member of the object on top. -/
theorem Cascade.owner_ne (h : s.Cascade p call x) (hstack : call.stack = f :: stack) {g : Frame ι O}
    (hg : g ∈ f :: stack) : g.trigger.owner ≠ some f.obj := by
  have hchain := h.chain
  have hdies : Dying p call.target f.obj := h.dies f (hstack ▸ List.mem_cons_self)
  rw [hstack] at hchain
  have howner : g.trigger = call.target ∨ ∃ g' ∈ stack, g.trigger.owner = some g'.obj := by
    rcases List.mem_cons.1 hg with rfl | hg
    · exact hchain.1
    · exact hchain.2.2.2.owner_of_mem hg
  rcases howner with htarget | ⟨g', hg', hown⟩
  · rw [htarget]
    exact h.spared f.obj hdies
  · rw [hown]
    exact fun heq => hchain.2.1 g' hg' (Option.some.inj heq)

theorem Sound.left (hs : s.Sound (⟨o, j + 1, c⟩ :: stack)) : s.Sound (⟨o, j, c⟩ :: stack) where
  alive := hs.alive
  counts := hs.counts
  live := hs.live
  frames f hf := by
    rcases List.mem_cons.1 hf with rfl | hf
    · obtain ⟨m, hb, hle⟩ := hs.frames ⟨o, j + 1, c⟩ List.mem_cons_self
      exact ⟨m, hb, Nat.le_of_succ_le hle⟩
    · exact hs.frames f (List.mem_cons_of_mem _ hf)
  dropped q hq := by
    refine hs.dropped q (hq.imp_right ?_)
    rintro ⟨f, hf, rfl⟩
    rcases List.mem_cons.1 hf with rfl | hf
    · exact ⟨⟨o, j + 1, c⟩, List.mem_cons_self, rfl⟩
    · exact ⟨f, List.mem_cons_of_mem _ hf, rfl⟩
  kept q hq hnone := by
    refine hs.kept q hq fun f hf => ?_
    rcases List.mem_cons.1 hf with rfl | hf
    · exact hnone ⟨o, j, c⟩ List.mem_cons_self
    · exact hnone f (List.mem_cons_of_mem _ hf)

/-- **The next member** is detached. -/
theorem Cascade.member (h : s.Cascade p ⟨⟨o, j + 1, c⟩ :: stack, target, rest⟩ none) :
    (s.tryDetach (.member o j) (⟨o, j, c⟩ :: stack) target rest).Ensures fun s' => ∃ stack',
      s.Follows p ⟨⟨o, j + 1, c⟩ :: stack, target, rest⟩
        (s.counted (⟨o, j + 1, c⟩ :: stack)).live.card (weight (⟨o, j + 1, c⟩ :: stack))
        s' stack' := by
  obtain ⟨m, hb, hle⟩ := h.sound.frames ⟨o, j + 1, c⟩ List.mem_cons_self
  have hcascade : s.Cascade p ⟨⟨o, j, c⟩ :: stack, target, rest⟩ (some (.member o j)) :=
    { sound := h.sound.left
      within := h.within
      gone := h.gone
      dies := by
        intro f hf
        rcases List.mem_cons.1 hf with rfl | hf
        · exact h.dies ⟨o, j + 1, c⟩ List.mem_cons_self
        · exact h.dies f (List.mem_cons_of_mem _ hf)
      zero := by
        intro q m' hq
        refine (h.zero q m' hq).imp_left ?_
        rintro ⟨f, hf, hfq⟩
        rcases List.mem_cons.1 hf with rfl | hf
        · exact ⟨⟨o, j, c⟩, List.mem_cons_self, hfq⟩
        · exact ⟨f, List.mem_cons_of_mem _ hf, hfq⟩
      spared := h.spared
      target_alive := h.target_alive
      target_null := fun hmem => nomatch h.target_null hmem
      chain := h.chain
      held := by
        intro f hf
        rcases List.mem_cons.1 hf with rfl | hf
        · exact h.held ⟨o, j + 1, c⟩ List.mem_cons_self
        · exact h.held f (List.mem_cons_of_mem _ hf)
      emptied := by
        intro f hf i hi hmem
        rcases List.mem_cons.1 hf with rfl | hf
        · rcases Nat.eq_or_lt_of_le hi with rfl | hlt
          · rfl
          · exact nomatch h.emptied ⟨o, j + 1, c⟩ List.mem_cons_self i hlt hmem
        · exact nomatch h.emptied f (List.mem_cons_of_mem _ hf) i hi hmem }
  have hweight : weight (⟨o, j, c⟩ :: stack) + 1 = weight (⟨o, j + 1, c⟩ :: stack) := by
    simp only [weight, List.map_cons, List.sum_cons]
    omega
  have halive : s.alive (.member o j) = true := by
    simp only [alive, hb, decide_eq_true_eq]
    exact hle
  have hdetach := hcascade.tryDetach halive
    (fun f hf heq => hcascade.owner_ne rfl hf (congrArg Cell.owner heq))
    (.inr ⟨_, List.mem_cons_self, rfl⟩)
  rw [hweight] at hdetach
  exact hdetach.mono fun s' ⟨stack', h'⟩ => ⟨stack', h'.running, h'.cascade, h'.ready, h'.below⟩

/-- **The object is freed**, and the pointer that released it set to null. -/
theorem Cascade.free (h : s.Cascade p ⟨⟨o, 0, c⟩ :: stack, target, rest⟩ none) :
    (s.free o c ⟨stack, target, rest⟩).Ensures fun s' => ∃ stack',
      s.Follows p ⟨⟨o, 0, c⟩ :: stack, target, rest⟩
        (s.counted (⟨o, 0, c⟩ :: stack)).live.card (weight (⟨o, 0, c⟩ :: stack)) s' stack' := by
  obtain ⟨m, hb, -⟩ := h.sound.frames ⟨o, 0, c⟩ List.mem_cons_self
  have hdies : Dying p target o := h.dies ⟨o, 0, c⟩ List.mem_cons_self
  have howner : c.owner ≠ some o := h.owner_ne rfl List.mem_cons_self
  have hfree : ∀ d, d.owner ≠ some o → (s.setBlock o .deleted).alive d = s.alive d :=
    fun d hd => alive_of_free rfl rfl hd
  have halive : (s.setBlock o .deleted).alive c = true := by
    rw [hfree c howner]
    exact h.sound.alive c (h.held _ List.mem_cons_self)
  simp only [Heap.free, live_iff.2 ⟨0, m, hb⟩, halive, Bool.not_true, Bool.false_eq_true, if_false]
  set s' := ((s.setBlock o .deleted).null c).setCall (some ⟨stack, target, rest⟩)
  have hK : s'.counted stack = s.counted (⟨o, 0, c⟩ :: stack) := by
    rw [counted_push rfl rfl]
    exact counted_null rfl
  -- Nothing counted refers to the object, and no pointer left is stored in it.
  have href : ∀ d ∈ (s.counted (⟨o, 0, c⟩ :: stack)).live, s.ptrs.ref d ≠ o :=
    fun d hd heq => h.sound.ref_ne_of_mem hd List.mem_cons_self heq.symm
  have hstored : ∀ d ∈ s.ptrs.live, d.owner ≠ some o := by
    intro d hd
    by_cases hcounted : d ∈ (s.counted (⟨o, 0, c⟩ :: stack)).live
    · rintro hown
      obtain ⟨j, rfl⟩ : ∃ j, d = .member o j := by
        cases d with
        | root i => cases hown
        | member o' j => exact ⟨j, by rw [Option.some.inj hown]⟩
      exact nomatch h.emptied ⟨o, 0, c⟩ List.mem_cons_self j (Nat.zero_le j) hcounted
    · obtain ⟨f, hf, rfl⟩ : ∃ f ∈ (⟨o, 0, c⟩ : Frame ι O) :: stack, f.trigger = d := by
        by_contra hnone
        exact hcounted (mem_counted.2 ⟨hd, fun f hf heq => hnone ⟨f, hf, heq⟩⟩)
      exact h.owner_ne rfl hf
  have hblock : ∀ q, q ≠ o → s'.block q = s.block q := fun q hq => Function.update_of_ne hq ..
  have hself : s'.block o = .deleted := Function.update_self ..
  have hobj : ∀ f ∈ stack, f.obj ≠ o := h.chain.2.1
  have hsound : s'.Sound stack := by
    refine ⟨fun d hd => ?_, fun q n' m' hq => ?_, fun d hd => ?_, fun f hf => ?_, fun q hq => ?_,
      fun q hq hnone => ?_⟩
    · have hlive := (Handles.mem_live_drop.1 hd).2
      exact (hfree d (hstored d hlive)).trans (h.sound.alive d hlive)
    · have hne : q ≠ o := by
        rintro rfl
        rw [hself] at hq
        cases hq
      rw [hK]
      exact h.sound.counts q n' m' ((hblock q hne).symm.trans hq)
    · rw [hK] at hd
      exact (live_of_free rfl (href d hd)).trans (h.sound.live d hd)
    · rw [hblock _ (hobj f hf)]
      exact h.sound.frames f (List.mem_cons_of_mem _ hf)
    · refine h.sound.dropped q ?_
      by_cases hqo : q = o
      · exact .inr ⟨⟨o, 0, c⟩, List.mem_cons_self, hqo.symm⟩
      · rw [hblock q hqo] at hq
        exact hq.imp_right fun ⟨f, hf, hfq⟩ => ⟨f, List.mem_cons_of_mem _ hf, hfq⟩
    · have hne : q ≠ o := by
        rintro rfl
        exact hq hself
      rw [hblock q hne] at hq
      refine h.sound.kept q hq fun f hf => ?_
      rcases List.mem_cons.1 hf with rfl | hf
      · exact hne.symm
      · exact hnone f hf
  have hweight : weight stack < weight (⟨o, 0, c⟩ :: stack) := by
    simp only [weight, List.map_cons, List.sum_cons]
    omega
  have hready : s.Ready p target rest → s'.Ready p target rest := fun hr =>
    hr.mono (fun d hd hlive => (hfree d (hd o hdies)).trans hlive) fun q hq hlive => by
      have hne : q ≠ o := by
        rintro rfl
        exact hq hdies
      exact (live_of_free rfl hne).trans hlive
  exact ⟨stack, rfl, {
    sound := hsound
    within := fun d hd => h.within d (hK ▸ hd)
    gone := fun d hd hnot => h.gone d hd fun hmem => hnot (hK ▸ hmem)
    dies := fun f hf => h.dies f (List.mem_cons_of_mem _ hf)
    zero := fun q m' hq => by
      have hne : q ≠ o := by
        rintro rfl
        rw [hself] at hq
        cases hq
      rw [hblock q hne] at hq
      refine (h.zero q m' hq).imp_left ?_
      rintro ⟨f, hf, hfq⟩
      rcases List.mem_cons.1 hf with rfl | hf
      · exact absurd hfq.symm hne
      · exact ⟨f, hf, hfq⟩
    spared := h.spared
    target_alive := (hfree target (h.spared o hdies)).trans h.target_alive
    target_null := fun hmem => h.target_null (hK ▸ hmem)
    chain := h.chain.2.2.2
    held := fun f hf => Handles.mem_live_drop.2
      ⟨h.chain.2.2.1 f hf, h.held f (List.mem_cons_of_mem _ hf)⟩
    emptied := fun f hf j hj hmem => h.emptied f (List.mem_cons_of_mem _ hf) j hj (hK ▸ hmem) },
    hready, .inr ⟨congrArg (fun K => K.live.card) hK, hweight⟩⟩

/-! ## The end of a call -/

theorem null_of_notMem (hc : c ∉ s.ptrs.live) : s.null c = s := by
  unfold null Handles.drop
  rw [Finset.erase_eq_of_notMem hc]

/-- With no call in progress the counts cover all pointers. -/
theorem sound_nil_iff : s.Sound [] ↔ (∀ c ∈ s.ptrs.live, s.alive c = true) ∧
    (∀ o n m, s.block o = .live n m → n.toNat = s.ptrs.count o) ∧
    (∀ c ∈ s.ptrs.live, s.live (s.ptrs.ref c) = true) ∧
    (∀ o, s.block o = .deleted → s.drops o = 1) ∧ ∀ o, s.block o ≠ .deleted → s.drops o = 0 := by
  constructor
  · intro hs
    refine ⟨hs.alive, ?_, ?_, fun o ho => hs.dropped o (.inl ho), fun o ho => hs.kept o ho ?_⟩
    · simpa only [counted_nil] using hs.counts
    · simpa only [counted_nil] using hs.live
    · exact fun f hf => absurd hf List.not_mem_nil
  · rintro ⟨halive, hcounts, hlive, hdropped, hkept⟩
    refine ⟨halive, ?_, ?_, fun f hf => absurd hf List.not_mem_nil, ?_, fun o ho _ => hkept o ho⟩
    · simpa only [counted_nil] using hcounts
    · simpa only [counted_nil] using hlive
    · rintro o (ho | ⟨f, hf, -⟩)
      · exact hdropped o ho
      · exact absurd hf List.not_mem_nil

/-- **A null pointer acquires an object.** -/
theorem Sound.attach (hs : s.Sound []) (halive : s.alive c = true) (hc : c ∉ s.ptrs.live)
    {q : Option O} (hq : ∀ o ∈ q, s.live o = true ∧ s.ptrs.count o + 1 < 2 ^ 32) :
    (s.attach c q).Ensures Idle := by
  cases q with
  | none =>
    rw [Heap.attach, null_of_notMem hc]
    exact ⟨rfl, hs.setCall none⟩
  | some o =>
    obtain ⟨hlive, hroom⟩ := hq o rfl
    obtain ⟨n, m, hb⟩ := live_iff.1 hlive
    obtain ⟨hcells, hcounts, hobjects, hdropped, hkept⟩ := sound_nil_iff.1 hs
    simp only [Heap.attach, hb]
    set s' := (({ s with ptrs := s.ptrs.set c o }.setBlock o (.live (n + 1) m)).setCall none)
    have hcell : ∀ d, s'.alive d = s.alive d := fun d => alive_of_count hb (n + 1) rfl rfl
    have hobject : ∀ q, s'.live q = s.live q := fun q => live_of_count hb (n + 1) rfl
    have hdeleted : ∀ q, s'.block q = .deleted ↔ s.block q = .deleted := by
      intro q
      by_cases hqo : q = o
      · rw [hqo, hb]
        refine iff_of_false ?_ Block.noConfusion
        rw [show s'.block o = .live (n + 1) m from Function.update_self ..]
        exact Block.noConfusion
      · rw [show s'.block q = s.block q from Function.update_of_ne hqo ..]
    refine ⟨rfl, sound_nil_iff.2 ⟨fun d hd => ?_, fun q n' m' hblock => ?_, fun d hd => ?_,
      fun q hq => hdropped q ((hdeleted q).1 hq),
      fun q hq => hkept q fun h => hq ((hdeleted q).2 h)⟩⟩
    · rw [hcell]
      rcases Handles.mem_live_set.1 hd with rfl | hd
      · exact halive
      · exact hcells d hd
    · rw [show s'.ptrs.count q = s.ptrs.count q + if o = q then 1 else 0 from Handles.count_set hc]
      by_cases hqo : q = o
      · subst hqo
        rw [show s'.block q = .live (n + 1) m from Function.update_self ..] at hblock
        cases hblock
        rw [if_pos rfl, UInt32.toNat_add, hcounts q n m hb]
        exact Nat.mod_eq_of_lt hroom
      · rw [show s'.block q = s.block q from Function.update_of_ne hqo ..] at hblock
        rw [if_neg (Ne.symm hqo)]
        exact hcounts q n' m' hblock
    · rw [hobject]
      by_cases hdc : d = c
      · rw [hdc, show s'.ptrs.ref c = o from Handles.ref_set_self]
        exact hlive
      · rw [show s'.ptrs.ref d = s.ptrs.ref d from Handles.ref_set_of_ne hdc]
        exact hobjects d ((Handles.mem_live_set.1 hd).resolve_left hdc)

/-- **A null pointer takes an object over.** -/
theorem Sound.take (hs : s.Sound []) (halive : s.alive c = true) (hc : c ∉ s.ptrs.live)
    (hd : d ∈ s.ptrs.live) :
    ({ s with ptrs := (s.ptrs.drop d).set c (s.ptrs.ref d) }.setCall none).Idle := by
  obtain ⟨hcells, hcounts, hobjects, hdropped, hkept⟩ := sound_nil_iff.1 hs
  refine ⟨rfl, sound_nil_iff.2
    ⟨fun e he => ?_, fun q n m hb => ?_, fun e he => ?_, hdropped, hkept⟩⟩
  · rcases Handles.mem_live_set.1 he with rfl | he
    · exact halive
    · exact hcells e (Handles.mem_live_drop.1 he).2
  · have hcount : ((s.ptrs.drop d).set c (s.ptrs.ref d)).count q = s.ptrs.count q :=
      Handles.count_drop_set hd hc
    exact (hcounts q n m hb).trans hcount.symm
  · by_cases hec : e = c
    · subst hec
      show s.live (((s.ptrs.drop d).set e (s.ptrs.ref d)).ref e) = true
      rw [Handles.ref_set_self]
      exact hobjects d hd
    · show s.live (((s.ptrs.drop d).set c (s.ptrs.ref d)).ref e) = true
      rw [Handles.ref_set_of_ne hec]
      exact hobjects e (Handles.mem_live_drop.1 ((Handles.mem_live_set.1 he).resolve_left hec)).2

/-- **When `TryDetach` is through, all that goes with the target is deleted.** -/
theorem Cascade.not_live (h : s.Cascade p ⟨[], target, rest⟩ none) (ho : Dying p target o) :
    s.live o = false := by
  induction ho with
  | @intro o c hc hco hstored _ ih =>
    by_contra hlive
    obtain ⟨n, m, hb⟩ := live_iff.1 (Bool.not_eq_false _ ▸ hlive)
    -- A pointer left would be stored in an object that has been deleted.
    have hnone : (s.counted []).count o = 0 := by
      rw [Handles.count_eq_zero]
      intro d hd hdo
      obtain ⟨hdp, href⟩ := h.within d hd
      have hdt : d ≠ target := by
        rintro rfl
        exact nomatch h.target_null hd
      have hdo' : p.ref d = o := href ▸ hdo
      obtain ⟨q, hown⟩ := Option.isSome_iff_exists.1 (hstored d hdp hdo' hdt)
      have hdead := ih d hdp hdo' hdt q hown
      have halive := h.sound.alive d (mem_counted.1 hd).1
      rw [live_of_alive halive hown] at hdead
      cases hdead
    have hcount := h.sound.counts o n m hb
    rw [hnone] at hcount
    have hn : n = 0 := UInt32.toNat_inj.1 hcount
    rcases h.zero o m (hn ▸ hb) with ⟨f, hf, -⟩ | hp
    · exact absurd hf List.not_mem_nil
    · exact hp c hc hco

/-- **The rest of a call.** -/
theorem Cascade.finish (h : s.Cascade p ⟨[], target, rest⟩ none) (hready : s.Ready p target rest) :
    (s.finish target rest).Ensures Idle := by
  have hs : s.Sound [] := h.sound
  have hnull : target ∉ s.ptrs.live := by
    intro hmem
    rw [← counted_nil s] at hmem
    exact nomatch h.target_null hmem
  have hwithin : ∀ c ∈ s.ptrs.live, c ∈ p.live ∧ s.ptrs.ref c = p.ref c := by
    simpa only [counted_nil] using h.within
  have hroom : ∀ {o}, p.FewStay Cell.owner target o (2 ^ 32 - 1) → s.ptrs.count o + 1 < 2 ^ 32 := by
    intro o hfew
    have hcard : s.ptrs.count o < 2 ^ 32 - 1 := by
      refine hfew _ fun d hd => ?_
      obtain ⟨hd, hdo⟩ := Finset.mem_filter.1 hd
      obtain ⟨hdp, href⟩ := hwithin d hd
      refine ⟨hdp, href ▸ hdo, ?_⟩
      rintro (rfl | ⟨q, hown, hq⟩)
      · exact hnull hd
      · have hdead := h.not_live hq
        rw [live_of_alive (h.sound.alive d hd) hown] at hdead
        cases hdead
    omega
  cases rest with
  | done => exact ⟨rfl, hs.setCall none⟩
  | copy rhs =>
    obtain ⟨hrhs, -, -, hlt⟩ := hready
    simp only [Heap.finish, h.target_alive, hrhs, Bool.and_self, if_true]
    refine hs.attach h.target_alive hnull fun o ho => ?_
    by_cases hmem : rhs ∈ s.ptrs.live
    · rw [show s.ptr rhs = some (s.ptrs.ref rhs) from if_pos hmem] at ho
      obtain rfl := Option.some.inj ho
      obtain ⟨hp, href⟩ := hwithin rhs hmem
      exact ⟨(sound_nil_iff.1 hs).2.2.1 rhs hmem, hroom (href ▸ hlt hp)⟩
    · rw [show s.ptr rhs = none from if_neg hmem] at ho
      cases ho
  | take rhs =>
    simp only [Heap.finish, h.target_alive, hready.1, Bool.and_self, if_true]
    by_cases hmem : rhs ∈ s.ptrs.live
    · rw [show s.ptr rhs = some (s.ptrs.ref rhs) from if_pos hmem]
      exact hs.take h.target_alive hnull hmem
    · rw [show s.ptr rhs = none from if_neg hmem]
      dsimp only
      rw [null_of_notMem hnull]
      exact ⟨rfl, hs.setCall none⟩
  | point q =>
    simp only [Heap.finish, h.target_alive, if_true]
    exact hs.attach h.target_alive hnull fun o ho => ⟨(hready o ho).1, hroom (hready o ho).2.2⟩
  | leave i =>
    have htarget : target = .root i := hready
    obtain ⟨hcells, hcounts, hobjects, hdropped, hkept⟩ := sound_nil_iff.1 hs
    refine ⟨rfl, sound_nil_iff.2 ⟨fun c hc => ?_, hcounts, hobjects, hdropped, hkept⟩⟩
    have halive := hcells c hc
    cases c with
    | member o j => exact halive
    | root i' =>
      have hne : i' ≠ i := by
        rintro rfl
        exact hnull (htarget ▸ hc)
      simp only [alive, decide_eq_true_eq] at halive ⊢
      exact Finset.mem_erase.2 ⟨hne, halive⟩

end Heap

end SseExt.SmartPointer
