import SseExt.Lib.Handles
import SseExt.Lib.Transition

/-!
# `VMHandleRef`

The constructor calls `AddRef` of the policy, `release` and the destructor call `Release`. The class
declares nothing for copies, so the compiler copies the handle and `AddRef` is not called.

**Theorem (`balanced`).** In a run in which every copy is `Backed` there are never more `Release`
than `AddRef` calls of a handle. In a run in which every step is `Even` there are as many, once all
objects are destroyed.

A handle is `held` by its objects and by the `Release` calls already made, which `AddRef` calls have
to pay for. Only a copy or `invalidate` changes what is held without telling the policy. A copy that
is not backed makes the destructors release too often (`unbacked_overreleases`), and after a copy
that is not even the calls differ in the end (`uneven_unbalanced`).
-/

namespace SseExt

/-- The objects with their `m_handle`, and the calls made to the policy. -/
structure VMHandleRefs (ι H : Type*) where
  objects : Handles ι H
  addRefs : H → ℕ
  releases : H → ℕ

namespace VMHandleRefs

/-- What can be done with an object. -/
inductive Label (ι H : Type*) where
  | construct (o : ι) (handle : H)
  | copyConstruct (o src : ι)
  | copyAssign (o src : ι)
  | release (o : ι)
  | invalidate (o : ι)
  | destroy (o : ι)

variable {ι H : Type*} [DecidableEq ι] [DecidableEq H] (invalid : H)

def init : VMHandleRefs ι H := ⟨⟨∅, fun _ => invalid⟩, fun _ => 0, fun _ => 0⟩

/-- `VMHandleRef(VMHandle)` -/
def construct (s : VMHandleRefs ι H) (o : ι) (handle : H) : VMHandleRefs ι H :=
  { s with
    objects := s.objects.set o handle
    addRefs := if handle ≠ invalid then
        Function.update s.addRefs handle (s.addRefs handle + 1)
      else s.addRefs }

/-- `release` -/
def release (s : VMHandleRefs ι H) (o : ι) : VMHandleRefs ι H :=
  if s.objects.ref o ≠ invalid then
    { s with
      releases := Function.update s.releases (s.objects.ref o) (s.releases (s.objects.ref o) + 1)
      objects := s.objects.set o invalid }
  else s

/-- `~VMHandleRef` -/
def destroy (s : VMHandleRefs ι H) (o : ι) : VMHandleRefs ι H :=
  { s.release invalid o with objects := (s.release invalid o).objects.drop o }

def next (s : VMHandleRefs ι H) : Label ι H → Outcome (VMHandleRefs ι H) Empty
  | .construct o handle =>
    if o ∉ s.objects.live then .step (s.construct invalid o handle) else .blocked
  | .copyConstruct o src =>
    if o ∉ s.objects.live ∧ src ∈ s.objects.live then
      .step { s with objects := s.objects.set o (s.objects.ref src) }
    else .blocked
  | .copyAssign o src =>
    if o ∈ s.objects.live ∧ src ∈ s.objects.live then
      .step { s with objects := s.objects.set o (s.objects.ref src) }
    else .blocked
  | .release o => if o ∈ s.objects.live then .step (s.release invalid o) else .blocked
  | .invalidate o =>
    if o ∈ s.objects.live then .step { s with objects := s.objects.set o invalid } else .blocked
  | .destroy o => if o ∈ s.objects.live then .step (s.destroy invalid o) else .blocked

def machine (ι : Type*) [DecidableEq ι] : Machine (VMHandleRefs ι H) (Label ι H) Empty :=
  ⟨init invalid, next invalid⟩

/-! ## What is held -/

/-- What the `AddRef` calls of a handle have to pay for. -/
def held (s : VMHandleRefs ι H) (h : H) : ℕ := s.releases h + s.objects.count h

/-- The valid handle that an object loses without a `Release`. -/
def lost (s : VMHandleRefs ι H) : Label ι H → Option H
  | .copyAssign o _ | .invalidate o => (some (s.objects.ref o)).filter (· ≠ invalid)
  | _ => none

/-- The valid handle that an object gets without an `AddRef`. -/
def gained (s : VMHandleRefs ι H) : Label ι H → Option H
  | .copyConstruct _ src | .copyAssign _ src => (some (s.objects.ref src)).filter (· ≠ invalid)
  | _ => none

/-- What is gained is paid for: by the same handle lost, or by an `AddRef` to spare. -/
def Backed (s : VMHandleRefs ι H) (a : Label ι H) : Prop :=
  ∀ h ∈ s.gained invalid a, s.lost invalid a = some h ∨ s.held h < s.addRefs h

/-- What is gained is lost. -/
def Even (s : VMHandleRefs ι H) (a : Label ι H) : Prop := s.lost invalid a = s.gained invalid a

/-- What a step changes: for a valid handle, what is held and the `AddRef` calls go up together, but
for what is gained and lost. The policy is never called with the invalid handle. -/
structure Shifts (s : VMHandleRefs ι H) (lost gained : Option H) (s' : VMHandleRefs ι H) :
    Prop where
  held : ∀ h ≠ invalid, s'.held h + s.addRefs h + (if lost = some h then 1 else 0) =
    s.held h + s'.addRefs h + if gained = some h then 1 else 0
  addRefs : s'.addRefs invalid = s.addRefs invalid
  releases : s'.releases invalid = s.releases invalid

variable {invalid} {s s' : VMHandleRefs ι H} {o src : ι} {h handle : H} {a : Label ι H}

theorem valid_eq_some (hh : h ≠ invalid) (r : H) :
    ((some r).filter (· ≠ invalid) = some h) = (r = h) := by
  simp only [Option.filter_eq_some_iff, Option.some.injEq, decide_eq_true_eq, eq_iff_iff]
  exact ⟨fun hr => hr.1, fun hr => ⟨hr, hh⟩⟩

omit [DecidableEq ι] in
theorem ne_of_gained (h' : s.gained invalid a = some h) : h ≠ invalid := by
  unfold gained at h'
  split at h'
  · simpa using (Option.filter_eq_some_iff.1 h').2
  · simpa using (Option.filter_eq_some_iff.1 h').2
  · cases h'

omit [DecidableEq ι] in
theorem ne_of_lost (h' : s.lost invalid a = some h) : h ≠ invalid := by
  unfold lost at h'
  split at h'
  · simpa using (Option.filter_eq_some_iff.1 h').2
  · simpa using (Option.filter_eq_some_iff.1 h').2
  · cases h'

theorem shifts_construct (ho : o ∉ s.objects.live) :
    s.Shifts invalid none none (s.construct invalid o handle) := by
  unfold construct
  split_ifs with hvalid
  · refine ⟨fun h hh => ?_, Function.update_of_ne hvalid.symm .., rfl⟩
    simp only [VMHandleRefs.held, Handles.count_set ho]
    by_cases heq : h = handle
    · rw [heq, Function.update_self, if_pos rfl]
      omega
    · rw [Function.update_of_ne heq, if_neg (Ne.symm heq)]
      omega
  · refine ⟨fun h hh => ?_, rfl, rfl⟩
    simp only [VMHandleRefs.held, Handles.count_set ho]
    rw [not_not.1 hvalid, if_neg hh.symm]
    omega

theorem shifts_copyConstruct (ho : o ∉ s.objects.live) :
    s.Shifts invalid none ((some handle).filter (· ≠ invalid))
      { s with objects := s.objects.set o handle } where
  held h hh := by
    simp only [VMHandleRefs.held, Handles.count_set ho, valid_eq_some hh, reduceCtorEq, if_false]
    omega
  addRefs := rfl
  releases := rfl

theorem shifts_set (invalid handle : H) (ho : o ∈ s.objects.live) :
    s.Shifts invalid ((some (s.objects.ref o)).filter (· ≠ invalid))
      ((some handle).filter (· ≠ invalid)) { s with objects := s.objects.set o handle } where
  held h hh := by
    have hcount := Handles.count_set_of_mem ho handle h
    simp only [VMHandleRefs.held, valid_eq_some hh]
    omega
  addRefs := rfl
  releases := rfl

/-- A release ends one hold and starts another. -/
theorem shifts_release (invalid : H) (ho : o ∈ s.objects.live) :
    s.Shifts invalid none none (s.release invalid o) := by
  unfold release
  split_ifs with hvalid
  · refine ⟨fun h hh => ?_, rfl, Function.update_of_ne hvalid.symm ..⟩
    have hcount := Handles.count_set_of_mem ho invalid h
    rw [if_neg hh.symm] at hcount
    simp only [VMHandleRefs.held]
    by_cases heq : h = s.objects.ref o
    · rw [if_pos heq.symm] at hcount
      rw [heq, Function.update_self, ← heq]
      omega
    · rw [if_neg (Ne.symm heq)] at hcount
      rw [Function.update_of_ne heq]
      omega
  · exact ⟨fun _ _ => rfl, rfl, rfl⟩

theorem ref_release (s : VMHandleRefs ι H) (o : ι) :
    (s.release invalid o).objects.ref o = invalid := by
  unfold release
  split_ifs with hvalid
  · exact Handles.ref_set_self
  · exact not_not.1 hvalid

theorem live_release (ho : o ∈ s.objects.live) :
    (s.release invalid o).objects.live = s.objects.live := by
  unfold release
  split_ifs
  · exact Finset.insert_eq_of_mem ho
  · rfl

theorem addRefs_release (s : VMHandleRefs ι H) (o : ι) :
    (s.release invalid o).addRefs = s.addRefs := by
  unfold release
  split_ifs <;> rfl

theorem shifts_destroy (invalid : H) (ho : o ∈ s.objects.live) :
    s.Shifts invalid none none (s.destroy invalid o) := by
  have hrelease := shifts_release invalid ho
  refine ⟨fun h hh => ?_, hrelease.addRefs, hrelease.releases⟩
  have hlive : o ∈ (s.release invalid o).objects.live := by
    rwa [live_release ho]
  have hcount := Handles.count_drop (r := h) hlive
  rw [ref_release, if_neg hh.symm] at hcount
  have hheld := hrelease.held h hh
  simp only [VMHandleRefs.held, destroy] at hheld ⊢
  rw [← hheld]
  omega

/-- **What a step changes.** -/
theorem next_shifts (invalid : H) (s : VMHandleRefs ι H) (a : Label ι H) :
    (next invalid s a).Leads (s.Shifts invalid (s.lost invalid a) (s.gained invalid a)) := by
  cases a with
  | construct o handle =>
    simp only [next]
    split_ifs with ho
    · trivial
    · exact shifts_construct ho
  | copyConstruct o src =>
    simp only [next]
    split_ifs with ho
    · exact shifts_copyConstruct ho.1
    · trivial
  | copyAssign o src =>
    simp only [next]
    split_ifs with ho
    · exact shifts_set invalid _ ho.1
    · trivial
  | release o =>
    simp only [next]
    split_ifs with ho
    · exact shifts_release invalid ho
    · trivial
  | invalidate o =>
    simp only [next]
    split_ifs with ho
    · have hnone : (some invalid).filter (· ≠ invalid) = none := by
        simp
      have hset := shifts_set invalid invalid ho
      rwa [hnone] at hset
    · trivial
  | destroy o =>
    simp only [next]
    split_ifs with ho
    · exact shifts_destroy invalid ho
    · trivial

/-! ## Balance -/

omit [DecidableEq ι] in
theorem count_of_empty (hlive : s.objects.live = ∅) (h : H) : s.objects.count h = 0 := by
  rw [Handles.count_eq_zero, hlive]
  exact fun o ho => absurd ho (Finset.notMem_empty o)

/-- Everything held is paid for. -/
structure Covered (invalid : H) (s : VMHandleRefs ι H) : Prop where
  held : ∀ h ≠ invalid, s.held h ≤ s.addRefs h
  invalid : s.releases invalid ≤ s.addRefs invalid

/-- And nothing else has been paid for. -/
structure Exact (invalid : H) (s : VMHandleRefs ι H) : Prop where
  held : ∀ h ≠ invalid, s.held h = s.addRefs h
  invalid : s.releases invalid = s.addRefs invalid

omit [DecidableEq ι] in
theorem Covered.shifts (hs : s.Covered invalid) (ha : s.Backed invalid a)
    (h : s.Shifts invalid (s.lost invalid a) (s.gained invalid a) s') : s'.Covered invalid := by
  refine ⟨fun k hk => ?_, by rw [h.addRefs, h.releases]; exact hs.invalid⟩
  have hheld := h.held k hk
  have hle := hs.held k hk
  by_cases hgained : s.gained invalid a = some k
  · rw [if_pos hgained] at hheld
    rcases ha k hgained with hlost | hspare
    · rw [if_pos hlost] at hheld
      omega
    · omega
  · rw [if_neg hgained] at hheld
    omega

omit [DecidableEq ι] in
theorem Exact.shifts (hs : s.Exact invalid) (ha : s.Even invalid a)
    (h : s.Shifts invalid (s.lost invalid a) (s.gained invalid a) s') : s'.Exact invalid := by
  refine ⟨fun k hk => ?_, by rw [h.addRefs, h.releases]; exact hs.invalid⟩
  have hheld := h.held k hk
  have heq := hs.held k hk
  rw [ha] at hheld
  omega

omit [DecidableEq ι] in
theorem Even.backed (ha : s.Even invalid a) : s.Backed invalid a :=
  fun _ hgained => .inl (ha.trans hgained)

/-- **Releases are paid for, and in the end nothing else is.** -/
theorem balanced (s : VMHandleRefs ι H) :
    ((machine invalid ι).ReachIf (Backed invalid) s → ∀ h, s.releases h ≤ s.addRefs h) ∧
    ((machine invalid ι).ReachIf (Even invalid) s → s.objects.live = ∅ →
      ∀ h, s.releases h = s.addRefs h) := by
  constructor
  · intro hreach h
    have hcovered : s.Covered invalid := by
      refine hreach.preserved ⟨fun _ _ => le_rfl, le_rfl⟩ fun s a ha hs => ?_
      exact (next_shifts invalid s a).mono fun s' => hs.shifts ha
    by_cases hh : h = invalid
    · exact hh ▸ hcovered.invalid
    · exact le_trans (Nat.le_add_right _ _) (hcovered.held h hh)
  · intro hreach hlive h
    have hexact : s.Exact invalid := by
      refine hreach.preserved ⟨fun _ _ => rfl, rfl⟩ fun s a ha hs => ?_
      exact (next_shifts invalid s a).mono fun s' => hs.shifts ha
    by_cases hh : h = invalid
    · exact hh ▸ hexact.invalid
    · have hheld := hexact.held h hh
      rwa [VMHandleRefs.held, count_of_empty hlive] at hheld

/-- Two objects get a handle each from the constructor, one is assigned to the other, and a copy is
made of a released one. -/
def shared : List (Label ℕ ℕ) :=
  [.construct 0 7, .construct 1 7, .copyAssign 1 0, .release 0, .copyConstruct 2 0, .destroy 0,
    .destroy 1, .destroy 2]

instance (s : VMHandleRefs ι H) (a : Label ι H) : Decidable (s.Even invalid a) :=
  inferInstanceAs (Decidable (_ = _))

theorem shared_balanced : ∃ s, (machine 0 ℕ).ReachIf (Even 0) s ∧ s.objects.live = ∅ ∧
    s.addRefs 7 = 2 ∧ ∀ h, s.releases h = s.addRefs h := by
  have hrun : ∃ s, (machine 0 ℕ).runIf (fun s a => decide (s.Even 0 a)) (init 0) shared = some s ∧
      s.objects.live = ∅ ∧ s.addRefs 7 = 2 := ⟨_, rfl, by decide, rfl⟩
  obtain ⟨s, hs, hlive, hadd⟩ := hrun
  have hreach := Machine.reachIf_of_runIf (fun _ _ hb => of_decide_eq_true hb) .init hs
  exact ⟨s, hreach, hlive, hadd, (balanced s).2 hreach hlive⟩

/-! ## The defect -/

/-- A valid handle is copied, and both objects are destroyed. -/
def copied : List (Label ℕ ℕ) := [.construct 0 7, .copyConstruct 1 0, .destroy 0, .destroy 1]

/-- **One `AddRef`, two `Release` calls.** -/
theorem copied_overreleases : ∃ s, (machine 0 ℕ).Reach s ∧ s.objects.live = ∅ ∧
    s.addRefs 7 = 1 ∧ s.releases 7 = 2 := by
  have hrun : ∃ s, (machine 0 ℕ).run (init 0) copied = some s ∧ s.objects.live = ∅ ∧
      s.addRefs 7 = 1 ∧ s.releases 7 = 2 := ⟨_, rfl, by decide, rfl, rfl⟩
  obtain ⟨s, hs, hrest⟩ := hrun
  exact ⟨s, Machine.reach_of_run .init hs, hrest⟩

/-! ## What other copies lead to -/

/-- Objects can be destroyed until none is left. -/
theorem exists_destroy (invalid : H) (s : VMHandleRefs ι H) :
    ∃ os : List ι, ∃ s', (machine invalid ι).run s (os.map .destroy) = some s' ∧
      s'.objects.live = ∅ ∧
      ∀ h ≠ invalid, s'.releases h = s.held h ∧ s'.addRefs h = s.addRefs h := by
  induction hcard : s.objects.live.card generalizing s with
  | zero =>
    have hlive := Finset.card_eq_zero.1 hcard
    refine ⟨[], s, rfl, hlive, fun h _ => ⟨?_, rfl⟩⟩
    rw [held, count_of_empty hlive, Nat.add_zero]
  | succ n ih =>
    obtain ⟨o, ho⟩ := Finset.card_pos.1 (by omega : 0 < s.objects.live.card)
    have hlive : (s.destroy invalid o).objects.live = s.objects.live.erase o := by
      rw [← live_release ho]
      rfl
    have hshifts := shifts_destroy invalid ho
    have haddRefs : (s.destroy invalid o).addRefs = s.addRefs := addRefs_release s o
    obtain ⟨os, s', hrun, hempty, hs'⟩ := ih (s.destroy invalid o) (by
      rw [hlive, Finset.card_erase_of_mem ho]
      omega)
    refine ⟨o :: os, s', ?_, hempty, fun h hh => ?_⟩
    · have hnext : (machine invalid ι).next s (.destroy o) = .step (s.destroy invalid o) :=
        if_pos ho
      rw [List.map_cons, Machine.run_cons hnext]
      exact hrun
    · obtain ⟨hreleases, hadd⟩ := hs' h hh
      have hheld := hshifts.held h hh
      rw [haddRefs] at hheld hadd
      refine ⟨?_, hadd⟩
      rw [hreleases]
      simpa using hheld

/-- **After a copy that is not backed, the destructors release too often.** -/
theorem unbacked_overreleases (ha : ¬ s.Backed invalid a) (hstep : next invalid s a = .step s') :
    ∃ (os : List ι) (s'' : VMHandleRefs ι H) (h : H),
      (machine invalid ι).run s' (os.map .destroy) = some s'' ∧
      s''.addRefs h < s''.releases h := by
  have hshifts := next_shifts invalid s a
  rw [hstep] at hshifts
  obtain ⟨h, hgained, hlost, hspare⟩ : ∃ h, s.gained invalid a = some h ∧
      s.lost invalid a ≠ some h ∧ ¬ s.held h < s.addRefs h := by
    simpa only [Backed, not_forall, not_or, exists_prop, Option.mem_def] using ha
  have hh : h ≠ invalid := ne_of_gained hgained
  obtain ⟨os, s'', hrun, -, hs''⟩ := exists_destroy invalid s'
  refine ⟨os, s'', h, hrun, ?_⟩
  have hheld := hshifts.held h hh
  rw [if_pos hgained, if_neg hlost] at hheld
  rw [(hs'' h hh).1, (hs'' h hh).2]
  omega

/-- **After a first step that is not even, the calls differ in the end.** -/
theorem uneven_unbalanced (hs : s.Exact invalid) (ha : ¬ s.Even invalid a)
    (hstep : next invalid s a = .step s') :
    ∃ (os : List ι) (s'' : VMHandleRefs ι H) (h : H),
      (machine invalid ι).run s' (os.map .destroy) = some s'' ∧
      s''.objects.live = ∅ ∧ s''.releases h ≠ s''.addRefs h := by
  have hshifts := next_shifts invalid s a
  rw [hstep] at hshifts
  obtain ⟨os, s'', hrun, hempty, hs''⟩ := exists_destroy invalid s'
  -- A handle that is lost and not gained, or the other way round.
  obtain ⟨h, hh, hdiff⟩ : ∃ h ≠ invalid,
      ¬ (s.lost invalid a = some h ↔ s.gained invalid a = some h) := by
    cases hlost : s.lost invalid a with
    | some h => exact ⟨h, ne_of_lost hlost, fun hiff => ha (hlost.trans (hiff.1 rfl).symm)⟩
    | none =>
      cases hgained : s.gained invalid a with
      | some h => exact ⟨h, ne_of_gained hgained, fun hiff => nomatch hiff.2 rfl⟩
      | none => exact absurd (hlost.trans hgained.symm) ha
  refine ⟨os, s'', h, hrun, hempty, ?_⟩
  have hheld := hshifts.held h hh
  rw [hs.held h hh] at hheld
  rw [(hs'' h hh).1, (hs'' h hh).2]
  by_cases hlost : s.lost invalid a = some h
  · have hgained : s.gained invalid a ≠ some h := fun hg => hdiff (iff_of_true hlost hg)
    rw [if_pos hlost, if_neg hgained] at hheld
    omega
  · have hgained : s.gained invalid a = some h := by
      by_contra hg
      exact hdiff (iff_of_false hlost hg)
    rw [if_neg hlost, if_pos hgained] at hheld
    omega

end VMHandleRefs

end SseExt
