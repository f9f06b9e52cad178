import SseExt.StringCache.Interning

/-!
# `fixed_string` in an archive

`save` writes the text of the entry an object is on, in the spelling that came first; `load` reads
a text and interns it in the pool of the session that reads. The two pools have different histories,
so the objects may get another spelling back. An archive is the list of the texts written to it.

**Theorem (`load_save`).** Objects that are saved in one session and loaded in another compare there
as they did: the same ones are equal, less, and empty, and every object keeps its hash.
-/

namespace SseExt.Cache

variable {s s' t : Cache} {c : Contents} {o : Obj} {value : Bytes}

/-- `save`, for objects in order. -/
def saveAll (s : Cache) (os : List Obj) : Option (List Bytes) := os.mapM s.get

/-- `load`, for objects in order. -/
def loadAll (s : Cache) (os : List Obj) (archive : List Bytes) : Except Fault Cache :=
  s.run (List.zipWith Op.load os archive)

/-! ## Loading one object -/

/-- **Loading one object.** -/
theorem step_load (hi : Inv s c) (ho : o ∈ s.objs.live) (value : Bytes) :
    ∃ s', s.step (.load o value) = .ok s' ∧ Inv s' (Function.update c o value) ∧
      s'.objs.live = s.objs.live := by
  obtain ⟨s', hset, hinv⟩ := setImpl_spec hi ho value
  have hlive := setImpl_live ho value
  rw [hset] at hlive
  refine ⟨s', ?_, hinv, hlive⟩
  rw [step, needLive_ok ho]
  exact hset

/-- **Loading objects in order.** -/
theorem loads_spec (hi : Inv s c) {l : List (Obj × Bytes)} (hlive : ∀ p ∈ l, p.1 ∈ s.objs.live)
    (hnodup : (l.map Prod.fst).Nodup) :
    ∃ s' c', s.run (l.map fun p => Op.load p.1 p.2) = .ok s' ∧ Inv s' c' ∧
      s'.objs.live = s.objs.live ∧ (∀ p ∈ l, c' p.1 = p.2) ∧
      ∀ o, o ∉ l.map Prod.fst → c' o = c o := by
  induction l generalizing s c with
  | nil => exact ⟨s, c, rfl, hi, rfl, nofun, fun _ _ => rfl⟩
  | cons p l ih =>
    obtain ⟨hp, hl⟩ := List.forall_mem_cons.1 hlive
    obtain ⟨hnot, hnodup⟩ := List.nodup_cons.1 hnodup
    obtain ⟨s₁, hstep, hi₁, hlive₁⟩ := step_load hi hp p.2
    obtain ⟨s', c', hrun, hi', hlive', hmem, hother⟩ := ih hi₁ (by rwa [hlive₁]) hnodup
    refine ⟨s', c', ?_, hi', hlive'.trans hlive₁, ?_, fun o ho => ?_⟩
    · rw [List.map_cons, run, hstep]
      exact hrun
    · refine List.forall_mem_cons.2 ⟨?_, hmem⟩
      rw [hother p.1 hnot]
      exact Function.update_self ..
    · obtain ⟨hne, ho⟩ := not_or.1 (List.mem_cons.not.1 ho)
      rw [hother o ho]
      exact Function.update_of_ne hne ..

/-! ## Sessions -/

theorem saveAll_eq {f : Obj → Bytes} {os : List Obj} (h : ∀ o ∈ os, s.get o = some (f o)) :
    s.saveAll os = some (os.map f) := by
  unfold saveAll
  induction os with
  | nil => rfl
  | cons o os ih =>
    obtain ⟨ho, hos⟩ := List.forall_mem_cons.1 h
    rw [List.mapM_cons, ho, ih hos]
    rfl

/-- The text read back has the key of the text an object was built from. -/
theorem key_get (hi : Inv s c) (ho : o ∈ s.objs.live) :
    ∃ v, s.get o = some v ∧ (IcaseKey.ofText (c o)).eq (IcaseKey.ofText v) := by
  obtain ⟨k, hk, heq⟩ := hi.held o ho
  exact ⟨k.value, by rw [get, hk]; rfl, by
    rwa [IcaseKey.eq_ofText_value (hi.counts.wf.hashed hk)]⟩

/-- **Objects compare as before.** -/
theorem load_save {ops ops' : List Op} (hs : init.run ops = .ok s) (ht : init.run ops' = .ok t)
    {l : List (Obj × Obj)} (hsrc : ∀ q ∈ l, q.1 ∈ s.objs.live) (hdst : ∀ q ∈ l, q.2 ∈ t.objs.live)
    (hnodup : (l.map Prod.snd).Nodup) :
    ∃ archive t', s.saveAll (l.map Prod.fst) = some archive ∧
      t.loadAll (l.map Prod.snd) archive = .ok t' ∧
      ∀ q ∈ l, t'.hash q.2 = s.hash q.1 ∧ t'.empty q.2 = s.empty q.1 ∧
        ∀ q' ∈ l, t'.eq q.2 q'.2 = s.eq q.1 q'.1 ∧ t'.cmp q.2 q'.2 = s.cmp q.1 q'.1 := by
  have hi := inv_run hs
  set c := builtFrom ops
  obtain ⟨f, hf⟩ : ∃ f : Obj → Bytes, ∀ o ∈ s.objs.live, s.get o = some (f o) := by
    refine ⟨fun o => (s.get o).getD [], fun o ho => ?_⟩
    obtain ⟨v, hv, -⟩ := key_get hi ho
    simp only [hv, Option.getD_some]
  have hsave : s.saveAll (l.map Prod.fst) = some ((l.map Prod.fst).map f) := by
    refine saveAll_eq fun o ho => ?_
    obtain ⟨q, hq, rfl⟩ := List.mem_map.1 ho
    exact hf q.1 (hsrc q hq)
  have hkeys : (l.map fun q => (q.2, f q.1)).map Prod.fst = l.map Prod.snd := by
    rw [List.map_map]
    rfl
  obtain ⟨t', c', hrun, hi', hlive', hmem, -⟩ := loads_spec (inv_run ht)
    (l := l.map fun q => (q.2, f q.1)) (List.forall_mem_map.2 hdst) (by rwa [hkeys])
  have hload : t.loadAll (l.map Prod.snd) ((l.map Prod.fst).map f) = .ok t' := by
    rw [← hrun, loadAll, List.map_map, List.map_map, List.zipWith_map, List.zipWith_self]
    rfl
  refine ⟨_, t', hsave, hload, fun q hq => ?_⟩
  -- What a loaded object is built from has the key of what the saved one is built from.
  have hkey (q : Obj × Obj) (hq : q ∈ l) :
      (IcaseKey.ofText (c q.1)).eq (IcaseKey.ofText (c' q.2)) := by
    obtain ⟨v, hv, heq⟩ := key_get hi (hsrc q hq)
    rw [hf q.1 (hsrc q hq), Option.some.injEq] at hv
    rw [hmem (q.2, f q.1) (List.mem_map_of_mem hq), hv]
    exact heq
  have hlive (q : Obj × Obj) (hq : q ∈ l) : q.2 ∈ t'.objs.live := by
    rw [hlive']
    exact hdst q hq
  obtain ⟨hhash, hlen, hfold⟩ := IcaseKey.eq_iff.1 (hkey q hq)
  refine ⟨?_, ?_, fun q' hq' => ⟨?_, ?_⟩⟩
  · obtain ⟨-, -, h, -⟩ := get_spec hi (hsrc q hq)
    obtain ⟨-, -, h', -⟩ := get_spec hi' (hlive q hq)
    rw [h, h']
    exact congrArg some hhash.symm
  · have hnil : c' q.2 = [] ↔ c q.1 = [] := by
      rw [← List.length_eq_zero_iff, ← List.length_eq_zero_iff]
      exact ⟨fun h => hlen.trans h, fun h => hlen.symm.trans h⟩
    have h := (empty_iff hi' (hlive q hq)).trans (hnil.trans (empty_iff hi (hsrc q hq)).symm)
    exact Bool.eq_iff_iff.2 h
  · have hiff : (IcaseKey.ofText (c' q.2)).eq (IcaseKey.ofText (c' q'.2)) ↔
        (IcaseKey.ofText (c q.1)).eq (IcaseKey.ofText (c q'.1)) := by
      constructor
      · intro h
        exact IcaseKey.eq_trans (hkey q hq)
          (IcaseKey.eq_trans h (IcaseKey.eq_symm (hkey q' hq')))
      · intro h
        exact IcaseKey.eq_trans (IcaseKey.eq_symm (hkey q hq)) (IcaseKey.eq_trans h (hkey q' hq'))
    have h := (eq_iff hi' (hlive q hq) (hlive q' hq')).trans
      (hiff.trans (eq_iff hi (hsrc q hq) (hsrc q' hq')).symm)
    exact Bool.eq_iff_iff.2 h
  · have hfold' := (IcaseKey.eq_iff.1 (hkey q' hq')).2.2
    rw [cmp_eq hi (hsrc q hq) (hsrc q' hq'), cmp_eq hi' (hlive q hq) (hlive q' hq')]
    rw [show foldStr (cPart (c' q.2)) = foldStr (cPart (c q.1)) from hfold.symm,
      show foldStr (cPart (c' q'.2)) = foldStr (cPart (c q'.1)) from hfold'.symm]

/-- A session with the objects 0 and 1 on other texts than those that are loaded. -/
def otherSession : List Op := [.ctorDefault 0, .ctorString 1 (.text [0x43, 0xC9])]

/-- The two spellings of the first session are one object's in the second, which knows the text in
another spelling. -/
theorem load_save_twoSpellings : ∃ s t archive t', init.run twoSpellings = .ok s ∧
    init.run otherSession = .ok t ∧ s.saveAll [0, 1] = some archive ∧
    t.loadAll [0, 1] archive = .ok t' ∧ t'.eq 0 1 = s.eq 0 1 := by
  obtain ⟨s, hs, hlive⟩ : ∃ s, init.run twoSpellings = .ok s ∧ s.objs.live = {0, 1, 2} :=
    ⟨_, rfl, by decide⟩
  obtain ⟨t, ht, hlive'⟩ : ∃ t, init.run otherSession = .ok t ∧ t.objs.live = {0, 1} :=
    ⟨_, rfl, by decide⟩
  obtain ⟨archive, t', hsave, hload, hcmp⟩ := load_save hs ht (l := [(0, 0), (1, 1)])
    (by rw [hlive]; decide) (by rw [hlive']; decide) (by decide)
  obtain ⟨-, -, hall⟩ := hcmp (0, 0) List.mem_cons_self
  exact ⟨s, t, archive, t', hs, ht, hsave, hload,
    (hall (1, 1) (List.mem_cons_of_mem _ List.mem_cons_self)).1⟩

end SseExt.Cache
