import SseExt.Plugin.Resolve

/-!
# Form IDs across load orders

What is kept of a form is the pair of its plugin's name and its lower part (`formPair_t`), since the
indexes of plugins change with the load order. `migrate` takes a form ID of one session to that of
another: it splits it with the first table, and resolves the pair with the second.

**Theorem (`migrate_back_iff`).** A form ID goes to a form of the plugin with the same name, up to
case. It comes back unchanged exactly when there is such a plugin and its form IDs have room for the
lower part: a plugin that has become light keeps only the forms whose lower part is below `0x1000`.
-/

namespace SseExt

namespace IPluginInfo

variable {light : UInt32} {bucket : ℕ → UInt64 → ℕ} {mods mods' : List (Option ModInfo)}
  {s s' s₀ s₀' : IPluginInfo} {m m' : ModInfo} {f g x : UInt32}

/-- The plugins of a session: numbered by the engine, with different indexes and names. -/
structure Session (light : UInt32) (mods : List (Option ModInfo)) : Prop where
  engine : ∀ m ∈ actives mods, m.Engine light
  indexes : ((actives mods).map (·.partialIndex)).Nodup
  names : (actives mods).Pairwise fun m m' => ¬ iequalTo (cPart m.name) (cPart m'.name)

/-- The pair that is kept of a form ID. -/
def formPair (s : IPluginInfo) (f : UInt32) : Option (Bytes × UInt32) :=
  match getPluginPartialIndex f with
  | none => none
  | some i => (s.lookupIndex i).map fun p => (p.name, p.getFormIDLower f)

variable (bucket) in
/-- From the session of `s` to that of `s'`. -/
def migrate (s s' : IPluginInfo) (f : UInt32) : Option UInt32 :=
  match s.formPair f with
  | none => none
  | some (modName, lower) => s'.resolveFormID bucket modName lower

/-! ## One table -/

/-- A plugin is found by any spelling of its name. -/
theorem Session.resolve (h : Session light mods) (hs : Holds light mods s) (hm : m ∈ actives mods)
    {k : Bytes} (hk : iequalTo (cPart m.name) k) :
    s.resolveFormID bucket k x = some ((m.info light).getFormID x) := by
  have hfind : (elements mods).find? (ModInfo.isNamed k) = some m := by
    have helements := elements_eq h.indexes
    have hpairwise : (elements mods).Pairwise fun m m' => ¬ m.isNamed (cPart m'.name) := by
      rw [helements]
      exact h.names
    rw [← find_isNamed (helements.symm ▸ hm) hpairwise]
    have hsame : ∀ n : ModInfo, n.isNamed k = n.isNamed (cPart m.name) := by
      intro n
      rw [Bool.eq_iff_iff]
      exact ⟨fun hn => iequalTo_trans hn (iequalTo_symm hk), fun hn => iequalTo_trans hn hk⟩
    rw [funext hsame]
  simp only [resolveFormID, hs.lookupName_eq, hfind, Option.map_some]

theorem Session.resolve_none (h : Session light mods) (hs : Holds light mods s) {k : Bytes}
    (hk : ∀ m ∈ actives mods, ¬ iequalTo (cPart m.name) k) :
    s.resolveFormID bucket k x = none := by
  have hfind : (elements mods).find? (ModInfo.isNamed k) = none := by
    rw [elements_eq h.indexes, List.find?_eq_none]
    exact hk
  simp only [resolveFormID, hs.lookupName_eq, hfind, Option.map_none]

/-- A form ID is split by the plugin that it is in. -/
theorem Session.formPair_eq (h : Session light mods) (hs : Holds light mods s)
    (hm : m ∈ actives mods) (hf : (m.info light).isFormInMod f) :
    s.formPair f = some ((m.info light).name, (m.info light).getFormIDLower f) := by
  have hindex := (h.engine m hm).valid.isFormInMod_iff.1 hf
  rw [(h.engine m hm).partialIndex_info] at hindex
  have hlookup : s.lookupIndex m.partialIndex = some (m.info light) :=
    (hs.index_iff _ _).2 ⟨m, (elements_eq h.indexes).symm ▸ hm, rfl, rfl⟩
  simp only [formPair, hindex, hlookup, Option.map_some]

/-- Only form IDs of plugins are split. -/
theorem Session.of_formPair (h : Session light mods) (hs : Holds light mods s)
    {r : Bytes × UInt32} (hr : s.formPair f = some r) :
    ∃ m ∈ actives mods, (m.info light).isFormInMod f := by
  unfold formPair at hr
  cases hindex : getPluginPartialIndex f with
  | none => simp only [hindex, reduceCtorEq] at hr
  | some i =>
    simp only [hindex, Option.map_eq_some_iff] at hr
    obtain ⟨p, hp, -⟩ := hr
    obtain ⟨m, hm, hi, -⟩ := (hs.index_iff i p).1 hp
    rw [elements_eq h.indexes] at hm
    refine ⟨m, hm, (h.engine m hm).valid.isFormInMod_iff.2 ?_⟩
    rw [hindex, (h.engine m hm).partialIndex_info, hi]

/-- A form ID is in one plugin at most. -/
theorem Session.unique (h : Session light mods) (hm : m ∈ actives mods) (hm' : m' ∈ actives mods)
    (hf : (m.info light).isFormInMod f) (hf' : (m'.info light).isFormInMod f) : m = m' := by
  have hi := (h.engine m hm).valid.isFormInMod_iff.1 hf
  have hi' := (h.engine m' hm').valid.isFormInMod_iff.1 hf'
  rw [(h.engine m hm).partialIndex_info] at hi
  rw [(h.engine m' hm').partialIndex_info, hi] at hi'
  exact List.inj_on_of_nodup_map h.indexes hm hm' (Option.some.inj hi')

/-! ## Two tables -/

/-- **A form ID goes to the plugin with its plugin's name.** -/
theorem migrate_eq (h : Session light mods) (h' : Session light mods') (hs : Holds light mods s)
    (hs' : Holds light mods' s') (hm : m ∈ actives mods) (hm' : m' ∈ actives mods')
    (hname : iequalTo (cPart m'.name) (cPart m.name)) (hf : (m.info light).isFormInMod f) :
    s.migrate bucket s' f =
      some ((m'.info light).getFormID ((m.info light).getFormIDLower f)) := by
  simp only [migrate, h.formPair_eq hs hm hf]
  exact h'.resolve hs' hm' hname

/-- The lower part that is left of a form ID after a way through another plugin. -/
theorem lower_iff (hp : (m.info light).Valid) (hp' : (m'.info light).Valid)
    (hf : (m.info light).isFormInMod f) :
    (m.info light).getFormID ((m'.info light).getFormIDLower ((m'.info light).getFormID
        ((m.info light).getFormIDLower f))) = f ↔
      ((m'.info light).isLight → ((m.info light).getFormIDLower f).toNat < 2 ^ 12) := by
  have hback : (m.info light).getFormID ((m.info light).getFormIDLower f) = f :=
    hp.getFormID_getFormIDLower (hp.isFormInMod_iff.1 hf)
  generalize hx : (m.info light).getFormIDLower f = x at hback ⊢
  have hbound : x.toNat =
      if (m.info light).isLight then f.toNat % 2 ^ 12 else f.toNat % 2 ^ 24 := by
    rw [← hx, PluginInfo.toNat_getFormIDLower]
  have hkept : ((m'.info light).getFormIDLower ((m'.info light).getFormID x)).toNat =
      if (m'.info light).isLight then x.toNat % 2 ^ 12 else x.toNat % 2 ^ 24 := by
    rw [hp'.getFormIDLower_getFormID]
    split_ifs
    · exact toNat_low12 x
    · exact toNat_low24 x
  rw [eq_iff_toNat, hp.toNat_getFormID, hkept]
  rw [eq_iff_toNat, hp.toNat_getFormID] at hback
  rw [← hback]
  by_cases hl : (m.info light).isLight
  · simp only [if_pos hl] at hbound ⊢
    have hlt : x.toNat < 2 ^ 12 := by
      rw [hbound]
      exact Nat.mod_lt _ (by decide)
    split_ifs <;> omega
  · simp only [if_neg hl] at hbound ⊢
    split_ifs with hl'
    · simp only [hl', forall_const]
      omega
    · simp only [hl', Bool.false_eq_true, false_implies, iff_true]
      omega

/-- A form ID that goes anywhere goes to a plugin of the same name. -/
theorem of_migrate (h : Session light mods) (h' : Session light mods') (hs : Holds light mods s)
    (hs' : Holds light mods' s') (hg : s.migrate bucket s' f = some g) :
    ∃ m ∈ actives mods, ∃ m' ∈ actives mods', (m.info light).isFormInMod f ∧
      iequalTo (cPart m'.name) (cPart m.name) := by
  unfold migrate at hg
  cases hr : s.formPair f with
  | none => simp only [hr, reduceCtorEq] at hg
  | some r =>
    obtain ⟨m, hm, hf⟩ := h.of_formPair hs hr
    rw [h.formPair_eq hs hm hf] at hr
    cases hr
    simp only [h.formPair_eq hs hm hf] at hg
    by_contra hnone
    have hresolve : s'.resolveFormID bucket (m.info light).name ((m.info light).getFormIDLower f) =
        none := by
      refine h'.resolve_none hs' fun m' hm' hname => ?_
      exact hnone ⟨m, hm, m', hm', hf, hname⟩
    rw [hresolve] at hg
    cases hg

theorem holds_of_populate (h : populate light bucket (some mods) s₀ = (true, s)) :
    Holds light mods s := by
  obtain ⟨t, ht, -, hholds⟩ := populate_holds light bucket mods s₀
  rw [ht] at h
  cases h
  exact hholds

/-- An assembled form ID is in the plugin that it was assembled for. -/
theorem Session.isFormInMod_self (h : Session light mods) (hm : m ∈ actives mods) (x : UInt32) :
    (m.info light).isFormInMod ((m.info light).getFormID x) :=
  (h.engine m hm).valid.isFormInMod_iff.2 (h.engine m hm).valid.partialIndex_getFormID

/-- **What survives a change of the load order and back.** -/
theorem migrate_back_iff (h : Session light mods) (h' : Session light mods')
    (hs : populate light bucket (some mods) s₀ = (true, s))
    (hs' : populate light bucket (some mods') s₀' = (true, s')) (f : UInt32) :
    (∀ g, s.migrate bucket s' f = some g → ∃ m ∈ actives mods, ∃ m' ∈ actives mods',
      (m.info light).isFormInMod f ∧ iequalTo (cPart m'.name) (cPart m.name) ∧
        ∀ n ∈ actives mods', (n.info light).isFormInMod g ↔ n = m') ∧
    ((s.migrate bucket s' f).bind (s'.migrate bucket s) = some f ↔
      ∃ m ∈ actives mods, ∃ m' ∈ actives mods', (m.info light).isFormInMod f ∧
        iequalTo (cPart m'.name) (cPart m.name) ∧
        ((m'.info light).isLight → ((m.info light).getFormIDLower f).toNat < 2 ^ 12)) := by
  have hh := holds_of_populate hs
  have hh' := holds_of_populate hs'
  have hforth := @migrate_eq light bucket mods mods' s s'
  have hback := @migrate_eq light bucket mods' mods s' s
  refine ⟨fun g hg => ?_, ?_, ?_⟩
  · obtain ⟨m, hm, m', hm', hf, hname⟩ := of_migrate h h' hh hh' hg
    rw [hforth h h' hh hh' hm hm' hname hf] at hg
    cases hg
    have hself := h'.isFormInMod_self hm' ((m.info light).getFormIDLower f)
    refine ⟨m, hm, m', hm', hf, hname, fun n hn => ⟨fun hin => h'.unique hn hm' hin hself, ?_⟩⟩
    rintro rfl
    exact hself
  · intro hboth
    obtain ⟨g, hg, hgf⟩ := Option.bind_eq_some_iff.1 hboth
    obtain ⟨m, hm, m', hm', hf, hname⟩ := of_migrate h h' hh hh' hg
    rw [hforth h h' hh hh' hm hm' hname hf] at hg
    cases hg
    have hg' := h'.isFormInMod_self hm' ((m.info light).getFormIDLower f)
    rw [hback h' h hh' hh hm' hm (iequalTo_symm hname) hg'] at hgf
    exact ⟨m, hm, m', hm', hf, hname,
      (lower_iff (h.engine m hm).valid (h'.engine m' hm').valid hf).1 (Option.some.inj hgf)⟩
  · intro ⟨m, hm, m', hm', hf, hname, hroom⟩
    have hg' := h'.isFormInMod_self hm' ((m.info light).getFormIDLower f)
    rw [hforth h h' hh hh' hm hm' hname hf, Option.bind_some,
      hback h' h hh' hh hm' hm (iequalTo_symm hname) hg',
      (lower_iff (h.engine m hm).valid (h'.engine m' hm').valid hf).2 hroom]

/-- A full plugin `a`, and the same one as the light plugin `A` of another load order. -/
def fullMods : List (Option ModInfo) := [some ⟨0, 0x05, 0, [0x61, 0], true, 0x05⟩]

def lightMods : List (Option ModInfo) :=
  [none, some ⟨0x200, 0xFE, 0x123, [0x41, 0], true, 0xFE123⟩]

theorem session_fullMods : Session 0x200 fullMods where
  engine := by
    intro m hm
    rw [show actives fullMods = [⟨0, 0x05, 0, [0x61, 0], true, 0x05⟩] from rfl] at hm
    cases List.mem_singleton.1 hm
    exact ⟨by decide, by decide, by decide⟩
  indexes := List.nodup_singleton _
  names := List.pairwise_singleton _ _

theorem session_lightMods : Session 0x200 lightMods where
  engine := by
    intro m hm
    rw [show actives lightMods = [⟨0x200, 0xFE, 0x123, [0x41, 0], true, 0xFE123⟩] from rfl] at hm
    cases List.mem_singleton.1 hm
    exact ⟨by decide, by decide, by decide⟩
  indexes := List.nodup_singleton _
  names := List.pairwise_singleton _ _

/-- A form with a small lower part comes back from there. -/
theorem migrate_back_iff_sample : ∃ s s',
    populate 0x200 (fun _ h => h.toNat % 8) (some fullMods) ⟨false, fun _ => none, []⟩ =
        (true, s) ∧
      populate 0x200 (fun _ h => h.toNat % 8) (some lightMods) ⟨false, fun _ => none, []⟩ =
        (true, s') ∧
      (s.migrate (fun _ h => h.toNat % 8) s' 0x05000ABC).bind
        (s'.migrate (fun _ h => h.toNat % 8) s) = some 0x05000ABC := by
  obtain ⟨s, hs⟩ : ∃ s, populate 0x200 (fun _ h => h.toNat % 8) (some fullMods)
      ⟨false, fun _ => none, []⟩ = (true, s) := ⟨_, rfl⟩
  obtain ⟨s', hs'⟩ : ∃ s', populate 0x200 (fun _ h => h.toNat % 8) (some lightMods)
      ⟨false, fun _ => none, []⟩ = (true, s') := ⟨_, rfl⟩
  refine ⟨s, s', hs, hs', ((migrate_back_iff session_fullMods session_lightMods hs hs' _).2).2 ?_⟩
  exact ⟨⟨0, 0x05, 0, [0x61, 0], true, 0x05⟩, List.mem_singleton_self _,
    ⟨0x200, 0xFE, 0x123, [0x41, 0], true, 0xFE123⟩, List.mem_singleton_self _, by decide, by decide,
    fun _ => by decide⟩

end IPluginInfo

end SseExt
