import Mathlib.Logic.Function.Basic
import SseExt.HashContract
import SseExt.Lib.HashPolicy
import SseExt.Lib.KeepFirst
import SseExt.Plugin.FormID

/-!
# `IPluginInfo`: the two plugin indexes

`Populate` walks the mod list once. It enters every active mod into a map by partial index, and
the name of the element found there into a map by name whose values refer to the elements of the
first. Both keep what is there already.

**Theorem (`populate_spec`).** The index map then holds the first active mod of each index, and
a name finds the first such element of that name; the two maps refer to each other.

The engine's flag for light plugins and the buckets of the name map are parameters.
-/

namespace SseExt

/-- `IPluginInfo`. A value of `nameMap` is a reference to an element of `indexMap`, whose nodes
stay where they are; it is given by the key of its node. -/
structure IPluginInfo where
  populated : Bool
  indexMap : UInt32 → Option PluginInfo
  nameMap : List (Bytes × UInt32)

/-- What the index map stores for a mod. -/
def ModInfo.info (light : UInt32) (m : ModInfo) : PluginInfo :=
  .mk' light m.fileFlags m.modIndex m.lightIndex m.name

/-- The mod has this name, up to case. -/
def ModInfo.isNamed (k : Bytes) (m : ModInfo) : Bool := iequalTo (cPart m.name) k

namespace IPluginInfo

variable (light : UInt32) (bucket : ℕ → UInt64 → ℕ)

/-- `stl::iunordered_map` -/
def names : HashPolicy Bytes := ⟨icaseFnv1a, iequalTo, bucket⟩

/-- `m_pluginIndexMap.try_emplace`, with the element it returns. -/
def emplaceIndex (map : UInt32 → Option PluginInfo) (i : UInt32) (p : PluginInfo) :
    PluginInfo × (UInt32 → Option PluginInfo) :=
  match map i with
  | some q => (q, map)
  | none => (p, Function.update map i (some p))

/-- One round of the loop of `Populate`. -/
def addMod (s : IPluginInfo) : Option ModInfo → IPluginInfo
  | none => s
  | some m =>
    if !m.active then s
    else
      let r := emplaceIndex s.indexMap m.partialIndex (m.info light)
      { s with
        indexMap := r.2
        nameMap := (names bucket).tryEmplace s.nameMap r.1.name m.partialIndex }

/-- `Populate`, where `dh` is the mod list of the `DataHandler` if there is one. -/
def populate (dh : Option (List (Option ModInfo))) (s : IPluginInfo) : Bool × IPluginInfo :=
  match dh with
  | none => (false, s)
  | some mods =>
    let s := mods.foldl (addMod light bucket) { s with indexMap := fun _ => none, nameMap := [] }
    (true, { s with populated := true })

/-- `Lookup` of a name. -/
def lookupName (s : IPluginInfo) (modName : Bytes) : Option PluginInfo :=
  match (names bucket).find s.nameMap modName with
  | none => none
  | some e => s.indexMap e.2

/-- `Lookup` of a partial index. -/
def lookupIndex (s : IPluginInfo) (modID : UInt32) : Option PluginInfo := s.indexMap modID

/-- `ResolveFormID`, of a name and a lower part or of the pair of them. -/
def resolveFormID (s : IPluginInfo) (modName : Bytes) (lower : UInt32) : Option UInt32 :=
  match s.lookupName bucket modName with
  | none => none
  | some p => some (p.getFormID lower)

/-! ## What the maps hold -/

/-- The active mods, in load order. -/
def actives (mods : List (Option ModInfo)) : List ModInfo :=
  (mods.filterMap id).filter (·.active)

/-- The active mods that get the slot of their index, in load order. -/
def elements (mods : List (Option ModInfo)) : List ModInfo :=
  keepFirst (fun m m' => m.partialIndex = m'.partialIndex) (actives mods)

/-- The elements that get the slot of their name. -/
def named (mods : List (Option ModInfo)) : List ModInfo :=
  keepFirst (fun m m' => m.isNamed (cPart m'.name)) (elements mods)

/-- The maps after the mods of a list. -/
structure Holds (mods : List (Option ModInfo)) (s : IPluginInfo) : Prop where
  index : ∀ i, s.indexMap i = ((actives mods).find? (·.partialIndex = i)).map (·.info light)
  name : s.nameMap = (named mods).map fun m => (cPart m.name, m.partialIndex)

variable {light bucket} {mods : List (Option ModInfo)} {s : IPluginInfo} {m : ModInfo}

theorem find_elements (i : UInt32) :
    (elements mods).find? (·.partialIndex = i) = (actives mods).find? (·.partialIndex = i) := by
  apply find?_keepFirst
  intro a b hab hb
  simp only [decide_eq_true_eq] at *
  exact hab.trans hb

theorem find_named (k : Bytes) :
    (named mods).find? (ModInfo.isNamed k) = (elements mods).find? (ModInfo.isNamed k) := by
  apply find?_keepFirst
  intro a b hab hb
  exact iequalTo_trans hab hb

/-- The keys of the name map come from C strings, so the law of the container holds. -/
theorem Holds.law (h : Holds light mods s) (k : Bytes) :
    ∀ e ∈ s.nameMap, iequalTo e.1 k → icaseFnv1a e.1 = icaseFnv1a k := by
  intro e he heq
  rw [h.name] at he
  obtain ⟨m, -, rfl⟩ := List.mem_map.1 he
  exact (icaseFnv_congr (nulFree_cPart m.name).dropLast heq).1

theorem Holds.nil (h : s.indexMap = fun _ => none) (h' : s.nameMap = []) : Holds light [] s where
  index _ := by rw [h]; rfl
  name := h'

theorem actives_snoc (x : Option ModInfo) : actives (mods ++ [x]) =
    actives mods ++ actives [x] := by
  simp [actives]

/-- An entry that is skipped. -/
theorem Holds.skip {x : Option ModInfo} (h : Holds light mods s) (hx : actives [x] = []) :
    Holds light (mods ++ [x]) s := by
  have hactives : actives (mods ++ [x]) = actives mods := by
    rw [actives_snoc, hx, List.append_nil]
  constructor
  · rw [hactives]
    exact h.index
  · rw [named, elements, hactives]
    exact h.name

theorem Holds.tryEmplace_eq (h : Holds light mods s) (k : Bytes) (i : UInt32) :
    (names bucket).tryEmplace s.nameMap k i =
      if (named mods).any (ModInfo.isNamed k) then s.nameMap
      else s.nameMap ++ [(k, i)] := by
  have hany : s.nameMap.any (iequalTo ·.1 k) = (named mods).any (ModInfo.isNamed k) := by
    rw [h.name, List.any_map]
    rfl
  rw [HashPolicy.tryEmplace_eq (h.law k), ← hany]
  rfl

theorem mem_elements_of_find {m₀ : ModInfo} {i : UInt32}
    (hfind : (actives mods).find? (·.partialIndex = i) = some m₀) :
    m₀ ∈ elements mods ∧ m₀.partialIndex = i := by
  have hprop := List.find?_some hfind
  rw [← find_elements] at hfind
  exact ⟨List.mem_of_find?_eq_some hfind, by simpa using hprop⟩

/-- The slot is taken by `m₀`, whose name is there already. -/
theorem Holds.addMod_dup {x : Option ModInfo} {m₀ : ModInfo} (h : Holds light mods s)
    (hactives : actives (mods ++ [x]) = actives mods ++ [m])
    (hfind : (actives mods).find? (·.partialIndex = m.partialIndex) = some m₀) :
    Holds light (mods ++ [x]) { s with
      indexMap := (emplaceIndex s.indexMap m.partialIndex (m.info light)).2
      nameMap := (names bucket).tryEmplace s.nameMap
        (emplaceIndex s.indexMap m.partialIndex (m.info light)).1.name m.partialIndex } := by
  obtain ⟨hmem, hindex⟩ := mem_elements_of_find hfind
  have hslot : emplaceIndex s.indexMap m.partialIndex (m.info light) =
      (m₀.info light, s.indexMap) := by
    unfold emplaceIndex
    rw [h.index, hfind]
    rfl
  have helements : elements (mods ++ [x]) = elements mods := by
    have hany : (elements mods).any (fun m' => m'.partialIndex = m.partialIndex) :=
      List.any_eq_true.2 ⟨m₀, hmem, by simpa using hindex⟩
    unfold elements at hany ⊢
    rw [hactives, keepFirst_snoc, if_pos hany]
  have hname : (named mods).any (ModInfo.isNamed (cPart m₀.name)) := by
    obtain ⟨m₁, hm₁, heq⟩ := exists_mem_keepFirst
      (r := fun m m' => m.isNamed (cPart m'.name)) (fun m => iequalTo_refl _) hmem
    exact List.any_eq_true.2 ⟨m₁, hm₁, heq⟩
  rw [hslot]
  constructor
  · intro i
    rw [hactives, List.find?_append, h.index]
    by_cases hi : m.partialIndex = i
    · rw [← hi, hfind]
      rfl
    · simp [hi]
  · rw [named, helements]
    dsimp only
    rw [h.tryEmplace_eq]
    change (if (named mods).any (ModInfo.isNamed (cPart m₀.name)) then _ else _) = _
    rw [if_pos hname]
    exact h.name

/-- The slot is free. -/
theorem Holds.addMod_new {x : Option ModInfo} (h : Holds light mods s)
    (hactives : actives (mods ++ [x]) = actives mods ++ [m])
    (hfind : (actives mods).find? (·.partialIndex = m.partialIndex) = none) :
    Holds light (mods ++ [x]) { s with
      indexMap := (emplaceIndex s.indexMap m.partialIndex (m.info light)).2
      nameMap := (names bucket).tryEmplace s.nameMap
        (emplaceIndex s.indexMap m.partialIndex (m.info light)).1.name m.partialIndex } := by
  have hslot : emplaceIndex s.indexMap m.partialIndex (m.info light) =
      (m.info light, Function.update s.indexMap m.partialIndex (some (m.info light))) := by
    unfold emplaceIndex
    rw [h.index, hfind]
    rfl
  have helements : elements (mods ++ [x]) = elements mods ++ [m] := by
    have hany : ¬ (elements mods).any (fun m' => m'.partialIndex = m.partialIndex) := by
      rw [← find_elements] at hfind
      simpa using List.find?_eq_none.1 hfind
    unfold elements at hany ⊢
    rw [hactives, keepFirst_snoc, if_neg hany]
  rw [hslot]
  constructor
  · intro i
    rw [hactives, List.find?_append]
    by_cases hi : m.partialIndex = i
    · rw [← hi, hfind]
      simp
    · dsimp only
      rw [Function.update_of_ne (Ne.symm hi), h.index]
      simp [hi]
  · have hnamed : named (mods ++ [x]) =
        if (named mods).any (ModInfo.isNamed (cPart m.name)) then named mods
        else named mods ++ [m] := by
      unfold named
      rw [helements, keepFirst_snoc]
    dsimp only
    rw [h.tryEmplace_eq, hnamed]
    change (if (named mods).any (ModInfo.isNamed (cPart m.name)) then _ else _) = _
    split_ifs
    · exact h.name
    · rw [h.name, List.map_append]
      rfl

/-- **One round of the loop.** -/
theorem Holds.addMod {x : Option ModInfo} (h : Holds light mods s) :
    Holds light (mods ++ [x]) (addMod light bucket s x) := by
  cases x with
  | none => exact h.skip rfl
  | some m =>
    unfold IPluginInfo.addMod
    by_cases hm : m.active
    · have hactives : actives (mods ++ [some m]) = actives mods ++ [m] := by
        rw [actives_snoc]
        simp [actives, hm]
      simp only [hm, Bool.not_true, Bool.false_eq_true, if_false]
      cases hfind : (actives mods).find? (·.partialIndex = m.partialIndex) with
      | some m₀ => exact h.addMod_dup hactives hfind
      | none => exact h.addMod_new hactives hfind
    · simp only [hm, Bool.not_false, if_true]
      exact h.skip (by simp [actives, hm])

/-- **The loop.** -/
theorem holds_loop (pop : Bool) (mods : List (Option ModInfo)) :
    Holds light mods (mods.foldl (addMod light bucket) ⟨pop, fun _ => none, []⟩) := by
  induction mods using List.reverseRecOn with
  | nil => exact Holds.nil rfl rfl
  | append_singleton mods x ih =>
    rw [List.foldl_append]
    exact ih.addMod

namespace Holds

/-- The elements of the index map. -/
theorem index_iff (h : Holds light mods s) (i : UInt32) (p : PluginInfo) :
    s.indexMap i = some p ↔ ∃ m ∈ elements mods, m.partialIndex = i ∧ m.info light = p := by
  rw [h.index, ← find_elements, Option.map_eq_some_iff]
  constructor
  · rintro ⟨m, hm, hp⟩
    exact ⟨m, List.mem_of_find?_eq_some hm, by simpa using List.find?_some hm, hp⟩
  · rintro ⟨m, hm, hi, hp⟩
    refine ⟨m, find?_of_mem_keepFirst (fun a b ha hb => ?_) hm (by simpa using hi), hp⟩
    simp only [decide_eq_true_eq] at ha hb ⊢
    exact ha.trans hb.symm

theorem nameMap_mem (h : Holds light mods s) {e : Bytes × UInt32} (he : e ∈ s.nameMap) :
    ∃ p, s.indexMap e.2 = some p ∧ iequalTo p.name e.1 := by
  rw [h.name] at he
  obtain ⟨m, hm, rfl⟩ := List.mem_map.1 he
  refine ⟨m.info light, (h.index_iff _ _).2 ⟨m, mem_of_mem_keepFirst hm, rfl, rfl⟩, ?_⟩
  exact iequalTo_refl _

theorem exists_name (h : Holds light mods s) {i : UInt32} {p : PluginInfo}
    (hi : s.indexMap i = some p) : ∃ e ∈ s.nameMap, iequalTo e.1 p.name := by
  obtain ⟨m, hm, -, rfl⟩ := (h.index_iff i p).1 hi
  obtain ⟨m₀, hm₀, heq⟩ := exists_mem_keepFirst
    (r := fun m m' => m.isNamed (cPart m'.name)) (fun m => iequalTo_refl _) hm
  refine ⟨(cPart m₀.name, m₀.partialIndex), ?_, heq⟩
  rw [h.name]
  exact List.mem_map_of_mem hm₀

/-- **Lookup of a name.** -/
theorem lookupName_eq (h : Holds light mods s) (k : Bytes) :
    s.lookupName bucket k = ((elements mods).find? (ModInfo.isNamed k)).map (·.info light) := by
  unfold lookupName
  have hfind : (names bucket).find s.nameMap k =
      ((named mods).find? (ModInfo.isNamed k)).map fun m => (cPart m.name, m.partialIndex) := by
    rw [HashPolicy.find_eq (h.law k), h.name, List.find?_map]
    rfl
  rw [hfind, find_named]
  cases hm : (elements mods).find? (ModInfo.isNamed k) with
  | none => rfl
  | some m => exact (h.index_iff _ _).2 ⟨m, List.mem_of_find?_eq_some hm, rfl, rfl⟩

/-- The mods determine the maps. -/
theorem unique {t : IPluginInfo} (h : Holds light mods s) (ht : Holds light mods t)
    (hpop : s.populated = t.populated) : s = t := by
  have hindex : s.indexMap = t.indexMap := by
    funext i
    rw [h.index, ht.index]
  have hname : s.nameMap = t.nameMap := by rw [h.name, ht.name]
  cases s
  cases t
  simp only at hindex hname hpop
  rw [hindex, hname, hpop]

end Holds

variable (light bucket mods s) in
theorem populate_holds : ∃ s', populate light bucket (some mods) s = (true, s') ∧
    s'.populated = true ∧ Holds light mods s' := by
  have hloop :
      Holds light mods (mods.foldl (addMod light bucket) ⟨s.populated, fun _ => none, []⟩) :=
    holds_loop s.populated mods
  exact ⟨_, rfl, rfl, hloop.index, hloop.name⟩

/-- **Populate.** -/
theorem populate_spec (light : UInt32) (bucket : ℕ → UInt64 → ℕ) (mods : List (Option ModInfo))
    (s : IPluginInfo) :
    (∃ s', populate light bucket (some mods) s = (true, s') ∧ s'.populated = true ∧
      (∀ i, s'.indexMap i = ((actives mods).find? (·.partialIndex = i)).map (·.info light)) ∧
      (∀ i p, s'.indexMap i = some p ↔
        ∃ m ∈ elements mods, m.partialIndex = i ∧ m.info light = p) ∧
      (∀ e ∈ s'.nameMap, ∃ p, s'.indexMap e.2 = some p ∧ iequalTo p.name e.1) ∧
      (∀ i p, s'.indexMap i = some p → ∃ e ∈ s'.nameMap, iequalTo e.1 p.name) ∧
      (∀ k, s'.lookupName bucket k =
        ((elements mods).find? (ModInfo.isNamed k)).map (·.info light)) ∧
      populate light bucket (some mods) s' = (true, s')) ∧
    populate light bucket none s = (false, s) := by
  obtain ⟨s', hs', hpop, h⟩ := populate_holds light bucket mods s
  -- The second pass builds the same maps.
  obtain ⟨s'', hs'', hpop', h'⟩ := populate_holds light bucket mods s'
  have hsame : s'' = s' := h'.unique h (hpop'.trans hpop.symm)
  exact ⟨⟨s', hs', hpop, h.index, h.index_iff, fun _ => h.nameMap_mem, fun _ _ => h.exists_name,
    h.lookupName_eq, hsame ▸ hs''⟩, rfl⟩

end IPluginInfo

end SseExt
