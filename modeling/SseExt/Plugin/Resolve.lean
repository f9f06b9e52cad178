import Mathlib.Data.List.Nodup
import SseExt.Plugin.PluginInfo

/-!
# Resolving plugin-relative form IDs

**Theorem (`resolve_roundtrip`).** In a populated table of plugins with different names and
indexes, a name and a lower part resolve to a form ID that belongs to that plugin alone and gives
both back; and a form ID whose partial index finds a plugin is put together again from its lower
part.

What the engine guarantees of the numbers of a plugin is `ModInfo.Engine`.
-/

namespace SseExt

variable {light : UInt32} {bucket : ℕ → UInt64 → ℕ} {mods : List (Option ModInfo)}
  {s : IPluginInfo} {m : ModInfo}

/-- The engine's numbering of an active mod. -/
structure ModInfo.Engine (light : UInt32) (m : ModInfo) : Prop where
  light_le : m.fileFlags &&& light = light → m.lightIndex ≤ 0xFFF
  full_lt : m.fileFlags &&& light ≠ light → m.modIndex < 0xFE
  index : m.partialIndex = if m.fileFlags &&& light = light then
    (0xFE000 : UInt32) ||| m.lightIndex.toUInt32 else m.modIndex.toUInt32

namespace ModInfo.Engine

theorem partialIndex_info (h : m.Engine light) :
    (m.info light).partialIndex = m.partialIndex := by
  rw [h.index]
  by_cases hl : m.fileFlags &&& light = light <;> simp [info, PluginInfo.mk', hl]

theorem valid (h : m.Engine light) : (m.info light).Valid := by
  constructor
  · intro hl
    have hflag : m.fileFlags &&& light = light := by simpa [info, PluginInfo.mk'] using hl
    have hindex : m.lightIndex.toUInt32.toNat < 2 ^ 12 := by
      have hle := UInt16.le_iff_toNat_le.1 (h.light_le hflag)
      rw [UInt16.toNat_toUInt32]
      exact Nat.lt_succ_of_le hle
    refine ⟨hindex, ?_⟩
    rw [h.partialIndex_info, h.index, if_pos hflag, toNat_lightIndex hindex]
    rfl
  · intro hl
    have hflag : m.fileFlags &&& light ≠ light := by simpa [info, PluginInfo.mk'] using hl
    refine ⟨?_, ?_⟩
    · have hlt := UInt8.lt_iff_toNat_lt.1 (h.full_lt hflag)
      change m.modIndex.toUInt32.toNat < 0xFE
      rw [UInt8.toNat_toUInt32]
      exact hlt
    · rw [h.partialIndex_info, h.index, if_neg hflag]
      rfl

end ModInfo.Engine

namespace IPluginInfo

/-- With different indexes every active mod has its slot. -/
theorem elements_eq (h : ((actives mods).map (·.partialIndex)).Nodup) :
    elements mods = actives mods := by
  apply keepFirst_eq_self
  simpa [List.Nodup, List.pairwise_map] using h

/-- With different names every element is found by its own. -/
theorem find_isNamed (hm : m ∈ elements mods)
    (hnames : (elements mods).Pairwise fun m m' => ¬ m.isNamed (cPart m'.name)) :
    (elements mods).find? (ModInfo.isNamed (cPart m.name)) = some m := by
  have hkeep := keepFirst_eq_self (r := fun m m' : ModInfo => m.isNamed (cPart m'.name)) hnames
  rw [← hkeep] at hm ⊢
  apply find?_of_mem_keepFirst _ hm (iequalTo_refl _)
  intro a b ha hb
  exact iequalTo_trans ha (iequalTo_symm hb)

/-- **Round trip through the plugin table.** -/
theorem resolve_roundtrip (hengine : ∀ m ∈ actives mods, m.Engine light)
    (hindex : ((actives mods).map (·.partialIndex)).Nodup)
    (hnames : (actives mods).Pairwise fun m m' => ¬ iequalTo (cPart m.name) (cPart m'.name)) :
    ∃ s', populate light bucket (some mods) s = (true, s') ∧
      (∀ m ∈ actives mods, ∀ x, ∃ f,
        s'.resolveFormID bucket (m.info light).name x = some f ∧
        (∀ m' ∈ actives mods, (m'.info light).isFormInMod f ↔ m' = m) ∧
        getPluginPartialIndex f = some m.partialIndex ∧
        s'.lookupIndex m.partialIndex = some (m.info light) ∧
        (m.info light).getFormIDLower f =
          x &&& if (m.info light).isLight then 0xFFF else 0xFFFFFF) ∧
      ∀ f i q, getPluginPartialIndex f = some i → s'.lookupIndex i = some q →
        q.isFormInMod f ∧ q.getFormID (q.getFormIDLower f) = f := by
  obtain ⟨s', hs', -, h⟩ := populate_holds light bucket mods s
  have helements := elements_eq hindex
  have hlookup : ∀ i p, s'.lookupIndex i = some p ↔
      ∃ m ∈ actives mods, m.partialIndex = i ∧ m.info light = p := by
    rw [← helements]
    exact h.index_iff
  refine ⟨s', hs', fun m hm x => ⟨(m.info light).getFormID x, ?_, ?_, ?_, ?_, ?_⟩, ?_⟩
  · have hname : s'.lookupName bucket (m.info light).name = some (m.info light) := by
      rw [h.lookupName_eq]
      rw [← helements] at hm hnames
      exact congrArg _ (find_isNamed hm hnames)
    unfold resolveFormID
    rw [hname]
  · intro m' hm'
    rw [(hengine m' hm').valid.isFormInMod_iff, (hengine m hm).valid.partialIndex_getFormID,
      (hengine m hm).partialIndex_info, (hengine m' hm').partialIndex_info, Option.some.injEq]
    constructor
    · intro heq
      exact List.inj_on_of_nodup_map hindex hm' hm heq.symm
    · rintro rfl
      rfl
  · rw [(hengine m hm).valid.partialIndex_getFormID, (hengine m hm).partialIndex_info]
  · exact (hlookup _ _).2 ⟨m, hm, rfl, rfl⟩
  · exact (hengine m hm).valid.getFormIDLower_getFormID
  · intro f i q hf hq
    obtain ⟨m, hm, rfl, rfl⟩ := (hlookup i q).1 hq
    rw [← (hengine m hm).partialIndex_info] at hf
    exact ⟨(hengine m hm).valid.isFormInMod_iff.2 hf,
      (hengine m hm).valid.getFormID_getFormIDLower hf⟩

/-- A full and a light plugin, with a null entry and an inactive mod of the same name. -/
def sampleMods : List (Option ModInfo) :=
  [some ⟨0, 0x05, 0, [0x61, 0], true, 0x05⟩, none, some ⟨0, 0x06, 0, [0x41, 0], false, 0x06⟩,
    some ⟨0x200, 0xFE, 0x123, [0x62, 0], true, 0xFE123⟩]

theorem resolve_roundtrip_sample : ∃ s', populate 0x200 (fun _ h => h.toNat % 8)
      (some sampleMods) ⟨false, fun _ => none, []⟩ = (true, s') ∧
    ∃ f, s'.resolveFormID (fun _ h => h.toNat % 8) [0x62] 0xABCDEF = some f ∧
      getPluginPartialIndex f = some 0xFE123 := by
  have hactives : actives sampleMods = [⟨0, 0x05, 0, [0x61, 0], true, 0x05⟩,
      ⟨0x200, 0xFE, 0x123, [0x62, 0], true, 0xFE123⟩] := rfl
  obtain ⟨s', hs', hmods, -⟩ := @resolve_roundtrip 0x200 (fun _ h => h.toNat % 8) sampleMods
    ⟨false, fun _ => none, []⟩
    (by
      rw [hactives]
      intro m hm
      rcases List.mem_pair.1 hm with rfl | rfl
      · exact ⟨by decide, by decide, by decide⟩
      · exact ⟨by decide, by decide, by decide⟩)
    (by rw [hactives]; decide) (by rw [hactives]; decide)
  obtain ⟨f, hf, -, hindex, -⟩ := hmods ⟨0x200, 0xFE, 0x123, [0x62, 0], true, 0xFE123⟩
    (by rw [hactives]; simp) 0xABCDEF
  exact ⟨s', hs', f, hf, hindex⟩

end IPluginInfo

end SseExt
