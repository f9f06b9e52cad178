import Mathlib.Algebra.Group.Nat.Defs
import Mathlib.Tactic.Common
import SseExt.Hash

/-!
# Plugin-relative form IDs

A form ID of a full plugin has the plugin's index in its top byte and 24 bits of its own; one of a
light plugin has `0xFE` there, 12 bits of light index and 12 bits of its own. `pluginInfo_t`
assembles and splits them, `FormID::GetPluginPartialIndex` reads the plugin's part.

Every function is first read as arithmetic on the number spelled by the 32 bits (`toNat_*`); the
round trips are then facts about division with remainder.
-/

namespace SseExt

/-! ## The source -/

/-- What `IPluginInfo` reads of a `ModInfo` of the engine. `name` is the buffer a `const char *`
points into; `active` and `partialIndex` are the answers of `IsActive` and `GetPartialIndex`. -/
structure ModInfo where
  fileFlags : UInt32
  modIndex : UInt8
  lightIndex : UInt16
  name : Bytes
  active : Bool
  partialIndex : UInt32

/-- `pluginInfo_t` -/
structure PluginInfo where
  fileFlags : UInt32
  modIndex : UInt32
  lightIndex : UInt32
  name : Bytes
  isLight : Bool
  partialIndex : UInt32
deriving DecidableEq

namespace PluginInfo

/-- The constructor; `light` is `ModInfo::kFileFlags_Light`. -/
def mk' (light fileFlags : UInt32) (modIndex : UInt8) (lightIndex : UInt16) (name : Bytes) :
    PluginInfo :=
  let isLight : Bool := fileFlags &&& light = light
  { fileFlags
    modIndex := modIndex.toUInt32
    lightIndex := lightIndex.toUInt32
    name := cPart name
    isLight
    partialIndex :=
      if !isLight then modIndex.toUInt32 else (0xFE000 : UInt32) ||| lightIndex.toUInt32 }

def isFormInMod (p : PluginInfo) (formID : UInt32) : Bool :=
  let modID := (formID &&& 0xFF000000) >>> 24
  if !p.isLight && modID = p.modIndex then true
  else if p.isLight && modID = 0xFE && (formID &&& 0x00FFF000) >>> 12 = p.lightIndex then true
  else false

def getFormID (p : PluginInfo) (formIDLower : UInt32) : UInt32 :=
  if !p.isLight then p.modIndex <<< 24 ||| (formIDLower &&& 0xFFFFFF)
  else (0xFE000000 : UInt32) ||| (p.lightIndex <<< 12) ||| (formIDLower &&& 0xFFF)

def getFormIDLower (p : PluginInfo) (formID : UInt32) : UInt32 :=
  if p.isLight then formID &&& 0xFFF else formID &&& 0xFFFFFF

end PluginInfo

/-- `FormID::GetPluginPartialIndex` -/
def getPluginPartialIndex (formID : UInt32) : Option UInt32 :=
  let modID := (formID &&& 0xFF000000) >>> 24
  if modID = 0xFF then none
  else if modID = 0xFE then some (formID >>> 12)
  else some modID

/-! ## Fields of a word -/

theorem and_mask_shiftRight (x lo n : ℕ) :
    (x &&& (2 ^ n - 1) <<< lo) >>> lo = x / 2 ^ lo % 2 ^ n := by
  rw [Nat.shiftRight_and_distrib, Nat.shiftLeft_shiftRight, Nat.and_two_pow_sub_one_eq_mod,
    Nat.shiftRight_eq_div_pow]

theorem toNat_modID (f : UInt32) : ((f &&& 0xFF000000) >>> 24).toNat = f.toNat / 2 ^ 24 := by
  have h := and_mask_shiftRight f.toNat 24 8
  have hlt := f.toNat_lt
  rw [UInt32.toNat_shiftRight, UInt32.toNat_and]
  change (f.toNat &&& (2 ^ 8 - 1) <<< 24) >>> 24 = _
  rw [h]
  omega

theorem toNat_lightID (f : UInt32) :
    ((f &&& 0x00FFF000) >>> 12).toNat = f.toNat / 2 ^ 12 % 2 ^ 12 := by
  rw [UInt32.toNat_shiftRight, UInt32.toNat_and]
  exact and_mask_shiftRight f.toNat 12 12

theorem toNat_shiftRight_12 (f : UInt32) : (f >>> 12).toNat = f.toNat / 2 ^ 12 := by
  rw [UInt32.toNat_shiftRight]
  exact Nat.shiftRight_eq_div_pow _ _

theorem toNat_low24 (f : UInt32) : (f &&& 0xFFFFFF).toNat = f.toNat % 2 ^ 24 := by
  rw [UInt32.toNat_and]
  exact Nat.and_two_pow_sub_one_eq_mod f.toNat 24

theorem toNat_low12 (f : UInt32) : (f &&& 0xFFF).toNat = f.toNat % 2 ^ 12 := by
  rw [UInt32.toNat_and]
  exact Nat.and_two_pow_sub_one_eq_mod f.toNat 12

theorem toNat_full {i lower : UInt32} (hi : i.toNat < 2 ^ 8) (hl : lower.toNat < 2 ^ 24) :
    (i <<< 24 ||| lower).toNat = i.toNat * 2 ^ 24 + lower.toNat := by
  have hshift : (i <<< 24).toNat = i.toNat <<< 24 := by
    rw [UInt32.toNat_shiftLeft]
    change i.toNat <<< 24 % 2 ^ 32 = _
    rw [Nat.shiftLeft_eq]
    omega
  rw [UInt32.toNat_or, hshift, ← Nat.shiftLeft_add_eq_or_of_lt hl, Nat.shiftLeft_eq]

theorem toNat_lightIndex {i : UInt32} (hi : i.toNat < 2 ^ 12) :
    ((0xFE000 : UInt32) ||| i).toNat = 0xFE * 2 ^ 12 + i.toNat := by
  rw [UInt32.toNat_or]
  change 0xFE <<< 12 ||| i.toNat = _
  rw [← Nat.shiftLeft_add_eq_or_of_lt hi, Nat.shiftLeft_eq]

theorem toNat_light {i lower : UInt32} (hi : i.toNat < 2 ^ 12) (hl : lower.toNat < 2 ^ 12) :
    ((0xFE000000 : UInt32) ||| (i <<< 12) ||| lower).toNat =
      0xFE * 2 ^ 24 + i.toNat * 2 ^ 12 + lower.toNat := by
  have hshift : (i <<< 12).toNat = i.toNat <<< 12 := by
    rw [UInt32.toNat_shiftLeft]
    change i.toNat <<< 12 % 2 ^ 32 = _
    rw [Nat.shiftLeft_eq]
    omega
  have hhigh : (0xFE000000 : UInt32).toNat = 0xFE000 <<< 12 := rfl
  rw [UInt32.toNat_or, UInt32.toNat_or, hshift, hhigh, ← Nat.shiftLeft_or_distrib,
    ← Nat.shiftLeft_add_eq_or_of_lt hl, Nat.shiftLeft_eq]
  have hpart : 0xFE000 ||| i.toNat = 0xFE <<< 12 + i.toNat :=
    (Nat.shiftLeft_add_eq_or_of_lt hi 0xFE).symm
  rw [hpart, Nat.shiftLeft_eq]
  omega

/-! ## Splitting and assembling -/

theorem eq_iff_toNat {a b : UInt32} : a = b ↔ a.toNat = b.toNat := UInt32.toNat_inj.symm

/-- The partial index of a form ID, as a number. -/
theorem getPluginPartialIndex_iff {f i : UInt32} : getPluginPartialIndex f = some i ↔
    f.toNat / 2 ^ 24 < 0xFE ∧ i.toNat = f.toNat / 2 ^ 24 ∨
      f.toNat / 2 ^ 24 = 0xFE ∧ i.toNat = f.toNat / 2 ^ 12 := by
  have hlt := f.toNat_lt
  have hFF : (0xFF : UInt32).toNat = 0xFF := rfl
  have hFE : (0xFE : UInt32).toNat = 0xFE := rfl
  unfold getPluginPartialIndex
  simp only [eq_iff_toNat, toNat_modID, hFF, hFE]
  split_ifs with h1 h2
  · simp only [false_iff]
    omega
  · simp only [Option.some.injEq, eq_iff_toNat, toNat_shiftRight_12]
    omega
  · simp only [Option.some.injEq, eq_iff_toNat, toNat_modID]
    omega

namespace PluginInfo

/-- A plugin as the engine numbers it. -/
structure Valid (p : PluginInfo) : Prop where
  light : p.isLight → p.lightIndex.toNat < 2 ^ 12 ∧
    p.partialIndex.toNat = 0xFE * 2 ^ 12 + p.lightIndex.toNat
  full : ¬ p.isLight → p.modIndex.toNat < 0xFE ∧ p.partialIndex = p.modIndex

variable {p q : PluginInfo} {f x : UInt32}

theorem isFormInMod_iff_fields : p.isFormInMod f ↔
    ¬ p.isLight ∧ f.toNat / 2 ^ 24 = p.modIndex.toNat ∨
      p.isLight ∧ f.toNat / 2 ^ 24 = 0xFE ∧ f.toNat / 2 ^ 12 % 2 ^ 12 = p.lightIndex.toNat := by
  have hFE : (0xFE : UInt32).toNat = 0xFE := rfl
  unfold isFormInMod
  simp only [eq_iff_toNat, toNat_modID, toNat_lightID, hFE]
  cases p.isLight <;> simp

/-- **Belonging to a plugin** is having its partial index. -/
theorem Valid.isFormInMod_iff (hp : p.Valid) :
    p.isFormInMod f ↔ getPluginPartialIndex f = some p.partialIndex := by
  have hlt := f.toNat_lt
  rw [isFormInMod_iff_fields, getPluginPartialIndex_iff]
  by_cases hl : p.isLight
  · obtain ⟨hindex, hkey⟩ := hp.light hl
    simp only [hl, not_true_eq_false, false_and, true_and, false_or]
    omega
  · obtain ⟨hindex, hkey⟩ := hp.full hl
    rw [hkey]
    simp only [Bool.not_eq_true] at hl
    simp only [hl, Bool.false_eq_true, not_false_eq_true, true_and, false_and, or_false]
    omega

theorem Valid.toNat_getFormID (hp : p.Valid) : (p.getFormID x).toNat =
    if p.isLight then 0xFE * 2 ^ 24 + p.lightIndex.toNat * 2 ^ 12 + x.toNat % 2 ^ 12
    else p.modIndex.toNat * 2 ^ 24 + x.toNat % 2 ^ 24 := by
  unfold getFormID
  by_cases hl : p.isLight
  · have hlow : (x &&& 0xFFF).toNat < 2 ^ 12 := by
      rw [toNat_low12]
      exact Nat.mod_lt _ (by decide)
    simp only [hl, Bool.not_true, Bool.false_eq_true, if_false, if_true]
    rw [toNat_light (hp.light hl).1 hlow, toNat_low12]
  · have hlow : (x &&& 0xFFFFFF).toNat < 2 ^ 24 := by
      rw [toNat_low24]
      exact Nat.mod_lt _ (by decide)
    have hindex : p.modIndex.toNat < 2 ^ 8 := (hp.full hl).1.trans (by decide)
    simp only [hl, Bool.not_false, if_true, Bool.false_eq_true, if_false]
    rw [toNat_full hindex hlow, toNat_low24]

theorem toNat_getFormIDLower : (p.getFormIDLower f).toNat =
    if p.isLight then f.toNat % 2 ^ 12 else f.toNat % 2 ^ 24 := by
  unfold getFormIDLower
  split_ifs
  · exact toNat_low12 f
  · exact toNat_low24 f

/-- An assembled form ID carries the plugin's partial index. -/
theorem Valid.partialIndex_getFormID (hp : p.Valid) :
    getPluginPartialIndex (p.getFormID x) = some p.partialIndex := by
  rw [getPluginPartialIndex_iff, hp.toNat_getFormID]
  by_cases hl : p.isLight
  · obtain ⟨hindex, hkey⟩ := hp.light hl
    rw [if_pos hl]
    omega
  · obtain ⟨hindex, hkey⟩ := hp.full hl
    rw [if_neg hl, hkey]
    omega

/-- The low part comes back. -/
theorem Valid.getFormIDLower_getFormID (hp : p.Valid) :
    p.getFormIDLower (p.getFormID x) = x &&& if p.isLight then 0xFFF else 0xFFFFFF := by
  rw [eq_iff_toNat, toNat_getFormIDLower, hp.toNat_getFormID]
  by_cases hl : p.isLight
  · simp only [if_pos hl, toNat_low12]
    omega
  · simp only [if_neg hl, toNat_low24]
    omega

/-- A form ID with the plugin's partial index is put together again from its low part. -/
theorem Valid.getFormID_getFormIDLower (hp : p.Valid)
    (hf : getPluginPartialIndex f = some p.partialIndex) :
    p.getFormID (p.getFormIDLower f) = f := by
  have hlt := f.toNat_lt
  rw [getPluginPartialIndex_iff] at hf
  rw [eq_iff_toNat, hp.toNat_getFormID, toNat_getFormIDLower]
  by_cases hl : p.isLight
  · obtain ⟨hindex, hkey⟩ := hp.light hl
    simp only [if_pos hl]
    omega
  · obtain ⟨hindex, hkey⟩ := hp.full hl
    rw [hkey] at hf
    simp only [if_neg hl]
    omega

end PluginInfo

end SseExt
