import SseExt.Lib.Numeral
import SseExt.VersionDb.Load

/-!
# `IAL`: the version of the executable

`IAL` takes the version from the version resource of the executable, packs it into 64 bits and
compares that with the last version before the anniversary edition.

**Theorem (`getVer_faithful_iff`).** Packing keeps the four parts and their order unless a part is
negative and none is above `0xFFFF`.
-/

namespace SseExt

open Numeral

/-- The texts of the version resource, where there are any. -/
structure VersionInfo where
  productVersion : Option (List UInt8)
  fileVersion : Option (List UInt8)

namespace VersionDb

/-- What `%d` stores; `wide` is for numbers that do not fit. -/
def storeInt (wide : ℤ → Int32) (n : ℤ) : Int32 :=
  if -2 ^ 31 ≤ n ∧ n < 2 ^ 31 then Int32.ofInt n else wide n

/-- The conversions of `sscanf_s`, with a dot before each but the first. -/
def scanParts (wide : ℤ → Int32) : ℕ → List UInt8 → Option (List Int32)
  | 0, _ => some []
  | n + 1, s =>
    match scanInt (scanNat 10) s with
    | none => none
    | some (part, rest) =>
      match n, rest with
      | 0, _ => some [storeInt wide part]
      | _, 0x2E :: rest => (scanParts wide n rest).map (storeInt wide part :: ·)
      | _, _ => none

/-- `ParseVersionFromString` -/
def parseVersionFromString (wide : ℤ → Int32) (ptr : List UInt8) : Option Version :=
  match scanParts wide 4 ptr with
  | some [major, minor, revision, build] =>
    if (major ≠ 1 ∧ major ≠ 0) ∨ minor ≠ 0 ∨ revision ≠ 0 ∨ build ≠ 0 then
      some ⟨major, minor, revision, build⟩
    else none
  | _ => none

/-- One of the two queries of `GetExecutableVersion`; an empty text is not parsed. -/
def queryVersion (wide : ℤ → Int32) (vstr : Option (List UInt8)) : Option Version :=
  match vstr with
  | none | some [] => none
  | some (c :: cs) => parseVersionFromString wide (c :: cs)

/-- `GetExecutableVersion` -/
def getExecutableVersion (wide : ℤ → Int32) (info : VersionInfo) : Option Version :=
  match queryVersion wide info.productVersion with
  | some v => some v
  | none => queryVersion wide info.fileVersion

end VersionDb

namespace Version

/-- `a_parts` -/
def parts (v : Version) : List Int32 := [v.major, v.minor, v.revision, v.build]

end Version

/-- `IAL` -/
structure IAL where
  isAE : Bool
  ver : UInt64
  /-- How `Load` ended, if it was called. -/
  load : Option VersionDb.LoadResult

namespace IAL

/-- A round of the loop in `get_ver`. The part is an `int`: its sign is extended. -/
def packPart (result : UInt64) (part : Int32) : Option UInt64 :=
  if part > 0xFFFF then none else some (result <<< 16 ||| part.toInt64.toUInt64)

def pack (parts : List Int32) : Option UInt64 := parts.foldlM packPart 0

/-- `get_ver` -/
def getVer (wide : ℤ → Int32) (info : VersionInfo) : Option (Version × UInt64) :=
  match VersionDb.getExecutableVersion wide info with
  | none => none
  | some v => (pack v.parts).map (v, ·)

/-- The constructor. -/
def new (wide : ℤ → Int32) (info : VersionInfo) (files : String → Option (List UInt8))
    (junk : ℕ → UInt8) (base : UInt64) : IAL :=
  match getVer wide info with
  | none => ⟨false, 0, none⟩
  | some (v, ver) =>
    let isAE := ver > 0x0001000500610000
    let db : VersionDb := ⟨fun _ => none, .zero, "", 0⟩
    ⟨isAE, ver, some (db.load files junk base (if isAE then 2 else 1) v)⟩

/-! ## Unpacking -/

/-- One of the four fields of a packed version. -/
def field (ver : UInt64) (shift : UInt64) : Int32 := Int32.ofNat (ver >>> shift &&& 0xFFFF).toNat

def unpack (ver : UInt64) : Version := ⟨field ver 48, field ver 32, field ver 16, field ver 0⟩

/-- A part that fits in its field. -/
def Fits (part : Int32) : Prop := 0 ≤ part ∧ part ≤ 0xFFFF

instance (part : Int32) : Decidable (Fits part) := inferInstanceAs (Decidable (_ ∧ _))

theorem Fits.toInt {part : Int32} (h : Fits part) : 0 ≤ part.toInt ∧ part.toInt < 2 ^ 16 := by
  have hlo := Int32.le_iff_toInt_le.1 h.1
  have hhi := Int32.le_iff_toInt_le.1 h.2
  rw [Int32.toInt_zero] at hlo
  have hmax : (0xFFFF : Int32).toInt = 65535 := rfl
  omega

theorem toNat_widen {part : Int32} (h : Fits part) :
    part.toInt64.toUInt64.toNat = part.toInt.toNat := by
  have hle : (0 : Int64) ≤ part.toInt64 := by
    rw [Int64.le_iff_toInt_le, Int32.toInt_toInt64]
    exact h.toInt.1
  rw [Int64.toNat_toUInt64_of_le hle, Int64.toNatClampNeg, Int32.toInt_toInt64]

/-- **A part that fits** goes into the lowest field. -/
theorem packPart_of_fits (result : UInt64) {part : Int32} (hr : result.toNat < 2 ^ 48)
    (h : Fits part) : ∃ result', packPart result part = some result' ∧
      result'.toNat = result.toNat * 2 ^ 16 + part.toInt.toNat := by
  obtain ⟨hlo, hhi⟩ := h.toInt
  refine ⟨_, if_neg (Int32.not_lt.2 h.2), ?_⟩
  rw [UInt64.toNat_or, UInt64.toNat_shiftLeft, toNat_widen h]
  have hshift : result.toNat <<< ((16 : UInt64).toNat % 64) % 2 ^ 64 = result.toNat <<< 16 := by
    rw [Nat.shiftLeft_eq, Nat.shiftLeft_eq]
    exact Nat.mod_eq_of_lt (by simp; omega)
  rw [hshift, ← Nat.shiftLeft_add_eq_or_of_lt (by omega), Nat.shiftLeft_eq]

theorem pack_isSome_iff {parts : List Int32} {result : UInt64} :
    (parts.foldlM packPart result).isSome ↔ ∀ part ∈ parts, part ≤ 0xFFFF := by
  induction parts generalizing result with
  | nil => simp
  | cons part parts ih =>
    rw [List.foldlM_cons, List.forall_mem_cons]
    by_cases hpart : part ≤ 0xFFFF
    · simp [packPart, Int32.not_lt.2 hpart, hpart, ih]
    · simp [packPart, Int32.not_le.1 hpart, hpart]

/-- The parts of a version as one number. -/
def numOf (v : Version) : ℤ :=
  ((v.major.toInt * 2 ^ 16 + v.minor.toInt) * 2 ^ 16 + v.revision.toInt) * 2 ^ 16 + v.build.toInt

theorem toInt_parts {v : Version} (h : ∀ part ∈ v.parts, Fits part) :
    (0 ≤ v.major.toInt ∧ v.major.toInt < 2 ^ 16) ∧ (0 ≤ v.minor.toInt ∧ v.minor.toInt < 2 ^ 16) ∧
      (0 ≤ v.revision.toInt ∧ v.revision.toInt < 2 ^ 16) ∧
      0 ≤ v.build.toInt ∧ v.build.toInt < 2 ^ 16 := by
  simp only [Version.parts, List.forall_mem_cons] at h
  exact ⟨h.1.toInt, h.2.1.toInt, h.2.2.1.toInt, h.2.2.2.1.toInt⟩

/-- **Four parts that fit** are packed side by side. -/
theorem pack_of_fits {v : Version} (h : ∀ part ∈ v.parts, Fits part) :
    ∃ ver, pack v.parts = some ver ∧ (ver.toNat : ℤ) = numOf v := by
  obtain ⟨hmajor', hminor', hrevision', hbuild'⟩ := toInt_parts h
  simp only [Version.parts, List.forall_mem_cons] at h
  obtain ⟨hmajor, hminor, hrevision, hbuild, -⟩ := h
  obtain ⟨r₁, h₁, hr₁⟩ := packPart_of_fits 0 (by decide) hmajor
  rw [UInt64.toNat_zero] at hr₁
  obtain ⟨r₂, h₂, hr₂⟩ := packPart_of_fits r₁ (by omega) hminor
  obtain ⟨r₃, h₃, hr₃⟩ := packPart_of_fits r₂ (by omega) hrevision
  obtain ⟨r₄, h₄, hr₄⟩ := packPart_of_fits r₃ (by omega) hbuild
  refine ⟨r₄, ?_, ?_⟩
  · simp [pack, Version.parts, h₁, h₂, h₃, h₄]
  · rw [hr₄, hr₃, hr₂, hr₁, numOf]
    omega

theorem toNat_field (ver shift : UInt64) :
    (ver >>> shift &&& 0xFFFF).toNat = ver.toNat / 2 ^ (shift.toNat % 64) % 2 ^ 16 := by
  rw [UInt64.toNat_and, UInt64.toNat_shiftRight, Nat.shiftRight_eq_div_pow]
  exact Nat.and_two_pow_sub_one_eq_mod _ 16

theorem toInt_field (ver shift : UInt64) :
    (field ver shift).toInt = ver.toNat / 2 ^ (shift.toNat % 64) % 2 ^ 16 := by
  rw [field, toNat_field, Int32.toInt_ofNat_of_lt (by omega)]
  norm_cast

theorem unpack_pack {v : Version} (h : ∀ part ∈ v.parts, Fits part) {ver : UInt64}
    (hver : (ver.toNat : ℤ) = numOf v) : unpack ver = v := by
  have hparts := toInt_parts h
  rw [numOf] at hver
  obtain ⟨major, minor, revision, build⟩ := v
  simp only [unpack, Version.mk.injEq, ← Int32.toInt_inj, toInt_field]
  dsimp at *
  refine ⟨?_, ?_, ?_, ?_⟩ <;> omega

/-- Numbers of versions compare like the versions. -/
theorem numOf_lt_iff {v v' : Version} (h : ∀ part ∈ v.parts, Fits part)
    (h' : ∀ part ∈ v'.parts, Fits part) : numOf v < numOf v' ↔ v.parts < v'.parts := by
  have hparts := toInt_parts h
  have hparts' := toInt_parts h'
  simp only [Version.parts, List.cons_lt_cons_iff, Int32.lt_iff_toInt_lt, ← Int32.toInt_inj,
    List.not_lt_nil, and_false, or_false, numOf]
  omega

/-! ## The versions that packing keeps -/

/-- A version that is rejected, or whose parts all fit. -/
def Packable (v : Version) : Prop :=
  (∃ part ∈ v.parts, part > 0xFFFF) ∨ ∀ part ∈ v.parts, 0 ≤ part

/-- Packing keeps the four parts, and the comparison with 1.5.97.0 is that of the parts. -/
def Faithful (wide : ℤ → Int32) (info : VersionInfo) : Prop :=
  ∀ v ver, getVer wide info = some (v, ver) → unpack ver = v ∧
    ∀ files junk base, (new wide info files junk base).isAE ↔ [1, 5, 97, 0] < v.parts

theorem exists_of_getVer {wide : ℤ → Int32} {info : VersionInfo} {v : Version} {ver : UInt64}
    (h : getVer wide info = some (v, ver)) :
    VersionDb.getExecutableVersion wide info = some v ∧ pack v.parts = some ver := by
  unfold getVer at h
  cases hv : VersionDb.getExecutableVersion wide info with
  | none => simp [hv] at h
  | some v' =>
    simp only [hv, Option.map_eq_some_iff, Prod.mk.injEq] at h
    obtain ⟨ver', hpack, rfl, rfl⟩ := h
    exact ⟨rfl, hpack⟩

theorem Packable.fits {v : Version} (h : Packable v) {ver : UInt64}
    (hpack : pack v.parts = some ver) : ∀ part ∈ v.parts, Fits part := by
  have hle := pack_isSome_iff.1 (Option.isSome_iff_exists.2 ⟨ver, hpack⟩)
  rcases h with ⟨part, hpart, hgt⟩ | hpos
  · exact absurd (hle part hpart) (Int32.not_le.2 hgt)
  · exact fun part hpart => ⟨hpos part hpart, hle part hpart⟩

theorem Packable.toNat {v : Version} (h : Packable v) {ver : UInt64}
    (hpack : pack v.parts = some ver) : (ver.toNat : ℤ) = numOf v := by
  obtain ⟨ver', hpack', hnum⟩ := pack_of_fits (h.fits hpack)
  rw [hpack] at hpack'
  cases hpack'
  exact hnum

/-- The last version that is not of the anniversary edition. -/
def lastSE : Version := ⟨1, 5, 97, 0⟩

theorem lastSE_lt_iff {v : Version} (h : Packable v) {ver : UInt64}
    (hpack : pack v.parts = some ver) : ver > 0x0001000500610000 ↔ lastSE.parts < v.parts := by
  have hlast : ∀ part ∈ lastSE.parts, Fits part := by
    simp only [Version.parts, lastSE, List.forall_mem_cons, List.not_mem_nil, false_implies,
      implies_true, and_true]
    decide
  rw [← numOf_lt_iff hlast (h.fits hpack), ← h.toNat hpack, gt_iff_lt, UInt64.lt_iff_toNat_lt]
  exact Int.ofNat_lt.symm

/-- Fields are never negative. -/
theorem unpack_nonneg (ver : UInt64) : ∀ part ∈ (unpack ver).parts, 0 ≤ part := by
  have hfield (shift : UInt64) : 0 ≤ field ver shift := by
    rw [Int32.le_iff_toInt_le, toInt_field, Int32.toInt_zero]
    omega
  simp [unpack, Version.parts, hfield]

theorem faithful_iff {wide : ℤ → Int32} {info : VersionInfo} : Faithful wide info ↔
    ∀ v, VersionDb.getExecutableVersion wide info = some v → Packable v := by
  constructor
  · intro h v hv
    by_cases hle : ∀ part ∈ v.parts, part ≤ 0xFFFF
    · have hsome : (pack v.parts).isSome := pack_isSome_iff.2 hle
      obtain ⟨ver, hpack⟩ := Option.isSome_iff_exists.1 hsome
      have hunpack := (h v ver (by simp [getVer, hv, hpack])).1
      exact .inr (hunpack ▸ unpack_nonneg ver)
    · simp only [not_forall, Int32.not_le] at hle
      obtain ⟨part, hpart, hgt⟩ := hle
      exact .inl ⟨part, hpart, hgt⟩
  · intro h v ver hver
    obtain ⟨hv, hpack⟩ := exists_of_getVer hver
    have hv' := h v hv
    refine ⟨unpack_pack (hv'.fits hpack) (hv'.toNat hpack), fun files junk base => ?_⟩
    rw [show [1, 5, 97, 0] = lastSE.parts from rfl, ← lastSE_lt_iff hv' hpack]
    simp [new, hver]

/-- **Packing two versions** keeps their parts, their order and their comparison with 1.5.97.0
exactly if neither has a negative part with none above `0xFFFF`. -/
theorem getVer_faithful_iff (wide : ℤ → Int32) (info info' : VersionInfo) :
    (Faithful wide info ∧ Faithful wide info' ∧
      ∀ v ver v' ver', getVer wide info = some (v, ver) → getVer wide info' = some (v', ver') →
        (ver < ver' ↔ v.parts < v'.parts)) ↔
    (∀ v, VersionDb.getExecutableVersion wide info = some v → Packable v) ∧
      ∀ v, VersionDb.getExecutableVersion wide info' = some v → Packable v := by
  rw [faithful_iff, faithful_iff]
  refine ⟨fun h => ⟨h.1, h.2.1⟩, fun h => ⟨h.1, h.2, fun v ver v' ver' hver hver' => ?_⟩⟩
  obtain ⟨hv, hpack⟩ := exists_of_getVer hver
  obtain ⟨hv', hpack'⟩ := exists_of_getVer hver'
  have hpackable := h.1 v hv
  have hpackable' := h.2 v' hv'
  rw [← numOf_lt_iff (hpackable.fits hpack) (hpackable'.fits hpack'), ← hpackable.toNat hpack,
    ← hpackable'.toNat hpack', UInt64.lt_iff_toNat_lt]
  exact Int.ofNat_lt.symm

/-- The product version `1.-5.97.0`. -/
def negativeMinor : VersionInfo :=
  ⟨some [0x31, 0x2E, 0x2D, 0x35, 0x2E, 0x39, 0x37, 0x2E, 0x30], none⟩

theorem negativeMinor_garbled : ∃ ver,
    getVer (fun _ => 0) negativeMinor = some (⟨1, -5, 97, 0⟩, ver) ∧
      unpack ver = ⟨0xFFFF, 0xFFFB, 97, 0⟩ ∧ unpack ver ≠ ⟨1, -5, 97, 0⟩ := by
  refine ⟨0xFFFFFFFB00610000, rfl, rfl, fun h => ?_⟩
  have hminor := congrArg Version.minor h
  revert hminor
  decide

end IAL

end SseExt
