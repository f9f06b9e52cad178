import Mathlib.Logic.Function.Basic
import SseExt.Lib.InStream
import SseExt.Lib.LittleEndian

/-!
# `VersionDb::Load`: the address library decoder

A header, a skipped name, and `addrCount` entries, each a tag byte with up to two operands that
give an id and an offset relative to the entry before. The stream is never asked whether a read
succeeded; what a failed read returns is the stream's junk.

The file system, the module base and the junk are parameters. Dividing by a zero `ptrSize` ends the
program (`divByZero`).
-/

namespace SseExt

/-- Four version numbers. -/
structure Version where
  major : Int32
  minor : Int32
  revision : Int32
  build : Int32

namespace Version

def zero : Version := ⟨0, 0, 0, 0⟩

/-- `"%d.%d.%d.%d"`, with the given separator. -/
def format (sep : String) (v : Version) : String :=
  toString v.major.toInt ++ sep ++ toString v.minor.toInt ++ sep ++ toString v.revision.toInt ++
    sep ++ toString v.build.toInt

end Version

structure VersionDb where
  data : UInt64 → Option UInt64
  ver : Version
  verStr : String
  base : UInt64

namespace InStream

/-- `read<T>` for an unsigned `T` of `n` bytes, widened to 64 bits. -/
def readUInt (s : InStream) (n : ℕ) : UInt64 × InStream :=
  let r := s.read n
  (UInt64.ofNat (ofLe r.1), r.2)

/-- The `int` spelled by four bytes. -/
def int32 (bs : List UInt8) : Int32 := Int32.ofNat (ofLe bs)

/-- `read<int>` -/
def readInt (s : InStream) : Int32 × InStream :=
  let r := s.read 4
  (int32 r.1, r.2)

/-- The loop over `_ver`. -/
def readVersion (s : InStream) : Version × InStream :=
  let major := s.readInt
  let minor := major.2.readInt
  let revision := minor.2.readInt
  let build := revision.2.readInt
  (⟨major.1, minor.1, revision.1, build.1⟩, build.2)

end InStream

namespace VersionDb

/-- `FindOffsetById` -/
def findOffsetById (db : VersionDb) (id : UInt64) : Option UInt64 := db.data id

/-- `FindAddressById`, with `NULL` as 0. -/
def findAddressById (db : VersionDb) (id : UInt64) : UInt64 :=
  if db.base = 0 then 0
  else
    match db.findOffsetById id with
    | none => 0
    | some offset => db.base + offset

/-- `clear`; the version string stays. -/
def clear (db : VersionDb) : VersionDb :=
  { db with data := fun _ => none, ver := .zero, base := 0 }

/-- One of the two switches over a tag: an operand relative to `prev`, `none` in the default. -/
def operand (mode : ℕ) (prev : UInt64) (file : InStream) : Option (UInt64 × InStream) :=
  match mode with
  | 0 => let q := file.readUInt 8; some (q.1, q.2)
  | 1 => some (prev + 1, file)
  | 2 => let b := file.readUInt 1; some (prev + b.1, b.2)
  | 3 => let b := file.readUInt 1; some (prev - b.1, b.2)
  | 4 => let w := file.readUInt 2; some (prev + w.1, w.2)
  | 5 => let w := file.readUInt 2; some (prev - w.1, w.2)
  | 6 => let w := file.readUInt 2; some (w.1, w.2)
  | 7 => let d := file.readUInt 4; some (d.1, d.2)
  | _ => none

/-- How decoding an entry can end early: the `default` of the first switch, a division by zero, or
the `throw` of the second switch. -/
inductive EntryError where
  | badTag
  | divByZero
  | thrown

/-- `type & 0xF` -/
def low (type : UInt8) : ℕ := (type &&& 0xF).toNat

/-- `high & 7`, where `high = type >> 4` -/
def high7 (type : UInt8) : ℕ := (type >>> 4 &&& 7).toNat

/-- `(high & 8) != 0` -/
def scaled (type : UInt8) : Bool := type >>> 4 &&& 8 ≠ 0

/-- `(unsigned long long)ptrSize` -/
def widen (ptrSize : Int32) : UInt64 := ptrSize.toInt64.toUInt64

/-- One round of the loop: the next id and offset, from `pvid` and `poffset`. -/
def entry (ptrSize : UInt64) (prev : UInt64 × UInt64) (file : InStream) :
    Except EntryError ((UInt64 × UInt64) × InStream) :=
  let type := file.get.1
  match operand (low type) prev.1 file.get.2 with
  | none => .error .badTag
  | some (q1, file) =>
    if scaled type ∧ ptrSize = 0 then .error .divByZero
    else
      let tpoffset := if scaled type then prev.2 / ptrSize else prev.2
      match operand (high7 type) tpoffset file with
      | none => .error .thrown
      | some (q2, file) => .ok ((q1, if scaled type then q2 * ptrSize else q2), file)

/-- The loop over the remaining entries. -/
def entries (ptrSize : UInt64) :
    ℕ → UInt64 × UInt64 → (UInt64 → Option UInt64) → InStream →
      Except EntryError ((UInt64 → Option UInt64) × InStream)
  | 0, _, data, file => .ok (data, file)
  | n + 1, prev, data, file =>
    match entry ptrSize prev file with
    | .error e => .error e
    | .ok (q, file) => entries ptrSize n q (Function.update data q.1 (some q.2)) file

/-- How `Load` ends: it returns true, with the stream as it is then, or false, or does not
return. -/
inductive LoadResult where
  | accepted (db : VersionDb) (file : InStream)
  | rejected (db : VersionDb)
  | divByZero
  | thrown

/-- `fileName` -/
def fileName (format : Int32) (v : Version) : String :=
  (if format = 2 then "Data\\SKSE\\Plugins\\versionlib-" else "Data\\SKSE\\Plugins\\version-") ++
    v.format "-" ++ ".bin"

/-- The part of `Load` after the name. -/
def loadBody (db : VersionDb) (file : InStream) : LoadResult :=
  let ptrSize := file.readInt
  let addrCount := ptrSize.2.readInt
  match entries (widen ptrSize.1) addrCount.1.toInt.toNat (0, 0) db.data addrCount.2 with
  | .ok (data, file) => .accepted { db with data } file
  | .error .badTag => .rejected db.clear
  | .error .divByZero => .divByZero
  | .error .thrown => .thrown

/-- `Load` from the opened file on; `db` is cleared. -/
def loadFrom (format : Int32) (base : UInt64) (db : VersionDb) (file : InStream) : LoadResult :=
  let fileFormat := file.readInt
  if fileFormat.1 ≠ format then .rejected db
  else
    let ver := fileFormat.2.readVersion
    let db := { db with ver := ver.1, verStr := ver.1.format "." }
    let tnLen := ver.2.readInt
    if tnLen.1 < 0 ∨ tnLen.1 ≥ 0x10000 then .rejected db
    else
      let file := if tnLen.1 > 0 then tnLen.2.seekCur tnLen.1.toInt.toNat else tnLen.2
      loadBody { db with base } file

/-- `Load`, where `files` is the file system and `base` the module handle. -/
def load (files : String → Option (List UInt8)) (junk : ℕ → UInt8) (base : UInt64)
    (db : VersionDb) (format : Int32) (v : Version) : LoadResult :=
  match files (fileName format v) with
  | none => .rejected db.clear
  | some content => loadFrom format base db.clear ⟨content, false, junk⟩

/-- Skipping only a positive length is skipping the length. -/
theorem skip_eq (tnLen : Int32) (file : InStream) :
    (if tnLen > 0 then file.seekCur tnLen.toInt.toNat else file) =
      file.seekCur tnLen.toInt.toNat := by
  split_ifs with h
  · rfl
  · have h0 : tnLen.toInt.toNat = 0 := by
      have hle := Int32.le_iff_toInt_le.1 (Int32.not_lt.1 h)
      rw [Int32.toInt_zero] at hle
      omega
    rw [h0, InStream.seekCur_zero]

end VersionDb

end SseExt
