import SseExt.VersionDb.Truncation

/-!
# How `Load` fails

**Theorem (`cleared_iff`).** After a `Load` that returns false the database is as freshly cleared
exactly when the file was missing or of another format, and the object had no version string. The
other exits have stored the file's version by then, and `clear` forgets the version string.

**Theorem (`divByZero_iff`).** `Load` divides by zero exactly when the pointer size is zero and the
entries reach a tag with its top bit set before an unknown one. Otherwise it returns.

`Scaled` is the second condition, as a grammar of the bytes up to that tag.
-/

namespace SseExt.VersionDb

open InStream

/-! ## What a rejected load leaves -/

/-- `GetLoadedVersion` -/
def getLoadedVersion (db : VersionDb) : Version := db.ver

/-- `GetLoadedVersionString` -/
def getLoadedVersionString (db : VersionDb) : String := db.verStr

/-- Nothing is left of any load. -/
structure Cleared (db : VersionDb) : Prop where
  offset : ∀ id, db.findOffsetById id = none
  address : ∀ id, db.findAddressById id = 0
  ver : db.getLoadedVersion = .zero
  verStr : db.getLoadedVersionString = ""

variable {format : Int32} {base : UInt64} {db db' : VersionDb} {file : InStream}
  {files : String → Option (List UInt8)} {junk : ℕ → UInt8} {v : Version}

theorem format_ne_empty (sep : String) (hsep : sep ≠ "") (v : Version) : v.format sep ≠ "" := by
  intro h
  have hlen := congrArg String.length h
  have hpos : sep.length ≠ 0 := fun h0 => hsep (String.length_eq_zero_iff.1 h0)
  simp only [Version.format, String.length_append, String.length_empty] at hlen
  omega

/-- `clear` leaves only the version string. -/
theorem cleared_clear : Cleared db.clear ↔ db.verStr = "" := by
  constructor
  · exact fun h => h.verStr
  · exact fun h => ⟨fun _ => rfl, fun _ => rfl, rfl, h⟩

/-- The version string of a file that passed the format check stays. -/
theorem verStr_rejected (hformat : file.readInt.1 = format)
    (h : loadFrom format base db file = .rejected db') : db'.verStr ≠ "" := by
  have hne := format_ne_empty "." (by decide) file.readInt.2.readVersion.1
  unfold loadFrom loadBody at h
  dsimp only at h
  rw [if_neg (not_not.2 hformat)] at h
  split_ifs at h
  · cases h
    exact hne
  all_goals
    split at h
    · cases h
    · cases h
      exact hne
    · cases h
    · cases h

/-- **When a failed load leaves an empty database.** -/
theorem cleared_iff (h : load files junk base db format v = .rejected db') :
    Cleared db' ↔ db.verStr = "" ∧ ∀ content, files (fileName format v) = some content →
      (readInt ⟨content, false, junk⟩).1 ≠ format := by
  unfold load at h
  cases hfile : files (fileName format v) with
  | none =>
    simp only [hfile, LoadResult.rejected.injEq] at h
    rw [← h, cleared_clear]
    simp
  | some content =>
    simp only [hfile] at h
    by_cases hformat : (readInt ⟨content, false, junk⟩).1 = format
    · have hver := verStr_rejected hformat h
      constructor
      · exact fun hc => absurd hc.verStr hver
      · exact fun hc => absurd hformat (hc.2 content rfl)
    · have hdb : db.clear = db' := by
        unfold loadFrom at h
        dsimp only at h
        rw [if_pos hformat] at h
        exact LoadResult.rejected.inj h
      rw [← hdb, cleared_clear]
      constructor
      · intro hs
        refine ⟨hs, fun content' hc => ?_⟩
        rwa [← Option.some.inj hc]
      · exact fun hc => hc.1

/-- A header with the version 1.5.97.0 whose name is one byte too long. -/
def longName : List UInt8 :=
  [2, 0, 0, 0, 1, 0, 0, 0, 5, 0, 0, 0, 97, 0, 0, 0, 0, 0, 0, 0, 0, 0, 1, 0]

theorem longName_not_cleared : ∃ db', load (fun _ => some longName) (fun _ => 0) 0x140000000
    ⟨fun _ => none, .zero, "", 0⟩ 2 ⟨1, 5, 97, 0⟩ = .rejected db' ∧ ¬ Cleared db' := by
  refine ⟨_, rfl, fun h => ?_⟩
  have hmajor : (1 : Int32) = 0 := congrArg Version.major h.ver
  exact absurd hmajor (by decide)

theorem cleared_missing : ∃ db', load (fun _ => none) (fun _ => 0) 0x140000000
    ⟨fun _ => none, ⟨1, 5, 97, 0⟩, "", 0x140000000⟩ 2 ⟨1, 6, 0, 0⟩ = .rejected db' ∧
      Cleared db' := by
  refine ⟨_, rfl, ?_⟩
  have hload : load (fun _ => none) (fun _ => 0) 0x140000000
      ⟨fun _ => none, ⟨1, 5, 97, 0⟩, "", 0x140000000⟩ 2 ⟨1, 6, 0, 0⟩ = .rejected _ := rfl
  exact (cleared_iff hload).2 ⟨rfl, fun _ h => by cases h⟩

/-! ## Division by zero -/

/-- `n` entries of which some have known tags without the top bit, and the next has a known tag
with it. The bytes end in that tag. -/
inductive Scaled : ℕ → List UInt8 → Prop
  | here {n : ℕ} {type : UInt8} : low type < 8 → scaled type → Scaled (n + 1) [type]
  | there {n : ℕ} {type : UInt8} {ops rest : List UInt8} : low type < 8 → ¬ scaled type →
      ops.length = entryWidth type → Scaled n rest → Scaled (n + 1) (type :: (ops ++ rest))

/-- A zero pointer size, the number of entries, and the entries up to a scaled tag. -/
inductive ZeroScaled : List UInt8 → Prop
  | mk {p c es : List UInt8} : p.length = 4 → int32 p = 0 → c.length = 4 →
      Scaled (int32 c).toInt.toNat es → ZeroScaled (p ++ (c ++ es))

variable {ptrSize : UInt64} {prev : UInt64 × UInt64} {n : ℕ} {data : UInt64 → Option UInt64}

/-- **The loop** divides by zero if it reaches a scaled tag. -/
theorem entries_divByZero : entries ptrSize n prev data file = .error .divByZero ↔
    ptrSize = 0 ∧ ∃ bs, Scaled n bs ∧ (file.read bs.length).1 = bs := by
  induction n generalizing prev data file with
  | zero =>
    constructor
    · intro h
      cases h
    · rintro ⟨-, bs, hbs, -⟩
      cases hbs
  | succ n ih =>
    by_cases htag : TagOk ptrSize file.get.1
    · obtain ⟨q, hq⟩ := entry_ok htag prev
      simp only [entries, hq, ih]
      constructor
      · rintro ⟨hz, bs, hbs, hread⟩
        refine ⟨hz, _, .there htag.1 (fun hs => htag.2 hs hz) (length_read _ file.get.2) hbs, ?_⟩
        rw [List.length_cons, List.length_append, length_read, read_succ, read_add, hread]
      · rintro ⟨hz, bs, hbs, hread⟩
        cases hbs with
        | here _ hs =>
          rw [List.length_singleton, read_succ] at hread
          obtain ⟨hget, -⟩ := List.cons.inj hread
          rw [← hget] at hs
          exact absurd hz (htag.2 hs)
        | @there _ type ops rest _ _ hops hrest =>
          rw [List.length_cons, List.length_append, read_succ, read_add] at hread
          obtain ⟨rfl, htail⟩ := List.cons.inj hread
          obtain ⟨-, hr⟩ := List.append_inj htail (length_read _ _)
          rw [hops] at hr
          exact ⟨hz, rest, hrest, hr⟩
    · rcases entry_error htag prev with ⟨hlow, he⟩ | ⟨hlow, hs, hz, he⟩
      · simp only [entries, he]
        constructor
        · intro h
          cases h
        · rintro ⟨-, bs, hbs, hread⟩
          cases hbs with
          | here hknown _ | there hknown _ _ _ =>
            rw [List.length_cons, read_succ] at hread
            exact absurd ((List.cons.inj hread).1 ▸ hknown) hlow
      · simp only [entries, he, true_iff]
        refine ⟨hz, _, .here hlow hs, ?_⟩
        rw [List.length_singleton, read_succ, read_zero]

/-- The second switch over a tag has no default to reach. -/
theorem entries_ne_thrown : entries ptrSize n prev data file ≠ .error .thrown := by
  induction n generalizing prev data file with
  | zero => exact nofun
  | succ n ih =>
    by_cases htag : TagOk ptrSize file.get.1
    · obtain ⟨q, hq⟩ := entry_ok htag prev
      simp only [entries, hq]
      exact ih
    · rcases entry_error htag prev with ⟨-, he⟩ | ⟨-, -, -, he⟩ <;>
        simp only [entries, he, ne_eq, Except.error.injEq, reduceCtorEq, not_false_eq_true]

theorem widen_eq_zero {x : Int32} : widen x = 0 ↔ x = 0 := by
  constructor
  · intro h
    have h64 : x.toInt64 = 0 := by simpa [widen] using congrArg UInt64.toInt64 h
    have hint : x.toInt = 0 := by simpa using congrArg Int64.toInt h64
    exact Int32.toInt_inj.1 hint
  · rintro rfl
    rfl

/-- The part after the name divides by zero if it delivers entries up to a scaled tag. -/
theorem loadBody_divByZero : loadBody db file = .divByZero ↔
    ∃ body, ZeroScaled body ∧ (file.read body.length).1 = body := by
  have hload : loadBody db file = .divByZero ↔
      entries (widen (int32 (file.read 4).1)) (int32 ((file.read 4).2.read 4).1).toInt.toNat (0, 0)
        db.data ((file.read 4).2.read 4).2 = .error .divByZero := by
    unfold loadBody readInt
    dsimp only
    constructor
    · intro h
      split at h
      all_goals first | assumption | cases h
    · intro h
      rw [h]
  rw [hload, entries_divByZero, widen_eq_zero]
  constructor
  · rintro ⟨hp, es, hes, h⟩
    refine ⟨_, .mk (length_read 4 file) hp (length_read 4 _) hes, ?_⟩
    rw [List.length_append, List.length_append, length_read, length_read, read_add, read_add, h]
  · rintro ⟨_, ⟨hp, hzero, hc, hes⟩, h⟩
    rename_i p c es
    rw [List.length_append, List.length_append, hp, hc, read_add, read_add] at h
    obtain ⟨hp', h⟩ := List.append_inj h (by rw [length_read, hp])
    obtain ⟨hc', hes'⟩ := List.append_inj h (by rw [length_read, hc])
    rw [hp', hc']
    exact ⟨hzero, es, hes, hes'⟩

/-- What the stream delivers is a header and, after the skip, a zero pointer size and entries up to
a scaled tag. -/
def DeliversZero (format : Int32) (file : InStream) : Prop :=
  ∃ tnLen, Header format tnLen (file.read 24).1 ∧
    ∃ body, ZeroScaled body ∧ (((file.read 24).2.seekCur tnLen).read body.length).1 = body

theorem loadFrom_divByZero :
    loadFrom format base db file = .divByZero ↔ DeliversZero format file := by
  by_cases hhdr : ∃ tnLen, Header format tnLen (file.read 24).1
  · obtain ⟨tnLen, hhdr⟩ := hhdr
    obtain ⟨db', hload⟩ := loadFrom_header base db hhdr
    rw [hload, loadBody_divByZero, DeliversZero, exists_header_iff hhdr]
  · obtain ⟨db', hload⟩ := loadFrom_not_header base db hhdr
    rw [hload]
    constructor
    · intro h
      cases h
    · rintro ⟨tnLen, h, -⟩
      exact absurd ⟨tnLen, h⟩ hhdr

theorem loadFrom_ne_thrown : loadFrom format base db file ≠ .thrown := by
  have hbody : ∀ db file, loadBody db file ≠ .thrown := by
    intro db file h
    unfold loadBody at h
    dsimp only at h
    split at h
    any_goals cases h
    rename_i hentries
    exact entries_ne_thrown hentries
  by_cases hhdr : ∃ tnLen, Header format tnLen (file.read 24).1
  · obtain ⟨tnLen, hhdr⟩ := hhdr
    obtain ⟨db', hload⟩ := loadFrom_header base db hhdr
    exact hload ▸ hbody _ _
  · obtain ⟨db', hload⟩ := loadFrom_not_header base db hhdr
    exact hload ▸ nofun

/-- `Load` comes back, with true or with false. -/
def LoadResult.Returns : LoadResult → Prop
  | .accepted _ _ | .rejected _ => True
  | .divByZero | .thrown => False

/-- **When decoding divides by zero.** -/
theorem returns_iff (format : Int32) (base : UInt64) (db : VersionDb) (v : Version)
    (content : List UInt8) (junk : ℕ → UInt8) :
    (load (fun _ => some content) junk base db format v).Returns ↔
      ¬ DeliversZero format ⟨content, false, junk⟩ := by
  have hne := @loadFrom_ne_thrown format base db.clear ⟨content, false, junk⟩
  rw [← @loadFrom_divByZero format base db.clear,
    show load (fun _ => some content) junk base db format v =
      loadFrom format base db.clear ⟨content, false, junk⟩ from rfl]
  cases hload : loadFrom format base db.clear ⟨content, false, junk⟩ with
  | accepted db' file' => simp [LoadResult.Returns]
  | rejected db' => simp [LoadResult.Returns]
  | divByZero => simp [LoadResult.Returns]
  | thrown => exact absurd hload hne

/-- A library with a zero pointer size and one entry, whose tag is scaled. -/
def zeroPointerSize : List UInt8 := cutHeader ++ [0, 0, 0, 0, 1, 0, 0, 0, 0x91]

theorem zeroPointerSize_divides : load (fun _ => some zeroPointerSize) (fun _ => 0) 0x140000000
    ⟨fun _ => none, .zero, "", 0⟩ 2 ⟨1, 5, 97, 0⟩ = .divByZero := rfl

end SseExt.VersionDb
