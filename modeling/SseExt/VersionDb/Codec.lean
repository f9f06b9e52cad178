import SseExt.VersionDb.Load

/-!
# The decoder inverts the format

`encode` writes a library, given for each entry the two tags to use; it fails when a tag cannot
express its entry relative to the one before.

**Theorem (`load_encode`).** `Load` accepts every encoded library, finds exactly the ids of its
entries, each with the offset of its last entry, and adds the module base to it.

The proof follows the format: an operand (`operand_enc`), an entry (`entry_enc`), the entries in
order (`entries_enc`), the header fields.
-/

namespace SseExt.VersionDb

open InStream

/-- An entry with the tags chosen for it. -/
structure Entry where
  id : UInt64
  offset : UInt64
  low : Fin 8
  high : Fin 16

/-- The tag byte. -/
def Entry.tag (e : Entry) : UInt8 := UInt8.ofNat (e.low + 16 * e.high)

/-- A number in `n` bytes, if it fits. -/
def field (n : ℕ) (x : UInt64) : Option (List UInt8) :=
  if x.toNat < 256 ^ n then some (leBytes n x.toNat) else none

/-- The operand that expresses `x` relative to `prev`. -/
def encOperand (mode : ℕ) (prev x : UInt64) : Option (List UInt8) :=
  match mode with
  | 0 => field 8 x
  | 1 => if x = prev + 1 then some [] else none
  | 2 => field 1 (x - prev)
  | 3 => field 1 (prev - x)
  | 4 => field 2 (x - prev)
  | 5 => field 2 (prev - x)
  | 6 => field 2 x
  | 7 => field 4 x
  | _ => none

/-- The operand of the high tag; with its high bit, in units of `ptrSize`. -/
def encOffset (ptrSize : UInt64) (high : Fin 16) (prev x : UInt64) : Option (List UInt8) :=
  if 8 ≤ high.val then
    if x % ptrSize = 0 then encOperand (high - 8) (prev / ptrSize) (x / ptrSize) else none
  else encOperand high prev x

def encodeEntry (ptrSize : UInt64) (prev : UInt64 × UInt64) (e : Entry) : Option (List UInt8) := do
  let id ← encOperand e.low prev.1 e.id
  let offset ← encOffset ptrSize e.high prev.2 e.offset
  return e.tag :: (id ++ offset)

def encodeEntries (ptrSize : UInt64) : UInt64 × UInt64 → List Entry → Option (List UInt8)
  | _, [] => some []
  | prev, e :: es => do
    let bs ← encodeEntry ptrSize prev e
    let rest ← encodeEntries ptrSize (e.id, e.offset) es
    return bs ++ rest

def intBytes (x : Int32) : List UInt8 := leBytes 4 x.toUInt32.toNat

def versionBytes (v : Version) : List UInt8 :=
  intBytes v.major ++ (intBytes v.minor ++ (intBytes v.revision ++ intBytes v.build))

/-- A whole library. -/
def encode (format : Int32) (ver : Version) (name : List UInt8) (ptrSize : Int32)
    (es : List Entry) : Option (List UInt8) := do
  let body ← encodeEntries (widen ptrSize) (0, 0) es
  return intBytes format ++ (versionBytes ver ++ (intBytes (Int32.ofNat name.length) ++ (name ++
    (intBytes ptrSize ++ (intBytes (Int32.ofNat es.length) ++ body)))))

/-- The offset of the last entry with the id. -/
def lastOffset (es : List Entry) (id : UInt64) : Option UInt64 :=
  (es.reverse.find? (·.id = id)).map Entry.offset

/-! ## Fields -/

variable {bs : List UInt8} {x prev : UInt64} {mode : ℕ} {ptrSize : UInt64} {e : Entry}
  {es : List Entry}

theorem readUInt_field {n : ℕ} (h : field n x = some bs) (tail : List UInt8) (junk : ℕ → UInt8) :
    readUInt ⟨bs ++ tail, false, junk⟩ n = (x, ⟨tail, false, junk⟩) := by
  unfold field at h
  split_ifs at h with hx
  cases h
  have hread := read_append (leBytes n x.toNat) tail junk
  rw [length_leBytes] at hread
  simp only [readUInt, hread, ofLe_leBytes hx, UInt64.ofNat_toNat]

theorem int32_intBytes (x : Int32) : int32 (intBytes x) = x := by
  have hx : x.toUInt32.toNat < 256 ^ 4 := x.toUInt32.toNat_lt
  unfold int32 intBytes
  rw [ofLe_leBytes hx]
  apply Int32.toBitVec_inj.1
  simp

theorem readInt_intBytes (x : Int32) (tail : List UInt8) (junk : ℕ → UInt8) :
    readInt ⟨intBytes x ++ tail, false, junk⟩ = (x, ⟨tail, false, junk⟩) := by
  have hread := read_append (intBytes x) tail junk
  rw [show (intBytes x).length = 4 from length_leBytes ..] at hread
  unfold readInt
  rw [hread]
  exact Prod.ext (int32_intBytes x) rfl

theorem readVersion_bytes (v : Version) (tail : List UInt8) (junk : ℕ → UInt8) :
    readVersion ⟨versionBytes v ++ tail, false, junk⟩ = (v, ⟨tail, false, junk⟩) := by
  simp only [readVersion, versionBytes, List.append_assoc, readInt_intBytes]

/-- **One operand.** -/
theorem operand_enc (h : encOperand mode prev x = some bs) (tail : List UInt8) (junk : ℕ → UInt8) :
    operand mode prev ⟨bs ++ tail, false, junk⟩ = some (x, ⟨tail, false, junk⟩) := by
  have hsub : ∀ a b : UInt64, a + (b - a) = b := by
    intro a b
    rw [UInt64.add_comm, UInt64.sub_add_cancel]
  have hsub' : ∀ a b : UInt64, a - (a - b) = b := by
    intro a b
    rw [UInt64.sub_eq_iff_eq_add, hsub]
  unfold encOperand at h
  split at h
  · simp only [operand, readUInt_field h]
  · split_ifs at h with hx
    cases h
    simp only [operand, hx, List.nil_append]
  · simp only [operand, readUInt_field h, hsub]
  · simp only [operand, readUInt_field h, hsub']
  · simp only [operand, readUInt_field h, hsub]
  · simp only [operand, readUInt_field h, hsub']
  · simp only [operand, readUInt_field h]
  · simp only [operand, readUInt_field h]
  · cases h

/-! ## Entries -/

theorem low_tag (e : Entry) : low e.tag = e.low := by
  have h : ∀ a : Fin 8, ∀ b : Fin 16, low (UInt8.ofNat (a + 16 * b)) = a := by decide
  exact h e.low e.high

theorem high7_tag (e : Entry) : high7 e.tag = e.high % 8 := by
  have h : ∀ a : Fin 8, ∀ b : Fin 16, high7 (UInt8.ofNat (a + 16 * b)) = b % 8 := by decide
  exact h e.low e.high

theorem scaled_tag (e : Entry) : scaled e.tag = decide (8 ≤ e.high.val) := by
  have h : ∀ a : Fin 8, ∀ b : Fin 16,
      scaled (UInt8.ofNat (a + 16 * b)) = decide (8 ≤ b.val) := by decide
  exact h e.low e.high

/-- Dividing and multiplying back. -/
theorem div_mul_cancel (h : x % ptrSize = 0) : x / ptrSize * ptrSize = x := by
  have hmod := congrArg UInt64.toNat h
  rw [UInt64.toNat_mod, UInt64.toNat_zero] at hmod
  have hx := Nat.div_mul_cancel (Nat.dvd_of_mod_eq_zero hmod)
  apply UInt64.toNat_inj.1
  rw [UInt64.toNat_mul, UInt64.toNat_div, hx]
  exact Nat.mod_eq_of_lt x.toNat_lt

/-- **One entry.** -/
theorem entry_enc {prev : UInt64 × UInt64} (hptr : ptrSize ≠ 0)
    (h : encodeEntry ptrSize prev e = some bs) (tail : List UInt8) (junk : ℕ → UInt8) :
    entry ptrSize prev ⟨bs ++ tail, false, junk⟩ =
      .ok ((e.id, e.offset), ⟨tail, false, junk⟩) := by
  simp only [encodeEntry, Option.bind_eq_bind, Option.bind_eq_some_iff, Option.pure_def,
    Option.some.injEq] at h
  obtain ⟨id, hid, offset, hoffset, rfl⟩ := h
  have hget := get_cons e.tag (id ++ (offset ++ tail)) junk
  have hop := operand_enc hid (offset ++ tail) junk
  have hz : ¬ (scaled e.tag = true ∧ ptrSize = 0) := fun hz => hptr hz.2
  rw [List.cons_append, List.append_assoc]
  unfold entry
  simp only [hget, low_tag, hop, hz, if_false]
  unfold encOffset at hoffset
  by_cases hs : 8 ≤ e.high.val
  · rw [if_pos hs] at hoffset
    split_ifs at hoffset with hdvd
    have hhigh : high7 e.tag = e.high - 8 := by rw [high7_tag]; omega
    simp only [scaled_tag, hs, decide_true, if_true, hhigh, operand_enc hoffset,
      div_mul_cancel hdvd]
  · rw [if_neg hs] at hoffset
    have hhigh : high7 e.tag = e.high := by rw [high7_tag]; omega
    simp only [scaled_tag, hs, decide_false, Bool.false_eq_true, if_false, hhigh,
      operand_enc hoffset]

/-- `_data[q1] = q2` -/
def store (data : UInt64 → Option UInt64) (e : Entry) : UInt64 → Option UInt64 :=
  Function.update data e.id (some e.offset)

/-- **The loop** stores the entries in order. -/
theorem entries_enc {prev : UInt64 × UInt64} (data : UInt64 → Option UInt64) (hptr : ptrSize ≠ 0)
    (h : encodeEntries ptrSize prev es = some bs) (tail : List UInt8) (junk : ℕ → UInt8) :
    entries ptrSize es.length prev data ⟨bs ++ tail, false, junk⟩ =
      .ok (es.foldl store data, ⟨tail, false, junk⟩) := by
  induction es generalizing prev data bs with
  | nil =>
    cases h
    rfl
  | cons e es ih =>
    simp only [encodeEntries, Option.bind_eq_bind, Option.bind_eq_some_iff, Option.pure_def,
      Option.some.injEq] at h
    obtain ⟨bs₁, h₁, bs₂, h₂, rfl⟩ := h
    rw [List.length_cons, List.append_assoc]
    simp only [entries, entry_enc hptr h₁]
    exact ih _ h₂

/-- The last entry with an id wins. -/
theorem foldl_store (data : UInt64 → Option UInt64) (id : UInt64) :
    es.foldl store data id = (lastOffset es id).or (data id) := by
  induction es generalizing data with
  | nil => rfl
  | cons e es ih =>
    rw [List.foldl_cons, ih]
    unfold lastOffset store
    rw [List.reverse_cons, List.find?_append]
    cases es.reverse.find? (·.id = id) with
    | some e' => rfl
    | none =>
      by_cases hid : e.id = id
      · subst hid
        simp
      · simp [hid, Function.update_of_ne (Ne.symm hid)]

theorem lastOffset_isSome (id : UInt64) : (lastOffset es id).isSome ↔ ∃ e ∈ es, e.id = id := by
  simp [lastOffset]

/-! ## Files -/

theorem widen_ne_zero {p : Int32} (h : 0 < p) : widen p ≠ 0 := by
  intro h0
  have hp : p.toInt64 = 0 := congrArg UInt64.toInt64 h0
  have hint := Int32.lt_iff_toInt_lt.1 h
  rw [← Int32.toInt_toInt64 p, hp] at hint
  exact absurd hint (by decide)

theorem loadBody_enc {p : Int32} {db : VersionDb} (hptr : 0 < p) (hes : es.length < 2 ^ 31)
    (h : encodeEntries (widen p) (0, 0) es = some bs) (junk : ℕ → UInt8) :
    loadBody db ⟨intBytes p ++ (intBytes (Int32.ofNat es.length) ++ bs), false, junk⟩ =
      .accepted { db with data := es.foldl store db.data } ⟨[], false, junk⟩ := by
  have hcount : (Int32.ofNat es.length).toInt.toNat = es.length := by
    rw [Int32.toInt_ofNat_of_lt hes]; rfl
  have hentries := entries_enc db.data (widen_ne_zero hptr) h [] junk
  rw [List.append_nil] at hentries
  simp only [loadBody, readInt_intBytes, hcount, hentries]

/-- The skip passes over the name. -/
theorem seekCur_name (name tail : List UInt8) (junk : ℕ → UInt8) :
    seekCur ⟨name ++ tail, false, junk⟩ name.length = ⟨tail, false, junk⟩ := by
  simp [seekCur]

/-- **Decoding inverts the format.** -/
theorem load_encode {files : String → Option (List UInt8)} {junk : ℕ → UInt8} {base : UInt64}
    {db : VersionDb} {format : Int32} {v ver : Version} {name : List UInt8} {ptrSize : Int32}
    {es : List Entry} {content : List UInt8} (hptr : 0 < ptrSize) (hname : name.length < 0x10000)
    (hes : es.length < 2 ^ 31) (henc : encode format ver name ptrSize es = some content)
    (hfile : files (fileName format v) = some content) :
    ∃ db' file, load files junk base db format v = .accepted db' file ∧ file.fail = false ∧
      (∀ id, (db'.findOffsetById id).isSome ↔ ∃ e ∈ es, e.id = id) ∧
      (∀ id, db'.findOffsetById id = lastOffset es id) ∧
      (base ≠ 0 → ∀ id offset, lastOffset es id = some offset →
        db'.findAddressById id = base + offset) := by
  simp only [encode, Option.bind_eq_bind, Option.bind_eq_some_iff, Option.pure_def,
    Option.some.injEq] at henc
  obtain ⟨body, hbody, rfl⟩ := henc
  have htn : (Int32.ofNat name.length).toInt = name.length :=
    Int32.toInt_ofNat_of_lt (hname.trans (by decide))
  have hrange : ¬ (Int32.ofNat name.length < 0 ∨ Int32.ofNat name.length ≥ 0x10000) := by
    rw [Int32.lt_iff_toInt_lt, ge_iff_le, Int32.le_iff_toInt_le, htn]
    change ¬ ((name.length : ℤ) < 0 ∨ (0x10000 : ℤ) ≤ name.length)
    omega
  -- What the loop leaves in the map.
  have hdata : ∀ id, es.foldl store (fun _ => none) id = lastOffset es id := by
    intro id
    rw [foldl_store, Option.or_none]
  refine ⟨⟨es.foldl store fun _ => none, ver, ver.format ".", base⟩, ⟨[], false, junk⟩, ?_, rfl,
    fun id => ?_, hdata, fun hbase id offset h => ?_⟩
  · unfold load
    simp only [hfile, loadFrom, readInt_intBytes, readVersion_bytes, ne_eq, not_true_eq_false,
      if_false, hrange]
    rw [skip_eq, htn, Int.toNat_natCast, seekCur_name, loadBody_enc hptr hes hbody]
    rfl
  · rw [← lastOffset_isSome, ← hdata]; rfl
  · unfold findAddressById findOffsetById
    simp only [hbase, if_false, hdata, h]

/-- One id twice, by a plain and by a scaled tag, after a name of one byte. -/
theorem load_encode_twice : ∃ content db' file,
    encode 2 ⟨1, 5, 97, 0⟩ [0x41] 8 [⟨1, 0x18, 1, 10⟩, ⟨1, 0x20, 6, 9⟩] = some content ∧
      load (fun _ => some content) (fun _ => 0) 0x140000000 ⟨fun _ => none, .zero, "", 0⟩ 2
        ⟨1, 5, 97, 0⟩ = .accepted db' file ∧
      db'.findAddressById 1 = 0x140000020 := by
  obtain ⟨content, henc⟩ : ∃ content,
      encode 2 ⟨1, 5, 97, 0⟩ [0x41] 8 [⟨1, 0x18, 1, 10⟩, ⟨1, 0x20, 6, 9⟩] = some content :=
    ⟨_, rfl⟩
  obtain ⟨db', file, hload, -, -, -, haddr⟩ := @load_encode (fun _ => some content) (fun _ => 0)
    0x140000000 ⟨fun _ => none, .zero, "", 0⟩ 2 ⟨1, 5, 97, 0⟩ _ _ _ _ _ (by decide) (by decide)
    (by decide) henc rfl
  exact ⟨content, db', file, henc, hload, haddr (by decide) 1 0x20 rfl⟩

end SseExt.VersionDb
