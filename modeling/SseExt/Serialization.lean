import Mathlib.Data.List.ModifyLast
import SseExt.Hash
import SseExt.Lib.LittleEndian

/-!
# `ISerializationBase`: records of the co-save

A record is the length of a compressed archive and the archive. `ReadRecord` looks at the first read
only to see that it was not empty, so the upper bytes of the length may be whatever the variable
held.

**Theorem (`record_format`).** What `WriteRecord` writes makes `ReadRecord` call `Load` once, on
what `Store` produced. On any payload `Load` is called only behind a complete length and as many
bytes, which decompress to something.

The interface of the script extender, the compressor and the archives are parameters;
`SerializationInterface.Lawful` and `Boost.Lawful` are what the code relies on.
-/

namespace SseExt

/-- A record being written. -/
structure Record where
  type : UInt32
  version : UInt32
  data : Bytes

/-- `SKSESerializationInterface`: success or the bytes copied, and the state afterwards. -/
structure SerializationInterface (σ : Type*) where
  openRecord : UInt32 → UInt32 → σ → Bool × σ
  writeRecordData : Bytes → σ → Bool × σ
  readRecordData : ℕ → σ → Bytes × σ

/-- The libraries: the compressor and the decompressor, which may throw, what the constructor of an
output archive writes, and whether that of an input archive accepts its stream. -/
structure Boost where
  gzip : Bytes → Option Bytes
  gunzip : Bytes → Option Bytes
  header : Bytes
  accepts : Bytes → Bool

/-- An implementation of `ISerializationBase`. `Store` is what it adds to its archive, and `none` if
it throws; `Load` gets the version and the stream of its archive. -/
structure Serializer (σ : Type*) where
  store : Option Bytes
  load : UInt32 → Bytes → σ → Option ℕ × σ

namespace Serializer

/-- The exits of `WriteRecord` that return false. -/
inductive WriteError where
  | store
  | noData
  | gzip
  | overflow
  | empty
  | openRecord
  | length
  | data
  deriving DecidableEq

/-- The exits of `ReadRecord` that return false. -/
inductive ReadError where
  | length
  | zeroLength
  | data
  | gzip
  | empty
  | load
  deriving DecidableEq

variable {σ : Type*} (S : Serializer σ) (B : Boost) (I : SerializationInterface σ)

def writeRecord (type version : UInt32) (intfc : σ) : Except WriteError Unit × σ :=
  match S.store with
  | none => (.error .store, intfc)
  | some stored =>
    let ss := B.header ++ stored
    if ss.length = 0 then (.error .noData, intfc)
    else
      match B.gzip ss with
      | none => (.error .gzip, intfc)
      | some compressed =>
        if compressed.length > 0xFFFFFFFF then (.error .overflow, intfc)
        else
          let compressedSize := UInt32.ofNat compressed.length
          if compressedSize = 0 then (.error .empty, intfc)
          else
            let opened := I.openRecord type version intfc
            if !opened.1 then (.error .openRecord, opened.2)
            else
              let size := I.writeRecordData (leBytes 4 compressedSize.toNat) opened.2
              if !size.1 then (.error .length, size.2)
              else
                let data := I.writeRecordData (compressed.take compressedSize.toNat) size.2
                if !data.1 then (.error .data, data.2) else (.ok (), data.2)

/-- How `ReadRecord` ends: what it returns, the calls of `Load`, and the state of the interface. -/
structure ReadOutcome (σ : Type*) where
  result : Except ReadError Unit
  loads : List (UInt32 × Bytes)
  intfc : σ

/-- The bytes of a variable of four bytes that held `uninit`, after a read that copied `bs`. -/
def partialRead (uninit : ℕ → UInt8) (bs : Bytes) : Bytes :=
  bs ++ (List.range (4 - bs.length)).map fun i => uninit (bs.length + i)

def readRecord (uninit : ℕ → UInt8) (version : UInt32) (intfc : σ) : ReadOutcome σ :=
  let size := I.readRecordData 4 intfc
  let compressedSize := ofLe (partialRead uninit size.1)
  if size.1.length = 0 then ⟨.error .length, [], size.2⟩
  else if compressedSize = 0 then ⟨.error .zeroLength, [], size.2⟩
  else
    let data := I.readRecordData compressedSize size.2
    if data.1.length ≠ compressedSize then ⟨.error .data, [], data.2⟩
    else
      match B.gunzip data.1 with
      | none => ⟨.error .gzip, [], data.2⟩
      | some out =>
        if out.length = 0 then ⟨.error .empty, [], data.2⟩
        else if !B.accepts out then ⟨.error .load, [], data.2⟩
        else
          let num := S.load version out data.2
          match num.1 with
          | none => ⟨.error .load, [(version, out)], num.2⟩
          | some _ => ⟨.ok (), [(version, out)], num.2⟩

end Serializer

/-! ## What the code relies on -/

/-- The interface writes to the record opened last and reads what is left of a record. -/
structure SerializationInterface.Lawful {σ : Type*} (I : SerializationInterface σ)
    (written : σ → List Record) (left : σ → Bytes) : Prop where
  openRecord : ∀ type version s, (I.openRecord type version s).1 = true ∧
    written (I.openRecord type version s).2 = written s ++ [⟨type, version, []⟩]
  writeRecordData : ∀ bs s records record, written s = records ++ [record] →
    (I.writeRecordData bs s).1 = true ∧
      written (I.writeRecordData bs s).2 = records ++ [{ record with data := record.data ++ bs }]
  readRecordData : ∀ n s, (I.readRecordData n s).1 = (left s).take n ∧
    left (I.readRecordData n s).2 = (left s).drop n

/-- Decompressing what was compressed, and opening an archive that was written. -/
structure Boost.Lawful (B : Boost) : Prop where
  gunzip : ∀ x z, B.gzip x = some z → B.gunzip z = some x
  accepts : ∀ stored, B.accepts (B.header ++ stored) = true

namespace Serializer

variable {σ : Type*} {S : Serializer σ} {B : Boost} {I : SerializationInterface σ}
  {written : σ → List Record} {left : σ → Bytes}

/-! ## Writing -/

/-- The payload of a compressed archive. -/
def payload (compressed : Bytes) : Bytes := leBytes 4 compressed.length ++ compressed

theorem writeRecord_ok (hI : I.Lawful written left) {stored z : Bytes}
    (hstore : S.store = some stored) (hne : B.header ++ stored ≠ [])
    (hgzip : B.gzip (B.header ++ stored) = some z) (hpos : z ≠ []) (hlt : z.length < 2 ^ 32)
    (type version : UInt32) (intfc : σ) :
    ∃ intfc', S.writeRecord B I type version intfc = (.ok (), intfc') ∧
      written intfc' = written intfc ++ [⟨type, version, payload z⟩] := by
  have hsize : (UInt32.ofNat z.length).toNat = z.length := UInt32.toNat_ofNat_of_lt' hlt
  have hzero : UInt32.ofNat z.length ≠ 0 := by
    intro h
    rw [h, UInt32.toNat_zero] at hsize
    exact hpos (List.length_eq_zero_iff.1 hsize.symm)
  obtain ⟨hopen, hopened⟩ := hI.openRecord type version intfc
  obtain ⟨hlen, hlength⟩ := hI.writeRecordData (leBytes 4 z.length) _ _ _ hopened
  obtain ⟨hdata, hwritten⟩ := hI.writeRecordData z _ _ _ hlength
  refine ⟨_, ?_, hwritten⟩
  have hoverflow : ¬ z.length > 0xFFFFFFFF := by omega
  have hss : ¬ (B.header ++ stored).length = 0 := mt List.length_eq_zero_iff.1 hne
  simp only [writeRecord, hstore, hgzip, if_neg hss, if_neg hoverflow, if_neg hzero, hsize,
    List.take_length, hopen, hlen, hdata, Bool.not_true, Bool.false_eq_true, if_false]

/-! ## Reading -/

/-- A complete length that is not zero, as many bytes, which decompress to something, and a rest. -/
structure Decodes (B : Boost) (P : Bytes) (out : Bytes) : Prop where
  split : ∃ size body rest, P = size ++ (body ++ rest) ∧ size.length = 4 ∧ ofLe size ≠ 0 ∧
    body.length = ofLe size ∧ B.gunzip body = some out
  nonempty : out ≠ []

theorem partialRead_of_length {uninit : ℕ → UInt8} {bs : Bytes} (h : bs.length = 4) :
    partialRead uninit bs = bs := by
  simp [partialRead, h]

/-- **A payload that decodes is loaded**, once. -/
theorem readRecord_of_decodes (hI : I.Lawful written left) {intfc : σ} {out : Bytes}
    (h : Decodes B (left intfc) out) (hacc : B.accepts out = true) (uninit : ℕ → UInt8)
    (version : UInt32) : (S.readRecord B I uninit version intfc).loads = [(version, out)] := by
  obtain ⟨size, body, rest, hP, h4, hzero, hbody, hgunzip⟩ := h.split
  obtain ⟨hsize, hleft⟩ := hI.readRecordData 4 intfc
  rw [hP, List.take_left' h4] at hsize
  rw [hP, List.drop_left' h4] at hleft
  obtain ⟨hdata, -⟩ := hI.readRecordData (ofLe size) (I.readRecordData 4 intfc).2
  rw [hleft, List.take_left' hbody] at hdata
  have hsize0 : ¬ size.length = 0 := by omega
  have hout : ¬ out.length = 0 := mt List.length_eq_zero_iff.1 h.nonempty
  simp only [readRecord, hsize, partialRead_of_length h4, if_neg hsize0, if_neg hzero, hdata,
    hbody, ne_eq, not_true_eq_false, if_false, hgunzip, if_neg hout, hacc, Bool.not_true,
    Bool.false_eq_true]
  cases (S.load version out (I.readRecordData (ofLe size) (I.readRecordData 4 intfc).2).2).1 <;> rfl

/-- **Nothing else is.** -/
theorem readRecord_cases (hI : I.Lawful written left) (uninit : ℕ → UInt8) (version : UInt32)
    (intfc : σ) :
    (∃ out, Decodes B (left intfc) out ∧ ((S.readRecord B I uninit version intfc).loads = [] ∨
      (S.readRecord B I uninit version intfc).loads = [(version, out)])) ∨
    ∃ e intfc', S.readRecord B I uninit version intfc = ⟨.error e, [], intfc'⟩ := by
  obtain ⟨hsize, hleft⟩ := hI.readRecordData 4 intfc
  unfold readRecord
  dsimp only
  by_cases h0 : (I.readRecordData 4 intfc).1.length = 0
  · exact .inr ⟨_, _, by rw [if_pos h0]⟩
  rw [if_neg h0]
  by_cases hzero : ofLe (partialRead uninit (I.readRecordData 4 intfc).1) = 0
  · exact .inr ⟨_, _, by rw [if_pos hzero]⟩
  rw [if_neg hzero]
  set n := ofLe (partialRead uninit (I.readRecordData 4 intfc).1) with hn
  obtain ⟨hdata, -⟩ := hI.readRecordData n (I.readRecordData 4 intfc).2
  by_cases hlen : (I.readRecordData n (I.readRecordData 4 intfc).2).1.length ≠ n
  · exact .inr ⟨_, _, by rw [if_pos hlen]⟩
  rw [if_neg hlen]
  -- A length that is not complete leaves no data, so this one is.
  have hlen' := not_not.1 hlen
  rw [hdata, hleft, List.length_take, List.length_drop] at hlen'
  have h4 : (I.readRecordData 4 intfc).1.length = 4 := by
    rw [hsize, List.length_take]
    omega
  rw [partialRead_of_length h4] at hn
  cases hgunzip : B.gunzip (I.readRecordData n (I.readRecordData 4 intfc).2).1 with
  | none => exact .inr ⟨_, _, rfl⟩
  | some out =>
    dsimp only
    by_cases hout : out.length = 0
    · exact .inr ⟨_, _, by rw [if_pos hout]⟩
    rw [if_neg hout]
    have hdecodes : Decodes B (left intfc) out := by
      refine ⟨⟨_, _, ((left intfc).drop 4).drop n, ?_, h4, hn ▸ hzero, hn ▸ not_not.1 hlen,
        hgunzip⟩, fun h => hout (List.length_eq_zero_iff.2 h)⟩
      rw [hdata, hleft, hsize, List.take_append_drop, List.take_append_drop]
    refine .inl ⟨out, hdecodes, ?_⟩
    split_ifs
    · exact .inl rfl
    · right
      cases (S.load version out (I.readRecordData n (I.readRecordData 4 intfc).2).2).1 <;> rfl

/-! ## The format -/

theorem decodes_payload (hB : B.Lawful) {x z : Bytes} (hgzip : B.gzip x = some z) (hne : x ≠ [])
    (hpos : z ≠ []) (hlt : z.length < 2 ^ 32) : Decodes B (payload z) x := by
  have hsize : ofLe (leBytes 4 z.length) = z.length := ofLe_leBytes (by omega)
  have hzero : z.length ≠ 0 := mt List.length_eq_zero_iff.1 hpos
  refine ⟨⟨leBytes 4 z.length, z, [], ?_, length_leBytes _ _, ?_, hsize.symm, hB.gunzip x z hgzip⟩,
    hne⟩
  · rw [payload, List.append_nil]
  · rwa [hsize]

/-- **Records round-trip, and nothing else is loaded.** -/
theorem record_format (hB : B.Lawful) (hI : I.Lawful written left) :
    (∀ stored z, S.store = some stored → B.header ++ stored ≠ [] →
      B.gzip (B.header ++ stored) = some z → 1 ≤ z.length → z.length ≤ 2 ^ 32 - 1 →
      ∀ type version intfc, ∃ P intfc',
        S.writeRecord B I type version intfc = (.ok (), intfc') ∧
        written intfc' = written intfc ++ [⟨type, version, P⟩] ∧
        ∀ uninit version' saved, left saved = P →
          (S.readRecord B I uninit version' saved).loads = [(version', B.header ++ stored)]) ∧
    ∀ uninit version saved,
      ((S.readRecord B I uninit version saved).loads ≠ [] →
        ∃ out, Decodes B (left saved) out ∧
          (S.readRecord B I uninit version saved).loads = [(version, out)]) ∧
      ((∀ out, ¬ Decodes B (left saved) out) →
        ∃ e, (S.readRecord B I uninit version saved).result = .error e) := by
  constructor
  · intro stored z hstore hne hgzip hpos hle type version intfc
    have hz : z ≠ [] := List.length_pos_iff.1 hpos
    have hlt : z.length < 2 ^ 32 := by omega
    obtain ⟨intfc', hok, hwritten⟩ :=
      writeRecord_ok hI hstore hne hgzip hz hlt type version intfc
    refine ⟨payload z, intfc', hok, hwritten, ?_⟩
    intro uninit version' saved hleft
    have hdecodes : Decodes B (left saved) (B.header ++ stored) :=
      hleft ▸ decodes_payload hB hgzip hne hz hlt
    exact readRecord_of_decodes hI hdecodes (hB.accepts stored) uninit version'
  · intro uninit version saved
    rcases readRecord_cases (S := S) (B := B) hI uninit version saved with
      ⟨out, hdecodes, hloads⟩ | ⟨e, intfc', hread⟩
    · refine ⟨fun hne => ⟨out, hdecodes, hloads.resolve_left hne⟩, fun h => ?_⟩
      exact absurd hdecodes (h out)
    · rw [hread]
      exact ⟨fun hne => absurd rfl hne, fun _ => ⟨e, rfl⟩⟩

end Serializer

/-! ## A co-save -/

/-- The records of a co-save and what is left of the one being read. -/
structure CoSave where
  records : List Record
  left : Bytes

/-- An interface over such records whose writes all succeed. -/
def CoSave.interface : SerializationInterface CoSave where
  openRecord type version s := (true, { s with records := s.records ++ [⟨type, version, []⟩] })
  writeRecordData bs s :=
    (true, { s with records := s.records.modifyLast fun r => { r with data := r.data ++ bs } })
  readRecordData n s := (s.left.take n, { s with left := s.left.drop n })

theorem CoSave.interface_lawful : CoSave.interface.Lawful CoSave.records CoSave.left where
  openRecord _ _ _ := ⟨rfl, rfl⟩
  writeRecordData bs s records record h := by
    refine ⟨rfl, ?_⟩
    simp only [CoSave.interface, h, List.modifyLast_concat]
  readRecordData _ _ := ⟨rfl, rfl⟩

namespace Serializer

/-- What a binary output archive starts with, a number written to it, and the image of both. -/
def archiveHeader : Bytes :=
  [22, 0, 0, 0, 0, 0, 0, 0, 115, 101, 114, 105, 97, 108, 105, 122, 97, 116, 105, 111, 110, 58, 58,
    97, 114, 99, 104, 105, 118, 101, 19, 0, 4, 4, 4, 8, 1, 0, 0, 0]

def seven : Bytes := [7, 0, 0, 0]

def gzipImage : Bytes :=
  [31, 139, 8, 0, 0, 0, 0, 0, 4, 255, 19, 99, 128, 128, 226, 212, 162, 204, 196, 156, 204, 170,
    196, 146, 204, 252, 60, 43, 171, 196, 162, 228, 140, 204, 178, 84, 97, 6, 22, 22, 22, 14, 70,
    160, 18, 118, 32, 6, 0, 37, 171, 45, 213, 44, 0, 0, 0]

/-- The libraries on that archive. -/
def sampleBoost : Boost where
  gzip x := if x = archiveHeader ++ seven then some gzipImage else none
  gunzip z := if z = gzipImage then some (archiveHeader ++ seven) else none
  header := archiveHeader
  accepts bs := archiveHeader.isPrefixOf bs

theorem sampleBoost_lawful : sampleBoost.Lawful where
  gunzip x z h := by
    simp only [sampleBoost] at h ⊢
    split_ifs at h with hx
    cases h
    rw [if_pos rfl, hx]
  accepts stored := by
    rw [sampleBoost, List.isPrefixOf_iff_prefix]
    exact List.prefix_append _ _

def sampleSerializer : Serializer CoSave where
  store := some seven
  load _ _ s := (some 1, s)

theorem record_format_sample :
    ∃ P s, sampleSerializer.writeRecord sampleBoost CoSave.interface 1 2 ⟨[], []⟩ = (.ok (), s) ∧
      s.records = [⟨1, 2, P⟩] ∧
      (sampleSerializer.readRecord sampleBoost CoSave.interface (fun _ => 0) 2 ⟨[], P⟩).loads =
        [(2, archiveHeader ++ seven)] := by
  have h := record_format (S := sampleSerializer) sampleBoost_lawful CoSave.interface_lawful
  obtain ⟨P, s, hok, hwritten, hread⟩ := h.1 seven gzipImage rfl (by decide) (by decide)
    (by decide) (by decide) 1 2 ⟨[], []⟩
  exact ⟨P, s, hok, hwritten, hread _ 2 ⟨[], P⟩ rfl⟩

end Serializer

end SseExt
