import SseExt.VersionDb.Load

/-!
# Truncated address libraries

`Load` never asks the stream whether a read succeeded. When the file ends early the rest of what it
decodes is junk, and it returns true if the junk happens to decode.

**Theorem (`complete_iff`).** All reads of every accepted load of a file are complete exactly when
no well-formed library starts with the file and goes on. So every proper prefix of a well-formed
library is accepted for some junk.

The grammar (`WellFormed`) is about bytes only. `entries_ok_iff` and `accepted_iff` say that `Load`
accepts when the stream delivers bytes of the grammar; the theorem then compares what a stream over
the file delivers with what the longer file holds.
-/

namespace SseExt.VersionDb

open InStream

/-! ## The grammar -/

/-- The number of bytes of an operand. -/
def opWidth : ℕ → ℕ
  | 0 => 8
  | 2 | 3 => 1
  | 4 | 5 | 6 => 2
  | 7 => 4
  | _ => 0

/-- A tag the decoder knows; a scaled one needs a pointer size. -/
def TagOk (ptrSize : UInt64) (type : UInt8) : Prop := low type < 8 ∧ (scaled type → ptrSize ≠ 0)

instance (ptrSize : UInt64) (type : UInt8) : Decidable (TagOk ptrSize type) :=
  inferInstanceAs (Decidable (_ ∧ _))

/-- The bytes that follow a tag. -/
def entryWidth (type : UInt8) : ℕ := opWidth (low type) + opWidth (high7 type)

/-- `n` entries: tags, each with its operands. -/
inductive Entries (ptrSize : UInt64) : ℕ → List UInt8 → Prop
  | nil : Entries ptrSize 0 []
  | cons {n : ℕ} {type : UInt8} {ops rest : List UInt8} : TagOk ptrSize type →
      ops.length = entryWidth type → Entries ptrSize n rest →
      Entries ptrSize (n + 1) (type :: (ops ++ rest))

/-- The format, four version numbers, and the length of the name. -/
inductive Header (format : Int32) (tnLen : ℕ) : List UInt8 → Prop
  | mk {f v n : List UInt8} : f.length = 4 → int32 f = format → v.length = 16 → n.length = 4 →
      0 ≤ int32 n → int32 n < 0x10000 → (int32 n).toInt.toNat = tnLen →
      Header format tnLen (f ++ (v ++ n))

/-- The pointer size, the number of entries, and the entries; a negative number stands for none. -/
inductive Body : List UInt8 → Prop
  | mk {p c es : List UInt8} : p.length = 4 → c.length = 4 →
      Entries (widen (int32 p)) (int32 c).toInt.toNat es → Body (p ++ (c ++ es))

/-- A whole library. -/
def WellFormed (format : Int32) (file : List UInt8) : Prop :=
  ∃ tnLen hdr name body, Header format tnLen hdr ∧ name.length = tnLen ∧ Body body ∧
    file = hdr ++ (name ++ body)

/-! ## Entries -/

theorem high7_lt (type : UInt8) : high7 type < 8 := by
  have h := Nat.and_le_right (n := (type >>> 4).toNat) (m := 7)
  unfold high7
  rw [UInt8.toNat_and]
  exact Nat.lt_succ_of_le h

variable {ptrSize : UInt64} {prev : UInt64 × UInt64} {mode n : ℕ} {file file' : InStream}
  {data data' : UInt64 → Option UInt64} {bs : List UInt8}

/-- An operand takes its width from the stream. -/
theorem operand_read (h : mode < 8) (prev : UInt64) (file : InStream) :
    ∃ x, operand mode prev file = some (x, (file.read (opWidth mode)).2) := by
  match mode, h with
  | 0, _ | 2, _ | 3, _ | 4, _ | 5, _ | 6, _ | 7, _ => exact ⟨_, rfl⟩
  | 1, _ => exact ⟨prev + 1, by rw [show opWidth 1 = 0 from rfl, read_zero]; rfl⟩

theorem operand_none (h : ¬ mode < 8) (prev : UInt64) (file : InStream) :
    operand mode prev file = none := by
  unfold operand
  split <;> first | omega | rfl

/-- **One entry.** -/
theorem entry_ok (h : TagOk ptrSize file.get.1) (prev : UInt64 × UInt64) :
    ∃ q, entry ptrSize prev file =
      .ok (q, (file.get.2.read (entryWidth file.get.1)).2) := by
  obtain ⟨x, hx⟩ := operand_read h.1 prev.1 file.get.2
  obtain ⟨y, hy⟩ := operand_read (high7_lt file.get.1)
    (if scaled file.get.1 then prev.2 / ptrSize else prev.2)
    (file.get.2.read (opWidth (low file.get.1))).2
  have hz : ¬ (scaled file.get.1 = true ∧ ptrSize = 0) := fun hz => h.2 hz.1 hz.2
  refine ⟨(x, if scaled file.get.1 then y * ptrSize else y), ?_⟩
  simp only [entry, hx, hz, if_false, hy, entryWidth, read_add]

/-- An unknown tag, or a scaled one without a pointer size, ends the decoding. -/
theorem entry_error (h : ¬ TagOk ptrSize file.get.1) (prev : UInt64 × UInt64) :
    (¬ low file.get.1 < 8 ∧ entry ptrSize prev file = .error .badTag) ∨
      (low file.get.1 < 8 ∧ scaled file.get.1 = true ∧ ptrSize = 0 ∧
        entry ptrSize prev file = .error .divByZero) := by
  by_cases hlow : low file.get.1 < 8
  · obtain ⟨x, hx⟩ := operand_read hlow prev.1 file.get.2
    have hz : scaled file.get.1 = true ∧ ptrSize = 0 := by
      by_contra hz
      exact h ⟨hlow, fun hs hp => hz ⟨hs, hp⟩⟩
    exact .inr ⟨hlow, hz.1, hz.2, by simp only [entry, hx, if_pos hz]⟩
  · exact .inl ⟨hlow, by simp only [entry, operand_none hlow]⟩

/-- **The loop.** It ends well exactly if the stream delivers entries. -/
theorem entries_ok_iff : (∃ data', entries ptrSize n prev data file = .ok (data', file')) ↔
    ∃ bs, Entries ptrSize n bs ∧ file.read bs.length = (bs, file') := by
  induction n generalizing prev data file with
  | zero =>
    constructor
    · rintro ⟨data', h⟩
      cases h
      exact ⟨[], .nil, read_zero _⟩
    · rintro ⟨bs, hbs, h⟩
      cases hbs
      rw [List.length_nil, read_zero] at h
      cases h
      exact ⟨data, rfl⟩
  | succ n ih =>
    by_cases htag : TagOk ptrSize file.get.1
    · obtain ⟨q, hq⟩ := entry_ok htag prev
      simp only [entries, hq, ih]
      constructor
      · rintro ⟨bs, hbs, h⟩
        refine ⟨_, .cons htag (length_read _ file.get.2) hbs, ?_⟩
        rw [List.length_cons, List.length_append, length_read, read_succ, read_add, h]
      · rintro ⟨bs, hbs, h⟩
        cases hbs with
        | @cons _ type ops rest htype hops hrest =>
          rw [List.length_cons, List.length_append, read_succ, read_add] at h
          obtain ⟨hbytes, hfile⟩ := Prod.ext_iff.1 h
          obtain ⟨rfl, htail⟩ := List.cons.inj hbytes
          obtain ⟨-, hr⟩ := List.append_inj htail (length_read _ _)
          rw [hops] at hr hfile
          exact ⟨rest, hrest, Prod.ext hr hfile⟩
    · have hentries : ¬ ∃ data', entries ptrSize (n + 1) prev data file = .ok (data', file') := by
        rintro ⟨_, h⟩
        rcases entry_error htag prev with ⟨-, he⟩ | ⟨-, -, -, he⟩ <;>
          simp only [entries, he, reduceCtorEq] at h
      constructor
      · exact fun h => absurd h hentries
      · rintro ⟨bs, hbs, h⟩
        cases hbs with
        | cons htype _ _ =>
          rw [List.length_cons, read_succ] at h
          obtain ⟨rfl, -⟩ := List.cons.inj (congrArg Prod.fst h)
          exact absurd htype htag

/-! ## Acceptance -/

variable {format : Int32} {base : UInt64} {db : VersionDb}

/-- The header is read as one block. -/
theorem header_iff {tnLen : ℕ} : Header format tnLen (file.read 24).1 ↔
    int32 (file.read 4).1 = format ∧
      0 ≤ int32 (((file.read 4).2.read 16).2.read 4).1 ∧
      int32 (((file.read 4).2.read 16).2.read 4).1 < 0x10000 ∧
      (int32 (((file.read 4).2.read 16).2.read 4).1).toInt.toNat = tnLen := by
  have h24 : (file.read 24).1 = (file.read 4).1 ++
      (((file.read 4).2.read 16).1 ++ (((file.read 4).2.read 16).2.read 4).1) := by
    rw [show 24 = 4 + (16 + 4) from rfl, read_add, read_add]
  rw [h24]
  constructor
  · intro h
    generalize hl : (file.read 4).1 ++ _ = l at h
    cases h with
    | @mk f v n hf hformat hv hn h0 h1 hlen =>
      obtain ⟨hf', hl⟩ := List.append_inj hl (by rw [length_read, hf])
      obtain ⟨-, hn'⟩ := List.append_inj hl (by rw [length_read, hv])
      rw [hf', hn']
      exact ⟨hformat, h0, h1, hlen⟩
  · rintro ⟨hformat, h0, h1, hlen⟩
    exact .mk (length_read _ _) hformat (length_read _ _) (length_read _ _) h0 h1 hlen

/-- The part after the name is read as one block. -/
theorem loadBody_iff : (∃ db', loadBody db file = .accepted db' file') ↔
    ∃ body, Body body ∧ file.read body.length = (body, file') := by
  have hload : (∃ db', loadBody db file = .accepted db' file') ↔
      ∃ data', entries (widen (int32 (file.read 4).1))
        (int32 ((file.read 4).2.read 4).1).toInt.toNat (0, 0) db.data ((file.read 4).2.read 4).2 =
          .ok (data', file') := by
    unfold loadBody readInt
    dsimp only
    constructor
    · rintro ⟨db', h⟩
      split at h
      · rename_i data' file'' hok
        cases h
        exact ⟨data', hok⟩
      all_goals cases h
    · rintro ⟨data', h⟩
      rw [h]
      exact ⟨_, rfl⟩
  rw [hload, entries_ok_iff]
  constructor
  · rintro ⟨es, hes, h⟩
    refine ⟨_, .mk (length_read 4 file) (length_read 4 _) hes, ?_⟩
    rw [List.length_append, List.length_append, length_read, length_read, read_add, read_add, h]
  · rintro ⟨_, ⟨hp, hc, hes⟩, h⟩
    rename_i p c es
    rw [List.length_append, List.length_append, hp, hc, read_add, read_add] at h
    obtain ⟨hbytes, hfile⟩ := Prod.ext_iff.1 h
    obtain ⟨hp', hbytes⟩ := List.append_inj hbytes (by rw [length_read, hp])
    obtain ⟨hc', hes'⟩ := List.append_inj hbytes (by rw [length_read, hc])
    refine ⟨es, ?_, Prod.ext hes' hfile⟩
    rw [hp', hc']
    exact hes

theorem readVersion_snd (file : InStream) : file.readVersion.2 = (file.read 16).2 := by
  rw [show 16 = 4 + (4 + (4 + 4)) from rfl, read_add, read_add, read_add]
  rfl

/-- The length of the name is read after the four version numbers. -/
theorem readInt_tnLen (file : InStream) : file.readInt.2.readVersion.2.readInt =
    (int32 (((file.read 4).2.read 16).2.read 4).1, (((file.read 4).2.read 16).2.read 4).2) := by
  rw [readVersion_snd]
  rfl

/-- With a header of the format, `Load` goes on after the name. -/
theorem loadFrom_header (base : UInt64) (db : VersionDb) {tnLen : ℕ}
    (h : Header format tnLen (file.read 24).1) :
    ∃ db', loadFrom format base db file = loadBody db' ((file.read 24).2.seekCur tnLen) := by
  obtain ⟨hformat, h0, h1, hlen⟩ := header_iff.1 h
  have h24 : (file.read 24).2 = (((file.read 4).2.read 16).2.read 4).2 := by
    rw [show 24 = 4 + (16 + 4) from rfl, read_add, read_add]
  have hrange : ¬ (int32 (((file.read 4).2.read 16).2.read 4).1 < 0 ∨
      int32 (((file.read 4).2.read 16).2.read 4).1 ≥ 0x10000) :=
    not_or.2 ⟨Int32.not_lt.2 h0, Int32.not_le.2 h1⟩
  unfold loadFrom
  dsimp only
  rw [if_neg (not_not.2 (show file.readInt.1 = format from hformat)), readInt_tnLen,
    if_neg hrange, skip_eq, hlen, h24]
  exact ⟨_, rfl⟩

/-- Without one it returns false. -/
theorem loadFrom_not_header (base : UInt64) (db : VersionDb)
    (h : ¬ ∃ tnLen, Header format tnLen (file.read 24).1) :
    ∃ db', loadFrom format base db file = .rejected db' := by
  unfold loadFrom
  dsimp only
  by_cases hformat : file.readInt.1 = format
  · rw [if_neg (not_not.2 hformat), readInt_tnLen]
    by_cases hrange : int32 (((file.read 4).2.read 16).2.read 4).1 < 0 ∨
        int32 (((file.read 4).2.read 16).2.read 4).1 ≥ 0x10000
    · rw [if_pos hrange]
      exact ⟨_, rfl⟩
    · obtain ⟨h0, h1⟩ := not_or.1 hrange
      exact absurd ⟨_, header_iff.2 ⟨hformat, Int32.not_lt.1 h0, Int32.not_le.1 h1, rfl⟩⟩ h
  · rw [if_pos hformat]
    exact ⟨_, rfl⟩

theorem header_unique {tnLen tnLen' : ℕ} (h : Header format tnLen (file.read 24).1)
    (h' : Header format tnLen' (file.read 24).1) : tnLen = tnLen' := by
  obtain ⟨-, -, -, hlen⟩ := header_iff.1 h
  obtain ⟨-, -, -, hlen'⟩ := header_iff.1 h'
  exact hlen.symm.trans hlen'

/-- What holds after the header holds after this one. -/
theorem exists_header_iff {P : ℕ → Prop} {tnLen : ℕ} (h : Header format tnLen (file.read 24).1) :
    (∃ tnLen', Header format tnLen' (file.read 24).1 ∧ P tnLen') ↔ P tnLen := by
  constructor
  · intro ⟨tnLen', h', hP⟩
    rwa [header_unique h h']
  · intro hP
    exact ⟨tnLen, h, hP⟩

/-- **Acceptance.** `Load` returns true exactly if the stream delivers a header and, after the
skip, a body. -/
theorem accepted_iff : (∃ db', loadFrom format base db file = .accepted db' file') ↔
    ∃ tnLen, Header format tnLen (file.read 24).1 ∧
      ∃ body, Body body ∧ ((file.read 24).2.seekCur tnLen).read body.length = (body, file') := by
  by_cases hhdr : ∃ tnLen, Header format tnLen (file.read 24).1
  · obtain ⟨tnLen, hhdr⟩ := hhdr
    obtain ⟨db', hload⟩ := loadFrom_header base db hhdr
    rw [hload, loadBody_iff, exists_header_iff hhdr]
  · obtain ⟨db', hload⟩ := loadFrom_not_header base db hhdr
    rw [hload]
    constructor
    · rintro ⟨_, h⟩
      cases h
    · rintro ⟨tnLen, h, -⟩
      exact absurd ⟨tnLen, h⟩ hhdr

/-! ## Truncation -/

theorem length_header {tnLen : ℕ} {hdr : List UInt8} (h : Header format tnLen hdr) :
    hdr.length = 24 := by
  cases h with
  | mk hf _ hv hn => simp [hf, hv, hn]

theorem body_ne_nil {body : List UInt8} (h : Body body) : body ≠ [] := by
  cases h with
  | @mk p c es hp =>
    have hne : p ≠ [] := by
      rintro rfl
      cases hp
    exact List.append_ne_nil_of_left_ne_nil hne _

/-- **An incomplete acceptance is a truncation.** The bytes it decoded, junk included, make up a
well-formed library that starts with the file. -/
theorem wellFormed_of_accepted {content : List UInt8} {junk : ℕ → UInt8} {db' : VersionDb}
    (h : loadFrom format base db ⟨content, false, junk⟩ = .accepted db' file')
    (hfail : file'.fail = true) : ∃ ext, ext ≠ [] ∧ WellFormed format (content ++ ext) := by
  obtain ⟨tnLen, hhdr, body, hbody, hread⟩ := accepted_iff.1 ⟨db', h⟩
  rcases read_cases (s := ⟨content, false, junk⟩) rfl 24 with ⟨hok, hrest⟩ | ⟨-, e, he, hbytes⟩
  · -- The header is in the file.
    set hdr := (InStream.read 24 ⟨content, false, junk⟩).1
    set file₁ := (InStream.read 24 ⟨content, false, junk⟩).2
    have hskip : file₁.seekCur tnLen = { file₁ with rest := file₁.rest.drop tnLen } := by
      simp [seekCur, hok]
    rw [hskip] at hread
    have hcases := read_cases (s := { file₁ with rest := file₁.rest.drop tnLen }) hok body.length
    rw [hread] at hcases
    rcases hcases with ⟨hok', -⟩ | ⟨-, e, he, hbytes⟩
    · rw [hfail] at hok'
      cases hok'
    · -- The name, as far as it is in the file, and zeros for what is missing of it.
      have hname : (file₁.rest.take tnLen ++ List.replicate (tnLen - file₁.rest.length) 0).length =
          tnLen := by
        rw [List.length_append, List.length_take, List.length_replicate]
        omega
      refine ⟨List.replicate (tnLen - file₁.rest.length) 0 ++ e,
        List.append_ne_nil_of_right_ne_nil _ he, tnLen, hdr, _, body, hhdr, hname, hbody, ?_⟩
      have hcontent : content = hdr ++ file₁.rest := hrest
      dsimp only at hbytes
      rw [hcontent, hbytes]
      rcases Nat.le_total tnLen file₁.rest.length with hle | hle
      · simp [Nat.sub_eq_zero_of_le hle, ← List.append_assoc]
      · simp [List.take_of_length_le hle, List.drop_of_length_le hle]
  · -- The file ends in the header; the skip then does nothing.
    have hbytes' : (InStream.read 24 ⟨content, false, junk⟩).1 = content ++ e := hbytes
    refine ⟨e ++ (List.replicate tnLen 0 ++ body), List.append_ne_nil_of_left_ne_nil he _, tnLen, _,
      List.replicate tnLen 0, body, hhdr, List.length_replicate, hbody, ?_⟩
    rw [hbytes', List.append_assoc]

/-- For some junk the stream delivers the header and, after the skip, the body, and has failed by
then. -/
def DeliversCut (content : List UInt8) (tnLen : ℕ) (hdr body : List UInt8) : Prop :=
  ∃ junk file', (InStream.read hdr.length ⟨content, false, junk⟩).1 = hdr ∧
    ((InStream.read hdr.length ⟨content, false, junk⟩).2.seekCur tnLen).read body.length =
      (body, file') ∧ file'.fail = true

/-- The file ends in the header: the skip does nothing. -/
theorem deliversCut_header {tnLen : ℕ} {content e : List UInt8} (body : List UInt8) (he : e ≠ []) :
    DeliversCut content tnLen (content ++ e) body := by
  have hbody := read_junk body [] []
  rw [List.append_nil] at hbody
  refine ⟨junkOf (e ++ body), ⟨[], true, junkOf []⟩, ?_⟩
  rw [read_across content e body he]
  exact ⟨rfl, by rw [seekCur_fail rfl]; exact hbody, rfl⟩

/-- The file ends in the name or in the body. -/
theorem deliversCut_after {tnLen : ℕ} {hdr name body rest ext : List UInt8}
    (hname : name.length = tnLen) (hbody : body ≠ []) (hext : ext ≠ [])
    (h : name ++ body = rest ++ ext) : DeliversCut (hdr ++ rest) tnLen hdr body := by
  have hsplit : body = rest.drop tnLen ++ ext.drop (tnLen - rest.length) := by
    rw [← List.drop_append, ← h, ← hname, List.drop_left]
  have he : ext.drop (tnLen - rest.length) ≠ [] := by
    rcases Nat.le_total tnLen rest.length with hle | hle
    · rwa [Nat.sub_eq_zero_of_le hle, List.drop_zero]
    · rw [List.drop_of_length_le hle, List.nil_append] at hsplit
      rwa [← hsplit]
  set e := ext.drop (tnLen - rest.length)
  refine ⟨junkOf (e ++ []), ⟨[], true, junkOf []⟩, ?_⟩
  rw [read_append]
  refine ⟨rfl, ?_, rfl⟩
  rw [hsplit]
  exact read_across (rest.drop tnLen) e [] he

/-- **A truncation is accepted** when the junk supplies what is missing. -/
theorem accepted_of_wellFormed (base : UInt64) (db : VersionDb) {content ext : List UInt8}
    (hext : ext ≠ []) (h : WellFormed format (content ++ ext)) : ∃ junk db' file',
      loadFrom format base db ⟨content, false, junk⟩ = .accepted db' file' ∧ file'.fail = true := by
  obtain ⟨tnLen, hdr, name, body, hhdr, hname, hbody, hfile⟩ := h
  have hcut : DeliversCut content tnLen hdr body := by
    rcases List.append_eq_append_iff.1 hfile with ⟨e, rfl, rfl⟩ | ⟨rest, rfl, hrest⟩
    · by_cases he : e = []
      · subst he
        have hafter : DeliversCut (content ++ []) tnLen content body :=
          deliversCut_after hname (body_ne_nil hbody) hext rfl
        simpa using hafter
      · exact deliversCut_header body he
    · exact deliversCut_after hname (body_ne_nil hbody) hext hrest
  obtain ⟨junk, file', h1, h2, hfail⟩ := hcut
  rw [length_header hhdr] at h1 h2
  obtain ⟨db', hacc⟩ := accepted_iff.2 ⟨tnLen, by rw [h1]; exact hhdr, body, hbody, h2⟩
  exact ⟨junk, db', file', hacc, hfail⟩

/-- **Where truncation is noticed.** On a file every accepted load is complete, whatever failed
reads leave behind, exactly if the file is not a proper prefix of a well-formed library. -/
theorem complete_iff (format : Int32) (base : UInt64) (db : VersionDb) (v : Version)
    (content : List UInt8) :
    (∀ junk db' file', load (fun _ => some content) junk base db format v = .accepted db' file' →
        file'.fail = false) ↔
      ¬ ∃ ext, ext ≠ [] ∧ WellFormed format (content ++ ext) := by
  constructor
  · rintro h ⟨ext, hext, hwf⟩
    obtain ⟨junk, db', file', hacc, hfail⟩ := accepted_of_wellFormed base db.clear hext hwf
    rw [h junk db' file' hacc] at hfail
    cases hfail
  · intro h junk db' file' hacc
    by_contra hne
    exact h (wellFormed_of_accepted hacc (by simpa using hne))

/-- The header of a library without a name. -/
def cutHeader : List UInt8 := [2, 0, 0, 0] ++ (List.replicate 16 0 ++ [0, 0, 0, 0])

/-- A library of one entry, cut off in its id. -/
def cutLibrary : List UInt8 := cutHeader ++ [8, 0, 0, 0, 1, 0, 0, 0, 0x10, 5]

theorem header_cutHeader : Header 2 0 cutHeader :=
  .mk rfl (by decide) rfl rfl (by decide) (by decide) (by decide)

theorem body_cut (id : List UInt8) (h : id.length = 7) :
    Body ([8, 0, 0, 0] ++ ([1, 0, 0, 0] ++ (0x10 :: ((5 :: id) ++ [])))) :=
  .mk rfl rfl (.cons (by decide) (by rw [List.length_cons, h]; rfl) .nil)

/-- It is a proper prefix of a well-formed library and yet accepted, whatever the junk is. -/
theorem cutLibrary_accepted : (∃ ext, ext ≠ [] ∧ WellFormed 2 (cutLibrary ++ ext)) ∧
    ∀ junk, ∃ db' file', load (fun _ => some cutLibrary) junk 0x140000000
      ⟨fun _ => none, .zero, "", 0⟩ 2 ⟨1, 5, 97, 0⟩ = .accepted db' file' ∧ file'.fail = true := by
  refine ⟨⟨List.replicate 7 0, by decide, 0, _, [], _, header_cutHeader, rfl,
    body_cut (List.replicate 7 0) rfl, rfl⟩, fun junk => ?_⟩
  have hhdr : InStream.read 24 ⟨cutLibrary, false, junk⟩ =
      (cutHeader, ⟨[8, 0, 0, 0, 1, 0, 0, 0, 0x10, 5], false, junk⟩) := read_append cutHeader _ junk
  have hbody : InStream.read 17 ⟨[8, 0, 0, 0, 1, 0, 0, 0, 0x10, 5], false, junk⟩ =
      ([8, 0, 0, 0, 1, 0, 0, 0, 0x10, 5] ++ (List.range 7).map junk,
        ⟨[], true, fun i => junk (i + 7)⟩) := read_of_lt (by decide) junk
  have hacc : ∃ db', loadFrom 2 0x140000000 (clear ⟨fun _ => none, .zero, "", 0⟩)
      ⟨cutLibrary, false, junk⟩ = .accepted db' ⟨[], true, fun i => junk (i + 7)⟩ := by
    refine accepted_iff.2 ⟨0, ?_, _, body_cut ((List.range 7).map junk) rfl, ?_⟩
    · rw [hhdr]
      exact header_cutHeader
    · rw [hhdr, seekCur_zero]
      exact hbody
  obtain ⟨db', hacc⟩ := hacc
  exact ⟨db', _, hacc, rfl⟩

end SseExt.VersionDb
