import SseExt.Hash
import SseExt.Lib.Numeral
import Mathlib.Data.List.DropRight

/-!
# `ini_parse_stream`

The parser reads a stream line by line. The latest section and the latest name are copied into
buffers of 128 characters, by which the lines after them are understood.

**Lines** (`readLine`). What the branches of the loop find in a line. It depends on whether there is
a name that the line can continue.

**Copies** (`strncpy0`). `strncpy_s` gets the size of the buffer as the number of characters to
copy, too. A text with that many characters does not fit with its terminator, so the
invalid-parameter handler is called, which ends the process (`none`).

**Theorem (`iniParseStream_iff`).** The parser comes to the end of the stream, and the handler gets
the beginning of the latest section in each call, if and only if every section and every name is
shorter than its buffer.
-/

namespace SseExt.Ini

open Numeral

def maxSection : ℕ := 128
def maxName : ℕ := 128

/-- `INI_MAX_LINE` -/
def maxLine : ℕ := 1024 * 32

/-! ## Text -/

def rstrip (s : Bytes) : Bytes := s.rdropWhile isSpace

def lskip (s : Bytes) : Bytes := s.dropWhile isSpace

/-- `find_chars_or_comment`: the text before the position found and the text from it on. -/
def findCharsOrComment (chars : Bytes) : Bool → Bytes → Bytes × Bytes
  | _, [] => ([], [])
  | wasSpace, c :: cs =>
    if c ∈ chars ∨ (wasSpace ∧ c ∈ [0x3B, 0x23]) then ([], c :: cs)
    else
      let r := findCharsOrComment chars (isSpace c) cs
      (c :: r.1, r.2)

/-- `strncpy_s`, with a call of the invalid-parameter handler as `none`. -/
def strncpyS (size : ℕ) (src : Bytes) (count : ℕ) : Option Bytes :=
  if (src.take count).length < size then some (src.take count) else none

/-- `strncpy0`. Its last line changes nothing: what was copied ends before. -/
def strncpy0 (src : Bytes) (size : ℕ) : Option Bytes := strncpyS size src size

/-! ## The stream -/

/-- Up to `n` characters, but none after a newline. -/
def takeLine : ℕ → Bytes → Bytes
  | 0, _ => []
  | _, [] => []
  | n + 1, c :: cs => if c = 0x0A then [c] else c :: takeLine n cs

/-- `fgets`: what goes into the buffer and what is left of the stream. -/
def fgets (num : ℕ) : Bytes → Option (Bytes × Bytes)
  | [] => none
  | c :: cs =>
    let str := takeLine (num - 1) (c :: cs)
    some (str, (c :: cs).drop str.length)

theorem takeLine_succ_ne_nil (n : ℕ) (c : UInt8) (cs : Bytes) :
    takeLine (n + 1) (c :: cs) ≠ [] := by
  rw [takeLine]
  split_ifs <;> exact List.cons_ne_nil _ _

theorem length_of_fgets {stream str rest : Bytes} (h : fgets maxLine stream = some (str, rest)) :
    rest.length < stream.length := by
  cases stream with
  | nil => cases h
  | cons c cs =>
    have hpos : 0 < (takeLine (maxLine - 1) (c :: cs)).length :=
      List.length_pos_of_ne_nil (takeLine_succ_ne_nil 32766 c cs)
    simp only [fgets, Option.some.injEq, Prod.mk.injEq] at h
    rw [← h.2, List.length_drop, List.length_cons]
    omega

/-- The buffers that the calls of `reader` fill. -/
def readAll (stream : Bytes) : List Bytes :=
  match _h : fgets maxLine stream with
  | none => []
  | some (str, rest) => str :: readAll rest
termination_by stream.length
decreasing_by exact length_of_fgets _h

/-! ## Lines -/

/-- What a round of the loop finds in its line. -/
inductive Line where
  /-- A comment, or nothing. -/
  | blank
  /-- More of the value before. -/
  | more (value : Bytes)
  | header (text : Bytes)
  | pair (name value : Bytes)
  | malformed
deriving DecidableEq

/-- The text before an inline comment. -/
def cutComment (s : Bytes) : Bytes := rstrip (findCharsOrComment [] false s).1

/-- A "[section]" line, from the bracket on. -/
def readHeader (s : Bytes) : Line :=
  match findCharsOrComment [0x5D] false s.tail with
  | (text, 0x5D :: _) => .header text
  | _ => .malformed

/-- A `name[=:]value` line. -/
def readPair (s : Bytes) : Line :=
  match findCharsOrComment [0x3D, 0x3A] false s with
  | (name, 0x3D :: rest) | (name, 0x3A :: rest) => .pair (rstrip name) (cutComment (lskip rest))
  | _ => .malformed

/-- The length of the byte order mark. -/
def bomLength (lineno : ℕ) (line : Bytes) : ℕ :=
  if lineno = 1 ∧ line.take 3 = [0xEF, 0xBB, 0xBF] then 3 else 0

/-- The branches of the loop. `named` says that there is a name before. -/
def readLine (lineno : ℕ) (named : Bool) (buffer : Bytes) : Line :=
  let line := cPart buffer
  let bom := bomLength lineno line
  let text := rstrip (line.drop bom)
  let start := lskip text
  let offset := bom + (text.length - start.length)
  match start with
  | [] => .blank
  | c :: cs =>
    if c = 0x3B ∨ c = 0x23 then .blank
    else if named ∧ 0 < offset then .more (cutComment (c :: cs))
    else if c = 0x5B then readHeader (c :: cs)
    else readPair (c :: cs)

/-! ## The loop -/

variable {σ : Type*}

/-- `ini_handler`: section, name and value; nonzero on success. -/
abbrev Handler (σ : Type*) := σ → Bytes → Bytes → Bytes → Int32 × σ

/-- The variables of the loop. `lineno` and `error` are `int` in the source. They are at most the
number of lines (`error_le`), so they are the same there with fewer than `2 ^ 31` lines. -/
structure State (σ : Type*) where
  sec : Bytes
  prevName : Bytes
  lineno : ℕ
  error : ℕ
  user : σ

namespace State

/-- Only the first error is kept. -/
def fail (st : State σ) : State σ :=
  { st with error := if st.error = 0 then st.lineno else st.error }

/-- A call of the handler. -/
def handle (handler : Handler σ) (st : State σ) (name value : Bytes) : State σ :=
  let r := handler st.user st.sec name value
  let st' := { st with user := r.2 }
  if r.1 = 0 then st'.fail else st'

/-- What the loop does with a line. -/
def obey (handler : Handler σ) (st : State σ) : Line → Option (State σ)
  | .blank => some st
  | .more value => some (st.handle handler st.prevName value)
  | .header text => (strncpy0 text maxSection).map fun sec => { st with sec, prevName := [] }
  | .pair name value =>
    (strncpy0 name maxName).map fun prevName => { st with prevName }.handle handler name value
  | .malformed => some st.fail

/-- A round of the loop. -/
def parseLine (handler : Handler σ) (st : State σ) (buffer : Bytes) : Option (State σ) :=
  let st := { st with lineno := st.lineno + 1 }
  st.obey handler (readLine st.lineno (st.prevName ≠ []) buffer)

end State

/-- `ini_parse_stream`: the first line with an error, or 0, and what the handler made. -/
def iniParseStream (handler : Handler σ) (user : σ) (buffers : List Bytes) : Option (ℕ × σ) :=
  (buffers.foldlM (State.parseLine handler) ⟨[], [], 0, 0, user⟩).map fun st => (st.error, st.user)

/-- `ini_parse_file` -/
def iniParseFile (file : Bytes) (handler : Handler σ) (user : σ) : Option (ℕ × σ) :=
  iniParseStream handler user (readAll file)

/-! ## What the lines say -/

/-- The latest section and the latest name in it, however long. -/
structure Names where
  header : Bytes
  name : Bytes

def Names.after (s : Names) : Line → Names
  | .header text => ⟨text, []⟩
  | .pair name _ => ⟨s.header, name⟩
  | _ => s

/-- Every line, with the names before it. -/
def linesFrom : ℕ → Names → List Bytes → List (Names × Line)
  | _, _, [] => []
  | lineno, s, buffer :: buffers =>
    let line := readLine (lineno + 1) (s.name ≠ []) buffer
    (s, line) :: linesFrom (lineno + 1) (s.after line) buffers

def linesOf (buffers : List Bytes) : List (Names × Line) := linesFrom 0 ⟨[], []⟩ buffers

/-- What is copied is shorter than its buffer. -/
def Line.Fits : Line → Prop
  | .header text => text.length < maxSection
  | .pair name _ => name.length < maxName
  | _ => True

instance : DecidablePred Line.Fits := fun line => by
  cases line <;> unfold Line.Fits <;> infer_instance

/-- A call of the handler. -/
structure Call where
  sec : Bytes
  name : Bytes
  value : Bytes

/-- The call for a line, with as much of the section as fits in its buffer. -/
def callOf (s : Names) : Line → Option Call
  | .more value => some ⟨s.header.take (maxSection - 1), s.name, value⟩
  | .pair name value => some ⟨s.header.take (maxSection - 1), name, value⟩
  | _ => none

/-- What the handler makes of a call. -/
def Call.apply (handler : Handler σ) (user : σ) (c : Call) : σ :=
  (handler user c.sec c.name c.value).2

/-- A handler that also keeps a log of its calls. -/
def logged (handler : Handler σ) : Handler (σ × List Call) := fun user sec name value =>
  let r := handler user.1 sec name value
  (r.1, r.2, user.2 ++ [⟨sec, name, value⟩])

/-! ## Copies -/

theorem strncpy0_of_lt {src : Bytes} {size : ℕ} (h : src.length < size) :
    strncpy0 src size = some src := by
  rw [strncpy0, strncpyS, List.take_of_length_le h.le, if_pos h]

theorem strncpy0_of_le {src : Bytes} {size : ℕ} (h : size ≤ src.length) :
    strncpy0 src size = none := by
  rw [strncpy0, strncpyS, List.length_take_of_le h, if_neg (lt_irrefl _)]

/-! ## Runs -/

namespace State

/-- The buffers hold the latest names. -/
structure Holds (s : Names) (st : State σ) : Prop where
  sec : st.sec = s.header
  prevName : st.prevName = s.name
  header_lt : s.header.length < maxSection

theorem handle_eq (handler : Handler σ) (st : State σ) (name value : Bytes) :
    (st.handle handler name value).sec = st.sec ∧
      (st.handle handler name value).prevName = st.prevName ∧
      (st.handle handler name value).lineno = st.lineno ∧
      (st.handle handler name value).user = Call.apply handler st.user ⟨st.sec, name, value⟩ := by
  unfold handle
  dsimp only
  split_ifs <;> exact ⟨rfl, rfl, rfl, rfl⟩

variable {s : Names} {st : State σ} {line : Line}

theorem Holds.section_eq (h : st.Holds s) : st.sec = s.header.take (maxSection - 1) := by
  rw [h.sec, List.take_of_length_le (Nat.le_sub_one_of_lt h.header_lt)]

/-- **A line whose names fit** does what it says. -/
theorem Holds.obey (h : st.Holds s) (handler : Handler σ) (hfits : line.Fits) :
    ∃ st', st.obey handler line = some st' ∧ st'.Holds (s.after line) ∧ st'.lineno = st.lineno ∧
      st'.user = (callOf s line).toList.foldl (Call.apply handler) st.user := by
  cases line with
  | blank => exact ⟨_, rfl, h, rfl, rfl⟩
  | more value =>
    obtain ⟨hsec, hname, hlineno, huser⟩ := handle_eq handler st st.prevName value
    refine ⟨_, rfl, ⟨hsec.trans h.sec, hname.trans h.prevName, h.header_lt⟩, hlineno, ?_⟩
    rw [huser, h.section_eq, h.prevName]
    rfl
  | header text =>
    refine ⟨{ st with sec := text, prevName := [] }, ?_, ⟨rfl, rfl, hfits⟩, rfl, rfl⟩
    rw [State.obey, strncpy0_of_lt hfits, Option.map_some]
  | pair name value =>
    obtain ⟨hsec, hname, hlineno, huser⟩ :=
      handle_eq handler { st with prevName := name } name value
    refine ⟨_, ?_, ⟨hsec.trans h.sec, hname, h.header_lt⟩, hlineno, huser.trans ?_⟩
    · rw [State.obey, strncpy0_of_lt hfits, Option.map_some]
    · rw [h.section_eq]
      rfl
  | malformed => exact ⟨_, rfl, ⟨h.sec, h.prevName, h.header_lt⟩, rfl, rfl⟩

theorem obey_of_not_fits (handler : Handler σ) (st : State σ) (h : ¬ line.Fits) :
    st.obey handler line = none := by
  cases line with
  | header text => rw [obey, strncpy0_of_le (not_lt.1 h), Option.map_none]
  | pair name value => rw [obey, strncpy0_of_le (not_lt.1 h), Option.map_none]
  | _ => exact absurd trivial h

/-- What a round finds in its line does not depend on how long the buffers are. -/
theorem Holds.parseLine_eq (h : st.Holds s) (handler : Handler σ) (buffer : Bytes) :
    st.parseLine handler buffer =
      State.obey handler { st with lineno := st.lineno + 1 }
        (readLine (st.lineno + 1) (s.name ≠ []) buffer) := by
  rw [State.parseLine, h.prevName]

/-- **A run over lines whose names fit.** -/
theorem Holds.run (h : st.Holds s) (handler : Handler σ) (buffers : List Bytes)
    (hfits : ∀ p ∈ linesFrom st.lineno s buffers, p.2.Fits) :
    ∃ st', buffers.foldlM (State.parseLine handler) st = some st' ∧
      st'.user = ((linesFrom st.lineno s buffers).filterMap fun p => callOf p.1 p.2).foldl
        (Call.apply handler) st.user := by
  induction buffers generalizing s st with
  | nil => exact ⟨st, rfl, rfl⟩
  | cons buffer buffers ih =>
    rw [linesFrom, List.forall_mem_cons] at hfits
    have hnext : State.Holds s { st with lineno := st.lineno + 1 } :=
      ⟨h.sec, h.prevName, h.header_lt⟩
    obtain ⟨st₁, hobey, hholds, hlineno, huser⟩ := hnext.obey handler hfits.1
    dsimp only at hlineno huser
    obtain ⟨st', hrun, huser'⟩ := ih hholds (by rw [hlineno]; exact hfits.2)
    refine ⟨st', ?_, ?_⟩
    · rw [List.foldlM_cons, h.parseLine_eq, hobey]
      exact hrun
    · rw [huser', huser, linesFrom, List.filterMap_cons, hlineno]
      cases callOf s (readLine (st.lineno + 1) (s.name ≠ []) buffer) <;> rfl

theorem Holds.run_eq_none (h : st.Holds s) (handler : Handler σ) (buffers : List Bytes)
    (hnot : ∃ p ∈ linesFrom st.lineno s buffers, ¬ p.2.Fits) :
    buffers.foldlM (State.parseLine handler) st = none := by
  induction buffers generalizing s st with
  | nil => simp [linesFrom] at hnot
  | cons buffer buffers ih =>
    rw [List.foldlM_cons, h.parseLine_eq]
    have hnext : State.Holds s { st with lineno := st.lineno + 1 } :=
      ⟨h.sec, h.prevName, h.header_lt⟩
    by_cases hfits : (readLine (st.lineno + 1) (s.name ≠ []) buffer).Fits
    · obtain ⟨st₁, hobey, hholds, hlineno, -⟩ := hnext.obey handler hfits
      rw [linesFrom, List.exists_mem_cons_iff] at hnot
      dsimp only at hlineno
      rw [hobey]
      exact ih hholds (by rw [hlineno]; exact hnot.resolve_left (not_not_intro hfits))
    · rw [obey_of_not_fits handler _ hfits]
      rfl

end State

/-! ### The counters -/

theorem State.counters_fail {st : State σ} (h : st.error ≤ st.lineno) :
    st.fail.lineno = st.lineno ∧ st.fail.error ≤ st.lineno := by
  unfold fail
  dsimp only
  split_ifs
  · exact ⟨rfl, Nat.le_refl _⟩
  · exact ⟨rfl, h⟩

theorem State.counters_handle (handler : Handler σ) {st : State σ} (name value : Bytes)
    (h : st.error ≤ st.lineno) : (st.handle handler name value).lineno = st.lineno ∧
      (st.handle handler name value).error ≤ st.lineno := by
  unfold handle
  dsimp only
  split_ifs
  · exact counters_fail h
  · exact ⟨rfl, h⟩

theorem State.counters_obey {handler : Handler σ} {st st' : State σ} {line : Line}
    (h : st.error ≤ st.lineno) (hobey : st.obey handler line = some st') :
    st'.lineno = st.lineno ∧ st'.error ≤ st.lineno := by
  cases line with
  | blank =>
    cases hobey
    exact ⟨rfl, h⟩
  | more value =>
    cases hobey
    exact counters_handle handler st.prevName value h
  | header text =>
    obtain ⟨sec, -, rfl⟩ := Option.map_eq_some_iff.1 hobey
    exact ⟨rfl, h⟩
  | pair name value =>
    obtain ⟨prevName, -, rfl⟩ := Option.map_eq_some_iff.1 hobey
    exact counters_handle handler name value h
  | malformed =>
    cases hobey
    exact counters_fail h

/-- The lines are counted, and the error is the number of a line. -/
theorem State.counters_run {handler : Handler σ} {st st' : State σ} {buffers : List Bytes}
    (h : st.error ≤ st.lineno) (hrun : buffers.foldlM (State.parseLine handler) st = some st') :
    st'.lineno = st.lineno + buffers.length ∧ st'.error ≤ st'.lineno := by
  induction buffers generalizing st with
  | nil =>
    cases hrun
    exact ⟨rfl, h⟩
  | cons buffer buffers ih =>
    rw [List.foldlM_cons] at hrun
    obtain ⟨st₁, hline, hrest⟩ := Option.bind_eq_some_iff.1 hrun
    obtain ⟨hlineno, herror⟩ := counters_obey (Nat.le_succ_of_le h) hline
    obtain ⟨hlineno', herror'⟩ := ih (hlineno ▸ herror) hrest
    have hcount : st₁.lineno = st.lineno + 1 := hlineno
    refine ⟨?_, herror'⟩
    rw [hlineno', hcount, List.length_cons]
    omega

/-- **The error is at most the number of lines.** -/
theorem error_le {handler : Handler σ} {user user' : σ} {buffers : List Bytes} {error : ℕ}
    (h : iniParseStream handler user buffers = some (error, user')) : error ≤ buffers.length := by
  obtain ⟨st', hrun, hst'⟩ := Option.map_eq_some_iff.1 h
  obtain ⟨hlineno, herror⟩ := State.counters_run (Nat.le_refl 0) hrun
  cases hst'
  rwa [hlineno, Nat.zero_add] at herror

theorem foldl_logged (handler : Handler σ) (calls log : List Call) (user : σ) :
    calls.foldl (Call.apply (logged handler)) (user, log) =
      (calls.foldl (Call.apply handler) user, log ++ calls) := by
  induction calls generalizing user log with
  | nil => rw [List.append_nil]; rfl
  | cons c calls ih =>
    rw [List.foldl_cons, Call.apply, logged, ih, List.append_assoc]
    rfl

/-- The calls for the lines of a stream. -/
def callsOf (buffers : List Bytes) : List Call :=
  (linesOf buffers).filterMap fun p => callOf p.1 p.2

theorem init_holds (user : σ) : State.Holds ⟨[], []⟩ ⟨[], [], 0, 0, user⟩ :=
  ⟨rfl, rfl, by decide⟩

theorem iniParseStream_of_fits (handler : Handler σ) (user : σ) {buffers : List Bytes}
    (hfits : ∀ p ∈ linesOf buffers, p.2.Fits) :
    ∃ error, iniParseStream handler user buffers =
      some (error, (callsOf buffers).foldl (Call.apply handler) user) := by
  obtain ⟨st', hrun, huser⟩ := (init_holds user).run handler buffers hfits
  exact ⟨st'.error, by rw [iniParseStream, hrun, Option.map_some, huser, callsOf, linesOf]⟩

theorem iniParseStream_eq_none_iff (handler : Handler σ) (user : σ) (buffers : List Bytes) :
    iniParseStream handler user buffers = none ↔ ∃ p ∈ linesOf buffers, ¬ p.2.Fits := by
  constructor
  · intro hnone
    by_contra hall
    push Not at hall
    obtain ⟨error, hsome⟩ := iniParseStream_of_fits handler user hall
    rw [hnone] at hsome
    cases hsome
  · intro hnot
    rw [iniParseStream, (init_holds user).run_eq_none handler buffers hnot, Option.map_none]

/-- **Names shorter than their buffers.** -/
theorem iniParseStream_iff (handler : Handler σ) (user : σ) (file : Bytes) :
    (∃ error user' calls,
        iniParseStream (logged handler) (user, []) (readAll file) = some (error, user', calls) ∧
          calls.map Call.sec = (callsOf (readAll file)).map Call.sec) ↔
      ∀ p ∈ linesOf (readAll file), p.2.Fits := by
  constructor
  · rintro ⟨error, user', calls, hsome, -⟩
    by_contra hnot
    push Not at hnot
    rw [(iniParseStream_eq_none_iff _ _ _).2 hnot] at hsome
    cases hsome
  · intro hfits
    obtain ⟨error, hsome⟩ := iniParseStream_of_fits (logged handler) (user, []) hfits
    rw [foldl_logged, List.nil_append] at hsome
    exact ⟨error, _, _, hsome, rfl⟩

theorem readAll_of_fgets {stream str rest : Bytes} (h : fgets maxLine stream = some (str, rest)) :
    readAll stream = str :: readAll rest := by
  rw [readAll]
  split
  · rename_i hnone
    rw [h] at hnone
    cases hnone
  · rename_i hsome
    rw [h] at hsome
    cases hsome
    rfl

/-- `[aa...a]` with 128 letters, on a line of its own. -/
def longHeader : Bytes := 0x5B :: (List.replicate 128 0x61 ++ [0x5D, 0x0A])

theorem fgets_longHeader : fgets maxLine longHeader = some (longHeader, []) := by decide +kernel

theorem readLine_longHeader :
    readLine 1 false longHeader = .header (List.replicate 128 0x61) := by decide +kernel

/-- A section of 128 characters does not fit with its terminator. -/
theorem longHeader_aborts : longHeader.length < maxLine ∧
    iniParseStream (logged fun (_ : Unit) _ _ _ => (1, ())) ((), []) (readAll longHeader) =
      none := by
  refine ⟨by simp [longHeader, maxLine], ?_⟩
  rw [readAll_of_fgets fgets_longHeader, iniParseStream_eq_none_iff]
  refine ⟨_, List.mem_cons_self, ?_⟩
  have hline : readLine (0 + 1) (decide (([] : Bytes) ≠ [])) longHeader =
      .header (List.replicate 128 0x61) := readLine_longHeader
  rw [hline, Line.Fits, List.length_replicate]
  decide

end SseExt.Ini
