import SseExt.Ini.Layout
import SseExt.Ini.Values

/-!
# `INIReader`: the whole object

The object joins the parser and the table of values: `Load` runs the parser over a file with
`ValueHandler` as its handler, and keeps the number of the first malformed line. It does so once.
After that `Load` does nothing, also if `Clear` has emptied the table.

A file is the text that `fopen` in text mode gives, or `none` if it cannot be opened. A name that
does not fit in its buffer ends the process (`none`), as in the parser.

**Theorem (`run_eq`).** After any calls of `Load`, `Clear` and `RemoveSection` the object holds the
values of the file of the first `Load`, without the sections removed since, and nothing if it was
cleared since; and it reports the first malformed line of that file.

**Theorem (`load_render`).** A written file is read without an error, and a section and a name in
any spelling find its values.
-/

namespace SseExt.Ini

open Numeral

variable {s : Bytes} {line : Line} {n : Names}

/-! ## The texts of a file have no terminator in them -/

theorem findCharsOrComment_subset (chars : Bytes) (w : Bool) (s : Bytes) :
    (findCharsOrComment chars w s).1 ⊆ s ∧ (findCharsOrComment chars w s).2 ⊆ s := by
  induction s generalizing w with
  | nil => exact ⟨List.nil_subset _, List.nil_subset _⟩
  | cons c cs ih =>
    rw [findCharsOrComment]
    split_ifs
    · exact ⟨List.nil_subset _, List.Subset.refl _⟩
    · obtain ⟨h₁, h₂⟩ := ih (isSpace c)
      exact ⟨List.cons_subset_cons c h₁, List.subset_cons_of_subset c h₂⟩

/-- Every text in the line has the property. -/
def Line.All (P : Bytes → Prop) : Line → Prop
  | .more value => P value
  | .header text => P text
  | .pair name value => P name ∧ P value
  | _ => True

theorem nulFree_rstrip (h : NulFree s) : NulFree (rstrip s) :=
  fun c hc => h c ((List.rdropWhile_prefix _ _).subset hc)

theorem nulFree_lskip (h : NulFree s) : NulFree (lskip s) :=
  fun c hc => h c ((List.dropWhile_suffix _).subset hc)

theorem nulFree_cutComment (h : NulFree s) : NulFree (cutComment s) :=
  nulFree_rstrip fun c hc => h c ((findCharsOrComment_subset [] false s).1 hc)

theorem nulFree_readHeader (h : NulFree s) : (readHeader s).All NulFree := by
  have hfind := findCharsOrComment_subset [0x5D] false s.tail
  unfold readHeader
  split
  · rename_i text rest heq
    rw [heq] at hfind
    exact fun c hc => h c (List.tail_subset s (hfind.1 hc))
  · trivial

theorem nulFree_readPair (h : NulFree s) : (readPair s).All NulFree := by
  have hfind := findCharsOrComment_subset [0x3D, 0x3A] false s
  have hpair {name rest : Bytes} {sep : UInt8}
      (heq : findCharsOrComment [0x3D, 0x3A] false s = (name, sep :: rest)) :
      (Line.pair (rstrip name) (cutComment (lskip rest))).All NulFree := by
    rw [heq] at hfind
    refine ⟨nulFree_rstrip fun c hc => h c (hfind.1 hc), ?_⟩
    exact nulFree_cutComment (nulFree_lskip fun c hc =>
      h c (hfind.2 (List.mem_cons_of_mem sep hc)))
  unfold readPair
  split
  · exact hpair ‹_›
  · exact hpair ‹_›
  · trivial

theorem nulFree_readLine (lineno : ℕ) (named : Bool) (buffer : Bytes) :
    (readLine lineno named buffer).All NulFree := by
  have hnul : NulFree (lskip (rstrip ((cPart buffer).drop (bomLength lineno (cPart buffer))))) :=
    nulFree_lskip (nulFree_rstrip fun c hc => nulFree_cPart buffer c (List.mem_of_mem_drop hc))
  unfold readLine
  dsimp only
  split
  · trivial
  · rename_i c cs heq
    rw [heq] at hnul
    split_ifs
    · trivial
    · exact nulFree_cutComment hnul
    · exact nulFree_readHeader hnul
    · exact nulFree_readPair hnul

/-- The texts of a call. -/
structure Call.All (P : Bytes → Prop) (c : Call) : Prop where
  sec : P c.sec
  name : P c.name
  value : P c.value

theorem nulFree_after (hn : NulFree n.header ∧ NulFree n.name) (hline : line.All NulFree) :
    NulFree (n.after line).header ∧ NulFree (n.after line).name := by
  cases line with
  | header text => exact ⟨hline, nofun⟩
  | pair name value => exact ⟨hn.1, hline.1⟩
  | _ => exact hn

theorem nulFree_callOf (hn : NulFree n.header ∧ NulFree n.name) (hline : line.All NulFree) :
    ∀ c ∈ callOf n line, c.All NulFree := by
  have hsec : NulFree (n.header.take (maxSection - 1)) :=
    fun c hc => hn.1 c (List.mem_of_mem_take hc)
  intro c hc
  cases line with
  | more value =>
    cases hc
    exact ⟨hsec, hn.2, hline⟩
  | pair name value =>
    cases hc
    exact ⟨hsec, hline.1, hline.2⟩
  | _ => cases hc

theorem nulFree_callsOf (buffers : List Bytes) : ∀ c ∈ callsOf buffers, c.All NulFree := by
  have hlines (lineno : ℕ) (n : Names) (hn : NulFree n.header ∧ NulFree n.name) :
      ∀ c ∈ (linesFrom lineno n buffers).filterMap fun p => callOf p.1 p.2, c.All NulFree := by
    induction buffers generalizing lineno n with
    | nil => exact nofun
    | cons buffer buffers ih =>
      have hline := nulFree_readLine (lineno + 1) (n.name ≠ []) buffer
      intro c hc
      obtain ⟨p, hp, hpc⟩ := List.mem_filterMap.1 hc
      rcases List.mem_cons.1 hp with rfl | hp
      · exact nulFree_callOf hn hline c hpc
      · exact ih _ _ (nulFree_after hn hline) c (List.mem_filterMap.2 ⟨p, hp, hpc⟩)
  exact hlines 0 ⟨[], []⟩ ⟨nofun, nofun⟩

/-! ## The error -/

variable {σ : Type*}

/-- The error after some lines: the one before them, or the number of the first malformed line. -/
def errorAfter (error lineno : ℕ) (lines : List (Names × Line)) : ℕ :=
  if error ≠ 0 then error
  else
    match lines.findIdx? fun p => p.2 = .malformed with
    | none => 0
    | some i => lineno + i + 1

/-- The number of the first malformed line, or 0. -/
def firstMalformed (lines : List (Names × Line)) : ℕ := errorAfter 0 0 lines

theorem errorAfter_cons (error lineno : ℕ) (p : Names × Line) (lines : List (Names × Line)) :
    errorAfter error lineno (p :: lines) = errorAfter
      (if p.2 = .malformed ∧ error = 0 then lineno + 1 else error) (lineno + 1) lines := by
  rw [errorAfter, errorAfter, List.findIdx?_cons]
  by_cases h0 : error = 0
  · by_cases hm : p.2 = .malformed
    · simp [h0, hm]
    · simp only [h0, hm, ne_eq, not_true_eq_false, if_false, decide_false, Bool.false_eq_true,
        false_and]
      cases lines.findIdx? fun p => p.2 = .malformed with
      | none => rfl
      | some i => simp; omega
  · simp [h0]

/-- A handler that never fails leaves the errors to the lines. -/
theorem State.error_obey {handler : Handler σ} (hok : ∀ u a b c, (handler u a b c).1 ≠ 0)
    {st st' : State σ} (h : st.obey handler line = some st') :
    st'.error = if line = .malformed ∧ st.error = 0 then st.lineno else st.error := by
  have hhandle (st : State σ) (name value : Bytes) :
      (st.handle handler name value).error = st.error := by
    rw [State.handle, if_neg (hok _ _ _ _)]
  cases line with
  | blank =>
    cases h
    rfl
  | more value =>
    cases h
    exact hhandle st st.prevName value
  | header text =>
    obtain ⟨sec, -, rfl⟩ := Option.map_eq_some_iff.1 h
    rfl
  | pair name value =>
    obtain ⟨prevName, -, rfl⟩ := Option.map_eq_some_iff.1 h
    exact hhandle _ name value
  | malformed =>
    cases h
    simp [State.fail]

/-- **The first error** is the first malformed line. -/
theorem State.error_run {handler : Handler σ} (hok : ∀ u a b c, (handler u a b c).1 ≠ 0)
    {buffers : List Bytes} {st st' : State σ} (hst : st.Holds n)
    (hfits : ∀ p ∈ linesFrom st.lineno n buffers, p.2.Fits)
    (h : buffers.foldlM (State.parseLine handler) st = some st') :
    st'.error = errorAfter st.error st.lineno (linesFrom st.lineno n buffers) := by
  induction buffers generalizing st n with
  | nil =>
    cases h
    simp [linesFrom, errorAfter]
  | cons buffer buffers ih =>
    rw [linesFrom, List.forall_mem_cons] at hfits
    have hnext : State.Holds n { st with lineno := st.lineno + 1 } :=
      ⟨hst.sec, hst.prevName, hst.header_lt⟩
    obtain ⟨st₁, hobey, hholds, hlineno, -⟩ := hnext.obey handler hfits.1
    dsimp only at hlineno
    rw [List.foldlM_cons, hst.parseLine_eq, hobey] at h
    rw [ih hholds (by rw [hlineno]; exact hfits.2) h, State.error_obey hok hobey, hlineno,
      linesFrom, errorAfter_cons]

/-- **A parse of lines whose names fit.** -/
theorem iniParseStream_eq {handler : Handler σ} (hok : ∀ u a b c, (handler u a b c).1 ≠ 0)
    (user : σ) {buffers : List Bytes} (hfits : ∀ p ∈ linesOf buffers, p.2.Fits) :
    iniParseStream handler user buffers = some (firstMalformed (linesOf buffers),
      (callsOf buffers).foldl (Call.apply handler) user) := by
  obtain ⟨st', hrun, huser⟩ := (init_holds user).run handler buffers hfits
  have herror := State.error_run hok (init_holds user) hfits hrun
  rw [iniParseStream, hrun, Option.map_some, huser, herror]
  rfl

end SseExt.Ini

namespace SseExt.INIReader

open Ini

/-! ## The object -/

/-- What a `const char*` in a buffer points to. -/
def cText (s : Bytes) : CText := ⟨cPart s, nulFree_cPart s⟩

/-- `INIReader`, with `_error` and `_init`. `_error` is an `int`; it is at most the number of lines
of the file (`error_le`). -/
structure Object where
  values : INIReader
  error : ℤ
  init : Bool

variable (bucket : ℕ → UInt64 → ℕ) (grow : ℕ → ℕ → ℕ)

/-- `ValueHandler` as the parser calls it. -/
def handler : Handler INIReader := fun r sec name value =>
  r.valueHandler bucket grow (cText sec) (cText name) (cText value)

/-- `ini_parse` -/
def iniParse (file : Option Bytes) (r : INIReader) : Option (ℤ × INIReader) :=
  match file with
  | none => some (-1, r)
  | some text => (iniParseFile text (handler bucket grow) r).map fun o => (o.1, o.2)

namespace Object

/-- The constructor without a file. -/
def new : Object := ⟨.new grow, -1, false⟩

def load (o : Object) (file : Option Bytes) : Option Object :=
  if o.init then some o
  else (iniParse bucket grow file o.values).map fun r => ⟨r.2, r.1, true⟩

def clear (o : Object) : Object := { o with values := .new grow }

/-- `RemoveSection` -/
def removeSection (o : Object) (sec : CText) : Object :=
  { o with values := o.values.removeSection bucket sec.text }

inductive Op where
  | load (file : Option Bytes)
  | clear
  | removeSection (sec : CText)

def apply (o : Object) : Op → Option Object
  | .load file => o.load bucket grow file
  | .clear => some (o.clear grow)
  | .removeSection sec => some (o.removeSection bucket sec)

def run (o : Object) (ops : List Op) : Option Object := ops.foldlM (apply bucket grow) o

end Object

/-! ## What a file has -/

/-- Every name fits in its buffer. -/
def FileFits (file : Option Bytes) : Prop :=
  ∀ text ∈ file, ∀ p ∈ linesOf (readAll text), p.2.Fits

/-- What `ini_parse` returns. -/
def fileError : Option Bytes → ℤ
  | none => -1
  | some text => firstMalformed (linesOf (readAll text))

def fileCalls : Option Bytes → List Ini.Call
  | none => []
  | some text => callsOf (readAll text)

/-- The values of calls for a section and a name in any spelling. -/
def valuesFor (cs : List Ini.Call) (sec name : Bytes) : List Bytes :=
  (cs.filter fun c => foldStr c.sec = foldStr sec ∧ foldStr c.name = foldStr name).map
    Ini.Call.value

/-- The operation takes the section away. -/
def Object.Op.Forgets (sec : Bytes) : Object.Op → Prop
  | .load _ => False
  | .clear => True
  | .removeSection sec' => foldStr sec'.text = foldStr sec

/-- The file of the first `Load`, and the operations after it. -/
def firstLoad : List Object.Op → Option (Option Bytes × List Object.Op)
  | [] => none
  | .load file :: ops => some (file, ops)
  | .clear :: ops | .removeSection _ :: ops => firstLoad ops

instance decidableForgets (sec : Bytes) : DecidablePred (Object.Op.Forgets sec)
  | .load _ => inferInstanceAs (Decidable False)
  | .clear => inferInstanceAs (Decidable True)
  | .removeSection _ => inferInstanceAs (Decidable (_ = _))

/-! ## The calls of the parser -/

variable {bucket grow} {cs : List Ini.Call} {sec name : Bytes} {o o' : Object}
  {ops : List Object.Op} {file : Option Bytes}

/-- A call of the parser as a call of `ValueHandler`. -/
def toCall (c : Ini.Call) : Call := .valueHandler (cText c.sec) (cText c.name) (cText c.value)

theorem foldl_handler (cs : List Ini.Call) (r : INIReader) :
    cs.foldl (Ini.Call.apply (handler bucket grow)) r =
      (cs.map toCall).foldl (call bucket grow) r := by
  rw [List.foldl_map]
  rfl

theorem foldl_collect (hcs : ∀ c ∈ cs, c.All NulFree) (vs : List Bytes) :
    (cs.map toCall).foldl (collect sec name) vs = vs ++ valuesFor cs sec name := by
  induction cs generalizing vs with
  | nil => exact (List.append_nil vs).symm
  | cons c cs ih =>
    obtain ⟨hc, hrest⟩ := List.forall_mem_cons.1 hcs
    have htext {s : Bytes} (hs : NulFree s) : (cText s).text = s := hs.cPart_eq
    rw [List.map_cons, List.foldl_cons, ih hrest, toCall, collect, htext hc.sec, htext hc.name,
      htext hc.value, valuesFor, valuesFor]
    by_cases hmem : foldStr c.sec = foldStr sec ∧ foldStr c.name = foldStr name
    · rw [if_pos hmem, List.filter_cons, if_pos (decide_eq_true hmem), List.map_cons,
        List.append_assoc]
      rfl
    · rw [if_neg hmem, List.filter_cons, if_neg (by simp [hmem])]

theorem nulFree_fileCalls (file : Option Bytes) : ∀ c ∈ fileCalls file, c.All NulFree := by
  cases file with
  | none => exact nofun
  | some text => exact nulFree_callsOf _

/-- The handler never fails. -/
theorem handler_ne_zero (r : INIReader) (a b c : Bytes) : (handler bucket grow r a b c).1 ≠ 0 := by
  have hone : (handler bucket grow r a b c).1 = 1 := rfl
  rw [hone]
  decide

/-- **A parse of a file whose names fit.** -/
theorem iniParse_of_fits (hfits : FileFits file) (r : INIReader) :
    iniParse bucket grow file r =
      some (fileError file, ((fileCalls file).map toCall).foldl (call bucket grow) r) := by
  cases file with
  | none => rfl
  | some text =>
    rw [iniParse, iniParseFile, iniParseStream_eq handler_ne_zero r (hfits text rfl),
      foldl_handler]
    rfl

theorem iniParse_of_not_fits (hfits : ¬ FileFits file) (r : INIReader) :
    iniParse bucket grow file r = none := by
  cases file with
  | none => exact absurd nofun hfits
  | some text =>
    have hnone : iniParseStream (handler bucket grow) r (readAll text) = none := by
      refine (iniParseStream_eq_none_iff _ _ _).2 ?_
      by_contra hall
      push Not at hall
      refine hfits fun text' ht => ?_
      cases ht
      exact hall
    rw [iniParse, iniParseFile, hnone]
    rfl

/-! ## Runs -/

/-- What the operations after a load leave of the calls. -/
def remaining (cs : List Call) : List Object.Op → List Call
  | [] => cs
  | .load _ :: ops => remaining cs ops
  | .clear :: ops => remaining [] ops
  | .removeSection sec :: ops => remaining (cs ++ [.removeSection sec]) ops

theorem calls_snoc (cs : List Call) (c : Call) :
    calls bucket grow (cs ++ [c]) = call bucket grow (calls bucket grow cs) c := by
  rw [calls, calls, List.foldl_append]
  rfl

/-- **After a load** the object changes by what is taken away only. -/
theorem run_loaded (ops : List Object.Op) {cs : List Call} (hinit : o.init = true)
    (hvalues : o.values = calls bucket grow cs) :
    ∃ o', o.run bucket grow ops = some o' ∧ o'.error = o.error ∧
      o'.values = calls bucket grow (remaining cs ops) := by
  induction ops generalizing o cs with
  | nil => exact ⟨o, rfl, rfl, hvalues⟩
  | cons op ops ih =>
    cases op with
    | load file =>
      obtain ⟨o', hrun, hrest⟩ := ih hinit hvalues
      refine ⟨o', ?_, hrest⟩
      rw [Object.run, List.foldlM_cons, Object.apply, Object.load, if_pos hinit]
      exact hrun
    | clear =>
      have hinit' : (o.clear grow).init = true := hinit
      have hclear : (o.clear grow).values = calls bucket grow [] := rfl
      obtain ⟨o', hrun, hrest⟩ := ih hinit' hclear
      exact ⟨o', hrun, hrest⟩
    | removeSection sec =>
      have hremove : (o.removeSection bucket sec).values =
          calls bucket grow (cs ++ [.removeSection sec]) := by
        rw [calls_snoc, ← hvalues]
        rfl
      obtain ⟨o', hrun, hrest⟩ := ih (o := o.removeSection bucket sec) hinit hremove
      exact ⟨o', hrun, hrest⟩

theorem valuesOf_snoc (cs : List Call) (c : Call) (sec name : Bytes) :
    valuesOf (cs ++ [c]) sec name = collect sec name (valuesOf cs sec name) c := by
  rw [valuesOf, valuesOf, List.foldl_append]
  rfl

/-- The values that are left. -/
theorem valuesOf_remaining (cs : List Call) (ops : List Object.Op) (sec name : Bytes) :
    valuesOf (remaining cs ops) sec name =
      if ∃ op ∈ ops, op.Forgets sec then [] else valuesOf cs sec name := by
  induction ops generalizing cs with
  | nil => simp [remaining]
  | cons op ops ih =>
    have hcons := List.exists_mem_cons_iff (Object.Op.Forgets sec) op ops
    cases op with
    | load file =>
      rw [remaining, ih]
      simp only [hcons.trans (or_iff_right id)]
    | clear =>
      rw [remaining, ih, if_pos (hcons.2 (.inl trivial))]
      split_ifs <;> rfl
    | removeSection sec' =>
      rw [remaining, ih, valuesOf_snoc, collect]
      by_cases hsec : foldStr sec'.text = foldStr sec
      · rw [if_pos hsec, if_pos (hcons.2 (.inl hsec))]
        split_ifs <;> rfl
      · rw [if_neg hsec]
        simp only [hcons.trans (or_iff_right hsec)]

/-- The object has the error and the values of a file, without the sections that operations have
taken away. -/
def Object.Holds (bucket : ℕ → UInt64 → ℕ) (o : Object) (file : Option Bytes)
    (rest : List Object.Op) : Prop :=
  o.error = fileError file ∧ ∀ sec name, o.values.get bucket sec name =
    if ∃ op ∈ rest, op.Forgets sec then none else joined (valuesFor (fileCalls file) sec name)

/-- **The first load.** -/
theorem run_load (ops : List Object.Op) {pre : List Call} (hinit : o.init = false)
    (hvalues : o.values = calls bucket grow pre) (hpre : ∀ sec name, valuesOf pre sec name = [])
    (hfits : FileFits file) :
    ∃ o', o.run bucket grow (.load file :: ops) = some o' ∧ o'.Holds bucket file ops := by
  have hload : o.load bucket grow file = some ⟨calls bucket grow
      (pre ++ (fileCalls file).map toCall), fileError file, true⟩ := by
    rw [Object.load, if_neg (by simp [hinit]), iniParse_of_fits hfits, hvalues, calls, calls,
      List.foldl_append]
    rfl
  obtain ⟨o', hrun, herror, hvalues'⟩ := run_loaded ops (o := ⟨calls bucket grow
    (pre ++ (fileCalls file).map toCall), fileError file, true⟩) rfl rfl
  refine ⟨o', ?_, herror, fun sec name => ?_⟩
  · rw [Object.run, List.foldlM_cons, Object.apply, hload]
    exact hrun
  · have hsum : valuesOf (pre ++ (fileCalls file).map toCall) sec name =
        valuesFor (fileCalls file) sec name := by
      rw [valuesOf, List.foldl_append, ← valuesOf, hpre,
        foldl_collect (nulFree_fileCalls file), List.nil_append]
    rw [hvalues', (get_eq bucket grow _ sec name).2.1, valuesOf_remaining, hsum]
    split_ifs <;> rfl

/-- **The object over its whole life**, from a state in which nothing was loaded. -/
theorem run_unloaded {pre : List Call} (hinit : o.init = false) (herror : o.error = -1)
    (hvalues : o.values = calls bucket grow pre) (hpre : ∀ sec name, valuesOf pre sec name = []) :
    match firstLoad ops with
    | none => ∃ o', o.run bucket grow ops = some o' ∧ o'.error = -1 ∧
        ∀ sec name, o'.values.get bucket sec name = none
    | some (file, rest) =>
        ((∃ o', o.run bucket grow ops = some o') ↔ FileFits file) ∧
        ∀ o', o.run bucket grow ops = some o' → o'.Holds bucket file rest := by
  induction ops generalizing o pre with
  | nil =>
    refine ⟨o, rfl, herror, fun sec name => ?_⟩
    rw [hvalues, (get_eq bucket grow _ sec name).2.1, hpre]
    rfl
  | cons op ops ih =>
    cases op with
    | load file =>
      by_cases hfits : FileFits file
      · obtain ⟨o', hrun, hholds⟩ := run_load ops hinit hvalues hpre hfits
        refine ⟨⟨fun _ => hfits, fun _ => ⟨o', hrun⟩⟩, fun o'' h => ?_⟩
        rw [hrun] at h
        cases h
        exact hholds
      · have hnone : o.run bucket grow (.load file :: ops) = none := by
          rw [Object.run, List.foldlM_cons, Object.apply, Object.load, if_neg (by simp [hinit]),
            iniParse_of_not_fits hfits]
          rfl
        rw [hnone]
        exact ⟨⟨nofun, fun h => absurd h hfits⟩, nofun⟩
    | clear =>
      have hclear : (o.clear grow).values = calls bucket grow [] := rfl
      exact ih (o := o.clear grow) hinit herror hclear fun _ _ => rfl
    | removeSection sec =>
      have hremove : (o.removeSection bucket sec).values =
          calls bucket grow (pre ++ [.removeSection sec]) := by
        rw [calls_snoc, ← hvalues]
        rfl
      refine ih (o := o.removeSection bucket sec) hinit herror hremove fun sec' name => ?_
      rw [valuesOf_snoc, hpre, collect]
      split_ifs <;> rfl

theorem run_eq (bucket : ℕ → UInt64 → ℕ) (grow : ℕ → ℕ → ℕ) (ops : List Object.Op) :
    match firstLoad ops with
    | none => ∃ o, (Object.new grow).run bucket grow ops = some o ∧ o.error = -1 ∧
        ∀ sec name, o.values.get bucket sec name = none
    | some (file, rest) =>
        ((∃ o, (Object.new grow).run bucket grow ops = some o) ↔ FileFits file) ∧
        ∀ o, (Object.new grow).run bucket grow ops = some o → o.Holds bucket file rest := by
  have hnew : (Object.new grow).values = calls bucket grow [] := rfl
  exact run_unloaded rfl rfl hnew fun _ _ => rfl

/-- **A written file is read back.** -/
theorem load_render (bucket : ℕ → UInt64 → ℕ) (grow : ℕ → ℕ → ℕ) {l : Layout} (h : l.Ok) :
    ∃ o, (Object.new grow).load bucket grow (some l.render) = some o ∧ o.error = 0 ∧
      ∀ sec name, o.values.get bucket sec name =
        joined (valuesFor (meaning [] [] l.items) sec name) := by
  obtain ⟨hcalls, hlines⟩ := callsOf_render h
  have hfits : FileFits (some l.render) := by
    intro text ht
    cases ht
    exact fun p hp => (hlines p hp).1
  have hnew : (Object.new grow).values = calls bucket grow [] := rfl
  obtain ⟨o, hrun, herror, hget⟩ := run_load [] rfl hnew (fun _ _ => rfl) hfits
  have hnone : (linesOf (readAll l.render)).findIdx? (fun p => p.2 = .malformed) = none :=
    List.findIdx?_eq_none_iff.2 fun p hp => decide_eq_false (hlines p hp).2
  refine ⟨o, ?_, ?_, fun sec name => ?_⟩
  · rw [Object.run, List.foldlM_cons] at hrun
    cases hload : (Object.new grow).load bucket grow (some l.render) with
    | none =>
      rw [Object.apply, hload] at hrun
      cases hrun
    | some o' =>
      rw [Object.apply, hload] at hrun
      exact hrun
  · rw [herror, fileError, firstMalformed, errorAfter, hnone]
    rfl
  · rw [hget, if_neg (by simp), fileCalls, hcalls]

/-- A comment, `[Gx]`, `Na = a ;c`, a line that goes on with `b`, and `na:c`. -/
def sampleLayout : Layout where
  bom := true
  items := [.comment [0x20] 0x3B [0x63], .header [0x47, 0x78] [0x20],
    .pair [0x4E, 0x61] [0x20] 0x3D [0x20] [0x61] ([0x20] ++ 0x3B :: [0x63]),
    .more [0x09] [0x62] [], .pair [0x6E, 0x61] [] 0x3A [] [0x63] []]

set_option maxRecDepth 4000 in
theorem isName_sample {s : Bytes} (h : s = [0x4E, 0x61] ∨ s = [0x6E, 0x61]) : IsName s := by
  rcases h with rfl | rfl
  all_goals exact ⟨by decide, by decide, by decide, by decide, by decide, by decide⟩

set_option maxRecDepth 4000 in
theorem sampleLayout_ok : sampleLayout.Ok where
  items := by
    refine ⟨⟨by decide, by decide⟩, ⟨by decide, by decide⟩, ⟨by decide, by decide, by decide⟩,
      ⟨by decide, by decide⟩, ⟨isName_sample (.inl rfl), by decide, by decide, by decide,
        by decide, .comment _ (by decide) (by decide) (by decide), by decide⟩,
      ⟨by decide, by decide⟩, ⟨rfl, by decide, by decide, by decide, by decide, by decide,
        .spaces (by decide)⟩, ⟨by decide, by decide⟩, ⟨isName_sample (.inr rfl), by decide,
        by decide, by decide, by decide, .spaces (by decide), by decide⟩,
      ⟨by decide, by decide⟩, trivial⟩
  start := by
    show [0x20, 0x3B, 0x63].length + 4 < maxLine
    decide

/-- The three values come together, under another spelling of their names. -/
theorem load_render_sample : ∃ o,
    (Object.new fun n _ => n + 1).load (fun _ _ => 0) (fun n _ => n + 1)
      (some sampleLayout.render) = some o ∧ o.error = 0 ∧
    o.values.get (fun _ _ => 0) [0x67, 0x58] [0x4E, 0x41] =
      some [0x61, 0x0A, 0x62, 0x0A, 0x63] := by
  obtain ⟨o, hload, herror, hget⟩ :=
    load_render (fun _ _ => 0) (fun n _ => n + 1) sampleLayout_ok
  refine ⟨o, hload, herror, ?_⟩
  rw [hget]
  decide

end SseExt.INIReader
