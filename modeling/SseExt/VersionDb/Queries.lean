import SseExt.VersionDb.AddressLibrary
import SseExt.VersionDb.Codec

/-!
# `IAL`: queries

After its constructor the library answers queries: two identifiers, one for each edition of the
executable, perhaps with an offset for each. The identifier 0 is answered by 0 without a look at the
database. An identifier that the database does not know is answered by 0 too, and from then on
`HasBadQuery` is true. `Release` gives the database up, and a query for any other identifier then
goes through a null pointer.

**Theorem (`library_queries`).** Where the file for the version of the executable encodes a library,
the constructor loads it in the format of the edition. In every run of queries each answer is the
module base with the offset of the last entry for the identifier, the flag is set exactly by the
identifiers that have no address, and the run goes wrong exactly if it asks for an identifier after
a release.
-/

namespace SseExt.IAL

/-- The library after its constructor. -/
structure Live where
  isLoaded : Bool
  hasBadQuery : Bool
  isAE : Bool
  ver : UInt64
  database : Option VersionDb

/-- What the constructor leaves, if it returns. -/
def live (a : IAL) : Option Live :=
  match a.load with
  | none => some ⟨false, false, a.isAE, a.ver, some ⟨fun _ => none, .zero, "", 0⟩⟩
  | some (.accepted db _) => some ⟨true, false, a.isAE, a.ver, some db⟩
  | some (.rejected db) => some ⟨false, false, a.isAE, a.ver, some db⟩
  | some .divByZero | some .thrown => none

inductive Fault where
  | nullDatabase

/-- The two overloads of `Addr`, and `Release`. -/
inductive Call where
  | addr (idSe idAe : UInt64)
  | addrOffset (idSe idAe : UInt64) (offsetSe offsetAe : Int64)
  | release

namespace Live

/-- `AddrImpl` with two identifiers. -/
def addrImpl (s : Live) (idSe idAe : UInt64) : Except Fault (UInt64 × Live) :=
  let id := if s.isAE then idAe else idSe
  if id = 0 then .ok (0, s)
  else
    match s.database with
    | none => .error .nullDatabase
    | some db =>
      let addr := db.findAddressById id
      if addr = 0 then .ok (0, { s with hasBadQuery := true }) else .ok (addr, s)

/-- `AddrImpl` with two identifiers and two offsets. -/
def addrImplOffset (s : Live) (idSe idAe : UInt64) (offsetSe offsetAe : Int64) :
    Except Fault (UInt64 × Live) :=
  let (id, offset) := if s.isAE then (idAe, offsetAe) else (idSe, offsetSe)
  if id = 0 then .ok (0, s)
  else
    match s.database with
    | none => .error .nullDatabase
    | some db =>
      let addr := db.findAddressById id
      if addr = 0 then .ok (0, { s with hasBadQuery := true })
      else .ok (addr + offset.toUInt64, s)

/-- `Release` -/
def release (s : Live) : Live := { s with isLoaded := false, database := none }

/-- A call, with its answer if it is a query. -/
def call (s : Live) : Call → Except Fault (Option UInt64 × Live)
  | .addr idSe idAe => (s.addrImpl idSe idAe).map fun r => (some r.1, r.2)
  | .addrOffset idSe idAe offsetSe offsetAe =>
    (s.addrImplOffset idSe idAe offsetSe offsetAe).map fun r => (some r.1, r.2)
  | .release => .ok (none, s.release)

/-- Calls in order, with the answers to the queries among them. -/
def run (s : Live) : List Call → Except Fault (List UInt64 × Live)
  | [] => .ok ([], s)
  | c :: cs =>
    match s.call c with
    | .error e => .error e
    | .ok (a, s) =>
      match s.run cs with
      | .error e => .error e
      | .ok (as, s) => .ok (a.toList ++ as, s)

end Live

/-! ## What calls mean -/

namespace Call

/-- The identifier for the edition; a release has none. -/
def id (isAE : Bool) : Call → UInt64
  | .addr idSe idAe => if isAE then idAe else idSe
  | .addrOffset idSe idAe _ _ => if isAE then idAe else idSe
  | .release => 0

/-- The offset for the edition. -/
def offset (isAE : Bool) : Call → UInt64
  | .addr _ _ | .release => 0
  | .addrOffset _ _ offsetSe offsetAe => (if isAE then offsetAe else offsetSe).toUInt64

/-- The answer, where `find` gives the addresses of identifiers. -/
def answer (find : UInt64 → Option UInt64) (isAE : Bool) (c : Call) : UInt64 :=
  if c.id isAE = 0 then 0
  else
    match find (c.id isAE) with
    | none => 0
    | some a => a + c.offset isAE

/-- A query for an identifier without an address. -/
def Bad (find : UInt64 → Option UInt64) (isAE : Bool) (c : Call) : Prop :=
  c.id isAE ≠ 0 ∧ find (c.id isAE) = none

def isQuery : Call → Bool
  | .release => false
  | _ => true

end Call

/-- After a release nothing is asked for. -/
def Careful (isAE : Bool) : List Call → Prop
  | [] => True
  | .release :: cs => ∀ c ∈ cs, c.id isAE = 0
  | .addr _ _ :: cs | .addrOffset _ _ _ _ :: cs => Careful isAE cs

/-- The answers to the queries among the calls. -/
def answersTo (find : UInt64 → Option UInt64) (isAE : Bool) (cs : List Call) : List UInt64 :=
  (cs.filter Call.isQuery).map (Call.answer find isAE)

/-- `FindAddressById`, with nothing for `NULL`. -/
def addressOf (db : VersionDb) (id : UInt64) : Option UInt64 :=
  if db.findAddressById id = 0 then none else some (db.findAddressById id)

/-- The address of an identifier in a library at `base`: that of its last entry, unless it is 0. -/
def libraryAddress (base : UInt64) (es : List VersionDb.Entry) (id : UInt64) : Option UInt64 :=
  match VersionDb.lastOffset es id with
  | none => none
  | some offset => if base + offset = 0 then none else some (base + offset)

namespace Live

variable {s s' : Live} {db : VersionDb} {c : Call} {cs : List Call}

/-! ## One call -/

/-- What the two overloads have in common. -/
def look (s : Live) (id offset : UInt64) : Except Fault (UInt64 × Live) :=
  if id = 0 then .ok (0, s)
  else
    match s.database with
    | none => .error .nullDatabase
    | some db =>
      if db.findAddressById id = 0 then .ok (0, { s with hasBadQuery := true })
      else .ok (db.findAddressById id + offset, s)

theorem addrImpl_eq (s : Live) (idSe idAe : UInt64) :
    s.addrImpl idSe idAe = s.look (if s.isAE then idAe else idSe) 0 := by
  simp only [addrImpl, look, UInt64.add_zero]

theorem addrImplOffset_eq (s : Live) (idSe idAe : UInt64) (offsetSe offsetAe : Int64) :
    s.addrImplOffset idSe idAe offsetSe offsetAe =
      s.look (if s.isAE then idAe else idSe) (if s.isAE then offsetAe else offsetSe).toUInt64 := by
  cases hAE : s.isAE <;> simp only [addrImplOffset, look, hAE] <;> rfl

theorem call_eq (s : Live) (hc : c.isQuery = true) : s.call c =
    (s.look (c.id s.isAE) (c.offset s.isAE)).map fun r => (some r.1, r.2) := by
  cases c with
  | addr idSe idAe => rw [call, addrImpl_eq, Call.id, Call.offset]
  | addrOffset idSe idAe offsetSe offsetAe => rw [call, addrImplOffset_eq, Call.id, Call.offset]
  | release => cases hc

/-- The state after a query in a database. -/
def after (s : Live) (db : VersionDb) (c : Call) : Live :=
  { s with hasBadQuery := s.hasBadQuery ||
      (c.id s.isAE ≠ 0 && (addressOf db (c.id s.isAE)).isNone) }

/-- **A query in a database.** -/
theorem call_query (hdb : s.database = some db) (hc : c.isQuery = true) :
    s.call c = .ok (some (c.answer (addressOf db) s.isAE), s.after db c) := by
  rw [call_eq s hc, look, hdb, Call.answer, after]
  by_cases h0 : c.id s.isAE = 0
  · simp [h0, Except.map]
  · by_cases hnull : db.findAddressById (c.id s.isAE) = 0
    · simp [h0, hnull, addressOf, Except.map, hdb]
    · simp [h0, hnull, addressOf, Except.map]

/-- **A query without a database.** -/
theorem call_released (hdb : s.database = none) (hc : c.isQuery = true) :
    s.call c = if c.id s.isAE = 0 then .ok (some 0, s) else .error .nullDatabase := by
  rw [call_eq s hc, look, hdb]
  by_cases h0 : c.id s.isAE = 0
  · simp [h0, Except.map]
  · simp [h0, Except.map]

/-! ## Runs -/

variable {find : UInt64 → Option UInt64} {isAE : Bool}

theorem run_cons {a : Option UInt64} (h : s.call c = .ok (a, s')) (cs : List Call) :
    s.run (c :: cs) = (s'.run cs).map fun r => (a.toList ++ r.1, r.2) := by
  rw [run, h]
  dsimp only
  cases s'.run cs <;> rfl

theorem run_fault {e : Fault} (h : s.call c = .error e) (cs : List Call) :
    s.run (c :: cs) = .error e := by
  rw [run, h]

theorem answersTo_cons (hc : c.isQuery = true) (cs : List Call) :
    answersTo find isAE (c :: cs) = c.answer find isAE :: answersTo find isAE cs := by
  rw [answersTo, List.filter_cons_of_pos hc]
  rfl

/-- Without a database only the identifier 0 is answered. -/
theorem run_released (hdb : s.database = none) (hcs : ∀ c ∈ cs, c.id s.isAE = 0) :
    ∃ s', s.run cs = .ok (answersTo find s.isAE cs, s') ∧ s'.hasBadQuery = s.hasBadQuery := by
  induction cs generalizing s with
  | nil => exact ⟨s, rfl, rfl⟩
  | cons c cs ih =>
    have hrest := fun d hd => hcs d (List.mem_cons_of_mem c hd)
    by_cases hc : c.isQuery = true
    · have h0 := hcs c List.mem_cons_self
      have hcall := call_released hdb hc
      rw [if_pos h0] at hcall
      obtain ⟨s', hrun, hflag⟩ := ih hdb hrest
      refine ⟨s', ?_, hflag⟩
      rw [run_cons hcall, hrun, answersTo_cons hc, Call.answer, if_pos h0]
      rfl
    · cases c with
      | release =>
        obtain ⟨s', hrun, hflag⟩ := ih (s := s.release) rfl hrest
        refine ⟨s', ?_, hflag⟩
        rw [run_cons (s := s) rfl, hrun]
        rfl
      | _ => exact absurd rfl hc

theorem run_released_fault (hdb : s.database = none) (hcs : ¬ ∀ c ∈ cs, c.id s.isAE = 0) :
    s.run cs = .error .nullDatabase := by
  induction cs generalizing s with
  | nil => exact absurd nofun hcs
  | cons c cs ih =>
    by_cases h0 : c.id s.isAE = 0
    · have hrest : ¬ ∀ d ∈ cs, d.id s.isAE = 0 := fun h =>
        hcs (List.forall_mem_cons.2 ⟨h0, h⟩)
      by_cases hc : c.isQuery = true
      · have hcall := call_released hdb hc
        rw [if_pos h0] at hcall
        rw [run_cons hcall, ih hdb hrest]
        rfl
      · cases c with
        | release =>
          rw [run_cons (s := s) rfl, ih (s := s.release) rfl hrest]
          rfl
        | _ => exact absurd rfl hc
    · have hc : c.isQuery = true := by
        cases c with
        | release => exact absurd rfl h0
        | _ => rfl
      have hcall := call_released hdb hc
      rw [if_neg h0] at hcall
      exact run_fault hcall cs

/-- **Runs that ask for nothing after a release.** -/
theorem run_careful (hdb : s.database = some db) (hcs : Careful s.isAE cs) :
    ∃ s', s.run cs = .ok (answersTo (addressOf db) s.isAE cs, s') ∧
      (s'.hasBadQuery = true ↔
        s.hasBadQuery = true ∨ ∃ c ∈ cs, c.Bad (addressOf db) s.isAE) := by
  induction cs generalizing s with
  | nil => exact ⟨s, rfl, by simp⟩
  | cons c cs ih =>
    by_cases hc : c.isQuery = true
    · have hrest : Careful (s.after db c).isAE cs := by
        cases c with
        | release => cases hc
        | _ => exact hcs
      obtain ⟨s', hrun, hflag⟩ := ih (s := s.after db c) hdb hrest
      refine ⟨s', ?_, ?_⟩
      · rw [run_cons (call_query hdb hc), hrun, answersTo_cons hc]
        rfl
      · rw [hflag, List.exists_mem_cons_iff, ← or_assoc]
        simp [after, Call.Bad]
    · cases c with
      | release =>
        obtain ⟨s', hrun, hflag⟩ := @run_released s.release cs (addressOf db) rfl hcs
        have hnone : ¬ ∃ d ∈ Call.release :: cs, d.Bad (addressOf db) s.isAE := by
          intro ⟨d, hd, hbad⟩
          rcases List.mem_cons.1 hd with rfl | hd
          · exact hbad.1 rfl
          · exact hbad.1 (hcs d hd)
        refine ⟨s', ?_, ?_⟩
        · rw [run_cons (s := s) rfl, hrun]
          rfl
        · rw [hflag, or_iff_left hnone]
          rfl
      | _ => exact absurd rfl hc

theorem run_careless (hdb : s.database = some db) (hcs : ¬ Careful s.isAE cs) :
    s.run cs = .error .nullDatabase := by
  induction cs generalizing s with
  | nil => exact absurd trivial hcs
  | cons c cs ih =>
    by_cases hc : c.isQuery = true
    · have hrest : ¬ Careful (s.after db c).isAE cs := by
        cases c with
        | release => cases hc
        | _ => exact hcs
      rw [run_cons (call_query hdb hc), ih (s := s.after db c) hdb hrest]
      rfl
    · cases c with
      | release =>
        rw [run_cons (s := s) rfl, run_released_fault (s := s.release) rfl hcs]
        rfl
      | _ => exact absurd rfl hc

/-- A run goes wrong exactly if it asks for something after a release; otherwise it answers with the
addresses, and its flag is set exactly by the identifiers that have none. -/
def RunsWith (s : Live) (find : UInt64 → Option UInt64) (cs : List Call) : Prop :=
  ((∃ r, s.run cs = .ok r) ↔ Careful s.isAE cs) ∧
    ∀ as s', s.run cs = .ok (as, s') → as = answersTo find s.isAE cs ∧
      (s'.hasBadQuery = true ↔ ∃ c ∈ cs, c.Bad find s.isAE)

/-- **Runs of a database.** -/
theorem runsWith (hdb : s.database = some db) (hflag : s.hasBadQuery = false) (cs : List Call) :
    s.RunsWith (addressOf db) cs := by
  by_cases hcs : Careful s.isAE cs
  · obtain ⟨t, hrun, hbad⟩ := run_careful hdb hcs
    refine ⟨⟨fun _ => hcs, fun _ => ⟨_, hrun⟩⟩, fun as s' h => ?_⟩
    rw [hrun] at h
    cases h
    rw [hflag] at hbad
    exact ⟨rfl, hbad.trans (or_iff_right Bool.false_ne_true)⟩
  · rw [RunsWith, run_careless hdb hcs]
    exact ⟨⟨nofun, fun h => absurd h hcs⟩, nofun⟩

end Live

/-! ## Whole libraries -/

open VersionDb

variable {wide : ℤ → Int32} {info : VersionInfo} {files : String → Option (List UInt8)}
  {junk : ℕ → UInt8} {base ver : UInt64} {v v' : Version} {name content : List UInt8}
  {ptrSize : Int32} {es : List Entry}

/-- The format number for a version. -/
def formatOf (ver : UInt64) : Int32 := if ver > 0x0001000500610000 then 2 else 1

theorem addressOf_library {db : VersionDb} (hfind : ∀ id, db.findOffsetById id = lastOffset es id)
    (haddr : ∀ id offset, lastOffset es id = some offset →
      db.findAddressById id = base + offset) : addressOf db = libraryAddress base es := by
  funext id
  rw [addressOf, libraryAddress]
  cases hid : lastOffset es id with
  | none =>
    have hnull : db.findAddressById id = 0 := by
      simp [findAddressById, hfind, hid]
    rw [if_pos hnull]
  | some offset => rw [haddr id offset hid]

/-- **Queries in a library.** -/
theorem library_queries (hver : getVer wide info = some (v, ver)) (hptr : 0 < ptrSize)
    (hname : name.length < 0x10000) (hes : es.length < 2 ^ 31)
    (henc : encode (formatOf ver) v' name ptrSize es = some content)
    (hfile : files (fileName (formatOf ver) v) = some content) (hbase : base ≠ 0) :
    ∃ s, (new wide info files junk base).live = some s ∧ s.isLoaded = true ∧
      s.isAE = decide (ver > 0x0001000500610000) ∧
      ∀ cs, s.RunsWith (libraryAddress base es) cs := by
  obtain ⟨db, file, hload, -, -, hfind, haddr⟩ := @load_encode files junk base
    ⟨fun _ => none, .zero, "", 0⟩ _ v v' name ptrSize es content hptr hname hes henc hfile
  have hlive : (new wide info files junk base).live =
      some ⟨true, false, ver > 0x0001000500610000, ver, some db⟩ := by
    simp only [new, hver, live]
    rw [formatOf] at hload
    simp only [hload]
  refine ⟨_, hlive, rfl, rfl, fun cs => ?_⟩
  rw [← addressOf_library hfind (haddr hbase)]
  exact Live.runsWith rfl rfl cs

/-- A load that fails leaves no base. -/
theorem base_loadFrom {db db' : VersionDb} {format : Int32} {file : InStream} (hdb : db.base = 0)
    (h : loadFrom format base db file = .rejected db') : db'.base = 0 := by
  unfold loadFrom loadBody at h
  dsimp only at h
  split_ifs at h
  · cases h
    exact hdb
  · cases h
    exact hdb
  all_goals
    split at h
    · cases h
    · cases h
      rfl
    · cases h
    · cases h

theorem base_rejected {db db' : VersionDb} {format : Int32}
    (h : db.load files junk base format v = .rejected db') : db'.base = 0 := by
  unfold VersionDb.load at h
  split at h
  · cases h
    rfl
  · exact base_loadFrom rfl h

/-- **Queries without a library**: everything but the identifier 0 is a bad query. -/
theorem unloaded_queries {s : Live} (hlive : (new wide info files junk base).live = some s)
    (hloaded : s.isLoaded = false) (cs : List Call) : s.RunsWith (fun _ => none) cs := by
  obtain ⟨db, hdb, hflag, hbase⟩ : ∃ db, s.database = some db ∧ s.hasBadQuery = false ∧
      db.base = 0 := by
    unfold live new at hlive
    split at hlive
    all_goals rename_i hload
    · cases hlive
      exact ⟨_, rfl, rfl, rfl⟩
    · cases hlive
      cases hloaded
    · cases hlive
      refine ⟨_, rfl, rfl, ?_⟩
      split at hload
      · cases hload
      · exact base_rejected (Option.some.inj hload)
    · cases hlive
    · cases hlive
  have hnone : addressOf db = fun _ => none := by
    funext id
    rw [addressOf, findAddressById, if_pos hbase, if_pos rfl]
  rw [← hnone]
  exact Live.runsWith hdb hflag cs

/-- The product version `1.6.640.0`. -/
def anniversary : VersionInfo :=
  ⟨some [0x31, 0x2E, 0x36, 0x2E, 0x36, 0x34, 0x30, 0x2E, 0x30], none⟩

/-- One identifier is known and one is not; a run that goes on after a release goes wrong. -/
theorem library_queries_anniversary : ∃ content s,
    encode 2 ⟨1, 6, 640, 0⟩ [0x41] 8 [⟨1, 0x18, 1, 10⟩, ⟨8, 0x20, 6, 9⟩] = some content ∧
      (new (fun _ => 0) anniversary (fun _ => some content) (fun _ => 0) 0x140000000).live =
        some s ∧
      (∃ s', s.run [.addrOffset 1 8 0 4, .addr 5 0, .addr 0 9] = .ok ([0x140000024, 0, 0], s') ∧
        s'.hasBadQuery = true) ∧
      ¬ ∃ r, s.run [.addr 1 8, .release, .addr 1 8] = .ok r := by
  obtain ⟨content, henc⟩ : ∃ content,
      encode 2 ⟨1, 6, 640, 0⟩ [0x41] 8 [⟨1, 0x18, 1, 10⟩, ⟨8, 0x20, 6, 9⟩] = some content :=
    ⟨_, rfl⟩
  obtain ⟨s, hlive, -, hAE, hruns⟩ := @library_queries (fun _ => 0) anniversary
    (fun _ => some content) (fun _ => 0) 0x140000000 0x0001000602800000 ⟨1, 6, 640, 0⟩ _ _ _ _ _
    rfl (by decide) (by decide) (by decide) henc rfl (by decide)
  have hAE' : s.isAE = true := hAE
  have hgood := hruns [.addrOffset 1 8 0 4, .addr 5 0, .addr 0 9]
  have hlate := hruns [.addr 1 8, .release, .addr 1 8]
  rw [Live.RunsWith, hAE'] at hgood hlate
  obtain ⟨⟨as, s'⟩, hrun⟩ := hgood.1.2 trivial
  obtain ⟨has, hbad⟩ := hgood.2 as s' hrun
  refine ⟨content, s, henc, hlive, ⟨s', ?_, ?_⟩, fun hok => ?_⟩
  · rw [hrun, has]
    rfl
  · refine hbad.2 ⟨.addr 0 9, by simp, ?_, rfl⟩
    decide
  · have h8 := hlate.1.1 hok (.addr 1 8) List.mem_cons_self
    exact absurd h8 (by decide)

end SseExt.IAL
