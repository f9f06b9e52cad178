import Mathlib.Algebra.Group.Nat.Defs
import Mathlib.Data.List.Induction
import Mathlib.Data.List.Nodup
import Mathlib.Logic.Function.Basic

/-!
# `ISKSEBase`: how a plugin starts

A plugin checks the game (`Query`), gets the interfaces of SKSE that it has flags for
(`QueryInterfaces`) and room for its branches and its code (`CreateTrampolines`).

**Theorem (`run_interfaces`).** After any sequence of these calls the table of interfaces is that of
the last `QueryInterfaces`: it has the interfaces that were asked for, up to the first that is in
the way, and no other. `QueryInterfaces` returns true exactly if none is in the way, and otherwise
logs one fatal error, about the first. An interface is in the way if it is too old, or if SKSE does
not have it and it is not the one for trampolines.

**Theorem (`createTrampolines_room`).** When `CreateTrampolines` returns true, each trampoline that
was asked for has the size that was asked for, if it is from a pool of SKSE, and else this size
rounded up to the granularity of the system.

The constants of the SDK and the trampolines themselves are parameters. The log file is not
modelled, only the messages.
-/

namespace SseExt.ISKSE

/-- `SKSEInterfaceFlags`, and the interfaces of that name, in the order of the queries. -/
inductive Interface where
  | kMessaging
  | kTask
  | kPapyrus
  | kSerialization
  | kObjectInterface
  | kScaleform
  | kTrampoline
  deriving DecidableEq

inductive TrampolineID where
  | kBranch
  | kLocal
  deriving DecidableEq

namespace Interface

def flag : Interface → UInt8
  | kMessaging => (1 : UInt8) <<< 0
  | kTask => (1 : UInt8) <<< 1
  | kPapyrus => (1 : UInt8) <<< 2
  | kSerialization => (1 : UInt8) <<< 3
  | kObjectInterface => (1 : UInt8) <<< 4
  | kScaleform => (1 : UInt8) <<< 5
  | kTrampoline => (1 : UInt8) <<< 6

def all : List Interface :=
  [kMessaging, kTask, kPapyrus, kSerialization, kObjectInterface, kScaleform, kTrampoline]

end Interface

/-- The constants of the SDK: `INTERFACE_TYPE` and `kInterfaceVersion` of each interface, and the
four parts of a version, `GET_EXE_VERSION_MAJOR` and the like. -/
structure PluginAPI where
  interfaceType : Interface → UInt32
  kInterfaceVersion : Interface → UInt32
  kInfoVersion : UInt32
  exeVersion : UInt32 → List UInt32

/-- `SKSEInterface`; of an interface, its `interfaceVersion` and where it is. -/
structure SKSEInterface (P : Type*) where
  isEditor : Bool
  runtimeVersion : UInt32
  getPluginHandle : UInt32
  queryInterface : UInt32 → Option (UInt32 × P)

/-- The pools of SKSE, `BranchTrampoline`, and `GetAllocGranularity`. -/
structure Host (P B : Type*) where
  /-- `AllocateFromBranchPool` and `AllocateFromLocalPool` -/
  allocate : P → TrampolineID → UInt32 → UInt64 → Option UInt64
  setBase : B → UInt64 → UInt64 → B
  create : B → UInt64 → Bool × B
  size : B → UInt64
  allocGranularity : UInt64

/-- The template arguments of a plugin and its virtual functions. -/
structure Plugin where
  interfaceFlags : UInt8
  trampolineBranch : UInt64
  trampolineLocal : UInt64
  getPluginName : String
  getPluginVersion : UInt32
  checkRuntimeVersion : UInt32 → Bool
  checkInterfaceVersion : UInt32 → UInt32 → UInt32 → Bool

/-- `CheckInterfaceVersion`, unless a plugin overrides it. -/
def checkInterfaceVersion (_interfaceID interfaceVersion compiledInterfaceVersion : UInt32) :
    Bool :=
  interfaceVersion ≥ compiledInterfaceVersion

/-- A call of `gLog.FatalError` or `gLog.Warning`. -/
structure LogLine where
  fatal : Bool
  format : String
  args : List UInt32
  deriving DecidableEq

/-- `PluginInfo` of the SDK. -/
structure Info where
  infoVersion : UInt32
  name : String
  version : UInt32
  deriving DecidableEq

end SseExt.ISKSE

open SseExt.ISKSE

namespace SseExt

/-- `ISKSEBase`, with what it has logged. -/
structure ISKSE (P B : Type*) where
  pluginHandle : UInt32
  interfaces : UInt32 → Option P
  trampolines : TrampolineID → B
  log : List LogLine

namespace ISKSE

variable {P B : Type*} (api : PluginAPI) (host : Host P B) (plugin : Plugin)

def write (s : ISKSE P B) (fatal : Bool) (format : String) (args : List UInt32) : ISKSE P B :=
  { s with log := s.log ++ [⟨fatal, format, args⟩] }

/-- `Query`; `a_info` is what it has put there. -/
def query (skse : SKSEInterface P) (s : ISKSE P B) : Bool × Info × ISKSE P B :=
  let a_info : Info := ⟨api.kInfoVersion, plugin.getPluginName, plugin.getPluginVersion⟩
  if skse.isEditor then
    (false, a_info, s.write true "Loaded in editor, marking as incompatible" [])
  else if !plugin.checkRuntimeVersion skse.runtimeVersion then
    (false, a_info, s.write true "Unsupported runtime version %d.%d.%d.%d"
      (api.exeVersion skse.runtimeVersion))
  else (true, a_info, { s with pluginHandle := skse.getPluginHandle })

def queryInterface (skse : SKSEInterface P) (s : ISKSE P B) (iface : Interface) :
    Bool × ISKSE P B :=
  let type := api.interfaceType iface
  match skse.queryInterface type with
  | none =>
    if type = api.interfaceType .kTrampoline then
      (true, s.write false "Trampoline interface not found" [])
    else (false, s.write true "Could not get interface id %d" [type])
  | some (interfaceVersion, p) =>
    let compiled := api.kInterfaceVersion iface
    if !plugin.checkInterfaceVersion type interfaceVersion compiled then
      (false, s.write true "Interface %d too old (%d expected %d)"
        [type, interfaceVersion, compiled])
    else (true, { s with interfaces := Function.update s.interfaces type (some p) })

/-- The template argument has the flag. -/
def asksFor (iface : Interface) : Bool := plugin.interfaceFlags &&& iface.flag = iface.flag

/-- The queries, one after another. -/
def queryEach (skse : SKSEInterface P) : ISKSE P B → List Interface → Bool × ISKSE P B
  | s, [] => (true, s)
  | s, iface :: rest =>
    if asksFor plugin iface then
      match queryInterface api plugin skse s iface with
      | (true, s) => queryEach skse s rest
      | (false, s) => (false, s)
    else queryEach skse s rest

def queryInterfaces (skse : SKSEInterface P) (s : ISKSE P B) : Bool × ISKSE P B :=
  queryEach api plugin skse { s with interfaces := fun _ => none } Interface.all

def getAlignedTrampolineSize (maxSize : UInt64) : UInt64 :=
  let alignTo := host.allocGranularity
  if alignTo = 0 then maxSize
  else
    let r := maxSize % alignTo
    if r ≠ 0 then maxSize + (alignTo - r) else maxSize

def getInterface (s : ISKSE P B) (iface : Interface) : Option P :=
  s.interfaces (api.interfaceType iface)

/-- What a pool of SKSE gives, if there is the interface. -/
def allocate (s : ISKSE P B) (id : TrampolineID) (size : UInt64) : Option UInt64 :=
  (s.getInterface api .kTrampoline).bind fun iface => host.allocate iface id s.pluginHandle size

def initializeTrampoline (id : TrampolineID) (size : UInt64) (s : ISKSE P B) : Bool × ISKSE P B :=
  match s.allocate api host id size with
  | some base =>
    (true, { s with
      trampolines := Function.update s.trampolines id (host.setBase (s.trampolines id) size base) })
  | none =>
    let r := host.create (s.trampolines id) (getAlignedTrampolineSize host size)
    (r.1, { s with trampolines := Function.update s.trampolines id r.2 })

/-- One of the two steps of `CreateTrampolines`. -/
def createTrampoline (id : TrampolineID) (size : UInt64) (error : String) (s : ISKSE P B) :
    Bool × ISKSE P B :=
  if size > 0 then
    match initializeTrampoline api host id size s with
    | (true, s) => (true, s)
    | (false, s) => (false, s.write true error [])
  else (true, s)

def createBranch (s : ISKSE P B) : Bool × ISKSE P B :=
  createTrampoline api host .kBranch plugin.trampolineBranch "Could not create branch trampoline" s

def createLocal (s : ISKSE P B) : Bool × ISKSE P B :=
  createTrampoline api host .kLocal plugin.trampolineLocal "Could not create codegen trampoline" s

def createTrampolines (s : ISKSE P B) : Bool × ISKSE P B :=
  match createBranch api host plugin s with
  | (true, s) => createLocal api host plugin s
  | (false, s) => (false, s)

/-- The plugin as it is constructed. -/
def init (kPluginHandle_Invalid : UInt32) (trampolines : TrampolineID → B) : ISKSE P B :=
  ⟨kPluginHandle_Invalid, fun _ => none, trampolines, []⟩

/-! ## What is in the way -/

variable {api host plugin} {skse : SKSEInterface P} {s s' : ISKSE P B} {iface : Interface}
  {l : List Interface}

/-- The error about an interface, if it is in the way. -/
def obstacle (api : PluginAPI) (plugin : Plugin) (skse : SKSEInterface P) (iface : Interface) :
    Option LogLine :=
  let type := api.interfaceType iface
  match skse.queryInterface type with
  | none =>
    if iface = .kTrampoline then none else some ⟨true, "Could not get interface id %d", [type]⟩
  | some (interfaceVersion, _) =>
    if plugin.checkInterfaceVersion type interfaceVersion (api.kInterfaceVersion iface) then none
    else some ⟨true, "Interface %d too old (%d expected %d)",
      [type, interfaceVersion, api.kInterfaceVersion iface]⟩

/-- Where SKSE has an interface. -/
def offered (api : PluginAPI) (skse : SKSEInterface P) (iface : Interface) : Option P :=
  (skse.queryInterface (api.interfaceType iface)).map Prod.snd

/-- The fatal errors of a log. -/
def errors (log : List LogLine) : List LogLine := log.filter LogLine.fatal

/-- What is asked for, of a list. -/
def asked (plugin : Plugin) (l : List Interface) : List Interface := l.filter (asksFor plugin)

/-- The interfaces that are asked for before the first that is in the way. -/
def clear (api : PluginAPI) (plugin : Plugin) (skse : SKSEInterface P) (l : List Interface) :
    List Interface :=
  (asked plugin l).takeWhile fun iface => (obstacle api plugin skse iface).isNone

def firstObstacle (api : PluginAPI) (plugin : Plugin) (skse : SKSEInterface P)
    (l : List Interface) : Option LogLine :=
  (asked plugin l).findSome? (obstacle api plugin skse)

theorem queryInterface_of_obstacle (hapi : Function.Injective api.interfaceType) {e : LogLine}
    (h : obstacle api plugin skse iface = some e) :
    queryInterface api plugin skse s iface = (false, { s with log := s.log ++ [e] }) ∧
      e.fatal = true := by
  unfold obstacle at h
  unfold queryInterface
  cases hq : skse.queryInterface (api.interfaceType iface) with
  | none =>
    simp only [hq] at h
    split_ifs at h with hkind
    cases h
    have htype : ¬ api.interfaceType iface = api.interfaceType .kTrampoline := fun e =>
      hkind (hapi e)
    simp [hq, htype, write]
  | some r =>
    simp only [hq] at h
    split_ifs at h with hcheck
    cases h
    simp [hq, hcheck, write]

theorem queryInterface_of_none (h : obstacle api plugin skse iface = none) (s : ISKSE P B) :
    ∃ s', queryInterface api plugin skse s iface = (true, s') ∧ errors s'.log = errors s.log ∧
      s'.interfaces = Function.update s.interfaces (api.interfaceType iface)
        ((offered api skse iface).or (s.interfaces (api.interfaceType iface))) := by
  unfold obstacle at h
  unfold queryInterface
  cases hq : skse.queryInterface (api.interfaceType iface) with
  | none =>
    simp only [hq] at h
    split_ifs at h with hkind
    subst hkind
    refine ⟨s.write false "Trampoline interface not found" [], ?_, ?_, ?_⟩
    · simp [hq]
    · simp [write, errors]
    · simp [write, offered, hq]
  | some r =>
    simp only [hq] at h
    split_ifs at h with hcheck
    refine ⟨{ s with
      interfaces := Function.update s.interfaces (api.interfaceType iface) (some r.2) },
      ?_, rfl, ?_⟩
    · simp [hq, hcheck]
    · simp [offered, hq]

theorem mem_of_mem_clear (h : iface ∈ clear api plugin skse l) : iface ∈ l :=
  (List.mem_filter.1 ((List.takeWhile_sublist _).subset h)).1

variable (plugin skse) in
/-- **What queries do.** -/
theorem queryEach_spec (hapi : Function.Injective api.interfaceType) (hl : l.Nodup)
    (s : ISKSE P B) :
    let r := queryEach api plugin skse s l
    r.1 = (firstObstacle api plugin skse l).isNone ∧
      errors r.2.log = errors s.log ++ (firstObstacle api plugin skse l).toList ∧
      ∀ iface, r.2.interfaces (api.interfaceType iface) =
        if iface ∈ clear api plugin skse l then
          (offered api skse iface).or (s.interfaces (api.interfaceType iface))
        else s.interfaces (api.interfaceType iface) := by
  induction l generalizing s with
  | nil => simp [queryEach, firstObstacle, asked, clear]
  | cons i l ih =>
    obtain ⟨hnot, hl⟩ := List.nodup_cons.1 hl
    by_cases hask : asksFor plugin i = true
    · cases hobs : obstacle api plugin skse i with
      | some e =>
        obtain ⟨hq, hfatal⟩ := queryInterface_of_obstacle (s := s) hapi hobs
        simp [queryEach, hask, hq, firstObstacle, asked, clear, hobs, errors, hfatal]
      | none =>
        obtain ⟨s₁, hq, hlog, htable₁⟩ := queryInterface_of_none hobs s
        obtain ⟨hok, herrors, htable⟩ := ih hl s₁
        have hstep : queryEach api plugin skse s (i :: l) = queryEach api plugin skse s₁ l := by
          simp only [queryEach, hask, if_true, hq]
        have hfirst : firstObstacle api plugin skse (i :: l) = firstObstacle api plugin skse l := by
          simp only [firstObstacle, asked, List.filter_cons_of_pos hask, List.findSome?_cons, hobs]
        have hclear : clear api plugin skse (i :: l) = i :: clear api plugin skse l := by
          simp [clear, asked, List.filter_cons_of_pos hask, hobs]
        simp only [hstep, hfirst, hclear]
        refine ⟨hok, herrors.trans (by rw [hlog]), fun iface => ?_⟩
        rw [htable, htable₁]
        by_cases hi : iface = i
        · subst hi
          have hclear' : iface ∉ clear api plugin skse l := fun hmem => hnot (mem_of_mem_clear hmem)
          rw [if_neg hclear', if_pos List.mem_cons_self, Function.update_self]
        · rw [Function.update_of_ne fun htype => hi (hapi htype)]
          simp [hi]
    · simp only [queryEach, hask, firstObstacle, asked, clear, List.filter_cons_of_neg hask]
      exact ih hl s

variable (plugin) in
theorem queryInterfaces_spec (hapi : Function.Injective api.interfaceType)
    (skse : SKSEInterface P) (s : ISKSE P B) :
    let r := queryInterfaces api plugin skse s
    r.1 = (firstObstacle api plugin skse Interface.all).isNone ∧
      errors r.2.log = errors s.log ++ (firstObstacle api plugin skse Interface.all).toList ∧
      ∀ iface, r.2.getInterface api iface =
        if iface ∈ clear api plugin skse Interface.all then offered api skse iface else none := by
  have hnodup : Interface.all.Nodup := by decide
  obtain ⟨hok, herrors, htable⟩ := queryEach_spec plugin skse hapi hnodup
    { s with interfaces := fun _ => none }
  refine ⟨hok, herrors, fun iface => ?_⟩
  rw [getInterface, queryInterfaces, htable, Option.or_none]

/-! ## Trampolines -/

/-- What `initializeTrampoline` is right with. -/
def Available (api : PluginAPI) (host : Host P B) (s : ISKSE P B) (id : TrampolineID)
    (size : UInt64) : Prop :=
  (s.allocate api host id size).isSome = true ∨
    (host.create (s.trampolines id) (getAlignedTrampolineSize host size)).1 = true

/-- The size that a trampoline gets. -/
def granted (api : PluginAPI) (host : Host P B) (s : ISKSE P B) (id : TrampolineID)
    (size : UInt64) : UInt64 :=
  if (s.allocate api host id size).isSome then size else getAlignedTrampolineSize host size

/-- What is documented of `BranchTrampoline`. -/
structure Host.Lawful (host : Host P B) : Prop where
  size_setBase : ∀ b n base, host.size (host.setBase b n base) = n
  size_create : ∀ b n, (host.create b n).1 = true → host.size (host.create b n).2 = n

/-- The trampoline `id` may change, and messages are logged. -/
structure Touches (id : TrampolineID) (s s' : ISKSE P B) : Prop where
  pluginHandle : s'.pluginHandle = s.pluginHandle
  interfaces : s'.interfaces = s.interfaces
  other : ∀ id' ≠ id, s'.trampolines id' = s.trampolines id'

variable (api host) in
theorem initializeTrampoline_touches (id : TrampolineID) (size : UInt64) (s : ISKSE P B) :
    Touches id s (initializeTrampoline api host id size s).2 := by
  unfold initializeTrampoline
  cases s.allocate api host id size with
  | none => exact ⟨rfl, rfl, fun _ hne => Function.update_of_ne hne _ _⟩
  | some base => exact ⟨rfl, rfl, fun _ hne => Function.update_of_ne hne _ _⟩

theorem initializeTrampoline_iff {id : TrampolineID} {size : UInt64} :
    (initializeTrampoline api host id size s).1 = true ↔ Available api host s id size := by
  unfold initializeTrampoline Available
  cases s.allocate api host id size with
  | none => simp
  | some base => simp

theorem size_initializeTrampoline (h : Host.Lawful host) {id : TrampolineID} {size : UInt64}
    (hok : (initializeTrampoline api host id size s).1 = true) :
    host.size ((initializeTrampoline api host id size s).2.trampolines id) =
      granted api host s id size := by
  unfold initializeTrampoline at hok ⊢
  unfold granted
  cases hbase : s.allocate api host id size with
  | none =>
    simp only [hbase] at hok
    simpa using h.size_create _ _ hok
  | some base => simpa using h.size_setBase _ _ _

variable {id : TrampolineID} {size : UInt64} {error : String}

theorem createTrampoline_pos (hsize : 0 < size) (error : String) (s : ISKSE P B) :
    createTrampoline api host id size error s =
      let r := initializeTrampoline api host id size s
      (r.1, if r.1 then r.2 else r.2.write true error []) := by
  unfold createTrampoline
  rw [if_pos hsize]
  cases initializeTrampoline api host id size s with
  | mk ok s' => cases ok <;> rfl

variable (api host) in
theorem createTrampoline_touches (id : TrampolineID) (size : UInt64) (error : String)
    (s : ISKSE P B) : Touches id s (createTrampoline api host id size error s).2 := by
  by_cases hsize : 0 < size
  · have htouches := initializeTrampoline_touches api host id size s
    rw [createTrampoline_pos hsize]
    dsimp only
    split_ifs
    · exact htouches
    · exact ⟨htouches.pluginHandle, htouches.interfaces, htouches.other⟩
  · rw [createTrampoline, if_neg hsize]
    exact ⟨rfl, rfl, fun _ _ => rfl⟩

theorem createTrampoline_iff :
    (createTrampoline api host id size error s).1 = true ↔
      (0 < size → Available api host s id size) := by
  by_cases hsize : 0 < size
  · rw [createTrampoline_pos hsize, ← initializeTrampoline_iff]
    simp [hsize]
  · simp [createTrampoline, hsize]

theorem size_createTrampoline (h : Host.Lawful host) (hsize : 0 < size)
    (hok : (createTrampoline api host id size error s).1 = true) :
    host.size ((createTrampoline api host id size error s).2.trampolines id) =
      granted api host s id size := by
  have hinit := initializeTrampoline_iff.2 (createTrampoline_iff.1 hok hsize)
  rw [createTrampoline_pos hsize]
  simp only [hinit, if_true]
  exact size_initializeTrampoline h hinit

variable (api host) in
theorem Touches.available {s s' : ISKSE P B} {id id' : TrampolineID} (h : Touches id s s')
    (hne : id' ≠ id) (size : UInt64) :
    (Available api host s' id' size ↔ Available api host s id' size) ∧
      granted api host s' id' size = granted api host s id' size := by
  have hallocate : s'.allocate api host id' size = s.allocate api host id' size := by
    unfold allocate getInterface
    rw [h.pluginHandle, h.interfaces]
  rw [Available, Available, granted, granted, hallocate, h.other id' hne]
  exact ⟨Iff.rfl, rfl⟩

/-- The sizes in the template arguments. -/
def Plugin.trampolineSize (plugin : Plugin) : TrampolineID → UInt64
  | .kBranch => plugin.trampolineBranch
  | .kLocal => plugin.trampolineLocal

theorem createTrampolines_eq (s : ISKSE P B) :
    createTrampolines api host plugin s =
      let r := createBranch api host plugin s
      if r.1 then createLocal api host plugin r.2 else (false, r.2) := by
  unfold createTrampolines
  cases createBranch api host plugin s with
  | mk ok s₁ => cases ok <;> rfl

theorem interfaces_createTrampolines (s : ISKSE P B) :
    (createTrampolines api host plugin s).2.interfaces = s.interfaces := by
  have hbranch := createTrampoline_touches api host .kBranch
    plugin.trampolineBranch "Could not create branch trampoline" s
  rw [createTrampolines_eq]
  dsimp only
  split_ifs
  · exact (createTrampoline_touches api host _ _ _ _).interfaces.trans hbranch.interfaces
  · exact hbranch.interfaces

theorem forall_trampolineID {p : TrampolineID → Prop} : (∀ id, p id) ↔ p .kBranch ∧ p .kLocal := by
  refine ⟨fun h => ⟨h _, h _⟩, fun h id => ?_⟩
  cases id with
  | kBranch => exact h.1
  | kLocal => exact h.2

/-- **The next multiple**, as long as it can be represented. -/
theorem getAlignedTrampolineSize_spec {maxSize : UInt64} (hpos : host.allocGranularity ≠ 0)
    (hfit : maxSize.toNat + host.allocGranularity.toNat ≤ 2 ^ 64) :
    maxSize.toNat ≤ (getAlignedTrampolineSize host maxSize).toNat ∧
      (getAlignedTrampolineSize host maxSize).toNat <
        maxSize.toNat + host.allocGranularity.toNat ∧
      host.allocGranularity.toNat ∣ (getAlignedTrampolineSize host maxSize).toNat := by
  have hpos' : 0 < host.allocGranularity.toNat := by
    refine Nat.pos_of_ne_zero fun h0 => hpos ?_
    exact UInt64.toNat_inj.1 h0
  have hmod : (maxSize % host.allocGranularity).toNat =
      maxSize.toNat % host.allocGranularity.toNat := UInt64.toNat_mod _ _
  have hlt := Nat.mod_lt maxSize.toNat hpos'
  unfold getAlignedTrampolineSize
  simp only [hpos, if_false]
  split_ifs with hr
  · have hr' : 0 < maxSize.toNat % host.allocGranularity.toNat := by
      refine Nat.pos_of_ne_zero fun h0 => hr ?_
      exact UInt64.toNat_inj.1 (hmod.trans h0)
    have hle : maxSize % host.allocGranularity ≤ host.allocGranularity := by
      rw [UInt64.le_iff_toNat_le, hmod]
      omega
    have hsub := UInt64.toNat_sub_of_le _ _ hle
    have hsum : (maxSize + (host.allocGranularity - maxSize % host.allocGranularity)).toNat =
        maxSize.toNat + (host.allocGranularity.toNat -
          maxSize.toNat % host.allocGranularity.toNat) := by
      rw [UInt64.toNat_add, hsub, hmod, Nat.mod_eq_of_lt (by omega)]
    rw [hsum]
    refine ⟨by omega, by omega, ?_⟩
    have hdiv := Nat.div_add_mod maxSize.toNat host.allocGranularity.toNat
    refine ⟨maxSize.toNat / host.allocGranularity.toNat + 1, ?_⟩
    rw [Nat.mul_add, Nat.mul_one]
    omega
  · have hr' : maxSize % host.allocGranularity = 0 := by simpa using hr
    refine ⟨Nat.le_refl _, by omega, Nat.dvd_of_mod_eq_zero ?_⟩
    rw [← hmod, hr']
    rfl

/-- The size `n` for a request of `size`: this size from a pool, else the next multiple of the
granularity. -/
structure Grant (api : PluginAPI) (host : Host P B) (s : ISKSE P B) (id : TrampolineID)
    (size n : UInt64) : Prop where
  pool : (s.allocate api host id size).isSome = true → n = size
  own : (s.allocate api host id size).isSome = false → host.allocGranularity ≠ 0 →
    size.toNat + host.allocGranularity.toNat ≤ 2 ^ 64 →
    size.toNat ≤ n.toNat ∧ n.toNat < size.toNat + host.allocGranularity.toNat ∧
      host.allocGranularity.toNat ∣ n.toNat

theorem grant_granted (s : ISKSE P B) (id : TrampolineID) (size : UInt64) :
    Grant api host s id size (granted api host s id size) := by
  refine ⟨fun hpool => if_pos hpool, fun hown hpos hfit => ?_⟩
  rw [granted, if_neg (by simp [hown])]
  exact getAlignedTrampolineSize_spec hpos hfit

variable (api plugin) in
/-- **Room for branches and code.** -/
theorem createTrampolines_room (h : Host.Lawful host) (s : ISKSE P B) :
    let r := createTrampolines api host plugin s
    (r.1 = true ↔ ∀ id, 0 < plugin.trampolineSize id →
        Available api host s id (plugin.trampolineSize id)) ∧
      (r.1 = true → ∀ id, 0 < plugin.trampolineSize id →
        Grant api host s id (plugin.trampolineSize id) (host.size (r.2.trampolines id))) := by
  have htouches : Touches .kBranch s (createBranch api host plugin s).2 :=
    createTrampoline_touches api host _ _ _ _
  have hne : TrampolineID.kLocal ≠ .kBranch := by decide
  obtain ⟨havailable, hgranted⟩ := htouches.available api host hne plugin.trampolineLocal
  have hbranch : (createBranch api host plugin s).1 = true ↔ (0 < plugin.trampolineBranch →
      Available api host s .kBranch plugin.trampolineBranch) := createTrampoline_iff
  have hlocal : (createLocal api host plugin (createBranch api host plugin s).2).1 = true ↔
      (0 < plugin.trampolineLocal → Available api host s .kLocal plugin.trampolineLocal) := by
    rw [← havailable]
    exact createTrampoline_iff
  simp only [createTrampolines_eq, forall_trampolineID, Plugin.trampolineSize]
  split_ifs with hok
  · rw [hlocal]
    refine ⟨(and_iff_right (hbranch.1 hok)).symm, fun hfits => ⟨fun hsize => ?_, fun hsize => ?_⟩⟩
    · have hkeep : Touches .kLocal (createBranch api host plugin s).2
          (createLocal api host plugin (createBranch api host plugin s).2).2 :=
        createTrampoline_touches api host _ _ _ _
      rw [hkeep.other .kBranch hne.symm, createBranch, size_createTrampoline h hsize hok]
      exact grant_granted s .kBranch plugin.trampolineBranch
    · rw [createLocal, size_createTrampoline h hsize (hlocal.2 hfits), hgranted]
      exact grant_granted s .kLocal plugin.trampolineLocal
  · simp only [false_iff, false_implies, and_true]
    intro hboth
    exact hok (hbranch.2 hboth.1)

/-- A pool that has no more than 64 bytes, and pages of 64 KiB. A trampoline is its size. -/
def smallPool : Host Unit UInt64 where
  allocate _ _ _ size := if size ≤ 64 then some 0x1000 else none
  setBase _ size _ := size
  create _ size := (true, size)
  size b := b
  allocGranularity := 0x10000

theorem smallPool_lawful : smallPool.Lawful where
  size_setBase _ _ _ := rfl
  size_create _ _ _ := rfl

/-- The constants of an SDK with all interfaces in version 2. -/
def sampleAPI : PluginAPI where
  interfaceType iface := .ofNat (Interface.all.idxOf iface)
  kInterfaceVersion _ := 2
  kInfoVersion := 1
  exeVersion v := [v]

/-- A plugin with the flags of the interfaces for messages, serialization and trampolines. -/
def samplePlugin : Plugin where
  interfaceFlags := 0x49
  trampolineBranch := 64
  trampolineLocal := 100
  getPluginName := "sample"
  getPluginVersion := 1
  checkRuntimeVersion _ := true
  checkInterfaceVersion := checkInterfaceVersion

/-- An SKSE whose interface for serialization has the version `version`. -/
def sampleSKSE (version : UInt32) : SKSEInterface Unit where
  isEditor := false
  runtimeVersion := 0x01060280
  getPluginHandle := 5
  queryInterface type := some (if type = 3 then version else 2, ())

/-- Sixty-four bytes are from the pool, for a hundred a page is needed. -/
theorem createTrampolines_room_sample :
    let s := (queryInterfaces sampleAPI samplePlugin (sampleSKSE 2) (init 0 fun _ => 0)).2
    let r := createTrampolines sampleAPI smallPool samplePlugin s
    r.1 = true ∧ r.2.trampolines .kBranch = 64 ∧
      100 ≤ (r.2.trampolines .kLocal).toNat ∧ 0x10000 ∣ (r.2.trampolines .kLocal).toNat := by
  intro s r
  obtain ⟨hiff, hsizes⟩ := createTrampolines_room sampleAPI samplePlugin smallPool_lawful s
  have hok : r.1 = true := by
    refine hiff.2 fun id _ => ?_
    cases id with
    | kBranch => exact .inl rfl
    | kLocal => exact .inr rfl
  have hlocal := (hsizes hok .kLocal (by decide)).own rfl (by decide) (by decide)
  exact ⟨hok, (hsizes hok .kBranch (by decide)).pool rfl, hlocal.1, hlocal.2.2⟩

/-! ## Runs -/

/-- A call of a plugin. -/
inductive Call (P : Type*) where
  | query (skse : SKSEInterface P)
  | queryInterfaces (skse : SKSEInterface P)
  | createTrampolines

variable (api host plugin) in
def apply (s : ISKSE P B) : Call P → ISKSE P B
  | .query skse => (query api plugin skse s).2.2
  | .queryInterfaces skse => (queryInterfaces api plugin skse s).2
  | .createTrampolines => (createTrampolines api host plugin s).2

/-- The SKSE of the last `QueryInterfaces`. -/
def lastQueried (calls : List (Call P)) : Option (SKSEInterface P) :=
  calls.foldl (fun last call =>
    match call with
    | .queryInterfaces skse => some skse
    | _ => last) none

theorem lastQueried_snoc (calls : List (Call P)) (call : Call P) :
    lastQueried (calls ++ [call]) =
      match call with
      | .queryInterfaces skse => some skse
      | _ => lastQueried calls := by
  rw [lastQueried, List.foldl_append]
  rfl

theorem interfaces_query (skse : SKSEInterface P) (s : ISKSE P B) :
    (query api plugin skse s).2.2.interfaces = s.interfaces := by
  unfold query
  dsimp only
  split_ifs <;> rfl

variable (host plugin) in
/-- **The table of interfaces** in any run, and what a query of them returns and logs then. -/
theorem run_interfaces (hapi : Function.Injective api.interfaceType)
    (handle : UInt32) (trampolines : TrampolineID → B) (calls : List (Call P)) :
    let s := calls.foldl (apply api host plugin) (init handle trampolines)
    (∀ iface, s.getInterface api iface = (lastQueried calls).bind fun skse =>
      if iface ∈ clear api plugin skse Interface.all then offered api skse iface else none) ∧
    ∀ skse, let r := queryInterfaces api plugin skse s
      r.1 = (firstObstacle api plugin skse Interface.all).isNone ∧
        errors r.2.log =
          errors s.log ++ (firstObstacle api plugin skse Interface.all).toList := by
  have htable : ∀ iface,
      (calls.foldl (apply api host plugin) (init handle trampolines)).getInterface api iface =
        (lastQueried calls).bind fun skse =>
          if iface ∈ clear api plugin skse Interface.all then offered api skse iface else none := by
    induction calls using List.reverseRecOn with
    | nil =>
      intro iface
      rfl
    | append_singleton calls call ih =>
      intro iface
      rw [List.foldl_append, lastQueried_snoc]
      cases call with
      | query skse =>
        rw [← ih iface]
        exact congrFun (interfaces_query skse _) _
      | createTrampolines =>
        rw [← ih iface]
        exact congrFun (interfaces_createTrampolines _) _
      | queryInterfaces skse => exact (queryInterfaces_spec plugin hapi skse _).2.2 iface
  refine ⟨htable, fun skse => ?_⟩
  obtain ⟨hok, herrors, -⟩ := queryInterfaces_spec plugin hapi skse
    (calls.foldl (apply api host plugin) (init handle trampolines))
  exact ⟨hok, herrors⟩

/-- After a query of an SKSE with an old interface for serialization, only the interface for
messages is left; the next query is right again. -/
theorem run_interfaces_tooOld :
    let s := ([.queryInterfaces (sampleSKSE 2), .createTrampolines,
      .queryInterfaces (sampleSKSE 1)] : List (Call Unit)).foldl
        (apply sampleAPI smallPool samplePlugin) (init 0 fun _ => 0)
    s.getInterface sampleAPI .kMessaging = some () ∧
      s.getInterface sampleAPI .kSerialization = none ∧
      s.getInterface sampleAPI .kTrampoline = none ∧
      (queryInterfaces sampleAPI samplePlugin (sampleSKSE 2) s).1 = true := by
  have hapi : Function.Injective sampleAPI.interfaceType := by
    intro i j hij
    revert hij
    cases i <;> cases j <;> decide
  obtain ⟨htable, hqueries⟩ := run_interfaces smallPool samplePlugin hapi 0
    (fun _ => 0) [.queryInterfaces (sampleSKSE 2), .createTrampolines,
      .queryInterfaces (sampleSKSE 1)]
  exact ⟨(htable .kMessaging).trans rfl, (htable .kSerialization).trans rfl,
    (htable .kTrampoline).trans rfl, (hqueries (sampleSKSE 2)).1.trans rfl⟩

end ISKSE

end SseExt
