import SseExt.Hook.Install

/-!
# `Patching`

`safe_write` and `safe_memset` change code of the game. They make the pages of the patch writable
with `VirtualProtect`, copy the bytes, and give the pages the protection back that the first call
has answered. That is the protection of the first page.

**Theorem (`safeWrite_iff`).** After a patch its bytes are there, everything else in the memory is
as before, and so is the protection of every page, exactly when all pages of the patch had one.

**Theorem (`patchAll_spec`).** After any sequence of patches, a byte that none of them covers is as
before, `validate_mem` finds every patch that no later one overlaps, and no protection has changed
if each patch was made on one page.

`VirtualProtect` is a parameter, with what is documented of it (`VirtualProtect.Lawful`). A failed
`ASSERT` and an access to a page that cannot be written end the process.
-/

namespace SseExt.Patching

open Hook (validateMem)

/-- The memory, and the protection of the pages. -/
structure Process where
  mem : Memory
  protection : UInt64 → UInt32

/-- The page of an address. -/
def page (x : UInt64) : UInt64 := x / 0x1000

/-- `PAGE_EXECUTE_READWRITE` -/
def executeReadwrite : UInt32 := 0x40

/-- `PAGE_READWRITE`, `PAGE_WRITECOPY`, `PAGE_EXECUTE_READWRITE`, `PAGE_EXECUTE_WRITECOPY` -/
def canWrite (protection : UInt32) : Bool := protection ∈ [0x04, 0x08, 0x40, (0x80 : UInt32)]

/-- What ends the process. -/
inductive Fault where
  | assertion
  | access
  deriving DecidableEq

/-- `VirtualProtect(addr, len, new, &old)`: the old protection, unless it fails. -/
abbrev VirtualProtect := Process → UInt64 → ℕ → UInt32 → Option (UInt32 × Process)

/-- A call that succeeds changes the pages with a byte of the region, and answers the protection of
the first of them. -/
structure VirtualProtect.Lawful (vp : VirtualProtect) : Prop where
  old : ∀ s addr len new r, vp s addr len new = some r → r.1 = s.protection (page addr)
  mem : ∀ s addr len new r, vp s addr len new = some r → r.2.mem = s.mem
  inside : ∀ s addr len new r, vp s addr len new = some r →
    ∀ x ∈ span addr len, r.2.protection (page x) = new
  outside : ∀ s addr len new r, vp s addr len new = some r →
    ∀ p, (∀ x ∈ span addr len, page x ≠ p) → r.2.protection p = s.protection p

/-- `std::memcpy` to the process. -/
def memcpy (s : Process) (addr : UInt64) (data : List UInt8) : Except Fault Process :=
  if (List.range data.length).all fun i => canWrite (s.protection (page (addr + .ofNat i))) then
    .ok { s with mem := writeBytes s.mem addr data }
  else .error .access

/-- The bytes are put into the code. -/
def patch (vp : VirtualProtect) (s : Process) (addr : UInt64) (data : List UInt8) :
    Except Fault Process :=
  match vp s addr data.length executeReadwrite with
  | none => .error .assertion
  | some (oldProtect, s) =>
    match memcpy s addr data with
    | .error e => .error e
    | .ok s =>
      match vp s addr data.length oldProtect with
      | none => .error .assertion
      | some (_, s) => .ok s

/-- `safe_write` -/
def safeWrite (vp : VirtualProtect) (s : Process) (addr : UInt64) (data : List UInt8) :
    Except Fault Process :=
  patch vp s addr data

/-- `safe_memset`; the value is taken as an `unsigned char`. -/
def safeMemset (vp : VirtualProtect) (s : Process) (addr : UInt64) (val : Int32) (len : ℕ) :
    Except Fault Process :=
  patch vp s addr (List.replicate len val.toUInt32.toUInt8)

/-! ## A patch -/

variable {vp : VirtualProtect} {s s' : Process} {addr x : UInt64} {data : List UInt8}

theorem mem_span_ofNat {n i : ℕ} (hi : i < n) : addr + UInt64.ofNat i ∈ span addr n := by
  have hmem : addr + UInt64.ofNat i ∈ span addr (i + (n - i)) :=
    mem_span_add (self_mem_span _ (Nat.sub_pos_of_lt hi))
  rwa [Nat.add_sub_cancel' (Nat.le_of_lt hi)] at hmem

/-- The bytes of a span, one by one. -/
theorem forall_mem_span {P : UInt64 → Prop} {n : ℕ} :
    (∀ x ∈ span addr n, P x) ↔ ∀ i < n, P (addr + UInt64.ofNat i) := by
  constructor
  · intro h i hi
    exact h _ (mem_span_ofNat hi)
  · intro h x hx
    have hadd : addr + UInt64.ofNat (x - addr).toNat = x := by
      rw [UInt64.ofNat_toNat]
      grind
    rw [← hadd]
    exact h _ hx

/-- **The pages can be written** after the first call. -/
theorem memcpy_eq (h : ∀ x ∈ span addr data.length, s.protection (page x) = executeReadwrite) :
    memcpy s addr data = .ok { s with mem := writeBytes s.mem addr data } := by
  refine if_pos (List.all_eq_true.2 fun i hi => ?_)
  rw [h _ (mem_span_ofNat (List.mem_range.1 hi))]
  decide

/-- Only `VirtualProtect` can fail. -/
theorem patch_error (h : vp.Lawful) {e : Fault} (he : patch vp s addr data = .error e) :
    e = .assertion := by
  unfold patch at he
  cases hfirst : vp s addr data.length executeReadwrite with
  | none =>
    simp only [hfirst, Except.error.injEq] at he
    exact he.symm
  | some r =>
    obtain ⟨oldProtect, s₁⟩ := r
    simp only [hfirst, memcpy_eq (h.inside _ _ _ _ _ hfirst)] at he
    cases hsecond : vp { s₁ with mem := writeBytes s₁.mem addr data } addr data.length
        oldProtect with
    | none =>
      simp only [hsecond, Except.error.injEq] at he
      exact he.symm
    | some r => simp only [hsecond, reduceCtorEq] at he

/-- **What a patch does.** -/
theorem patch_ok (h : vp.Lawful) (hs : patch vp s addr data = .ok s') :
    s'.mem = writeBytes s.mem addr data ∧
      (∀ x ∈ span addr data.length, s'.protection (page x) = s.protection (page addr)) ∧
      ∀ p, (∀ x ∈ span addr data.length, page x ≠ p) → s'.protection p = s.protection p := by
  unfold patch at hs
  cases hfirst : vp s addr data.length executeReadwrite with
  | none => simp only [hfirst, reduceCtorEq] at hs
  | some r =>
    obtain ⟨oldProtect, s₁⟩ := r
    have hold : oldProtect = s.protection (page addr) := h.old _ _ _ _ _ hfirst
    have hmem₁ : s₁.mem = s.mem := h.mem _ _ _ _ _ hfirst
    have hout₁ := h.outside _ _ _ _ _ hfirst
    simp only [hfirst, memcpy_eq (h.inside _ _ _ _ _ hfirst)] at hs
    cases hsecond : vp { s₁ with mem := writeBytes s₁.mem addr data } addr data.length
        oldProtect with
    | none => simp only [hsecond, reduceCtorEq] at hs
    | some r =>
      obtain ⟨_, s₂⟩ := r
      simp only [hsecond, Except.ok.injEq] at hs
      subst hs
      refine ⟨?_, ?_, ?_⟩
      · rw [← hmem₁]
        exact h.mem _ _ _ _ _ hsecond
      · intro x hx
        rw [← hold]
        exact h.inside _ _ _ _ _ hsecond x hx
      · intro p hp
        exact (h.outside _ _ _ _ _ hsecond p hp).trans (hout₁ p hp)

/-- The protections are kept exactly if there is only one. -/
theorem patch_protection_iff (h : vp.Lawful) (hs : patch vp s addr data = .ok s') :
    s'.protection = s.protection ↔
      ∀ x ∈ span addr data.length, s.protection (page x) = s.protection (page addr) := by
  obtain ⟨-, hinside, houtside⟩ := patch_ok h hs
  constructor
  · intro heq x hx
    rw [← hinside x hx, heq]
  · intro hone
    funext p
    by_cases hp : ∃ x ∈ span addr data.length, page x = p
    · obtain ⟨x, hx, rfl⟩ := hp
      rw [hinside x hx, hone x hx]
    · refine houtside p fun x hx hxp => hp ⟨x, hx, hxp⟩

/-- **The exact effect of `safe_write`**, and when it fails. -/
theorem safeWrite_iff (h : vp.Lawful) (s : Process) (addr : UInt64) (hlen : data.length ≤ 2 ^ 64) :
    (∀ e, safeWrite vp s addr data = .error e → e = .assertion) ∧
      ∀ s', safeWrite vp s addr data = .ok s' →
        validateMem s'.mem addr data = true ∧
        (∀ x ∉ span addr data.length, s'.mem x = s.mem x) ∧
        (s'.protection = s.protection ↔
          ∀ x ∈ span addr data.length, s.protection (page x) = s.protection (page addr)) := by
  refine ⟨fun e he => patch_error h he, fun s' hs => ?_⟩
  have hmem := (patch_ok h hs).1
  refine ⟨?_, fun x hx => ?_, patch_protection_iff h hs⟩
  · rw [validateMem, hmem, bytesAt_writeBytes hlen]
    exact beq_self_eq_true data
  · rw [hmem, writeBytes_of_notMem hx]

/-- A `VirtualProtect` that never fails. -/
def virtualProtect : VirtualProtect := fun s addr len new =>
  some (s.protection (page addr),
    { s with
      protection := fun p =>
        if (List.range len).any fun i => page (addr + .ofNat i) = p then new else s.protection p })

theorem virtualProtect_lawful : virtualProtect.Lawful where
  old := by
    intro s addr len new r hr
    cases hr
    rfl
  mem := by
    intro s addr len new r hr
    cases hr
    rfl
  inside := by
    intro s addr len new r hr
    cases hr
    refine forall_mem_span.2 fun i hi => if_pos (List.any_eq_true.2 ⟨i, List.mem_range.2 hi, ?_⟩)
    exact decide_eq_true rfl
  outside := by
    intro s addr len new r hr p hp
    cases hr
    refine if_neg fun hany => ?_
    obtain ⟨i, hi, hpage⟩ := List.any_eq_true.1 hany
    exact hp _ (mem_span_ofNat (List.mem_range.1 hi)) (of_decide_eq_true hpage)

/-- A page of code, and pages that can be read. -/
def onePage : Process where
  mem := fun _ => 0xCC
  protection := fun p => if p = 1 then 0x20 else 0x02

/-- Two bytes at the end of the page of code: the page after it becomes code too. -/
theorem safeWrite_iff_twoPages :
    ∃ s', safeWrite virtualProtect onePage 0x1FFF [0x90, 0x90] = .ok s' ∧
    validateMem s'.mem 0x1FFF [0x90, 0x90] = true ∧ s'.protection ≠ onePage.protection := by
  obtain ⟨s', hs⟩ : ∃ s', safeWrite virtualProtect onePage 0x1FFF [0x90, 0x90] = .ok s' := ⟨_, rfl⟩
  have hlen : [(0x90 : UInt8), 0x90].length ≤ 2 ^ 64 := by decide
  obtain ⟨hvalid, -, hprotection⟩ :=
    (safeWrite_iff virtualProtect_lawful onePage 0x1FFF hlen).2 s' hs
  refine ⟨s', hs, hvalid, fun heq => ?_⟩
  have hkept := forall_mem_span.1 (hprotection.1 heq) 1 (by decide)
  exact absurd hkept (by decide)

/-! ## Sequences of patches -/

/-- A call of one of the two functions. -/
inductive Patch where
  | write (addr : UInt64) (data : List UInt8)
  | memset (addr : UInt64) (val : Int32) (len : ℕ)

namespace Patch

def start : Patch → UInt64
  | write addr _ | memset addr _ _ => addr

def bytes : Patch → List UInt8
  | write _ data => data
  | memset _ val len => List.replicate len val.toUInt32.toUInt8

def apply (vp : VirtualProtect) (s : Process) : Patch → Except Fault Process
  | write addr data => safeWrite vp s addr data
  | memset addr val len => safeMemset vp s addr val len

/-- The addresses that are patched. -/
def span (p : Patch) : Set UInt64 := SseExt.span p.start p.bytes.length

/-- All the bytes are on the page of the first one. -/
def OnePage (p : Patch) : Prop := ∀ x ∈ p.span, page x = page p.start

theorem apply_eq (vp : VirtualProtect) (s : Process) (p : Patch) :
    p.apply vp s = patch vp s p.start p.bytes := by
  cases p <;> rfl

end Patch

/-- Patches, one after the other. -/
def patchAll (vp : VirtualProtect) : Process → List Patch → Except Fault Process
  | s, [] => .ok s
  | s, p :: ps =>
    match p.apply vp s with
    | .error e => .error e
    | .ok s => patchAll vp s ps

variable {p : Patch} {ps : List Patch}

theorem of_patchAll_cons (hs : patchAll vp s (p :: ps) = .ok s') :
    ∃ s₁, patch vp s p.start p.bytes = .ok s₁ ∧ patchAll vp s₁ ps = .ok s' := by
  rw [patchAll, p.apply_eq] at hs
  cases hp : patch vp s p.start p.bytes with
  | error e => simp only [hp, reduceCtorEq] at hs
  | ok s₁ =>
    simp only [hp] at hs
    exact ⟨s₁, rfl, hs⟩

/-- **What no patch covers is left alone.** -/
theorem patchAll_of_notMem (h : vp.Lawful) (hs : patchAll vp s ps = .ok s')
    (hx : ∀ p ∈ ps, x ∉ p.span) : s'.mem x = s.mem x := by
  induction ps generalizing s with
  | nil =>
    cases hs
    rfl
  | cons p ps ih =>
    obtain ⟨s₁, hp, hrest⟩ := of_patchAll_cons hs
    rw [ih hrest fun q hq => hx q (List.mem_cons_of_mem p hq), (patch_ok h hp).1,
      writeBytes_of_notMem (hx p List.mem_cons_self)]

/-- **A patch stays until a later one overlaps it.** -/
theorem patchAll_validates (h : vp.Lawful) {ps₁ ps₂ : List Patch}
    (hs : patchAll vp s (ps₁ ++ p :: ps₂) = .ok s') (hlen : p.bytes.length ≤ 2 ^ 64)
    (hlater : ∀ q ∈ ps₂, Disjoint p.span q.span) :
    validateMem s'.mem p.start p.bytes = true := by
  induction ps₁ generalizing s with
  | nil =>
    obtain ⟨s₁, hp, hrest⟩ := of_patchAll_cons hs
    have hkeep : bytesAt s'.mem p.start p.bytes.length = bytesAt s₁.mem p.start p.bytes.length := by
      apply bytesAt_congr
      intro x hx
      refine patchAll_of_notMem h hrest fun q hq hxq => ?_
      exact Set.disjoint_left.1 (hlater q hq) hx hxq
    rw [validateMem, hkeep, (patch_ok h hp).1, bytesAt_writeBytes hlen]
    exact beq_self_eq_true _
  | cons q ps₁ ih =>
    obtain ⟨s₁, -, hrest⟩ := of_patchAll_cons hs
    exact ih hrest

theorem patchAll_protection (h : vp.Lawful) (hs : patchAll vp s ps = .ok s')
    (hpage : ∀ p ∈ ps, p.OnePage) : s'.protection = s.protection := by
  induction ps generalizing s with
  | nil =>
    cases hs
    rfl
  | cons p ps ih =>
    obtain ⟨s₁, hp, hrest⟩ := of_patchAll_cons hs
    rw [ih hrest fun q hq => hpage q (List.mem_cons_of_mem p hq), patch_protection_iff h hp]
    intro x hx
    rw [hpage p List.mem_cons_self x hx]

/-- **What a sequence of patches leaves.** -/
theorem patchAll_spec (h : vp.Lawful) (hlen : ∀ p ∈ ps, p.bytes.length ≤ 2 ^ 64)
    (hs : patchAll vp s ps = .ok s') :
    (∀ x, (∀ p ∈ ps, x ∉ p.span) → s'.mem x = s.mem x) ∧
      (∀ ps₁ p ps₂, ps = ps₁ ++ p :: ps₂ → (∀ q ∈ ps₂, Disjoint p.span q.span) →
        validateMem s'.mem p.start p.bytes = true) ∧
      ((∀ p ∈ ps, p.OnePage) → s'.protection = s.protection) := by
  refine ⟨fun x hx => patchAll_of_notMem h hs hx, fun ps₁ p ps₂ hps hlater => ?_,
    fun hpage => patchAll_protection h hs hpage⟩
  subst hps
  exact patchAll_validates h hs (hlen p (by simp)) hlater

/-- A call, and two bytes that are no longer needed. -/
def callAndNops : List Patch := [.write 0x1000 [0xE8, 0, 0, 0, 0], .memset 0x1005 0x90 2]

theorem patchAll_spec_callAndNops : ∃ s', patchAll virtualProtect onePage callAndNops = .ok s' ∧
    s'.mem 0x1007 = 0xCC ∧ validateMem s'.mem 0x1000 [0xE8, 0, 0, 0, 0] = true ∧
    validateMem s'.mem 0x1005 [0x90, 0x90] = true ∧ s'.protection = onePage.protection := by
  obtain ⟨s', hs⟩ : ∃ s', patchAll virtualProtect onePage callAndNops = .ok s' := ⟨_, rfl⟩
  obtain ⟨hmem, hvalid, hprotection⟩ :=
    patchAll_spec virtualProtect_lawful (by decide) hs
  refine ⟨s', hs, hmem _ ?_, hvalid [] _ _ rfl ?_, hvalid [_] _ [] rfl ?_, hprotection ?_⟩
  · simp [callAndNops, Patch.span, Patch.start, Patch.bytes, mem_span]
  · simp [Set.disjoint_left, Patch.span, Patch.start, Patch.bytes, forall_mem_span]
    simp only [mem_span]
    decide
  · simp
  · simp [callAndNops, Patch.OnePage, Patch.span, Patch.start, Patch.bytes, forall_mem_span]
    decide

end SseExt.Patching
