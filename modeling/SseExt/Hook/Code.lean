import SseExt.Lib.ByteMemory
import SseExt.Lib.Footprint
import SseExt.Lib.Transition

/-!
# Hooks in code

`Hook` finds and patches branches. The processor is modelled as far as hooks need it (`fetch`):
jumps with a displacement or through a pointer, calls through a pointer, and, as one step, the
instructions of the game that a hook displaces. Runs carry their footprint, so that code which is
written elsewhere does not disturb them.

**Theorem (`runs_code`).** The code of a hook calls the hook, does what its middle does, and goes on
at its return address.
-/

namespace SseExt.Hook

/-! ## Instructions -/

/-- `ins->displ` at `a`, as it is added to an address. -/
def displ (m : Memory) (a : UInt64) : UInt64 :=
  (Int32.ofNat (ofLe (bytesAt m a 4))).toInt64.toUInt64

/-- The pointer stored at `a`. -/
def pointer (m : Memory) (a : UInt64) : UInt64 := UInt64.ofNat (ofLe (bytesAt m a 8))

/-- `CheckDst5` -/
def checkDst5 (opcode : UInt8) (m : Memory) (addr : UInt64) : Bool := m addr == opcode

/-- `GetDst5` -/
def getDst5 (opcode : UInt8) (m : Memory) (addr : UInt64) : Option UInt64 :=
  if m addr ≠ opcode then none else some (addr + 5 + displ m (addr + 1))

/-- `CheckDst5` tells whether `GetDst5` has a destination. -/
theorem isSome_getDst5 (opcode : UInt8) (m : Memory) (addr : UInt64) :
    (getDst5 opcode m addr).isSome = checkDst5 opcode m addr := by
  unfold getDst5 checkDst5
  split_ifs with h
  · simpa using h
  · simpa using h

/-- `GetDst6` -/
def getDst6 (modrm : UInt8) (m : Memory) (addr : UInt64) : Option UInt64 :=
  if m addr ≠ 0xFF ∨ m (addr + 1) ≠ modrm then none
  else some (pointer m (addr + 6 + displ m (addr + 2)))

/-- The branches that can be hooked: `E8`, `E9`, `FF 15` and `FF 25`. -/
inductive Branch where
  | call5
  | jmp5
  | call6
  | jmp6

/-- The size of the instruction. -/
def Branch.size : Branch → ℕ
  | .call5 | .jmp5 => 5
  | .call6 | .jmp6 => 6

/-- The destination of the branch at `addr`, if there is one of this kind. -/
def Branch.getDst : Branch → Memory → UInt64 → Option UInt64
  | .call5 => getDst5 0xE8
  | .jmp5 => getDst5 0xE9
  | .call6 => getDst6 0x15
  | .jmp6 => getDst6 0x25

/-- What happens on the way: a function is called and returns, or the displaced instructions are
executed. -/
inductive Event where
  | call (f : UInt64)
  | displaced
  deriving DecidableEq

/-- The instruction at `ip`. -/
def fetch (displaced : List UInt8) (m : Memory) (ip : UInt64) : Option (Option Event × UInt64) :=
  match getDst5 0xE9 m ip with
  | some dst => some (none, dst)
  | none =>
    match getDst6 0x25 m ip with
    | some dst => some (none, dst)
    | none =>
      match getDst6 0x15 m ip with
      | some f => some (some (.call f), ip + 6)
      | none =>
        if bytesAt m ip displaced.length = displaced then
          some (some .displaced, ip + UInt64.ofNat displaced.length)
        else none

/-! ## What is read -/

variable {m : Memory} {a ip dst v : UInt64} {F : Set UInt64} {D : List UInt8} {n : ℕ}
  {opcode modrm : UInt8}

theorem readsOnly_bytesAt (h : span a n ⊆ F) : ReadsOnly F (bytesAt · a n) m :=
  fun _ hm => bytesAt_congr (hm.mono h)

theorem readsOnly_displ (h : span a 4 ⊆ F) : ReadsOnly F (displ · a) m := by
  intro m' hm
  simp only [displ, readsOnly_bytesAt h m' hm]

theorem readsOnly_pointer (h : span a 8 ⊆ F) : ReadsOnly F (pointer · a) m := by
  intro m' hm
  simp only [pointer, readsOnly_bytesAt h m' hm]

theorem readsOnly_getDst5 (h : span ip 5 ⊆ F) : ReadsOnly F (getDst5 opcode · ip) m := by
  intro m' hm
  have hop : m' ip = m ip := hm ip (h (self_mem_span ip (by decide)))
  have hd : displ m' (ip + 1) = displ m (ip + 1) := by
    apply readsOnly_displ (F := F) _ m' hm
    intro x hx
    exact h (mem_span_succ.2 (.inr hx))
  simp only [getDst5, hop, hd]

theorem readsOnly_getDst6 (h : span ip 6 ⊆ F)
    (hptr : span (ip + 6 + displ m (ip + 2)) 8 ⊆ F) : ReadsOnly F (getDst6 modrm · ip) m := by
  intro m' hm
  have h0 : m' ip = m ip := hm ip (h (self_mem_span ip (by decide)))
  have h1 : m' (ip + 1) = m (ip + 1) :=
    hm _ (h (mem_span_succ.2 (.inr (self_mem_span _ (by decide)))))
  have hd : displ m' (ip + 2) = displ m (ip + 2) := by
    apply readsOnly_displ (F := F) _ m' hm
    intro x hx
    have hadd : x ∈ span (ip + UInt64.ofNat 2) 4 := hx
    exact h (mem_span_add hadd)
  simp only [getDst6, h0, h1, hd, readsOnly_pointer hptr m' hm]

/-! ## Instructions that are there -/

theorem displ_eq (hn : n < 2 ^ 31) (h : bytesAt m a 4 = leBytes 4 n) :
    displ m a = UInt64.ofNat n := by
  have hpow : (2 : ℕ) ^ 31 ≤ 256 ^ 4 := by decide
  have hsize : n < UInt64.size := Nat.lt_trans hn (by decide)
  have hint : (Int32.ofNat n).toInt = n := Int32.toInt_ofNat_of_lt hn
  have hle : (0 : Int64) ≤ (Int32.ofNat n).toInt64 := by
    rw [Int64.le_iff_toInt_le, Int32.toInt_toInt64, hint]
    exact Int.natCast_nonneg n
  apply UInt64.toNat_inj.1
  rw [displ, h, ofLe_leBytes (by omega), Int64.toNat_toUInt64_of_le hle, Int64.toNatClampNeg,
    Int32.toInt_toInt64, hint, Int.toNat_natCast, UInt64.toNat_ofNat_of_lt' hsize]

theorem pointer_eq (h : bytesAt m a 8 = leBytes 8 v.toNat) : pointer m a = v := by
  rw [pointer, h, ofLe_leBytes v.toNat_lt, UInt64.ofNat_toNat]

theorem two_bytes {b c : UInt8} (h : bytesAt m ip 2 = [b, c]) : m ip = b ∧ m (ip + 1) = c := by
  simp only [bytesAt, List.cons.injEq, and_true] at h
  exact h

/-- A branch to what is `v` bytes behind it. -/
theorem getDst5_eq (hv : v.toNat < 2 ^ 31)
    (h : bytesAt m ip 5 = [opcode] ++ leBytes 4 v.toNat) :
    getDst5 opcode m ip = some (ip + 5 + v) := by
  have hlen : ([opcode] ++ leBytes 4 v.toNat).length = 5 := by simp
  rw [← hlen] at h
  obtain ⟨hop, hd⟩ := bytesAt_append.1 h
  rw [length_leBytes] at hd
  have hdispl : displ m (ip + 1) = UInt64.ofNat v.toNat := displ_eq hv hd
  have hhead : m ip = opcode := head_of_bytesAt hop
  rw [getDst5, if_neg (not_not.2 hhead), hdispl, UInt64.ofNat_toNat]

/-- A branch through a pointer `n` bytes behind it. -/
theorem getDst6_eq (hn : n < 2 ^ 31) (h : bytesAt m ip 6 = [0xFF, modrm] ++ leBytes 4 n)
    (hptr : bytesAt m (ip + 6 + UInt64.ofNat n) 8 = leBytes 8 v.toNat) :
    displ m (ip + 2) = UInt64.ofNat n ∧ getDst6 modrm m ip = some v := by
  have hlen : ([0xFF, modrm] ++ leBytes 4 n).length = 6 := by simp
  rw [← hlen] at h
  obtain ⟨hop, hd⟩ := bytesAt_append.1 h
  rw [length_leBytes] at hd
  obtain ⟨h0, h1⟩ := two_bytes hop
  have hdispl : displ m (ip + 2) = UInt64.ofNat n := displ_eq hn hd
  refine ⟨hdispl, ?_⟩
  rw [getDst6, if_neg (by simp [h0, h1]), hdispl, pointer_eq hptr]

/-! ## Executing them -/

theorem fetch_jmp5 (h : getDst5 0xE9 m ip = some dst) : fetch D m ip = some (none, dst) := by
  simp only [fetch, h]

/-- What begins with `FF` is no jump with a displacement. -/
theorem getDst5_of_getDst6 (h : getDst6 modrm m ip = some dst) : getDst5 0xE9 m ip = none := by
  simp only [getDst6] at h
  split_ifs at h with hop
  rw [not_or, not_not] at hop
  rw [getDst5, hop.1, if_pos (by decide)]

theorem fetch_jmp6 (h : getDst6 0x25 m ip = some dst) : fetch D m ip = some (none, dst) := by
  simp only [fetch, getDst5_of_getDst6 h, h]

theorem fetch_call6 (h : getDst6 0x15 m ip = some dst) :
    fetch D m ip = some (some (.call dst), ip + 6) := by
  have hjmp : getDst6 0x25 m ip = none := by
    simp only [getDst6] at h
    split_ifs at h with hop
    rw [not_or, not_not, not_not] at hop
    rw [getDst6, hop.2, if_pos (.inr (by decide))]
  simp only [fetch, getDst5_of_getDst6 h, hjmp, h]

theorem runs_jmp5 (h : getDst5 0xE9 m ip = some dst)
    (hF : ReadsOnly F (getDst5 0xE9 · ip) m) : Runs (fetch D) F m ip [] dst :=
  .single (e := none) (fetch_jmp5 h) (hF.of_eq h fun _ => fetch_jmp5)

theorem runs_jmp6 (h : getDst6 0x25 m ip = some dst)
    (hF : ReadsOnly F (getDst6 0x25 · ip) m) : Runs (fetch D) F m ip [] dst :=
  .single (e := none) (fetch_jmp6 h) (hF.of_eq h fun _ => fetch_jmp6)

theorem runs_call6 (h : getDst6 0x15 m ip = some v)
    (hF : ReadsOnly F (getDst6 0x15 · ip) m) :
    Runs (fetch D) F m ip [Event.call v] (ip + 6) :=
  .single (e := some (Event.call v)) (fetch_call6 h) (hF.of_eq h fun _ => fetch_call6)

/-- From `o` control goes to `dst`, and nothing happens on the way. -/
def LeadsTo (D : List UInt8) (m : Memory) (o dst : UInt64) : Prop :=
  ∃ F, Runs (fetch D) F m o [] dst

/-- The code that a hook puts in front of what the site ran before: a call of the hook, the
instructions in the middle, and a jump to `retn`. -/
def code (middle : List UInt8) (retn hook : UInt64) : List UInt8 :=
  ([0xFF, 0x15] ++ leBytes 4 (14 + middle.length)) ++ (middle ++
    (([0xFF, 0x25] ++ leBytes 4 0) ++ (leBytes 8 retn.toNat ++ leBytes 8 hook.toNat)))

theorem length_code (middle : List UInt8) (retn hook : UInt64) :
    (code middle retn hook).length = middle.length + 28 := by
  simp [code]
  omega

/-- A part of a block is read where the block is. -/
theorem span_part {k : ℕ} (h : span a n ⊆ F) {l : ℕ} (hkl : k + l ≤ n)
    (ha : ip = a + UInt64.ofNat k) : span ip l ⊆ F := by
  intro x hx
  rw [ha] at hx
  exact h (mem_span_of_le (mem_span_add hx) hkl)

/-- **What the code does.** -/
theorem runs_code {middle : List UInt8} {retn hook : UInt64} {es : List Event}
    (hlen : middle.length < 2 ^ 30)
    (h : bytesAt m a (code middle retn hook).length = code middle retn hook)
    (hF : span a (middle.length + 28) ⊆ F)
    (hmid : Runs (fetch D) F m (a + 6) es (a + 6 + UInt64.ofNat middle.length)) :
    Runs (fetch D) F m a (Event.call hook :: es) retn := by
  obtain ⟨hcall, h⟩ := bytesAt_append.1 h
  obtain ⟨-, h⟩ := bytesAt_append.1 h
  obtain ⟨hjmp, h⟩ := bytesAt_append.1 h
  obtain ⟨hretn, hhook⟩ := bytesAt_append.1 h
  have h6 : ∀ (b : UInt8) (k : ℕ), ([0xFF, b] ++ leBytes 4 k).length = 6 := by simp
  rw [h6, length_leBytes] at hretn hhook
  rw [h6] at hcall hjmp hretn hhook
  rw [length_leBytes] at hhook
  have hadd : UInt64.ofNat (14 + middle.length) = 14 + UInt64.ofNat middle.length :=
    UInt64.ofNat_add ..
  have hcell : a + 6 + UInt64.ofNat (14 + middle.length) =
      a + UInt64.ofNat 6 + UInt64.ofNat middle.length + UInt64.ofNat 6 + UInt64.ofNat 8 := by
    rw [hadd]
    have h6' : UInt64.ofNat 6 = 6 := rfl
    have h8' : UInt64.ofNat 8 = 8 := rfl
    grind
  -- The call, through the last eight bytes.
  have hrun₁ : Runs (fetch D) F m a [Event.call hook] (a + 6) := by
    obtain ⟨hd, hget⟩ := getDst6_eq (v := hook) (by omega) hcall (by rw [hcell]; exact hhook)
    refine runs_call6 hget (readsOnly_getDst6 (span_part hF (k := 0) (by omega) (by simp)) ?_)
    refine span_part hF (k := 20 + middle.length) (by omega) ?_
    rw [hd, hadd, UInt64.ofNat_add]
    have h20 : UInt64.ofNat 20 = 20 := rfl
    grind
  -- The jump, through the eight bytes behind it.
  have hrun₂ : Runs (fetch D) F m (a + 6 + UInt64.ofNat middle.length) [] retn := by
    have hzero : ∀ b : UInt64, b + UInt64.ofNat 0 = b := by simp
    obtain ⟨hd, hget⟩ := getDst6_eq (v := retn) (n := 0) (by omega) hjmp
      (by rw [hzero]; exact hretn)
    refine runs_jmp6 hget (readsOnly_getDst6
      (span_part hF (k := 6 + middle.length) (by omega) ?_)
      (span_part hF (k := 12 + middle.length) (by omega) ?_))
    · rw [UInt64.ofNat_add]
      have h6' : UInt64.ofNat 6 = 6 := rfl
      grind
    · have hd' : displ m (a + 6 + UInt64.ofNat middle.length + 2) = UInt64.ofNat 0 := hd
      rw [hd', hzero, UInt64.ofNat_add]
      have h12 : UInt64.ofNat 12 = 12 := rfl
      grind
  have hrun := (hrun₁.trans hmid).trans hrun₂
  rwa [List.append_nil] at hrun

end SseExt.Hook
