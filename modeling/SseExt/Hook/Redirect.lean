import SseExt.Hook.Code

/-!
# `Hook::Call5`, `Jmp5`, `Call6`, `Jmp6`

A function takes the place of the destination of a branch, and gets the old destination to go on
with. Where the trampoline puts the code it needs is up to it: `Written` says what a call is
expected to do. The branch leads to its new destination, by way of memory that was not in use if
need be, and other memory in use stays as it is.

**Theorem (`hookAll_chain`).** Functions that hook a branch one after another, each with the call
for branches of this kind, get the old destination each: the first one that of the game, every other
one what leads to the function before it. The branch leads to the last one, and what the game runs
from its destination is not disturbed.
-/

namespace SseExt.Hook

variable {addr dst o stop : UInt64} {F used : Set UInt64} {D : List UInt8} {es : List Event}

/-! ## Trampolines -/

/-- A branch and a local trampoline over a process `σ`: its memory, the code that `JITASM` puts in
the local trampoline, with its address, and the writes of the branch trampoline. -/
structure Trampolines (σ : Type*) where
  mem : σ → Memory
  emit : σ → List UInt8 → UInt64 × σ
  write : Branch → σ → UInt64 → UInt64 → σ

namespace Trampolines

variable {σ : Type*} (T : Trampolines σ)

/-- The code is in memory that was not in use. -/
structure Emitted (used : Set UInt64) (s : σ) (bs : List UInt8) : Prop where
  fresh : Disjoint (span (T.emit s bs).1 bs.length) used
  code : bytesAt (T.mem (T.emit s bs).2) (T.emit s bs).1 bs.length = bs
  keeps : AgreeOn used (T.mem s) (T.mem (T.emit s bs).2)

/-- The branch at `addr` leads to `dst`, by way of memory `F` that was not in use. -/
structure Written (D : List UInt8) (k : Branch) (used F : Set UInt64) (s : σ)
    (addr dst : UInt64) : Prop where
  branches : ∃ o, k.getDst (T.mem (T.write k s addr dst)) addr = some o ∧
    ReadsOnly (span addr k.size ∪ F) (k.getDst · addr) (T.mem (T.write k s addr dst)) ∧
    Runs (fetch D) F (T.mem (T.write k s addr dst)) o [] dst
  fresh : Disjoint F used
  keeps : AgreeOn (used \ span addr k.size) (T.mem s) (T.mem (T.write k s addr dst))

/-- `Call5`, `Jmp5`, `Call6` and `Jmp6`: the old destination, when there is such a branch. -/
def hook (k : Branch) (s : σ) (addr dst : UInt64) : Option UInt64 × σ :=
  match k.getDst (T.mem s) addr with
  | some o => (some o, T.write k s addr dst)
  | none => (none, s)

def call5 := T.hook .call5

def jmp5 := T.hook .jmp5

def call6 := T.hook .call6

def jmp6 := T.hook .jmp6

theorem hook_fst (k : Branch) (s : σ) (addr dst : UInt64) :
    (T.hook k s addr dst).1 = k.getDst (T.mem s) addr := by
  unfold hook
  cases k.getDst (T.mem s) addr with
  | none => rfl
  | some o => rfl

/-- **`CheckDst5` tells** whether `Call5` and `Jmp5` hook the branch. -/
theorem isSome_hook5 (s : σ) (addr dst : UInt64) :
    (T.call5 s addr dst).1.isSome = checkDst5 0xE8 (T.mem s) addr ∧
      (T.jmp5 s addr dst).1.isSome = checkDst5 0xE9 (T.mem s) addr := by
  rw [call5, jmp5, hook_fst, hook_fst]
  exact ⟨isSome_getDst5 _ _ _, isSome_getDst5 _ _ _⟩

/-- The branch is hooked by one function after another; what they get. -/
def hookAll (k : Branch) (addr : UInt64) : σ → List UInt64 → List (Option UInt64) × σ
  | s, [] => ([], s)
  | s, dst :: dsts =>
    let r := T.hook k s addr dst
    let rest := hookAll k addr r.2 dsts
    (r.1 :: rest.1, rest.2)

/-- The branch trampoline does its part in a run of writes, when `used` is in use at first. -/
inductive Redirects (D : List UInt8) (k : Branch) (addr : UInt64) :
    Set UInt64 → σ → List UInt64 → Prop
  | nil (used : Set UInt64) (s : σ) : Redirects D k addr used s []
  | cons {used F : Set UInt64} {s : σ} {dst : UInt64} {dsts : List UInt64} :
      T.Written D k used F s addr dst →
      Redirects D k addr (used ∪ F) (T.write k s addr dst) dsts →
      Redirects D k addr used s (dst :: dsts)

/-! ## The chain of destinations -/

variable {T} {s : σ} {k : Branch} {dsts : List UInt64}

/-- What was in use before a branch was written is as it was, but for the branch. -/
theorem Written.agree (h : T.Written D k used F s addr dst) {G : Set UInt64} (hG : G ⊆ used)
    (hdisj : Disjoint G (span addr k.size)) :
    AgreeOn G (T.mem s) (T.mem (T.write k s addr dst)) :=
  h.keeps.mono fun _ hx => ⟨hG hx, fun hx' => Set.disjoint_left.1 hdisj hx hx'⟩

theorem hook_eq (h : k.getDst (T.mem s) addr = some o) (dst : UInt64) :
    T.hook k s addr dst = (some o, T.write k s addr dst) := by
  simp only [hook, h]

/-- **No branch, no hook.** -/
theorem hook_of_none (h : k.getDst (T.mem s) addr = none) (dst : UInt64) :
    T.hook k s addr dst = (none, s) := by
  simp only [hook, h]

/-- What runs in memory in use runs on as it did, whatever hooks the branch. -/
theorem Redirects.keeps (h : T.Redirects D k addr used s dsts)
    (ho : (k.getDst (T.mem s) addr).isSome) {G : Set UInt64} (hG : G ⊆ used)
    (hdisj : Disjoint G (span addr k.size)) :
    AgreeOn G (T.mem s) (T.mem (T.hookAll k addr s dsts).2) := by
  induction h with
  | nil used s => exact fun _ _ => rfl
  | @cons used F s dst dsts hw _ ih =>
    obtain ⟨o, ho⟩ := Option.isSome_iff_exists.1 ho
    obtain ⟨o', ho', -, -⟩ := hw.branches
    simp only [hookAll, hook_eq ho]
    intro x hx
    rw [ih (by rw [ho']; rfl) (hG.trans Set.subset_union_left) x hx]
    exact hw.agree hG hdisj x hx

/-- **Hooks of a branch form a chain.** The functions get the destinations `os`, the first of them
the one that the branch had; each other one, and the one the branch has in the end, leads to the
function before it. -/
theorem hookAll_chain (h : T.Redirects D k addr used s dsts)
    (ho : k.getDst (T.mem s) addr = some o) (hpatch : span addr k.size ⊆ used) :
    ∃ os last, (T.hookAll k addr s dsts).1 = ((o :: os).take dsts.length).map some ∧
      (o :: os).getLast? = some last ∧
      k.getDst (T.mem (T.hookAll k addr s dsts).2) addr = some last ∧
      List.Forall₂ (LeadsTo D (T.mem (T.hookAll k addr s dsts).2)) os dsts := by
  induction h generalizing o with
  | nil used s => exact ⟨[], o, rfl, rfl, ho, .nil⟩
  | @cons used F s dst dsts hw hrest ih =>
    obtain ⟨o', ho', -, hto⟩ := hw.branches
    obtain ⟨os, last, hos, hlast, hget, hchain⟩ :=
      ih ho' (hpatch.trans Set.subset_union_left)
    simp only [hookAll, hook_eq ho]
    refine ⟨o' :: os, last, ?_, hlast, hget, ?_⟩
    · rw [hos]
      rfl
    · refine .cons ⟨F, hto.congr ?_⟩ hchain
      exact hrest.keeps (by rw [ho']; rfl) Set.subset_union_right (hw.fresh.mono_right hpatch)

/-- **What the game ran is not disturbed.** -/
theorem hookAll_runs (h : T.Redirects D k addr used s dsts)
    (ho : k.getDst (T.mem s) addr = some o) (hF : F ⊆ used)
    (hdisj : Disjoint F (span addr k.size)) (hruns : Runs (fetch D) F (T.mem s) o es stop) :
    Runs (fetch D) F (T.mem (T.hookAll k addr s dsts).2) o es stop :=
  hruns.congr (h.keeps (by rw [ho]; rfl) hF hdisj)

end Trampolines

/-! ## Trampolines that take the next free bytes -/

/-- The opcode of a branch. -/
def Branch.opcode : Branch → List UInt8
  | .call5 => [0xE8]
  | .jmp5 => [0xE9]
  | .call6 => [0xFF, 0x15]
  | .jmp6 => [0xFF, 0x25]

/-- What a branch needs to reach `dst`: a jump, or the pointer. -/
def Branch.stub : Branch → UInt64 → List UInt8
  | .call5, dst | .jmp5, dst => [0xFF, 0x25] ++ leBytes 4 0 ++ leBytes 8 dst.toNat
  | .call6, dst | .jmp6, dst => leBytes 8 dst.toNat

/-- A branch to what is at `free`. -/
def Branch.encode (k : Branch) (addr free : UInt64) : List UInt8 :=
  k.opcode ++ leBytes 4 (free - (addr + UInt64.ofNat k.size)).toNat

/-- A memory, and where its free bytes begin. -/
def bump : Trampolines (Memory × UInt64) where
  mem := Prod.fst
  emit s bs := (s.2, writeBytes s.1 s.2 bs, s.2 + UInt64.ofNat bs.length)
  write k s addr dst :=
    (writeBytes (writeBytes s.1 s.2 (k.stub dst)) addr (k.encode addr s.2),
      s.2 + UInt64.ofNat (k.stub dst).length)

/-- There are `n` free bytes, behind all that is in use. -/
structure Room (used : Set UInt64) (free : UInt64) (n : ℕ) : Prop where
  below : ∀ x ∈ used, x.toNat < free.toNat
  fits : free.toNat + n < 2 ^ 64

namespace Room

variable {free : UInt64} {n l : ℕ} {m : Memory} {k : Branch}

theorem fresh (h : Room used free n) (hl : l ≤ n) : Disjoint (span free l) used :=
  disjoint_span (by have := h.fits; omega) h.below

theorem mono (h : Room used free n) (hl : l ≤ n) : Room used free l where
  below := h.below
  fits := by
    have hfits := h.fits
    omega

/-- After some of the bytes have been taken. -/
theorem take (h : Room used free n) (hl : l ≤ n) :
    Room (used ∪ span free l) (free + UInt64.ofNat l) (n - l) := by
  have hfits := h.fits
  have hfree : (free + UInt64.ofNat l).toNat = free.toNat + l := toNat_add_ofNat (by omega)
  constructor
  · intro x hx
    rw [hfree]
    rcases hx with hx | hx
    · have := h.below x hx
      omega
    · exact (of_mem_span (by omega) hx).2
  · rw [hfree]
    omega

theorem emitted (h : Room used free n) {bs : List UInt8} (hbs : bs.length ≤ n) :
    bump.Emitted used (m, free) bs where
  fresh := h.fresh hbs
  code := bytesAt_writeBytes (by have := h.fits; omega)
  keeps := by
    intro x hx
    exact writeBytes_of_notMem fun hx' => Set.disjoint_left.1 (h.fresh hbs) hx' hx

theorem length_encode (k : Branch) (addr free : UInt64) :
    (k.encode addr free).length = k.size := by
  cases k <;> simp [Branch.encode, Branch.opcode, Branch.size]

/-- A jump through the pointer behind it. -/
theorem runs_stub {m : Memory} {free : UInt64}
    (h : bytesAt m free 14 = [0xFF, 0x25] ++ leBytes 4 0 ++ leBytes 8 dst.toNat) :
    Runs (fetch D) (span free 14) m free [] dst := by
  have hlen : ([0xFF, 0x25] ++ leBytes 4 0 ++ leBytes 8 dst.toNat).length = 14 := by simp
  rw [← hlen] at h
  obtain ⟨hjmp, hptr⟩ := bytesAt_append.1 h
  have hzero : ∀ a : UInt64, a + UInt64.ofNat 0 = a := by simp
  obtain ⟨hd, hget⟩ := getDst6_eq (n := 0) (by omega) hjmp (by rw [hzero]; exact hptr)
  refine runs_jmp6 hget (readsOnly_getDst6 (span_part subset_rfl (k := 0) (by omega) (by simp))
    (span_part subset_rfl (k := 6) (by omega) ?_))
  rw [hd, hzero]
  rfl

/-- A branch that reaches `free`. -/
theorem reaches5 {m : Memory} {opcode : UInt8}
    (hnear : (free - (addr + UInt64.ofNat 5)).toNat < 2 ^ 31)
    (henc : bytesAt m addr 5 = [opcode] ++ leBytes 4 (free - (addr + UInt64.ofNat 5)).toNat) :
    getDst5 opcode m addr = some free := by
  have h5 : UInt64.ofNat 5 = 5 := rfl
  have hreach : addr + 5 + (free - (addr + UInt64.ofNat 5)) = free := by grind
  rw [getDst5_eq hnear henc, hreach]

/-- A branch through a pointer at `free`. -/
theorem reaches6 {m : Memory} {modrm : UInt8}
    (hnear : (free - (addr + UInt64.ofNat 6)).toNat < 2 ^ 31)
    (henc : bytesAt m addr 6 =
      [0xFF, modrm] ++ leBytes 4 (free - (addr + UInt64.ofNat 6)).toNat)
    (hptr : bytesAt m free 8 = leBytes 8 dst.toNat) :
    getDst6 modrm m addr = some dst ∧
      ReadsOnly (span addr 6 ∪ span free 8) (getDst6 modrm · addr) m := by
  have h6 : UInt64.ofNat 6 = 6 := rfl
  have hcell : addr + 6 + UInt64.ofNat (free - (addr + UInt64.ofNat 6)).toNat = free := by
    rw [UInt64.ofNat_toNat]
    grind
  obtain ⟨hd, hget⟩ := getDst6_eq (v := dst) hnear henc (by rw [hcell]; exact hptr)
  refine ⟨hget, readsOnly_getDst6 Set.subset_union_left ?_⟩
  rw [hd, hcell]
  exact Set.subset_union_right

/-- **The trampoline does its part** while it has room and the branch reaches it. -/
theorem written (h : Room used free n) (hk : (k.stub dst).length ≤ n)
    (hpatch : span addr k.size ⊆ used)
    (hnear : (free - (addr + UInt64.ofNat k.size)).toNat < 2 ^ 31) :
    bump.Written D k used (span free (k.stub dst).length) (m, free) addr dst := by
  have hfresh := h.fresh hk
  have hlen := length_encode k addr free
  have henc : bytesAt (bump.write k (m, free) addr dst).1 addr k.size = k.encode addr free := by
    rw [← hlen]
    exact bytesAt_writeBytes (by rw [hlen]; cases k <;> decide)
  have hstub : bytesAt (bump.write k (m, free) addr dst).1 free (k.stub dst).length =
      k.stub dst := by
    have hsame : ∀ x ∈ span free (k.stub dst).length,
        (bump.write k (m, free) addr dst).1 x = writeBytes m free (k.stub dst) x := by
      intro x hx
      apply writeBytes_of_notMem
      rw [hlen]
      exact fun hx' => Set.disjoint_left.1 hfresh hx (hpatch hx')
    rw [bytesAt_congr hsame]
    exact bytesAt_writeBytes (by have := h.fits; omega)
  refine ⟨?_, hfresh, ?_⟩
  · generalize bump.write k (m, free) addr dst = s at henc hstub
    have h8 : (leBytes 8 dst.toNat).length = 8 := length_leBytes ..
    have h14 : ([0xFF, 0x25] ++ leBytes 4 0 ++ leBytes 8 dst.toNat).length = 14 := by simp
    cases k with
    | call5 | jmp5 =>
      simp only [Branch.stub, h14] at hstub ⊢
      exact ⟨free, reaches5 hnear henc, readsOnly_getDst5 Set.subset_union_left, runs_stub hstub⟩
    | call6 | jmp6 =>
      simp only [Branch.stub, h8] at hstub ⊢
      obtain ⟨hget, hreads⟩ := reaches6 hnear henc hstub
      exact ⟨dst, hget, hreads, .done dst⟩
  · intro x hx
    have hmem : (bump.write k (m, free) addr dst).1 x =
        writeBytes (writeBytes m free (k.stub dst)) addr (k.encode addr free) x := rfl
    rw [show bump.mem (bump.write k (m, free) addr dst) x = _ from hmem,
      writeBytes_of_notMem (by rw [hlen]; exact hx.2)]
    exact writeBytes_of_notMem fun hx' => Set.disjoint_left.1 hfresh hx' hx.1

end Room

/-- A process in which everything below `free` is in use and `bs` is at `addr`. -/
def process (addr free : UInt64) (bs : List UInt8) : Memory × UInt64 :=
  (writeBytes (fun _ => 0x90) addr bs, free)

theorem room_process {free : UInt64} {n : ℕ} (h : free.toNat + n < 2 ^ 64) :
    Room {x | x.toNat < free.toNat} free n := ⟨fun _ hx => hx, h⟩

/-- A jump from `0x1000` to `0x2000` is hooked twice. -/
theorem hookAll_chain_sample : ∃ os last,
    (bump.hookAll .jmp5 0x1000 (process 0x1000 0x10000 [0xE9, 0xFB, 0x0F, 0, 0])
      [0x3000, 0x4000]).1 = ((0x2000 :: os).take 2).map some ∧
    (0x2000 :: os).getLast? = some last ∧
    Branch.jmp5.getDst (bump.hookAll .jmp5 0x1000
      (process 0x1000 0x10000 [0xE9, 0xFB, 0x0F, 0, 0]) [0x3000, 0x4000]).2.1 0x1000 = some last ∧
    List.Forall₂ (LeadsTo [] (bump.hookAll .jmp5 0x1000
      (process 0x1000 0x10000 [0xE9, 0xFB, 0x0F, 0, 0]) [0x3000, 0x4000]).2.1)
      os [0x3000, 0x4000] := by
  have hroom : Room {x | x.toNat < (0x10000 : UInt64).toNat} 0x10000 28 :=
    room_process (by decide)
  have hpatch : span 0x1000 5 ⊆ {x : UInt64 | x.toNat < (0x10000 : UInt64).toNat} := by
    intro x hx
    exact Nat.lt_trans (of_mem_span (by decide) hx).2 (by decide)
  have hgo : bump.Redirects [] .jmp5 0x1000 {x | x.toNat < (0x10000 : UInt64).toNat}
      (process 0x1000 0x10000 [0xE9, 0xFB, 0x0F, 0, 0]) [0x3000, 0x4000] := by
    refine .cons (hroom.written (by decide) hpatch (by decide)) ?_
    refine .cons ((hroom.take (l := 14) (by decide)).written (by decide)
      (hpatch.trans Set.subset_union_left) (by decide)) ?_
    exact .nil _ _
  exact Trampolines.hookAll_chain (o := 0x2000) hgo (by decide) hpatch

end SseExt.Hook
