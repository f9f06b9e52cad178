import Mathlib.Data.Set.Lattice
import Mathlib.Order.CompletePartialOrder
import Mathlib.Tactic.Common
import SseExt.Lib.LittleEndian

/-!
# A memory of bytes

Addresses have 64 bits and wrap around. `bytesAt m a n` are the `n` bytes from `a` on, `span a n`
their addresses, and `writeBytes m a bs` is the memory after a copy of `bs` to `a`.

What is read depends on the span alone (`bytesAt_congr`); a copy is read back (`bytesAt_writeBytes`)
and leaves everything outside its span alone (`writeBytes_of_notMem`).
-/

namespace SseExt

abbrev Memory := UInt64 → UInt8

/-- The `n` bytes from `a` on. -/
def bytesAt (m : Memory) (a : UInt64) : ℕ → List UInt8
  | 0 => []
  | n + 1 => m a :: bytesAt m (a + 1) n

/-- The addresses of `n` bytes from `a` on. -/
def span (a : UInt64) (n : ℕ) : Set UInt64 := {x | (x - a).toNat < n}

/-- The bytes are copied to `a`. -/
def writeBytes (m : Memory) (a : UInt64) : List UInt8 → Memory
  | [] => m
  | b :: bs => Function.update (writeBytes m (a + 1) bs) a b

variable {m m' : Memory} {a x : UInt64} {n k : ℕ} {bs : List UInt8}

/-! ## Spans -/

theorem mem_span : x ∈ span a n ↔ (x - a).toNat < n := Iff.rfl

theorem self_mem_span (a : UInt64) (hn : 0 < n) : a ∈ span a n := by
  rw [mem_span, UInt64.sub_self]
  exact hn

theorem sub_add_one (x a : UInt64) : x - (a + 1) = x - a - 1 := by grind

/-- Seen from one address further on, every other byte is one nearer. -/
theorem toNat_sub_succ (h : x ≠ a) : (x - a).toNat = (x - (a + 1)).toNat + 1 := by
  have hne : (x - a).toNat ≠ 0 := by
    intro h0
    have h0' : x - a = 0 := UInt64.toNat_inj.1 h0
    apply h
    grind
  have hone : (1 : UInt64) ≤ x - a := by
    rw [UInt64.le_iff_toNat_le, UInt64.toNat_one]
    omega
  rw [sub_add_one, UInt64.toNat_sub_of_le _ _ hone, UInt64.toNat_one]
  omega

theorem mem_span_succ : x ∈ span a (n + 1) ↔ x = a ∨ x ∈ span (a + 1) n := by
  by_cases h : x = a
  · subst h
    exact ⟨fun _ => .inl rfl, fun _ => self_mem_span x (Nat.succ_pos n)⟩
  · rw [mem_span, mem_span, toNat_sub_succ h]
    simp [h]

theorem mem_span_of_le (h : x ∈ span a n) (hnk : n ≤ k) : x ∈ span a k :=
  Nat.lt_of_lt_of_le h hnk

theorem mem_span_add (h : x ∈ span (a + UInt64.ofNat k) n) : x ∈ span a (k + n) := by
  induction k generalizing a with
  | zero => simpa using h
  | succ k ih =>
    have ha : a + UInt64.ofNat (k + 1) = a + 1 + UInt64.ofNat k := by
      rw [UInt64.ofNat_add]
      grind
    rw [ha] at h
    rw [Nat.succ_add, mem_span_succ]
    exact .inr (ih h)

theorem toNat_add_ofNat (h : a.toNat + n < 2 ^ 64) : (a + UInt64.ofNat n).toNat = a.toNat + n := by
  have hsize : n < UInt64.size := by
    have hsize : UInt64.size = 2 ^ 64 := rfl
    omega
  rw [UInt64.toNat_add, UInt64.toNat_ofNat_of_lt' hsize, Nat.mod_eq_of_lt h]

/-- A span that does not wrap around. -/
theorem of_mem_span (h : a.toNat + n ≤ 2 ^ 64) (hx : x ∈ span a n) :
    a.toNat ≤ x.toNat ∧ x.toNat < a.toNat + n := by
  rw [mem_span, UInt64.toNat_sub] at hx
  have ha := a.toNat_lt
  have hx' := x.toNat_lt
  omega

theorem disjoint_span {F : Set UInt64} (h : a.toNat + n ≤ 2 ^ 64)
    (hF : ∀ x ∈ F, x.toNat < a.toNat) : Disjoint (span a n) F := by
  rw [Set.disjoint_left]
  intro x hx hxF
  have hlo := (of_mem_span h hx).1
  have hhi := hF x hxF
  omega

/-! ## Reading -/

@[simp] theorem length_bytesAt (m : Memory) (a : UInt64) (n : ℕ) : (bytesAt m a n).length = n := by
  induction n generalizing a with
  | zero => rfl
  | succ n ih => simp [bytesAt, ih]

theorem bytesAt_congr (h : ∀ x ∈ span a n, m' x = m x) : bytesAt m' a n = bytesAt m a n := by
  induction n generalizing a with
  | zero => rfl
  | succ n ih =>
    have hrest : bytesAt m' (a + 1) n = bytesAt m (a + 1) n := by
      apply ih
      intro x hx
      exact h x (mem_span_succ.2 (.inr hx))
    rw [bytesAt, bytesAt, h a (self_mem_span a (Nat.succ_pos n)), hrest]

theorem bytesAt_add (m : Memory) (a : UInt64) (n k : ℕ) :
    bytesAt m a (n + k) = bytesAt m a n ++ bytesAt m (a + UInt64.ofNat n) k := by
  induction n generalizing a with
  | zero => simp [bytesAt]
  | succ n ih =>
    have ha : a + UInt64.ofNat (n + 1) = a + 1 + UInt64.ofNat n := by
      rw [UInt64.ofNat_add]
      grind
    rw [Nat.succ_add, bytesAt, ih, bytesAt, ha, List.cons_append]

theorem head_of_bytesAt {b : UInt8} (h : bytesAt m a (b :: bs).length = b :: bs) : m a = b := by
  rw [List.length_cons, bytesAt] at h
  exact (List.cons.inj h).1

/-- **A block is read in pieces.** -/
theorem bytesAt_append {bs cs : List UInt8} :
    bytesAt m a (bs ++ cs).length = bs ++ cs ↔
      bytesAt m a bs.length = bs ∧ bytesAt m (a + UInt64.ofNat bs.length) cs.length = cs := by
  rw [List.length_append, bytesAt_add]
  constructor
  · intro h
    exact List.append_inj h (length_bytesAt ..)
  · intro ⟨hbs, hcs⟩
    rw [hbs, hcs]

/-! ## Writing -/

theorem writeBytes_of_notMem (h : x ∉ span a bs.length) : writeBytes m a bs x = m x := by
  induction bs generalizing a with
  | nil => rfl
  | cons b bs ih =>
    rw [List.length_cons, mem_span_succ, not_or] at h
    rw [writeBytes, Function.update_of_ne h.1]
    exact ih h.2

theorem notMem_span_succ (h : n < 2 ^ 64) : a ∉ span (a + 1) n := by
  intro hmem
  have hsub : a - (a + 1) = 0 - 1 := by grind
  rw [mem_span, hsub] at hmem
  have hmax : (0 - 1 : UInt64).toNat = 2 ^ 64 - 1 := rfl
  omega

theorem bytesAt_writeBytes (h : bs.length ≤ 2 ^ 64) :
    bytesAt (writeBytes m a bs) a bs.length = bs := by
  induction bs generalizing a with
  | nil => rfl
  | cons b bs ih =>
    rw [List.length_cons] at h
    have hfirst : a ∉ span (a + 1) bs.length := notMem_span_succ (by omega)
    have hrest : bytesAt (writeBytes m a (b :: bs)) (a + 1) bs.length =
        bytesAt (writeBytes m (a + 1) bs) (a + 1) bs.length := by
      apply bytesAt_congr
      intro x hx
      rw [writeBytes, Function.update_of_ne]
      intro e
      exact hfirst (e ▸ hx)
    rw [List.length_cons, bytesAt, hrest, ih (by omega), writeBytes, Function.update_self]

end SseExt
