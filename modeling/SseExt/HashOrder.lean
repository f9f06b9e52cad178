import Mathlib.Data.List.Lex
import SseExt.HashContract
import SseExt.Lib.KeyOrder

/-!
# The case-insensitive order

`imap` and `iset` order their keys with `icase_comp`, which asks `stricmp`. The fold moves letters
below other bytes, so the order is not that of the bytes.

**Theorem (`stricmp_order`).** `stricmp` ends at the first terminator of either string, and its sign
is how the folded bytes compare, first byte first. So `icase_comp` is a strict weak ordering of
strings and of pairs, and where no string has a NUL byte inside, its equivalence is `iequal_to`.
-/

namespace SseExt

/-- `icase_comp` -/
def icaseComp (a b : Bytes) : Bool :=
  match stricmp (cStr a) (cStr b) with
  | some d => d < 0
  | none => false

/-- `<` on the integers of the pairs, which are signed or not. -/
def intBefore {size : ℕ} (signed : Bool) (x y : BitVec (8 * size)) : Bool :=
  if signed then x.slt y else x.ult y

/-- `icase_comp` on pairs. -/
def icaseCompPair {size : ℕ} (signed : Bool) (p q : IntText size) : Bool :=
  if p.1 = q.1 then icaseComp p.2 q.2 else intBefore signed p.1 q.1

/-- The integer of a bit pattern. -/
def intValue {size : ℕ} (signed : Bool) (x : BitVec (8 * size)) : ℤ :=
  if signed then x.toInt else x.toNat

/-! ## The sign of `stricmp` -/

/-- What orders the strings. -/
def foldKey (s : Bytes) : List ℕ := (foldStr (cPart s)).map UInt8.toNat

theorem foldKey_inj {a b : Bytes} :
    foldKey a = foldKey b ↔ foldStr (cPart a) = foldStr (cPart b) :=
  (List.map_injective_iff.2 fun _ _ => UInt8.toNat_inj.1).eq_iff

theorem nulFree_foldStr_cPart (s : Bytes) : NulFree (foldStr (cPart s)) :=
  nulFree_foldStr (nulFree_cPart s)

theorem firstDiff_swap (a b : Bytes) : firstDiff b a = -firstDiff a b := by
  induction a generalizing b with
  | nil => cases b <;> simp [firstDiff]
  | cons c cs ih =>
    cases b with
    | nil => simp [firstDiff]
    | cons d ds =>
      rw [firstDiff, firstDiff]
      by_cases h : c = d
      · rw [if_pos h, if_pos h.symm, ih]
      · rw [if_neg h, if_neg (Ne.symm h)]
        omega

/-- A text that ends comes before one that goes on, since that one goes on with no zero. -/
theorem firstDiff_neg {a b : Bytes} (hb : NulFree b) :
    firstDiff a b < 0 ↔ a.map UInt8.toNat < b.map UInt8.toNat := by
  induction a generalizing b with
  | nil =>
    cases b with
    | nil => simp [firstDiff]
    | cons d ds =>
      have hd : d.toNat ≠ 0 := fun h => hb d List.mem_cons_self (UInt8.toNat_inj.1 h)
      simp only [firstDiff, List.map_nil, List.map_cons, List.nil_lt_cons, iff_true]
      omega
  | cons c cs ih =>
    cases b with
    | nil => simp [firstDiff]
    | cons d ds =>
      rw [firstDiff, List.map_cons, List.map_cons, List.cons_lt_cons_iff]
      by_cases h : c = d
      · rw [if_pos h, ih fun x hx => hb x (List.mem_cons_of_mem _ hx)]
        simp [h]
      · have hne : c.toNat ≠ d.toNat := fun heq => h (UInt8.toNat_inj.1 heq)
        rw [if_neg h]
        simp only [hne, false_and, or_false]
        omega

/-- The sign of `d` is how the strings compare. -/
structure Compares (a b : Bytes) (d : ℤ) : Prop where
  before : d < 0 ↔ foldKey a < foldKey b
  same : d = 0 ↔ foldKey a = foldKey b
  after : 0 < d ↔ foldKey b < foldKey a

theorem compares_firstDiff (a b : Bytes) :
    Compares a b (firstDiff (foldStr (cPart a)) (foldStr (cPart b))) where
  before := firstDiff_neg (nulFree_foldStr_cPart b)
  same := by
    rw [foldKey_inj]
    exact firstDiff_eq_zero (nulFree_foldStr_cPart a) (nulFree_foldStr_cPart b)
  after := by
    rw [foldKey, foldKey, ← firstDiff_neg (nulFree_foldStr_cPart a), firstDiff_swap]
    omega

theorem Compares.trans {a b c : Bytes} {d e f : ℤ} (hab : Compares a b d) (hbc : Compares b c e)
    (hac : Compares a c f) (hd : d ≤ 0) (he : e ≤ 0) : f ≤ 0 ∧ (f = 0 ↔ d = 0 ∧ e = 0) := by
  have hle : foldKey a ≤ foldKey b := not_lt.1 fun h => by
    have hpos := hab.after.2 h
    omega
  have hle' : foldKey b ≤ foldKey c := not_lt.1 fun h => by
    have hpos := hbc.after.2 h
    omega
  refine ⟨not_lt.1 fun h => (hle.trans hle').not_gt (hac.after.1 h), ?_⟩
  rw [hac.same, hab.same, hbc.same]
  constructor
  · intro heq
    exact ⟨hle.antisymm (heq ▸ hle'), hle'.antisymm (heq ▸ hle)⟩
  · rintro ⟨h, h'⟩
    exact h.trans h'

/-! ## `icase_comp` -/

theorem icaseComp_orderedBy : OrderedBy icaseComp foldKey := by
  intro a b
  rw [icaseComp, stricmp_cStr]
  exact decide_eq_true_iff.trans (compares_firstDiff a b).before

theorem intValue_injective {size : ℕ} (signed : Bool) :
    Function.Injective (@intValue size signed) := by
  intro x y h
  cases signed with
  | false => exact BitVec.toNat_inj.1 (Int.ofNat.inj h)
  | true => exact BitVec.toInt_inj.1 h

theorem intBefore_orderedBy {size : ℕ} (signed : Bool) :
    OrderedBy (@intBefore size signed) (intValue signed) := by
  intro x y
  cases signed with
  | false => simp [intBefore, intValue, BitVec.ult_iff_lt, BitVec.lt_def]
  | true => simp [intBefore, intValue, BitVec.slt_iff_toInt_lt]

theorem icaseCompPair_orderedBy {size : ℕ} (signed : Bool) :
    OrderedBy (@icaseCompPair size signed)
      (fun p => toLex (intValue signed p.1, foldKey p.2)) :=
  .pair (intValue_injective signed) (intBefore_orderedBy signed) icaseComp_orderedBy

theorem foldKey_eq_iff {a b : Bytes} (ha : NulFree a) (hb : NulFree b) :
    foldKey a = foldKey b ↔ iequalTo a b := by
  rw [ha.iequalTo_iff_foldStr, foldKey_inj, ha.cPart_eq, hb.cPart_eq]

theorem pairKey_eq_iff {size : ℕ} (signed : Bool) {p q : IntText size} (hp : NulFree p.2)
    (hq : NulFree q.2) :
    toLex (intValue signed p.1, foldKey p.2) = toLex (intValue signed q.1, foldKey q.2) ↔
      iequalToPair p q := by
  rw [toLex_inj, Prod.mk.injEq, (intValue_injective signed).eq_iff, foldKey_eq_iff hp hq,
    iequalToPair_iff]

/-- **`stricmp` is a total order of the folded strings**, and so is `icase_comp`. -/
theorem stricmp_order :
    (∀ a b : Bytes, 0 ∈ a → 0 ∈ b → ∃ d, stricmp a b = some d ∧ stricmp b a = some (-d) ∧
      -- The bytes after the first terminator are not read.
      (∀ n, min (cPart a).length (cPart b).length < n →
        stricmp (a.take n) (b.take n) = some d) ∧ Compares a b d) ∧
    (∀ (a b c : Bytes) (d e f : ℤ), 0 ∈ a → 0 ∈ b → 0 ∈ c → stricmp a b = some d →
      stricmp b c = some e → stricmp a c = some f → d ≤ 0 → e ≤ 0 →
        f ≤ 0 ∧ (f = 0 ↔ d = 0 ∧ e = 0)) ∧
    IsStrictWeakOrder Bytes (fun a b => icaseComp a b = true) ∧
    (∀ a b, NulFree a → NulFree b → (¬ icaseComp a b ∧ ¬ icaseComp b a ↔ iequalTo a b)) ∧
    ∀ (size : ℕ) (signed : Bool),
      IsStrictWeakOrder (IntText size) (fun p q => icaseCompPair signed p q = true) ∧
      ∀ p q : IntText size, NulFree p.2 → NulFree q.2 →
        (¬ icaseCompPair signed p q ∧ ¬ icaseCompPair signed q p ↔ iequalToPair p q) := by
  refine ⟨fun a b ha hb => ?_, fun a b c d e f ha hb hc hd he hf => ?_,
    icaseComp_orderedBy.isStrictWeakOrder, fun a b ha hb => ?_, fun size signed => ⟨?_, ?_⟩⟩
  · refine ⟨_, stricmp_eq ha hb, ?_, fun n hn => stricmp_take ha hb hn, compares_firstDiff a b⟩
    rw [stricmp_swap, stricmp_eq ha hb, Option.map_some]
  · rw [stricmp_eq ha hb, Option.some.injEq] at hd
    rw [stricmp_eq hb hc, Option.some.injEq] at he
    rw [stricmp_eq ha hc, Option.some.injEq] at hf
    subst hd he hf
    exact (compares_firstDiff a b).trans (compares_firstDiff b c) (compares_firstDiff a c)
  · rw [icaseComp_orderedBy.equivalent_iff, foldKey_eq_iff ha hb]
  · exact (icaseCompPair_orderedBy signed).isStrictWeakOrder
  · intro p q hp hq
    rw [(icaseCompPair_orderedBy signed).equivalent_iff, pairKey_eq_iff signed hp hq]

/-- `"Zed"`, of which the terminator is followed by another byte, and `"zebra"`. -/
theorem stricmp_order_sample :
    stricmp ([0x5A, 0x65, 0x64, 0, 0x21].take 4) ([0x7A, 0x65, 0x62, 0x72, 0x61, 0].take 4) =
      stricmp [0x5A, 0x65, 0x64, 0, 0x21] [0x7A, 0x65, 0x62, 0x72, 0x61, 0] := by
  obtain ⟨d, hd, -, htake, -⟩ := stricmp_order.1 [0x5A, 0x65, 0x64, 0, 0x21]
    [0x7A, 0x65, 0x62, 0x72, 0x61, 0] (by decide) (by decide)
  rw [htake 4 (by decide), hd]

end SseExt
