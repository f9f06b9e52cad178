import Mathlib.Data.List.TakeWhile
import Mathlib.Tactic.Common

/-!
# Case folding and `stricmp`

The byte-level half of `Hash.h`. A `std::string` is its list of bytes and `c_str()` is that list
with a terminator after it. `stricmp` walks two such buffers; running off the end of one has no
answer (`none`), which `stricmp_cStr` rules out for every pair of strings.
-/

namespace SseExt

/-- The contents of a `std::string`. -/
abbrev Bytes := List UInt8

/-! ## Folding -/

/-- ASCII and Latin-1 upper-casing. `0xF7` (÷) and `0xFF` (ÿ) have no upper case in Latin-1. -/
def toupperAsciiL1s (c : UInt8) : UInt8 :=
  if (c > 0x60 ∧ c < 0x7B) ∨ (c > 0xDF ∧ c < 0xFF ∧ c ≠ 0xF7) then c - 0x20 else c

/-- `hash::toupper`, on the signed `char` of the target. -/
def toupper (c : Int8) : Int8 := (toupperAsciiL1s c.toUInt8).toInt8

@[simp] theorem toupperAsciiL1s_eq_zero {c : UInt8} : toupperAsciiL1s c = 0 ↔ c = 0 := by
  unfold toupperAsciiL1s
  split_ifs with h
  · constructor <;> intro h' <;> simp only [UInt8.lt_iff_toNat_lt, gt_iff_lt, ← UInt8.toNat_inj,
      UInt8.toNat_sub] at h h' ⊢ <;> simp at h h' ⊢ <;> omega
  · rfl

@[simp] theorem toupperAsciiL1s_zero : toupperAsciiL1s 0 = 0 := rfl

/-- The bytes of a string after folding. -/
def foldStr (s : Bytes) : Bytes := s.map toupperAsciiL1s

@[simp] theorem foldStr_nil : foldStr [] = [] := rfl

@[simp] theorem foldStr_cons (c : UInt8) (s : Bytes) :
    foldStr (c :: s) = toupperAsciiL1s c :: foldStr s := rfl

@[simp] theorem length_foldStr (s : Bytes) : (foldStr s).length = s.length := List.length_map _

theorem length_eq_of_foldStr {s t : Bytes} (h : foldStr s = foldStr t) : s.length = t.length := by
  rw [← length_foldStr s, h, length_foldStr]

/-! ## C strings -/

/-- `std::string::c_str()`: the bytes and their terminator. -/
def cStr (s : Bytes) : Bytes := s ++ [0]

/-- What a reader of `c_str()` sees: the bytes before the first terminator. -/
def cPart (s : Bytes) : Bytes := s.takeWhile (· ≠ 0)

/-- No NUL byte inside the string. -/
def NulFree (s : Bytes) : Prop := ∀ c ∈ s, c ≠ 0

instance (s : Bytes) : Decidable (NulFree s) := List.decidableBAll (· ≠ 0) s

/-- A text that a `const char*` can point to. -/
structure CText where
  text : Bytes
  nulFree : NulFree text

theorem NulFree.cPart_eq {s : Bytes} (h : NulFree s) : cPart s = s :=
  List.takeWhile_eq_self_iff.2 fun c hc => by simpa using h c hc

theorem nulFree_cPart (s : Bytes) : NulFree (cPart s) := by
  intro c hc
  simpa using List.mem_takeWhile_imp hc

theorem NulFree.of_foldStr {s t : Bytes} (h : NulFree s) (hst : foldStr t = foldStr s) :
    NulFree t := by
  intro c hc
  have hc' : toupperAsciiL1s c ∈ foldStr s := hst ▸ List.mem_map_of_mem hc
  obtain ⟨d, hd, hdc⟩ := List.mem_map.1 hc'
  intro h0
  subst h0
  exact h d hd (toupperAsciiL1s_eq_zero.1 (hdc.trans (toupperAsciiL1s_eq_zero.2 rfl)))

/-! ## `stricmp` -/

/-- The loop of `stricmp` over two buffers. `cl - cr` is the difference of the promoted bytes. -/
def stricmp : Bytes → Bytes → Option Int
  | l :: ls, r :: rs =>
    let cl := toupperAsciiL1s l
    let cr := toupperAsciiL1s r
    if cl ≠ cr then some ((cl.toNat : Int) - cr.toNat)
    else if cl = 0 then some 0
    else stricmp ls rs
  | _, _ => none

theorem stricmp_swap (a b : Bytes) : stricmp b a = (stricmp a b).map (- ·) := by
  induction a generalizing b with
  | nil => cases b <;> rfl
  | cons l ls ih =>
    cases b with
    | nil => rfl
    | cons r rs =>
      simp only [stricmp]
      by_cases h : toupperAsciiL1s l = toupperAsciiL1s r
      · simp only [h, ne_eq, not_true_eq_false, if_false]
        split_ifs
        · rfl
        · exact ih rs
      · simp only [ne_eq, h, Ne.symm h, not_false_eq_true, if_true, Option.map_some,
          Option.some.injEq]
        omega

/-- The difference of the first bytes where two texts part, the shorter text reading zero. -/
def firstDiff : Bytes → Bytes → Int
  | [], [] => 0
  | c :: _, [] => c.toNat
  | [], d :: _ => -d.toNat
  | c :: cs, d :: ds => if c = d then firstDiff cs ds else (c.toNat : Int) - d.toNat

theorem firstDiff_eq_zero {a b : Bytes} (ha : NulFree a) (hb : NulFree b) :
    firstDiff a b = 0 ↔ a = b := by
  induction a generalizing b with
  | nil =>
    cases b with
    | nil => simp [firstDiff]
    | cons d ds =>
      have hd : d.toNat ≠ 0 := fun h => hb d (by simp) (UInt8.toNat_inj.1 h)
      simp [firstDiff, hd]
  | cons c cs ih =>
    cases b with
    | nil =>
      have hc : c.toNat ≠ 0 := fun h => ha c (by simp) (UInt8.toNat_inj.1 h)
      simp [firstDiff, hc]
    | cons d ds =>
      simp only [firstDiff]
      split_ifs with h
      · subst h
        rw [ih (fun x hx => ha x (by simp [hx])) (fun x hx => hb x (by simp [hx]))]
        simp
      · have hn : c.toNat ≠ d.toNat := fun e => h (UInt8.toNat_inj.1 e)
        simp only [List.cons.injEq, h, false_and, iff_false]
        omega

theorem nulFree_foldStr {s : Bytes} (h : NulFree s) : NulFree (foldStr s) := by
  intro c hc
  obtain ⟨d, hd, rfl⟩ := List.mem_map.1 hc
  simpa using h d hd

theorem cPart_cons (c : UInt8) (s : Bytes) :
    cPart (c :: s) = if c = 0 then [] else c :: cPart s := by
  by_cases hc : c = 0 <;> simp [cPart, hc]

/-- **What `stricmp` computes**, and how far it reads: no byte after the first terminator. -/
theorem stricmp_take {a b : Bytes} (ha : 0 ∈ a) (hb : 0 ∈ b) {n : ℕ}
    (hn : min (cPart a).length (cPart b).length < n) :
    stricmp (a.take n) (b.take n) = some (firstDiff (foldStr (cPart a)) (foldStr (cPart b))) := by
  induction a generalizing b n with
  | nil => cases ha
  | cons l ls ih =>
    obtain ⟨n, rfl⟩ := Nat.exists_eq_succ_of_ne_zero (Nat.ne_zero_of_lt hn)
    cases b with
    | nil => cases hb
    | cons r rs =>
      rw [cPart_cons, cPart_cons] at hn ⊢
      by_cases h : toupperAsciiL1s l = toupperAsciiL1s r
      · -- The folded bytes agree, so both are the terminator or neither is.
        have hzero : l = 0 ↔ r = 0 := by
          rw [← toupperAsciiL1s_eq_zero, h, toupperAsciiL1s_eq_zero]
        by_cases hl : l = 0
        · have hr := hzero.1 hl
          subst hl hr
          rfl
        · have hr : r ≠ 0 := fun hr => hl (hzero.2 hr)
          rw [if_neg hl, if_neg hr, List.length_cons, List.length_cons] at hn
          have hrest := ih (List.mem_of_ne_of_mem (Ne.symm hl) ha)
            (List.mem_of_ne_of_mem (Ne.symm hr) hb) (n := n) (by omega)
          simp [stricmp, hl, hr, h, firstDiff, hrest]
      · -- The first bytes differ after folding, so at most one of them is the terminator.
        by_cases hl : l = 0 <;> by_cases hr : r = 0
        · exact absurd (by rw [hl, hr]) h
        · subst hl
          have hf : (0 : UInt8) ≠ toupperAsciiL1s r := by simpa using h
          simp [stricmp, hr, hf, firstDiff]
        · subst hr
          simp [stricmp, hl, firstDiff]
        · simp [stricmp, hl, hr, h, firstDiff]

theorem stricmp_eq {a b : Bytes} (ha : 0 ∈ a) (hb : 0 ∈ b) :
    stricmp a b = some (firstDiff (foldStr (cPart a)) (foldStr (cPart b))) := by
  have hpart : (cPart a).length ≤ a.length := (List.takeWhile_prefix _).length_le
  have htake := stricmp_take ha hb (n := a.length + b.length + 1) (by omega)
  rwa [List.take_of_length_le (by omega), List.take_of_length_le (by omega)] at htake

theorem cPart_cStr (s : Bytes) : cPart (cStr s) = cPart s := by
  induction s with
  | nil => rfl
  | cons c s ih =>
    change cPart (c :: cStr s) = cPart (c :: s)
    rw [cPart_cons, cPart_cons, ih]

theorem zero_mem_cStr (s : Bytes) : 0 ∈ cStr s :=
  List.mem_append_right s (List.mem_singleton_self 0)

/-- C strings are terminated, and only the bytes before the first terminators matter. -/
theorem stricmp_cStr (s t : Bytes) :
    stricmp (cStr s) (cStr t) = some (firstDiff (foldStr (cPart s)) (foldStr (cPart t))) := by
  rw [stricmp_eq (zero_mem_cStr s) (zero_mem_cStr t), cPart_cStr, cPart_cStr]

/-- `stricmp` answers zero exactly when the C strings agree after folding. -/
theorem stricmp_cStr_eq_zero (s t : Bytes) :
    stricmp (cStr s) (cStr t) = some 0 ↔ foldStr (cPart s) = foldStr (cPart t) := by
  rw [stricmp_cStr, Option.some.injEq,
    firstDiff_eq_zero (nulFree_foldStr (nulFree_cPart s)) (nulFree_foldStr (nulFree_cPart t))]

/-- Strings of one length, one of them NUL-free, agree as C strings only when they agree. -/
theorem foldStr_eq_of_cPart {s t : Bytes} (hs : NulFree s) (hlen : s.length = t.length)
    (hfold : foldStr (cPart s) = foldStr (cPart t)) : foldStr s = foldStr t := by
  rw [hs.cPart_eq] at hfold
  -- The part of `t` before its first NUL is as long as `s`, hence all of `t`.
  have hpre : cPart t <+: t := List.takeWhile_prefix _
  have hall : cPart t = t := hpre.eq_of_length (by rw [← length_eq_of_foldStr hfold, hlen])
  rwa [hall] at hfold

end SseExt
