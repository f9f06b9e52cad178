import Mathlib.Data.List.TakeWhile
import Mathlib.Data.Nat.Digits.Lemmas
import Mathlib.Tactic.Common

/-!
# Integers as text

What the conversions of the C library have in common: white space, a sign, perhaps a prefix, and as
many digits as there are. They differ in the prefix, so the part after the sign is a parameter of
`scanInt`.

A scanner answers the number and the rest of the text, or nothing if there is no number. What is
written without a prefix (`render`) is read again by the scanner of its base.
-/

namespace SseExt.Numeral

/-- `isspace` -/
def isSpace (c : UInt8) : Bool := c = 0x20 ∨ (0x09 ≤ c ∧ c ≤ 0x0D)

/-- The value of a digit; letters in either case go on after nine. -/
def digitVal (c : UInt8) : Option ℕ :=
  if 0x30 ≤ c ∧ c ≤ 0x39 then some (c.toNat - 0x30)
  else if 0x41 ≤ c ∧ c ≤ 0x5A then some (c.toNat - 0x41 + 10)
  else if 0x61 ≤ c ∧ c ≤ 0x7A then some (c.toNat - 0x61 + 10)
  else none

def isDigit (base : ℕ) (c : UInt8) : Bool := (digitVal c).any (· < base)

/-- The number that digits spell. -/
def natOf (base : ℕ) (digits : List UInt8) : ℕ :=
  digits.foldl (fun n c => base * n + (digitVal c).getD 0) 0

/-- The digits at the front of a text; there must be one. -/
def scanNat (base : ℕ) (s : List UInt8) : Option (ℕ × List UInt8) :=
  match s.takeWhile (isDigit base) with
  | [] => none
  | c :: cs => some (natOf base (c :: cs), s.dropWhile (isDigit base))

/-- An optional sign. -/
def takeSign : List UInt8 → Bool × List UInt8
  | 0x2D :: s => (true, s)
  | 0x2B :: s => (false, s)
  | s => (false, s)

def signed (neg : Bool) (m : ℕ) : ℤ := if neg then -m else m

/-- White space, a sign, and what `scan` reads. -/
def scanInt (scan : List UInt8 → Option (ℕ × List UInt8)) (s : List UInt8) :
    Option (ℤ × List UInt8) :=
  let r := takeSign (s.dropWhile isSpace)
  match scan r.2 with
  | none => none
  | some (m, rest) => some (signed r.1 m, rest)

def isX (c : UInt8) : Bool := c = 0x78 ∨ c = 0x58

/-- Base 0: a prefix says what the base is. `0x` is one only before a digit. -/
def scanAuto : List UInt8 → Option (ℕ × List UInt8)
  | 0x30 :: x :: c :: rest =>
    if isX x ∧ isDigit 16 c then scanNat 16 (c :: rest) else scanNat 8 (0x30 :: x :: c :: rest)
  | 0x30 :: rest => scanNat 8 (0x30 :: rest)
  | s => scanNat 10 s

/-- Hexadecimal with an optional prefix, which must not be all. -/
def scanHex : List UInt8 → Option (ℕ × List UInt8)
  | 0x30 :: x :: rest => if isX x then scanNat 16 rest else scanNat 16 (0x30 :: x :: rest)
  | s => scanNat 16 s

/-! ## Numerals -/

variable {base : ℕ} {ds rest s : List UInt8}

theorem scanNat_append (hne : ds ≠ []) (hds : ∀ c ∈ ds, isDigit base c)
    (hrest : ∀ c ∈ rest.head?, ¬ isDigit base c) :
    scanNat base (ds ++ rest) = some (natOf base ds, rest) := by
  have htake : rest.takeWhile (isDigit base) = [] := by
    cases rest with
    | nil => rfl
    | cons c cs => rw [List.takeWhile_cons, if_neg (hrest c rfl)]
  have hdrop : rest.dropWhile (isDigit base) = rest := by
    cases rest with
    | nil => rfl
    | cons c cs => rw [List.dropWhile_cons, if_neg (hrest c rfl)]
  rw [scanNat, List.takeWhile_append_of_pos hds, List.dropWhile_append_of_pos hds, htake, hdrop,
    List.append_nil]
  obtain ⟨c, cs, rfl⟩ := List.exists_cons_of_ne_nil hne
  rfl

theorem isDigit_iff {c : UInt8} : isDigit base c ↔ ∃ d < base, digitVal c = some d := by
  rw [isDigit]
  cases digitVal c <;> simp

/-- No digit comes before `0`, as white space and signs do. -/
theorem le_of_isDigit {c : UInt8} (h : isDigit base c) : 0x30 ≤ c := by
  obtain ⟨d, -, hval⟩ := isDigit_iff.1 h
  unfold digitVal at hval
  simp only [UInt8.le_iff_toNat_le] at hval ⊢
  split_ifs at hval with h₁ h₂ h₃
  · exact h₁.1
  · exact le_trans (by decide) h₂.1
  · exact le_trans (by decide) h₃.1

theorem scanNat_self (hne : ds ≠ []) (hds : ∀ c ∈ ds, isDigit base c) :
    scanNat base ds = some (natOf base ds, []) := by
  have hscan : scanNat base (ds ++ []) = some (natOf base ds, []) := scanNat_append hne hds nofun
  rwa [List.append_nil] at hscan

/-- A text begins with something that is neither white space nor a sign. -/
def Bare (s : List UInt8) : Prop := ∃ c cs, s = c :: cs ∧ 0x30 ≤ c

theorem bare_digits (hne : ds ≠ []) (hds : ∀ c ∈ ds, isDigit base c) : Bare ds := by
  obtain ⟨c, cs, rfl⟩ := List.exists_cons_of_ne_nil hne
  exact ⟨c, cs, rfl, le_of_isDigit (hds c (by simp))⟩

theorem Bare.dropWhile_isSpace (h : Bare s) : s.dropWhile isSpace = s := by
  obtain ⟨c, cs, rfl, hc⟩ := h
  have hspace : ¬ isSpace c := by
    simp only [isSpace, UInt8.le_iff_toNat_le, ← UInt8.toNat_inj, decide_eq_true_eq] at hc ⊢
    simp at hc ⊢
    omega
  rw [List.dropWhile_cons, if_neg hspace]

theorem Bare.takeSign_eq (h : Bare s) : takeSign s = (false, s) := by
  obtain ⟨c, cs, rfl, hc⟩ := h
  unfold takeSign
  split
  · rename_i heq
    cases heq
    exact absurd hc (by decide)
  · rename_i heq
    cases heq
    exact absurd hc (by decide)
  · rfl

/-- The sign of a numeral. -/
def signOf (neg : Bool) : List UInt8 := if neg then [0x2D] else []

theorem scanInt_signOf (scan : List UInt8 → Option (ℕ × List UInt8)) (neg : Bool) (hs : Bare s) :
    scanInt scan (signOf neg ++ s) = (scan s).map fun r => (signed neg r.1, r.2) := by
  have hsign : takeSign ((signOf neg ++ s).dropWhile isSpace) = (neg, s) := by
    cases neg with
    | false =>
      rw [signOf, if_neg Bool.false_ne_true, List.nil_append, hs.dropWhile_isSpace, hs.takeSign_eq]
    | true => rfl
  rw [scanInt, hsign]
  cases scan s <;> rfl

/-- A text is the decimal numeral of a number, without leading zeros, or a hexadecimal one after
`0x`. -/
inductive Spells : ℤ → List UInt8 → Prop
  | decimal (neg : Bool) (ds : List UInt8) (hne : ds ≠ []) (hds : ∀ c ∈ ds, isDigit 10 c)
      (hlead : ds.head? = some 0x30 → ds = [0x30]) :
      Spells (signed neg (natOf 10 ds)) (signOf neg ++ ds)
  | hex (neg : Bool) (x : UInt8) (hx : isX x) (ds : List UInt8) (hne : ds ≠ [])
      (hds : ∀ c ∈ ds, isDigit 16 c) :
      Spells (signed neg (natOf 16 ds)) (signOf neg ++ 0x30 :: x :: ds)

theorem scanAuto_decimal (hne : ds ≠ []) (hds : ∀ c ∈ ds, isDigit 10 c)
    (hlead : ds.head? = some 0x30 → ds = [0x30]) : scanAuto ds = some (natOf 10 ds, []) := by
  by_cases hzero : ds.head? = some 0x30
  · rw [hlead hzero]
    rfl
  · have hscan := scanNat_self hne hds
    unfold scanAuto
    split
    · exact absurd rfl hzero
    · exact absurd rfl hzero
    · exact hscan

theorem scanAuto_hex {x : UInt8} (hx : isX x) (hne : ds ≠ []) (hds : ∀ c ∈ ds, isDigit 16 c) :
    scanAuto (0x30 :: x :: ds) = some (natOf 16 ds, []) := by
  obtain ⟨c, cs, rfl⟩ := List.exists_cons_of_ne_nil hne
  rw [scanAuto, if_pos ⟨hx, hds c (by simp)⟩, scanNat_self hne hds]

/-- **Base 0 reads numerals.** -/
theorem Spells.scanInt_eq {n : ℤ} (h : Spells n s) : scanInt scanAuto s = some (n, []) := by
  cases h with
  | decimal neg ds hne hds hlead =>
    rw [scanInt_signOf _ _ (bare_digits hne hds), scanAuto_decimal hne hds hlead]
    rfl
  | hex neg x hx ds hne hds =>
    have hbare : Bare (0x30 :: x :: ds) := ⟨_, _, rfl, UInt8.le_refl _⟩
    rw [scanInt_signOf _ _ hbare, scanAuto_hex hx hne hds]
    rfl

/-- A numeral has no terminator in it, and at least one character. -/
theorem Spells.ne_nil {n : ℤ} (h : Spells n s) : s ≠ [] := by
  cases h with
  | decimal neg ds hne => simp [hne]
  | hex => simp

theorem Spells.ne_zero {n : ℤ} (h : Spells n s) {c : UInt8} (hc : c ∈ s) : c ≠ 0 := by
  have hdigit {base : ℕ} {d : UInt8} (hd : isDigit base d) : d ≠ 0 := by
    rintro rfl
    exact absurd (le_of_isDigit hd) (by decide)
  have hsign {neg : Bool} (hc : c ∈ signOf neg) : c ≠ 0 := by
    cases neg with
    | false => cases hc
    | true =>
      rw [List.mem_singleton.1 hc]
      decide
  cases h with
  | decimal neg ds hne hds =>
    rcases List.mem_append.1 hc with hc | hc
    · exact hsign hc
    · exact hdigit (hds c hc)
  | hex neg x hx ds hne hds =>
    rcases List.mem_append.1 hc with hc | hc
    · exact hsign hc
    · rcases List.mem_cons.1 hc with rfl | hc
      · decide
      · rcases List.mem_cons.1 hc with rfl | hc
        · rintro rfl
          exact absurd hx (by decide)
        · exact hdigit (hds c hc)

/-! ## Writing -/

/-- The character of a digit; letters are small. -/
def digitChar (d : ℕ) : UInt8 := if d < 10 then .ofNat (0x30 + d) else .ofNat (0x61 + (d - 10))

/-- The numeral of a number, without leading zeros. -/
def render (base n : ℕ) : List UInt8 :=
  if n = 0 then [0x30] else ((Nat.digits base n).map digitChar).reverse

theorem digitVal_digitChar {d : ℕ} (h : d < 36) : digitVal (digitChar d) = some d := by
  have hall : ∀ d < 36, digitVal (digitChar d) = some d := by decide
  exact hall d h

theorem natOf_reverse {l : List ℕ} (h : ∀ d ∈ l, d < 36) :
    natOf base (l.map digitChar).reverse = Nat.ofDigits base l := by
  induction l with
  | nil => rfl
  | cons d l ih =>
    have hl := ih fun d' hd' => h d' (List.mem_cons_of_mem d hd')
    rw [List.map_cons, List.reverse_cons, natOf, List.foldl_append, ← natOf, hl, Nat.ofDigits_cons,
      List.foldl_cons, List.foldl_nil, digitVal_digitChar (h d List.mem_cons_self), Nat.add_comm]
    rfl

theorem render_ne_nil (base n : ℕ) : render base n ≠ [] := by
  rw [render]
  split_ifs with hn
  · exact List.cons_ne_nil _ _
  · simp [Nat.digits_eq_nil_iff_eq_zero, hn]

/-- **A numeral is read as the number it was written for**, and nothing after it is read. -/
theorem scanNat_render {n : ℕ} (hbase : 1 < base) (hle : base ≤ 36)
    (hrest : ∀ c ∈ rest.head?, ¬ isDigit base c) :
    scanNat base (render base n ++ rest) = some (n, rest) := by
  have hlt : ∀ d ∈ Nat.digits base n, d < base := fun d hd => Nat.digits_lt_base hbase hd
  have hds : ∀ c ∈ render base n, isDigit base c := by
    rw [render]
    split_ifs with hn
    · intro c hc
      rw [List.mem_singleton.1 hc]
      exact isDigit_iff.2 ⟨0, Nat.zero_lt_of_lt hbase, rfl⟩
    · intro c hc
      rw [List.mem_reverse] at hc
      obtain ⟨d, hd, rfl⟩ := List.mem_map.1 hc
      exact isDigit_iff.2 ⟨d, hlt d hd, digitVal_digitChar ((hlt d hd).trans_le hle)⟩
  have hvalue : natOf base (render base n) = n := by
    rw [render]
    split_ifs with hn
    · rw [hn]
      rfl
    · rw [natOf_reverse fun d hd => (hlt d hd).trans_le hle, Nat.ofDigits_digits]
  rw [scanNat_append (render_ne_nil base n) hds hrest, hvalue]

end SseExt.Numeral
