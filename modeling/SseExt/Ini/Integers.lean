import SseExt.Ini.Values
import SseExt.Lib.Numeral

/-!
# `INIReader`: integers

`Get` reads an integer from the text found for a section and a name. `strtoll` answers 64 bits, but
the variable that takes them is a `long`, which has 32.

**Theorem (`getInt_eq_iff`).** Where the text is the numeral of a number of 64 bits, `Get` returns
the number if and only if it has 32. So does `Get<T>` if `T` has 64 bits; smaller types lose nothing
to the `long`.
-/

namespace SseExt.INIReader

open Numeral

/-- `strtoll` with base 0: the number, clamped to its type, and the rest of the text. -/
def strtoll (s : Bytes) : Int64 × Bytes :=
  match scanInt scanAuto s with
  | none => (0, s)
  | some (n, rest) => (Int64.ofIntClamp n, rest)

/-- `ParseValue` for integers. -/
def parseInt (input : Option Bytes) (default_value : Int64) : Int64 :=
  match input with
  | none => default_value
  | some text =>
    let value := cPart text
    let r := strtoll value
    let n : Int32 := r.1.toInt32
    if r.2.length < value.length then n.toInt64 else default_value

variable (bucket : ℕ → UInt64 → ℕ)

/-- `Get` for integers. -/
def getInt (r : INIReader) (sec name : Bytes) (default_value : Int64) : Int64 :=
  parseInt (r.get bucket sec name) default_value

/-- An integer type, or an enumeration over one. -/
structure IntType where
  isSigned : Bool
  bits : ℕ
  bits_mem : bits ∈ [8, 16, 32, 64]

namespace IntType

/-- `static_cast<T>` -/
def cast (T : IntType) (x : ℤ) : ℤ := if T.isSigned then x.bmod (2 ^ T.bits) else x % 2 ^ T.bits

/-- The number is a value of the type. -/
def Holds (T : IntType) (x : ℤ) : Prop :=
  if T.isSigned then -2 ^ (T.bits - 1) ≤ x ∧ x < 2 ^ (T.bits - 1) else 0 ≤ x ∧ x < 2 ^ T.bits

instance (T : IntType) (x : ℤ) : Decidable (T.Holds x) := by
  unfold Holds
  infer_instance

end IntType

/-- `Get<T>`, which returns 64 bits whatever `T` is. -/
def getAs (T : IntType) (r : INIReader) (sec name : Bytes) (default_value : Int64) : Int64 :=
  Int64.ofInt (T.cast (r.getInt bucket sec name default_value).toInt)

/-- A number of 32 bits. -/
def FitsLong (n : Int64) : Prop := -2 ^ 31 ≤ n.toInt ∧ n.toInt < 2 ^ 31

/-! ## The `long` -/

variable {bucket} {r : INIReader} {sec name text : Bytes} {n : Int64}

/-- **A numeral comes through `strtoll`.** -/
theorem strtoll_of_spells (hn : Spells n.toInt text) : strtoll text = (n, []) := by
  rw [strtoll, hn.scanInt_eq]
  simp only [Int64.ofIntClamp_toInt]

theorem parseInt_of_spells (hn : Spells n.toInt text) (default_value : Int64) :
    parseInt (some text) default_value = n.toInt32.toInt64 := by
  have hc : cPart text = text := NulFree.cPart_eq fun c hc => hn.ne_zero hc
  have hlen : ([] : Bytes).length < text.length := List.length_pos_of_ne_nil hn.ne_nil
  unfold parseInt
  dsimp only
  rw [hc, strtoll_of_spells hn, if_pos hlen]

/-- What is left of a number in the `long`. -/
theorem toInt_long (n : Int64) : n.toInt32.toInt64.toInt = n.toInt.bmod (2 ^ 32) := by
  rw [Int32.toInt_toInt64, Int64.toInt_toInt32]

theorem long_eq_iff (n : Int64) : n.toInt32.toInt64 = n ↔ FitsLong n := by
  rw [← Int64.toInt_inj, toInt_long, FitsLong, Int.bmod_eq_iff (by decide)]
  constructor
  · intro ⟨hlo, hhi, _⟩
    omega
  · intro ⟨hlo, hhi⟩
    refine ⟨by omega, by omega, ?_⟩
    rw [sub_self]
    exact dvd_zero _

namespace IntType

variable {T : IntType}

/-- A cast keeps the values of the type, also when they come with other bits above. -/
theorem cast_of_holds {x y : ℤ} (hx : T.Holds x) (hy : (2 ^ T.bits : ℤ) ∣ y - x) :
    T.cast y = x := by
  unfold Holds at hx
  unfold cast
  have hpow : (2 : ℤ) ^ T.bits = 2 * 2 ^ (T.bits - 1) := by
    have hpos : T.bits - 1 + 1 = T.bits := by
      have hmem := T.bits_mem
      simp only [List.mem_cons, List.not_mem_nil, or_false] at hmem
      omega
    rw [← pow_succ', hpos]
  split_ifs at hx ⊢ with hsigned
  · rw [Int.bmod_eq_iff (by positivity)]
    push_cast
    exact ⟨by omega, by omega, by rwa [← dvd_neg, neg_sub]⟩
  · rw [← Int.emod_eq_of_lt hx.1 hx.2]
    exact Int.emod_eq_emod_iff_emod_sub_eq_zero.2 (Int.emod_eq_zero_of_dvd hy)

/-- A cast keeps the bits of the type. -/
theorem dvd_cast_sub (T : IntType) (x : ℤ) : (2 ^ T.bits : ℤ) ∣ T.cast x - x := by
  unfold cast
  split_ifs
  · have hdvd := Int.dvd_bmod_sub_self (x := x) (m := 2 ^ T.bits)
    push_cast at hdvd
    exact hdvd
  · exact Int.dvd_emod_sub_self

/-- There and back is nothing for a type of 64 bits. -/
theorem ofInt_cast (h : T.bits = 64) (x : Int64) : Int64.ofInt (T.cast x.toInt) = x := by
  have hdvd := T.dvd_cast_sub x.toInt
  rw [h] at hdvd
  rw [← Int64.toInt_inj, Int64.toInt_ofInt, Int.bmod_eq_iff (by decide)]
  refine ⟨?_, ?_, ?_⟩
  · exact x.minValue_le_toInt
  · exact Int.lt_of_le_of_lt x.toInt_le (by decide)
  · rw [← dvd_neg, neg_sub]
    exact hdvd

end IntType

/-! ## `Get` -/

theorem getInt_of_spells (h : r.get bucket sec name = some text) (hn : Spells n.toInt text)
    (default_value : Int64) : r.getInt bucket sec name default_value = n.toInt32.toInt64 := by
  rw [getInt, h, parseInt_of_spells hn]

/-- **A type of at most 32 bits** takes its values from the bits that the `long` keeps. -/
theorem getAs_of_le {T : IntType} (h : r.get bucket sec name = some text)
    (hn : Spells n.toInt text) (hT : T.Holds n.toInt) (hbits : T.bits ≤ 32)
    (default_value : Int64) : getAs bucket T r sec name default_value = n := by
  have hdvd : (2 ^ T.bits : ℤ) ∣ n.toInt32.toInt64.toInt - n.toInt := by
    have hlong := Int.dvd_bmod_sub_self (x := n.toInt) (m := 2 ^ 32)
    rw [← toInt_long] at hlong
    push_cast at hlong
    exact dvd_trans (pow_dvd_pow 2 hbits) hlong
  rw [getAs, getInt_of_spells h hn, IntType.cast_of_holds hT hdvd, Int64.ofInt_toInt]

theorem getAs_eq_iff {T : IntType} (h : r.get bucket sec name = some text)
    (hn : Spells n.toInt text) (hT : T.Holds n.toInt) (default_value : Int64) :
    getAs bucket T r sec name default_value = n ↔ T.bits ≤ 32 ∨ FitsLong n := by
  by_cases hbits : T.bits ≤ 32
  · simp only [getAs_of_le h hn hT hbits default_value, hbits, true_or]
  · have h64 : T.bits = 64 := by
      have hmem := T.bits_mem
      simp only [List.mem_cons, List.not_mem_nil, or_false] at hmem
      omega
    rw [getAs, IntType.ofInt_cast h64, getInt_of_spells h hn, long_eq_iff]
    simp only [hbits, false_or]

/-- **Integers of 32 bits.** -/
theorem getInt_eq_iff (h : r.get bucket sec name = some text) (hn : Spells n.toInt text)
    (default_value : Int64) :
    (r.getInt bucket sec name default_value = n ∧
        (∀ T : IntType, T.Holds n.toInt → getAs bucket T r sec name default_value = n) ↔
      FitsLong n) ∧
    ∀ T : IntType, T.Holds n.toInt →
      (getAs bucket T r sec name default_value = n ↔ T.bits ≤ 32 ∨ FitsLong n) := by
  refine ⟨?_, fun T hT => getAs_eq_iff h hn hT default_value⟩
  rw [getInt_of_spells h hn, long_eq_iff]
  constructor
  · exact fun h => h.1
  · exact fun hfits =>
      ⟨hfits, fun T hT => (getAs_eq_iff h hn hT default_value).2 (.inr hfits)⟩

/-- One value, entered by the handler under `s` and `k`. -/
def single (text : CText) : INIReader :=
  calls (fun _ _ => 0) (fun n _ => n)
    [.valueHandler ⟨[0x73], by decide⟩ ⟨[0x6B], by decide⟩ text]

/-- `4294967296`. -/
def wideText : CText :=
  ⟨[0x34, 0x32, 0x39, 0x34, 0x39, 0x36, 0x37, 0x32, 0x39, 0x36], by decide⟩

/-- `-0x80000000`. -/
def lowText : CText :=
  ⟨[0x2D, 0x30, 0x78, 0x38, 0x30, 0x30, 0x30, 0x30, 0x30, 0x30, 0x30], by decide⟩

theorem spells_wideText : Spells 4294967296 wideText.text := by
  have hn : signed false (natOf 10 wideText.text) = 4294967296 := by decide
  rw [← hn]
  exact .decimal false wideText.text nofun (List.all_eq_true.1 (by decide)) (by decide)

theorem spells_lowText : Spells (-2147483648) lowText.text := by
  have hn : signed true (natOf 16 [0x38, 0x30, 0x30, 0x30, 0x30, 0x30, 0x30, 0x30]) =
      -2147483648 := by decide
  rw [← hn]
  exact .hex true 0x78 rfl _ nofun (List.all_eq_true.1 (by decide))

theorem get_single (text : CText) :
    (single text).get (fun _ _ => 0) [0x73] [0x6B] = some text.text := rfl

theorem getInt_eq_iff_sample :
    ((single lowText).getInt (fun _ _ => 0) [0x73] [0x6B] 5 = -2147483648 ∧
      ∀ T : IntType, T.Holds (-2147483648) →
        getAs (fun _ _ => 0) T (single lowText) [0x73] [0x6B] 5 = -2147483648) :=
  (getInt_eq_iff (n := -2147483648) (get_single lowText) spells_lowText 5).1.2 (by
    unfold FitsLong
    decide)

/-- The upper half of a number is lost. -/
theorem wide_truncated :
    (single wideText).get (fun _ _ => 0) [0x73] [0x6B] = some wideText.text ∧
    Spells (4294967296 : Int64).toInt wideText.text ∧
    (single wideText).getInt (fun _ _ => 0) [0x73] [0x6B] 5 = 0 ∧
    (single wideText).getInt (fun _ _ => 0) [0x73] [0x6B] 5 ≠ 4294967296 ∧
    getAs (fun _ _ => 0) ⟨true, 64, by decide⟩ (single wideText) [0x73] [0x6B] 5 = 0 := by
  refine ⟨rfl, spells_wideText, by decide, by decide, by decide⟩

end SseExt.INIReader
